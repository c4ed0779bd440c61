import Cclab.HashtableRefines
import Mathlib.Data.List.TakeWhile

/-! `hashitem_fill`: the key is copied as a C string, and its length is kept in an `int`. -/
namespace Cclab.Hashtable
open ByteMemory IntrusiveLists NodeHeap

/-- `(int) n` -/
def intOf (n : ℕ) : ℤ := (n : ℤ).bmod (2^32)

/-- What `%s` prints: the bytes in front of the first 0. -/
def cString (key : List UInt8) : List UInt8 := key.takeWhile (· ≠ 0)

/-- `key` are the `nkey` bytes behind the pointer, and a 0 byte follows them. A negative
`key_offset` leads in front of the memory of the key. -/
def hashitemFill (hi : HashItem) (offset : ℕ) (key : List UInt8) : Option HashItem :=
  if intOf offset < 0 then none
  else
    let keyOffset := (intOf offset).toNat
    some { hi with
      keyOffset := keyOffset
      bytes := store hi.bytes keyOffset (cString key ++ [0])
      keyLength := intOf key.length }

/-- The item that is left, when its key is at `keyOffset`. -/
def filled (hi : HashItem) (keyOffset : ℕ) (key : List UInt8) : HashItem :=
  ⟨hi.hNext, intOf key.length, keyOffset, store hi.bytes keyOffset (cString key ++ [0])⟩

/-- Filling the item `hi` where it lies. -/
def State.fill (s : State) (hi offset : ℕ) (key : List UInt8) : Option State := do
  let it ← s.heap hi
  let d ← hashitemFill it.data offset key
  let h ← setData s.heap hi d
  some { s with heap := h }

/-- Behind its first 0 the key has only zeros. -/
def ZeroPadded (key : List UInt8) : Prop := ∀ b ∈ key.dropWhile (· ≠ 0), b = 0

instance (key : List UInt8) : Decidable (ZeroPadded key) := inferInstanceAs (Decidable (∀ b ∈ _, _))

/-- A text has no zeros. -/
theorem zeroPadded_text (key : List UInt8) (h : ∀ b ∈ key, b ≠ 0) : ZeroPadded key := by
  intro b hb
  have hnil : key.dropWhile (· ≠ 0) = [] := List.dropWhile_eq_nil_iff.mpr (by simpa using h)
  rw [hnil] at hb
  exact absurd hb List.not_mem_nil

/-- The bytes that `hashtable_insert` takes for the key of an item that was filled. -/
def keyRead (bytes : Mem) (keyOffset : ℕ) (key : List UInt8) : List UInt8 :=
  load (store bytes keyOffset (cString key ++ [0])) keyOffset (sizeT (intOf key.length))

theorem itemKey_filled (hi : HashItem) (keyOffset : ℕ) (key : List UInt8) :
    itemKey (filled hi keyOffset key) = keyRead hi.bytes keyOffset key := by
  rw [itemKey, hashitemKey, keyRead, filled]

section copy
variable (m : Mem) (off : ℕ) (key : List UInt8)

/-- In zeroed memory a zero follows the string, and zeros follow that one. -/
theorem load_filled (hzero : ∀ a, off ≤ a → a < off+key.length → m a = 0) :
    load (store m off (cString key ++ [0])) off key.length =
      cString key ++ List.replicate (key.dropWhile (· ≠ 0)).length 0 := by
  have hsplit : cString key ++ key.dropWhile (· ≠ 0) = key := List.takeWhile_append_dropWhile
  have hlen := congrArg List.length hsplit
  rw [List.length_append] at hlen
  rw [← hlen, load_add]
  congr 1
  · rw [load_store_take m off _ _ (by simp), List.take_left']
    rfl
  · apply List.eq_replicate_iff.mpr
    refine ⟨load_length _ _ _, ?_⟩
    intro b hb
    obtain ⟨i,hi,rfl⟩ := List.mem_map.mp hb
    have hlt := List.mem_range.mp hi
    by_cases h0 : i = 0
    -- the terminating byte
    · have hin := store_inside m off (cString key ++ [0]) (cString key).length (by simp)
      rw [h0, Nat.add_zero, hin]
      simp
    · have hbehind : off+(cString key ++ [0]).length ≤ off+((cString key).length+i) := by
        rw [List.length_append, List.length_singleton]
        omega
      rw [Nat.add_assoc, store_outside m off _ _ (Or.inr hbehind)]
      exact hzero _ (by omega) (by omega)

theorem load_filled_iff (hzero : ∀ a, off ≤ a → a < off+key.length → m a = 0) :
    load (store m off (cString key ++ [0])) off key.length = key ↔ ZeroPadded key := by
  have hsplit : cString key ++ key.dropWhile (· ≠ 0) = key := List.takeWhile_append_dropWhile
  rw [load_filled m off key hzero]
  calc
    _ ↔ cString key ++ List.replicate (key.dropWhile (· ≠ 0)).length 0 =
        cString key ++ key.dropWhile (· ≠ 0) := by rw [hsplit]
    _ ↔ key.dropWhile (· ≠ 0) = List.replicate (key.dropWhile (· ≠ 0)).length 0 := by
      rw [List.append_cancel_left_eq, eq_comm]
    _ ↔ ZeroPadded key := by
      rw [List.eq_replicate_iff]
      exact and_iff_right rfl

/-- The key is read back when its length fits and no byte was lost. -/
theorem keyRead_eq_iff (hzero : ∀ a, off ≤ a → a < off+key.length → m a = 0) :
    keyRead m off key = key ↔ sizeT (intOf key.length) = key.length ∧ ZeroPadded key := by
  constructor
  · intro h
    have hlen := congrArg List.length h
    -- a length that is changed gives a key of another length
    rw [keyRead, load_length] at hlen
    refine ⟨hlen, ?_⟩
    rw [keyRead, hlen] at h
    exact (load_filled_iff m off key hzero).mp h
  · rintro ⟨hlen,hpad⟩
    rw [keyRead, hlen]
    exact (load_filled_iff m off key hzero).mpr hpad

end copy

theorem intOf_of_lt (n : ℕ) (h : n%2^32 < 2^31) : intOf n = (n%2^32 : ℕ) := by
  unfold intOf
  rw [Int.bmod_def]
  omega

theorem intOf_neg (n : ℕ) (h : ¬ n%2^32 < 2^31) : intOf n < 0 := by
  unfold intOf
  rw [Int.bmod_def]
  omega

/-- The length of a key survives up to `INT_MAX`. -/
theorem sizeT_intOf (n : ℕ) (h : n < 2^31) : sizeT (intOf n) = n := by
  have hmod : n%2^32 = n := by omega
  rw [intOf_of_lt n (by omega), hmod]
  unfold sizeT
  omega

section fill
variable (s : State) (hi offset : ℕ) (key : List UInt8) (it : Node HashItem)
  (hit : s.heap hi = some it)
include hit

theorem fill_none (hoff : ¬ offset%2^32 < 2^31) : s.fill hi offset key = none := by
  simp only [State.fill, hit, hashitemFill, intOf_neg offset hoff, if_true, Option.bind_eq_bind,
    Option.bind_some, Option.bind_none]

/-- Filling writes nothing but the item. -/
theorem fill_spec (hoff : offset%2^32 < 2^31) : ∃ h' d, s.fill hi offset key = some ⟨s.ht,h'⟩ ∧
    dataOf h' hi = some d ∧ itemKey d = keyRead it.data.bytes (offset%2^32) key ∧
    ∀ p, nextOf h' p = nextOf s.heap p ∧ prevOf h' p = prevOf s.heap p ∧
      (p ≠ hi → dataOf h' p = dataOf s.heap p) := by
  have hint := intOf_of_lt offset hoff
  have hneg : ¬ intOf offset < 0 := by omega
  have hoffset : (intOf offset).toNat = offset%2^32 := by omega
  have hd : dataOf s.heap hi = some it.data := by rw [dataOf, hit, Option.map_some]
  let d := filled it.data (offset%2^32) key
  rcases setData_spec s.heap hi it.data d hd with ⟨h',hs,hd',hn,hp⟩
  refine ⟨h', d, ?_, ?_, ?_, ?_⟩
  · simp only [State.fill, hit, hashitemFill, hneg, if_false, Option.bind_eq_bind,
      Option.bind_some, hoffset]
    exact congrArg (fun h => Option.bind h _) hs
  · rw [hd', Function.update_self]
  · exact itemKey_filled it.data (offset%2^32) key
  · intro p
    refine ⟨by rw [hn], by rw [hp], ?_⟩
    intro hne
    rw [hd', Function.update_of_ne hne]

end fill

/-- After it was filled and then inserted, the item is found and removed under its key. -/
def FilledFound (hash : List UInt8 → UInt32) (fuel : ℕ) (s : State) (hi offset : ℕ)
    (key : List UInt8) : Prop :=
  ∃ s1 s2 code, s.fill hi offset key = some s1 ∧ hashtableInsert hash fuel s1 hi = some (s2,code) ∧
    (code = .htOk → hashtableFind hash fuel s2 (some key) = some hi ∧
      ∃ s3, hashtableRemove hash fuel s2 (some key) true = some (s3,.htOk,some hi))

section filled
variable (hash : List UInt8 → UInt32) (s : State) (es cs : Items) (h : LinkedBy hash s es cs)
  (fuel : ℕ) (hf : es.length+1 < fuel) (hi : ℕ) (hout : hi ∉ nullptr :: es.map Prod.fst)
  (key : List UInt8) (hne : key ≠ []) (hkey : key ∉ es.map Prod.snd)
include h hf hout hne hkey

/-- Behind the insertion of an item of another key there is nothing under this one. -/
theorem LinkedBy.found_iff (d : HashItem) (hd : dataOf s.heap hi = some d)
    (hnew : itemKey d ∉ es.map Prod.snd) : ∃ s2, hashtableInsert hash fuel s hi = some (s2,.htOk) ∧
      ((hashtableFind hash fuel s2 (some key) = some hi ∧
        ∃ s3, hashtableRemove hash fuel s2 (some key) true = some (s3,.htOk,some hi)) ↔
          itemKey d = key) := by
  rcases h.insert_writes hash s es cs fuel (by omega) hi d hd hout hnew with ⟨head,h',hs,-,hc,-⟩
  refine ⟨_, hs, ?_, ?_⟩
  -- the walk compares the lengths and the bytes
  · rintro ⟨hfind,-⟩
    rw [hashtableFind, if_neg hne] at hfind
    have hhi : hi ≠ nullptr := fun he => hout (by simp [he])
    rcases walkChain_sound h' key _ hi fuel hfind hhi with ⟨c,hcontents,hbytes⟩
    rw [hc, contentsOf, hd, Option.map_some] at hcontents
    obtain rfl := Option.some.inj hcontents
    exact hbytes
  · rintro rfl
    rcases h.insert hash s es cs fuel (by omega) hi d hd hout hne hnew with ⟨s2,hs2,h2⟩
    obtain rfl := (Prod.mk.inj (Option.some.inj (hs.symm.trans hs2))).1
    -- the item is the last one of the list, and no other has its key
    have hlen : (es ++ [(hi,itemKey d)]).length < fuel := by
      rwa [List.length_append, List.length_singleton]
    have hlookup : KeyedList.lookup Prod.snd (itemKey d) (es ++ [(hi,itemKey d)]) =
        some (hi,itemKey d) := by
      rw [KeyedList.lookup_snoc, KeyedList.lookup_none Prod.snd _ es hkey, if_pos rfl]
      rfl
    constructor
    · rw [hashtableFind, if_neg hne, h2.find hash _ _ _ fuel hlen (itemKey d), hlookup]
      rfl
    · rcases h2.remove hash _ _ _ fuel hlen (itemKey d) _ hlookup hne with ⟨s3,hs3,-⟩
      exact ⟨s3, hs3⟩

/-- The item is found when it was stored under the key, or when it was not inserted. -/
theorem LinkedBy.filledFound_iff (it : Node HashItem) (hit : s.heap hi = some it) (offset : ℕ) :
    FilledFound hash fuel s hi offset key ↔ offset%2^32 < 2^31 ∧
      (keyRead it.data.bytes (offset%2^32) key = key ∨
        keyRead it.data.bytes (offset%2^32) key ∈ es.map Prod.snd) := by
  by_cases hoff : offset%2^32 < 2^31
  · rcases fill_spec s hi offset key it hit hoff with ⟨h',d,hs,hd,hread,hsame⟩
    have h1 : LinkedBy hash ⟨s.ht,h'⟩ es cs := by
      apply h.congr hash s es cs
      intro p hp
      have hpe : p ≠ hi := fun he => hout (he ▸ List.mem_cons_of_mem _ hp)
      exact ⟨(hsame p).1, (hsame p).2.1, (hsame p).2.2 hpe⟩
    rw [and_iff_right hoff, ← hread, FilledFound, hs]
    by_cases hnew : itemKey d ∈ es.map Prod.snd
    -- the insertion is refused, so nothing is promised
    · have hhi : hi ≠ nullptr := fun he => hout (by simp [he])
      have hins := h1.insert_exists hash _ es cs fuel (by omega) hi d hd hhi hnew
      refine ⟨fun _ => Or.inr hnew, fun _ => ⟨_, _, _, rfl, hins, ?_⟩⟩
      intro hcode
      exact absurd hcode (by decide)
    · rcases h1.found_iff hash _ es cs fuel hf hi hout key hne hkey d hd hnew with ⟨s2,hins,hiff⟩
      constructor
      · rintro ⟨s1,s2',code,hs1,hs2,hfound⟩
        obtain rfl := Option.some.inj hs1
        obtain ⟨rfl,rfl⟩ := Prod.mk.inj (Option.some.inj (hins.symm.trans hs2))
        exact Or.inl (hiff.mp (hfound rfl))
      · intro hkeys
        have hstored := hkeys.resolve_right hnew
        exact ⟨_, s2, .htOk, rfl, hins, fun _ => hiff.mpr hstored⟩
  -- a negative offset lies in front of the item
  · constructor
    · rintro ⟨s1,s2,code,hs1,-⟩
      rw [fill_none s hi offset key it hit hoff] at hs1
      exact absurd hs1 (by simp)
    · intro hcond
      exact absurd hcond.1 hoff

/-- An item of zeroed memory is found under the key it was filled with, exactly when the offset
and the length of the key survive their conversion to `int` and the key has only zeros behind
its first zero; or when it is not inserted, since the table holds the key that it did get. -/
theorem filled_found_iff (it : Node HashItem) (hit : s.heap hi = some it) (offset : ℕ)
    (hzero : ∀ a < offset+key.length+1, it.data.bytes a = 0) :
    FilledFound hash fuel s hi offset key ↔ offset%2^32 < 2^31 ∧
      (sizeT (intOf key.length) = key.length ∧ ZeroPadded key ∨
        keyRead it.data.bytes (offset%2^32) key ∈ es.map Prod.snd) := by
  have hle : offset%2^32 ≤ offset := Nat.mod_le _ _
  have hread := keyRead_eq_iff it.data.bytes (offset%2^32) key (fun a _ ha => hzero a (by omega))
  rw [h.filledFound_iff hash s es cs fuel hf hi hout key hne hkey it hit offset, hread]

end filled

/-- An empty table, and an item of zeroed memory beside it. -/
def zeroed : State := hashtableInit (alloc (fun _ => none) 5 ⟨⟨0,0,0,fun _ => 0⟩,0,0⟩)

theorem zeroed_linked : LinkedBy (fun _ => 0) zeroed [] [] :=
  (linkedBy_self_iff _ _ _).mpr (linked_init _ _)

theorem filled_found_iff_text : FilledFound (fun _ => 0) 2 zeroed 5 8 [97,98] := by
  have hiff := filled_found_iff (fun _ => 0) zeroed [] [] zeroed_linked 2 (by decide) 5 (by decide)
    [97,98] (by decide) (by decide) ⟨⟨0,0,0,fun _ => 0⟩,0,0⟩ rfl 8 (fun _ _ => rfl)
  exact hiff.mpr ⟨by decide, Or.inl ⟨sizeT_intOf 2 (by decide), zeroPadded_text _ (by simp)⟩⟩

/-- The byte behind a zero is lost. -/
theorem zero_byte_not_found : LinkedBy (fun _ => 0) zeroed [] [] ∧
    ¬ FilledFound (fun _ => 0) 2 zeroed 5 0 [97,0,98] := by
  refine ⟨zeroed_linked, ?_⟩
  rw [zeroed_linked.filledFound_iff (fun _ => 0) zeroed [] [] 2 (by decide) 5 (by decide)
    [97,0,98] (by decide) (by decide) ⟨⟨0,0,0,fun _ => 0⟩,0,0⟩ rfl 0]
  decide

end Cclab.Hashtable
