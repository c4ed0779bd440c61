import Cclab.HttpInput
import Cclab.IobufShared

/-! `IOBuf::Append` of a byte string. The loop copies from the start of the string in every
iteration, at most the size of the whole string, and so much it takes off what remains. -/
namespace Cclab.Iobuf
open ByteMemory HttpServer NodeHeap OperationRuns

/-- `remain -= copy_size`, of a `size_t`. -/
def remainAfter (remain copySize : ℕ) : ℕ := (((remain:ℤ)-copySize)%2^64).toNat

/-- The loop of `Append`. -/
def appendLoop (bs : List UInt8) : ℕ → Store → IOBuf → ℕ → Option (Store × IOBuf)
  | 0, _, _, _ => none
  | fuel+1, st, buf, remain =>
    if remain = 0 then some (st,buf)
    else do
      let (st,buf,place,len) ← preAllocate st buf
      let copySize := min len bs.length
      let st ← copyTo st place (bs.take copySize)
      let (st,buf) ← postAllocate st buf copySize
      appendLoop bs fuel st buf (remainAfter remain copySize)

def append (fuel : ℕ) (st : Store) (buf : IOBuf) (bs : List UInt8) : Option (Store × IOBuf) :=
  appendLoop bs fuel st buf bs.length

/-- The room behind the last block after a copy; a full one is followed by a new block. -/
def roomAfter (room copySize : ℕ) : ℕ := if room = copySize then blockRoom else room-copySize

/-- The loop on byte strings: what it adds to the `IOBuf` when there are `room` bytes behind the
last block. -/
def copies (bs : List UInt8) : ℕ → ℕ → ℕ → Option (List UInt8)
  | 0, _, _ => none
  | fuel+1, room, remain =>
    if remain = 0 then some []
    else (copies bs fuel (roomAfter room (min room bs.length))
      (remainAfter remain (min room bs.length))).map fun added =>
        bs.take (min room bs.length) ++ added

section room
variable (st : Store) (buf : IOBuf) (l rest : List ℕ) (hs : Sound st (l ++ rest))
  (hb : Holds st buf l)
include hs hb

/-- One iteration writes what fits, from the start of the string. -/
theorem appendLoop_step (bs : List UInt8) (fuel remain : ℕ) (hne : remain ≠ 0) :
    ∃ st' buf' l', write st buf (bs.take (min (roomOf st buf) bs.length)) = some (st',buf') ∧
      appendLoop bs (fuel+1) st buf remain =
        appendLoop bs fuel st' buf' (remainAfter remain (min (roomOf st buf) bs.length)) ∧
      Sound st' (l' ++ rest) ∧ Holds st' buf' l' ∧
      text st' l' = text st l ++ bs.take (min (roomOf st buf) bs.length) ∧
      roomOf st' buf' = roomAfter (roomOf st buf) (min (roomOf st buf) bs.length) := by
  rcases preAllocate_spec st buf l rest hs hb with ⟨st1,buf1,m,q,b,hpre,hres⟩
  have hlen := preAllocate_room st st1 buf buf1 _ _ hpre
  let copied := bs.take (min (roomOf st buf) bs.length)
  have hcopied : copied.length = min (roomOf st buf) bs.length := by
    rw [List.length_take]
    omega
  have hcap : b.capacity = blockRoom := (hres.sound.valid st1 _ q b (by simp) hres.rear).capacity
  rcases postAllocate_spec st1 buf1 m rest q b copied hres.sound hres.holds hres.rear
    (by omega) with ⟨st2,st3,buf3,hcopy,hpost,hs3,hb3,-,-,hself3,htext3⟩
  refine ⟨st3, buf3, m ++ [q], ?_, ?_, hs3, hb3, ?_, ?_⟩
  · show write st buf copied = _
    simp only [write, hpre, hcopy, hpost, Option.bind_eq_bind, Option.bind_some]
  -- `copy_size` is the length of what is copied
  · rw [hcopied] at hpost
    rw [appendLoop, if_neg hne]
    simp only [hpre, hlen, Option.bind_eq_bind, Option.bind_some]
    rw [show copyTo st1 (b.buffer,b.tail) (bs.take _) = some st2 from hcopy]
    simp only [Option.bind_some, hpost]
  · rw [htext3, hres.text]
  -- the last block has grown by what was copied
  · have hpos := roomOf_pos st buf
    rw [roomAfter]
    apply roomOf_filled st3 buf3 m q rest hs3 hb3 _ hself3 _ _ (Nat.min_le_left _ _)
    show b.data+(b.length+copied.length)+_ = blockRoom
    unfold Block.tail at hlen
    omega

end room

section rel
variable {A B : Type} {R S : A → B → Prop}

theorem rel_map (f : B → B) (a : Option A) (b : Option B) (h : Option.Rel R a b)
    (hf : ∀ x y, R x y → S x (f y)) : Option.Rel S a (b.map f) := by
  cases h with
  | none => exact .none
  | some hr => exact .some (hf _ _ hr)

theorem rel_some_left (x : A) (b : Option B) (h : Option.Rel R (some x) b) :
    ∃ y, b = some y ∧ R x y := by
  cases h with
  | some hr => exact ⟨_, rfl, hr⟩

theorem rel_some_right (a : Option A) (y : B) (h : Option.Rel R a (some y)) :
    ∃ x, a = some x ∧ R x y := by
  cases h with
  | some hr => exact ⟨_, rfl, hr⟩

end rel

/-- The loop does on the `IOBuf` what `copies` does on byte strings. -/
theorem appendLoop_copies (bs : List UInt8) (fuel : ℕ) (rest : List ℕ) (st : Store) (buf : IOBuf)
    (l : List ℕ) (remain : ℕ) (hs : Sound st (l ++ rest)) (hb : Holds st buf l) :
    Option.Rel (fun r added => ∃ l', Sound r.1 (l' ++ rest) ∧ Holds r.1 r.2 l' ∧
        text r.1 l' = text st l ++ added)
      (appendLoop bs fuel st buf remain) (copies bs fuel (roomOf st buf) remain) := by
  induction fuel generalizing st buf l remain with
  | zero => exact .none
  | succ fuel ih =>
    by_cases hne : remain = 0
    · rw [appendLoop, copies, if_pos hne, if_pos hne]
      exact .some ⟨l, hs, hb, (List.append_nil _).symm⟩
    · rcases appendLoop_step st buf l rest hs hb bs fuel remain hne with
        ⟨st1,buf1,l1,-,hstep,hs1,hb1,htext1,hroom1⟩
      have hrest := ih st1 buf1 l1 (remainAfter remain (min (roomOf st buf) bs.length)) hs1 hb1
      rw [hstep, copies, if_neg hne, ← hroom1]
      apply rel_map _ _ _ hrest
      rintro r added ⟨l',hs',hb',htext⟩
      refine ⟨l', hs', hb', ?_⟩
      rw [htext, htext1, List.append_assoc]

/-! When the bytes that the loop adds are those of the string. -/

section copies
variable (bs added : List UInt8) (fuel room remain : ℕ)

theorem remainAfter_of_le (c : ℕ) (hc : c ≤ remain) (hlt : remain < 2^64) :
    remainAfter remain c = remain-c := by
  unfold remainAfter
  omega

/-- Taking off more than remains wraps around. -/
theorem remainAfter_wraps (c : ℕ) (hc : remain < c) (hlt : c < 2^64) :
    remainAfter remain c = remain+2^64-c := by
  unfold remainAfter
  omega

/-- An iteration that fills the last block. -/
theorem copies_full (hpos : 0 < room) (hlong : room ≤ bs.length) (hle : room ≤ remain)
    (hlt : remain < 2^64) : copies bs (fuel+1) room remain =
      (copies bs fuel blockRoom (remain-room)).map fun added => bs.take room ++ added := by
  rw [copies, if_neg (by omega), Nat.min_eq_left hlong, roomAfter, if_pos rfl,
    remainAfter_of_le remain room hle hlt]

theorem copies_succ_eq_some (hne : remain ≠ 0) (h : copies bs (fuel+1) room remain = some added) :
    ∃ more, copies bs fuel (roomAfter room (min room bs.length))
        (remainAfter remain (min room bs.length)) = some more ∧
      added = bs.take (min room bs.length) ++ more := by
  rw [copies, if_neg hne] at h
  obtain ⟨more,hmore,rfl⟩ := Option.map_eq_some_iff.mp h
  exact ⟨more, hmore, rfl⟩

/-- With every wrap of the counter 2^64 bytes more are added. -/
theorem copies_length (hsize : bs.length < 2^64) (hlt : remain < 2^64)
    (h : copies bs fuel room remain = some added) :
    ∃ k, added.length = remain+k*2^64 := by
  induction fuel generalizing room remain added with
  | zero => exact absurd h (by simp [copies])
  | succ fuel ih =>
    by_cases hne : remain = 0
    · rw [copies, if_pos hne] at h
      obtain rfl := Option.some.inj h
      exact ⟨0, by rw [hne]; rfl⟩
    · rcases copies_succ_eq_some bs added fuel room remain hne h with ⟨more,hmore,rfl⟩
      have htake : (bs.take (min room bs.length)).length = min room bs.length := by
        rw [List.length_take]
        omega
      by_cases hc : min room bs.length ≤ remain
      · rw [remainAfter_of_le remain _ hc hlt] at hmore
        rcases ih more _ _ (by omega) hmore with ⟨k,hk⟩
        refine ⟨k, ?_⟩
        rw [List.length_append, htake]
        omega
      -- the counter passes 0 and goes on from 2^64
      · rw [remainAfter_wraps remain _ (by omega) (by omega)] at hmore
        rcases ih more _ _ (by omega) hmore with ⟨k,hk⟩
        refine ⟨k+1, ?_⟩
        rw [List.length_append, htake]
        omega

/-- As long as nothing too much is added, the counter does not wrap. -/
theorem copies_unwrapped (hlt : remain < 2^64) (hne : remain ≠ 0)
    (h : copies bs (fuel+1) room remain = some added) (hlen : added.length = remain) :
    min room bs.length ≤ remain ∧ ∃ more, added = bs.take (min room bs.length) ++ more ∧
      copies bs fuel (roomAfter room (min room bs.length)) (remain-min room bs.length) = some more ∧
      more.length = remain-min room bs.length := by
  rcases copies_succ_eq_some bs added fuel room remain hne h with ⟨more,hmore,rfl⟩
  rw [List.length_append, List.length_take] at hlen
  have hc : min room bs.length ≤ remain := by omega
  rw [remainAfter_of_le remain _ hc hlt] at hmore
  exact ⟨hc, more, rfl, hmore, by omega⟩

/-- From a new block on, whole blocks are added, each with the start of the string. -/
theorem copies_blocks (hlong : blockRoom ≤ bs.length) (hlt : remain < 2^64)
    (h : copies bs fuel blockRoom remain = some added) (hlen : added.length = remain) :
    ∃ k, remain = k*blockRoom ∧ added = (List.replicate k (bs.take blockRoom)).flatten := by
  induction fuel generalizing remain added with
  | zero => exact absurd h (by simp [copies])
  | succ fuel ih =>
    by_cases hne : remain = 0
    · refine ⟨0, by rw [hne, Nat.zero_mul], ?_⟩
      exact List.eq_nil_of_length_eq_zero (hlen.trans hne)
    · rcases copies_unwrapped bs added fuel blockRoom remain hlt hne h hlen with
        ⟨hc,more,rfl,hmore,hmorelen⟩
      rw [Nat.min_eq_left hlong] at hc hmore hmorelen ⊢
      rw [roomAfter, if_pos rfl] at hmore
      rcases ih more (remain-blockRoom) (by omega) hmore hmorelen with ⟨k,hk,rfl⟩
      refine ⟨k+1, ?_, ?_⟩
      · rw [Nat.succ_mul]
        omega
      · rw [List.replicate_succ, List.flatten_cons]

theorem copies_of_blocks (k : ℕ) (hlong : blockRoom ≤ bs.length) (hlt : k*blockRoom < 2^64) :
    copies bs (k+1) blockRoom (k*blockRoom) =
      some (List.replicate k (bs.take blockRoom)).flatten := by
  have hpos : 0 < blockRoom := by decide
  induction k with
  | zero => rw [copies, if_pos (Nat.zero_mul _), List.replicate_zero, List.flatten_nil]
  | succ k ih =>
    have hmul : (k+1)*blockRoom = k*blockRoom+blockRoom := Nat.succ_mul _ _
    rw [copies_full bs (k+1) blockRoom _ hpos hlong (by omega) hlt, hmul, Nat.add_sub_cancel,
      ih (by omega)]
    rfl

/-- A string that does not fit behind the last block, and is added exactly. -/
theorem copies_exact_blocks (hsize : bs.length < 2^64) (hpos : 0 < room) (hlt : room < bs.length)
    (h : copies bs fuel room bs.length = some bs) : ∃ k, bs.length = room+k*blockRoom ∧
      bs.drop room = (List.replicate k (bs.take blockRoom)).flatten := by
  cases fuel with
  | zero => exact absurd h (by simp [copies])
  | succ fuel =>
    rcases copies_unwrapped bs bs fuel room bs.length hsize (by omega) h rfl with
      ⟨-,more,happ,hmore,hmorelen⟩
    rw [Nat.min_eq_left (Nat.le_of_lt hlt)] at happ hmore hmorelen
    rw [roomAfter, if_pos rfl] at hmore
    have hdrop : bs.drop room = more := by
      have hsplit : bs.take room ++ bs.drop room = bs.take room ++ more := by
        rw [List.take_append_drop]
        exact happ
      exact List.append_cancel_left hsplit
    -- a string shorter than a block is copied whole again
    have hlong : blockRoom ≤ bs.length := by
      by_contra hshort
      cases fuel with
      | zero => exact absurd hmore (by simp [copies])
      | succ fuel =>
        have hc := (copies_unwrapped bs more fuel blockRoom _ (by omega) (by omega) hmore
          hmorelen).1
        omega
    rcases copies_blocks bs more fuel (bs.length-room) hlong (by omega) hmore hmorelen with
      ⟨k,hk,rfl⟩
    exact ⟨k, by omega, hdrop⟩

/-- A string that fits is copied by the first iteration. -/
theorem copies_fits (hsize : bs.length < 2^64) (hfit : bs.length ≤ room) :
    copies bs 2 room bs.length = some bs := by
  by_cases hne : bs.length = 0
  · rw [copies, if_pos hne, List.length_eq_zero_iff.mp hne]
  · rw [copies, if_neg hne, Nat.min_eq_right hfit, remainAfter_of_le _ _ (Nat.le_refl _) hsize,
      Nat.sub_self, copies, if_pos rfl, Option.map_some, List.take_length, List.append_nil]

/-- The loop adds exactly the string when that fits behind the last block; or when what does not
fit is whole blocks, each the same as the start of the string. -/
theorem copies_exact_iff (hsize : bs.length < 2^64) (hpos : 0 < room) :
    (∃ fuel, copies bs fuel room bs.length = some bs) ↔ bs.length ≤ room ∨
      ∃ k, bs.length = room+k*blockRoom ∧
        bs.drop room = (List.replicate k (bs.take blockRoom)).flatten := by
  constructor
  · rintro ⟨fuel,h⟩
    rcases Nat.lt_or_ge room bs.length with hlt | hle
    · exact Or.inr (copies_exact_blocks bs fuel room hsize hpos hlt h)
    · exact Or.inl hle
  · intro hcond
    by_cases hfit : bs.length ≤ room
    · exact ⟨2, copies_fits bs room hsize hfit⟩
    -- the first iteration fills the last block, each of the others a new one
    · obtain ⟨k,hlen,hdrop⟩ := hcond.resolve_left hfit
      have hk : k ≠ 0 := by
        rintro rfl
        omega
      have hlong : blockRoom ≤ bs.length := by
        calc
          blockRoom = 1*blockRoom := (Nat.one_mul _).symm
          _ ≤ k*blockRoom := Nat.mul_le_mul_right _ (Nat.one_le_iff_ne_zero.mpr hk)
          _ ≤ bs.length := by omega
      refine ⟨k+2, ?_⟩
      rw [copies_full bs (k+1) room _ hpos (by omega) (by omega) hsize, hlen,
        Nat.add_sub_cancel_left, copies_of_blocks bs k hlong (by omega), Option.map_some, ← hdrop,
        List.take_append_drop]

end copies

/-- `Append` returns, and adds exactly the string. -/
def AppendsExactly (st : Store) (buf : IOBuf) (bs : List UInt8) : Prop :=
  ∃ fuel st' buf' t, append fuel st buf bs = some (st',buf') ∧
    toString st.fuel st buf = some t ∧ buf'.length = buf.length+bs.length ∧
    toString st'.fuel st' buf' = some (t ++ bs)

theorem appendsExactly_iff_copies (st : Store) (buf : IOBuf) (l rest : List ℕ) (bs : List UInt8)
    (hs : Sound st (l ++ rest)) (hb : Holds st buf l) :
    AppendsExactly st buf bs ↔ ∃ fuel, copies bs fuel (roomOf st buf) bs.length = some bs := by
  have ht := toString_spec st buf l rest hs hb
  constructor
  · rintro ⟨fuel,st',buf',t,happ,ht0,-,htext⟩
    have hrel := appendLoop_copies bs fuel rest st buf l bs.length hs hb
    rw [show appendLoop bs fuel st buf bs.length = _ from happ] at hrel
    rcases rel_some_left _ _ hrel with ⟨added,hc,l',hs',hb',htext'⟩
    refine ⟨fuel, ?_⟩
    -- both texts begin with the one before the call
    obtain rfl := Option.some.inj (ht.symm.trans ht0)
    have htext2 := toString_spec st' buf' l' rest hs' hb'
    rw [htext, htext', Option.some.injEq] at htext2
    rw [hc, List.append_cancel_left htext2]
  · rintro ⟨fuel,hc⟩
    have hrel := appendLoop_copies bs fuel rest st buf l bs.length hs hb
    rw [hc] at hrel
    rcases rel_some_right _ _ hrel with ⟨r,happ,l',hs',hb',htext'⟩
    refine ⟨fuel, r.1, r.2, _, happ, ht, ?_, ?_⟩
    · rw [hb'.length, hb.length, htext', List.length_append]
    · rw [toString_spec r.1 r.2 l' rest hs' hb', htext']

/-- What `Append` adds is never less than its argument, and more only by turns of the counter. -/
theorem append_adds (st st' : Store) (buf buf' : IOBuf) (l rest : List ℕ) (bs : List UInt8)
    (fuel : ℕ) (hs : Sound st (l ++ rest)) (hb : Holds st buf l) (hsize : bs.length < 2^64)
    (h : append fuel st buf bs = some (st',buf')) :
    ∃ k, buf'.length = buf.length+(bs.length+k*2^64) := by
  have hrel := appendLoop_copies bs fuel rest st buf l bs.length hs hb
  rw [show appendLoop bs fuel st buf bs.length = _ from h] at hrel
  rcases rel_some_left _ _ hrel with ⟨added,hc,l',-,hb',htext⟩
  rcases copies_length bs added fuel _ _ hsize hsize hc with ⟨k,hk⟩
  refine ⟨k, ?_⟩
  rw [hb'.length, hb.length, htext, List.length_append, hk]

theorem appendsExactly_iff (st : Store) (buf : IOBuf) (l rest : List ℕ) (bs : List UInt8)
    (hs : Sound st (l ++ rest)) (hb : Holds st buf l) (hsize : bs.length < 2^64) :
    AppendsExactly st buf bs ↔ bs.length ≤ roomOf st buf ∨
      ∃ k, bs.length = roomOf st buf+k*blockRoom ∧
        bs.drop (roomOf st buf) = (List.replicate k (bs.take blockRoom)).flatten := by
  rw [appendsExactly_iff_copies st buf l rest bs hs hb]
  exact copies_exact_iff bs (roomOf st buf) hsize (roomOf_pos st buf)

end Cclab.Iobuf
