import Cclab.ResourceCacheRefines

/-! The capacities that the constructor accepts. The size is compared with the `int` for
equality: a capacity of 0 is met by the empty cache, whose rear is the sentinel, and a
negative one by no size at all. -/
namespace Cclab.ResourceCache
open IntrusiveLists NodeHeap OperationRuns

variable {R : Type}

/-- The node that a call unlinks, to move it to the front or to delete it. -/
def unlinked (c : Cache R) : Op R → Option ℕ
  | .get _ _ => none
  | .set key _ _ =>
    match c.cacheMap.lookup key with
    | some item => some item
    | none =>
      if (c.cacheMap.keys.length : ℤ) = c.capacity%2^64 then some (prevOf c.heap lruHead)
      else none

/-- The map and the ring through the sentinel hold the same items, at most as many as the
capacity allows. -/
structure WellFormed (c : Cache R) : Prop where
  represents : ∃ es l, Represents c es l
  bounded : (c.cacheMap.keys.length : ℤ) ≤ max c.capacity 1

/-- Every call of the run returns, none of them unlinks the sentinel, and every state is
well formed. -/
def StaysWellFormed : Cache R → List (Op R) → Prop
  | c, [] => WellFormed c
  | c, op :: ops => WellFormed c ∧ unlinked c op ≠ some lruHead ∧
    ∃ r, step c op = some r ∧ StaysWellFormed r.1 ops

def OneKey (es : List (Item R)) : Prop := ∀ d ∈ es, ∀ e ∈ es, d.key = e.key

/-- The capacity is positive, or it is 0 and nothing is set, or it is negative and only one
key is. -/
def Sized (capacity : ℤ) (ops : List (Op R)) : Prop :=
  1 ≤ capacity ∨ (capacity = 0 ∧ sets ops = []) ∨
    (capacity < 0 ∧ OneKey (sets ops))

theorem StaysWellFormed.now (c : Cache R) (ops : List (Op R)) (h : StaysWellFormed c ops) :
    WellFormed c := by
  cases ops with
  | nil => exact h
  | cons op ops => exact h.1

theorem staysWellFormed_cons (c : Cache R) (r : Cache R × Answer R) (op : Op R)
    (ops : List (Op R)) (hw : WellFormed c) (hu : unlinked c op ≠ some lruHead)
    (hs : step c op = some r) : StaysWellFormed c (op :: ops) ↔ StaysWellFormed r.1 ops := by
  constructor
  · rintro ⟨-,-,r',hs',h⟩
    obtain rfl := Option.some.inj (hs'.symm.trans hs)
    exact h
  · intro h
    exact ⟨hw, hu, r, hs, h⟩

section represents
variable (c : Cache R) (es : List (Item R)) (l : List ℕ) (h : Represents c es l)
include h

theorem Represents.wellFormed (hbound : (es.length : ℤ) ≤ max c.capacity 1) : WellFormed c := by
  refine ⟨⟨es,l,h⟩, ?_⟩
  rw [h.size, h.length c es l]
  exact hbound

theorem Represents.staysWellFormed_get (hw : WellFormed c) (key : String) (now : ℤ)
    (ops : List (Op R)) : StaysWellFormed c (.get key now :: ops) ↔ StaysWellFormed c ops := by
  apply staysWellFormed_cons c (c,_) (.get key now) ops hw (by simp [unlinked])
  show (ResourceCache.get c key now).map (fun res => (c, Answer.get res)) = _
  rw [h.get c es l key now, Option.map_some]

/-- Only an empty cache can take the sentinel for its last item. -/
theorem Represents.unlinked_ne (hsize : l = [] → c.capacity%2^64 ≠ 0) (op : Op R) :
    unlinked c op ≠ some lruHead := by
  have hout := (List.nodup_cons.mp h.ring.nodup).1
  cases op with
  | get key now => simp [unlinked]
  | set key res now =>
    intro hu
    cases hk : c.cacheMap.lookup key with
    | some p =>
      simp only [unlinked, hk, Option.some.injEq] at hu
      exact hout (hu ▸ ((h.map key p).mp hk).1)
    | none =>
      simp only [unlinked, hk] at hu
      by_cases hfull : (c.cacheMap.keys.length : ℤ) = c.capacity%2^64
      · rw [if_pos hfull, Option.some.injEq, h.ring.prev_head] at hu
        by_cases hl : l = []
        · rw [h.size, hl] at hfull
          exact hsize hl hfull.symm
        · rw [List.getLast_cons hl] at hu
          exact hout (hu ▸ List.getLast_mem hl)
      · rw [if_neg hfull] at hu
        exact absurd hu (by simp)

end represents

/-- A new value for the only item. -/
theorem Represents.set_again (c : Cache R) (l : List ℕ) (d : Item R) (h : Represents c [d] l)
    (res : Option R) (now : ℤ) : ∃ c' l', set c d.key res now = some (c',true) ∧
      Represents c' [⟨d.key,res,now⟩] l' ∧ c'.capacity = c.capacity := by
  cases hlook : c.cacheMap.lookup d.key with
  | none => exact absurd (by simp) (h.absent c [d] l d.key hlook)
  | some p =>
    obtain ⟨c',l',hs,hr,hcap,-⟩ := h.touch 0 c [d] l d.key res now p hlook
    have hput : KeyedList.put Item.key 0 ⟨d.key,res,now⟩ [d] = [⟨d.key,res,now⟩] := by
      simp [KeyedList.put]
    rw [hput] at hr
    exact ⟨c', l', hs, hr, hcap⟩

theorem represents_create (capacity x now : ℤ) :
    ∃ l, Represents (create capacity x now) ([] : List (Item R)) l := by
  obtain ⟨l,h⟩ := (holds_create (R := R) 0 x now).represents
  exact ⟨l, h.ring, h.data, h.head, h.live, h.known, h.keys, h.map, h.size⟩

theorem represents_nil (c : Cache R) (l : List ℕ) (h : Represents c [] l) :
    c.cacheMap.keys.length = 0 := by
  rw [h.size, h.length c [] l]
  rfl

/-- A positive capacity. -/
theorem Holds.staysWellFormed (n : ℕ) (x : ℤ) (hn : 1 ≤ n) (hn' : n ≤ 2^31-1) (ops : List (Op R))
    (c : Cache R) (es : List (Item R)) (h : Holds n x c es) : StaysWellFormed c ops := by
  have hwell (c : Cache R) (es : List (Item R)) (h : Holds n x c es) : WellFormed c := by
    obtain ⟨l,hl⟩ := h.represents
    apply hl.wellFormed c es l
    have hbound := h.bound
    rw [h.capacity]
    omega
  induction ops generalizing c es with
  | nil => exact hwell c es h
  | cons op ops ih =>
    obtain ⟨c',hs,h'⟩ := h.step n x hn hn' c es op
    obtain ⟨l,hl⟩ := h.represents
    have hsize : l = [] → c.capacity%2^64 ≠ 0 := by
      intro _
      rw [h.capacity]
      omega
    exact ⟨hwell c es h, hl.unlinked_ne c es l hsize op, _, hs, ih c' _ h'⟩

/-- A capacity of 0: nothing can be set, as the sentinel would go. -/
theorem staysWellFormed_zero (c : Cache R) (l : List ℕ) (h : Represents c [] l)
    (hcap : c.capacity = 0) (ops : List (Op R)) : StaysWellFormed c ops ↔ sets ops = [] := by
  have hlen := represents_nil c l h
  have hw : WellFormed c := h.wellFormed c [] l (by rw [hcap, List.length_nil]; decide)
  induction ops with
  | nil => exact iff_of_true hw rfl
  | cons op ops ih =>
    cases op with
    | get key now =>
      exact (h.staysWellFormed_get c [] l hw key now ops).trans ih
    | set key res now =>
      apply iff_of_false
      · rintro ⟨-,hu,-⟩
        apply hu
        -- the rear of the empty ring is the sentinel itself
        have hnone : c.cacheMap.lookup key = none := by
          apply AList.lookup_eq_none.mpr
          rw [AList.mem_keys, List.eq_nil_of_length_eq_zero hlen]
          exact List.not_mem_nil
        have hl : l = [] := List.eq_nil_of_length_eq_zero (h.length c [] l)
        have hrear : prevOf c.heap lruHead = lruHead := by
          subst hl
          exact h.ring.prev_head
        simp only [unlinked, hnone, hlen, hcap, hrear]
        rfl
      · exact List.cons_ne_nil _ _

theorem oneKey_of_length (es : List (Item R)) (h : es.length ≤ 1) : OneKey es := by
  intro d hd e he
  cases es with
  | nil => exact absurd hd List.not_mem_nil
  | cons a es =>
    have hlen : es.length = 0 := Nat.le_zero.mp (Nat.le_of_succ_le_succ h)
    obtain rfl := List.eq_nil_of_length_eq_zero hlen
    rw [List.mem_singleton.mp hd, List.mem_singleton.mp he]

theorem oneKey_cons_same (d e : Item R) (es : List (Item R)) (h : d.key = e.key) :
    OneKey (d :: e :: es) ↔ OneKey (e :: es) := by
  constructor
  · intro hall a ha b hb
    exact hall a (List.mem_cons_of_mem d ha) b (List.mem_cons_of_mem d hb)
  · intro hall a ha b hb
    have hkey (a : Item R) (ha : a ∈ d :: e :: es) : a.key = e.key := by
      rcases List.mem_cons.mp ha with rfl | ha
      · exact h
      · exact hall a ha e List.mem_cons_self
    rw [hkey a ha, hkey b hb]

/-- A negative capacity: the cache is never full, and the second key is one too many. -/
theorem staysWellFormed_negative (ops : List (Op R)) (c : Cache R) (es : List (Item R))
    (l : List ℕ) (h : Represents c es l) (hneg : c.capacity < 0) (hmin : -2^31 ≤ c.capacity)
    (hone : es.length ≤ 1) : StaysWellFormed c ops ↔ OneKey (es ++ sets ops) := by
  induction ops generalizing c es l with
  | nil =>
    apply iff_of_true (h.wellFormed c es l (by omega))
    have hnil : es ++ sets ([] : List (Op R)) = es := List.append_nil es
    rw [hnil]
    exact oneKey_of_length es hone
  | cons op ops ih =>
    have hlen := h.length c es l
    -- as a `size_t` the capacity is at least 2^64-2^31
    have hfree : (c.cacheMap.keys.length : ℤ) ≠ c.capacity%2^64 := by
      rw [h.size]
      omega
    have hw : WellFormed c := h.wellFormed c es l (by omega)
    cases op with
    | get key now =>
      exact (h.staysWellFormed_get c es l hw key now ops).trans (ih c es l h hneg hmin hone)
    | set key res now =>
      have hu := h.unlinked_ne c es l (fun _ => by omega) (.set key res now)
      have hcons (c' : Cache R) (hs : ResourceCache.set c key res now = some (c',true)) :
          StaysWellFormed c (.set key res now :: ops) ↔ StaysWellFormed c' ops :=
        staysWellFormed_cons c (c',_) _ ops hw hu
          (show (ResourceCache.set c key res now).map _ = _ by rw [hs, Option.map_some])
      have hlater (c' : Cache R) (es' : List (Item R)) (l' : List ℕ) (hr : Represents c' es' l')
          (hcap : c'.capacity = c.capacity) (hlen' : es'.length ≤ 1) :
          StaysWellFormed c' ops ↔ OneKey (es' ++ sets ops) :=
        ih c' es' l' hr (by rwa [hcap]) (by rwa [hcap]) hlen'
      by_cases hk : key ∈ es.map Item.key
      -- the key that is there
      · obtain ⟨d,rfl⟩ : ∃ d, es = [d] := by
          apply List.length_eq_one_iff.mp
          have hpos := List.length_pos_of_mem hk
          rw [List.length_map] at hpos
          omega
        obtain rfl : key = d.key := by simpa using hk
        obtain ⟨c',l',hs,hr,hcap⟩ := h.set_again c l d res now
        rw [hcons c' hs, hlater c' _ l' hr hcap (Nat.le_refl 1)]
        exact (oneKey_cons_same d ⟨d.key,res,now⟩ (sets ops) rfl).symm
      · obtain ⟨c',l',hs,hr,hcap,-⟩ := h.set_free c es l key res now hk hfree
        rw [hcons c' hs]
        cases es with
        | nil => exact hlater c' _ l' hr hcap (Nat.le_refl 1)
        -- two items are more than the bound allows, and they have two keys
        | cons d es =>
          apply iff_of_false
          · intro hstay
            have hbound := hstay.now.bounded
            rw [hr.size, hr.length c' _ l', List.length_cons, List.length_cons, hcap] at hbound
            omega
          · intro hall
            apply hk
            have hkey := hall d List.mem_cons_self ⟨key,res,now⟩ (by simp [sets])
            rw [List.map_cons, hkey]
            exact List.mem_cons_self

/-- The cache stays well formed, for every capacity of type `int` and every run, if and only
if the capacity is positive, or is 0 and nothing is set, or is negative and one key is. -/
theorem stays_well_formed_iff (capacity x now : ℤ) (hmin : -2^31 ≤ capacity)
    (hmax : capacity ≤ 2^31-1) (ops : List (Op R)) :
    StaysWellFormed (create capacity x now) ops ↔ Sized capacity ops := by
  obtain ⟨l,h⟩ := represents_create (R := R) capacity x now
  unfold Sized
  rcases Int.lt_trichotomy capacity 0 with hneg | rfl | hpos
  · have hone := staysWellFormed_negative ops _ [] l h hneg hmin (Nat.zero_le 1)
    rw [List.nil_append] at hone
    constructor
    · intro h
      exact Or.inr (Or.inr ⟨hneg, hone.mp h⟩)
    · rintro (h | ⟨h,-⟩ | ⟨-,h⟩)
      · omega
      · omega
      · exact hone.mpr h
  · rw [staysWellFormed_zero _ l h rfl ops]
    constructor
    · intro h
      exact Or.inr (Or.inl ⟨rfl, h⟩)
    · rintro (h | ⟨-,h⟩ | ⟨h,-⟩)
      · omega
      · exact h
      · omega
  · obtain ⟨n,rfl⟩ := Int.eq_ofNat_of_zero_le (Int.le_of_lt hpos)
    apply iff_of_true
    · exact (holds_create n x now).staysWellFormed n x (by omega) (by omega) ops
    · left
      omega

theorem stays_well_formed_iff_two_sets :
    StaysWellFormed (create 1 30 0 : Cache ℕ) [.set "a" (some 1) 0, .set "b" (some 2) 1] ↔
      Sized 1 [.set "a" (some 1) 0, .set "b" (some 2) 1] :=
  stays_well_formed_iff 1 30 0 (by decide) (by decide) [.set "a" (some 1) 0, .set "b" (some 2) 1]

/-- With capacity 0 the first `Set` unlinks and deletes the sentinel; with capacity -1 the
second one leaves two items. -/
theorem capacity_ignored :
    (unlinked (create 0 30 0 : Cache ℕ) (.set "a" (some 1) 0) = some lruHead ∧
      ¬ StaysWellFormed (create 0 30 0 : Cache ℕ) [.set "a" (some 1) 0]) ∧
    ¬ StaysWellFormed (create (-1) 30 0 : Cache ℕ) [.set "a" (some 1) 0, .set "b" (some 2) 0] := by
  refine ⟨⟨rfl, fun h => h.2.1 rfl⟩, ?_⟩
  intro h
  obtain ⟨l,hl⟩ := represents_create (R := ℕ) (-1) 30 0
  have hone := (staysWellFormed_negative _ _ [] l hl (by decide) (by decide) (Nat.zero_le 1)).mp h
  have hkeys := hone ⟨"a",some 1,0⟩ (by simp [sets]) ⟨"b",some 2,0⟩ (by simp [sets])
  exact absurd hkeys (by decide)

end Cclab.ResourceCache
