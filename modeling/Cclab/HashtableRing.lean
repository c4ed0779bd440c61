import Cclab.HashtableLinks

/-! The item list as a ring through the null pointer, and what inserting, unlinking and clearing
do to it. -/
namespace Cclab.Hashtable
open ByteMemory IntrusiveLists NodeHeap

/-- The items `l` in the order of the list from `head` to `tail`. -/
def ItemRing (h : Heap HashItem) (head tail : ℕ) (l : List ℕ) : Prop :=
  Ring (Function.update (nextOf h) nullptr head) (Function.update (prevOf h) nullptr tail) nullptr l

section ring
variable (h : Heap HashItem) (head tail : ℕ) (l k : List ℕ)

theorem ItemRing.congr (h' : Heap HashItem) (hr : ItemRing h head tail l)
    (hn : ∀ p ∈ l, nextOf h' p = nextOf h p ∧ prevOf h' p = prevOf h p) :
    ItemRing h' head tail l := by
  have hne (p : ℕ) (hp : p ∈ l) : p ≠ nullptr := by
    rintro rfl
    exact (List.nodup_cons.mp hr.nodup).1 hp
  apply Ring.congr hr
  · intro p hp
    rcases List.mem_cons.mp hp with rfl | hm
    · rw [Function.update_self, Function.update_self]
    · rw [Function.update_of_ne (hne p hm), Function.update_of_ne (hne p hm), (hn p hm).1]
  · intro p hp
    rcases List.mem_cons.mp hp with rfl | hm
    · rw [Function.update_self, Function.update_self]
    · rw [Function.update_of_ne (hne p hm), Function.update_of_ne (hne p hm), (hn p hm).2]

theorem ItemRing.head_eq (x : ℕ) (hr : ItemRing h head tail (x :: l)) : head = x := by
  have hn := hr.next_head
  rw [Function.update_self] at hn
  exact hn

theorem ItemRing.empty_iff (hr : ItemRing h head tail l) :
    (head = nullptr ↔ l = []) ∧ (tail = nullptr ↔ l = []) := by
  have hn := hr.next_head
  have hp := hr.prev_head
  rw [Function.update_self] at hn hp
  have hnull := (List.nodup_cons.mp hr.nodup).1
  cases l with
  | nil => exact ⟨⟨fun _ => rfl, fun _ => hn⟩, ⟨fun _ => rfl, fun _ => hp⟩⟩
  | cons x l =>
    have hx : head ∈ x :: l := by
      rw [hn]
      exact List.mem_cons_self
    have hy : tail ∈ x :: l := by
      rw [hp, List.getLast_cons (by simp)]
      exact List.getLast_mem _
    constructor
    · constructor
      · rintro rfl
        exact absurd hx hnull
      · intro he
        exact absurd he (by simp)
    · constructor
      · rintro rfl
        exact absurd hy hnull
      · intro he
        exact absurd he (by simp)

/-- A write that is left out for a null pointer, as every other pointer sees it. -/
theorem setNextUnlessNull_spec (p q : ℕ) (hp : p ≠ nullptr → dataOf h p ≠ none) :
    ∃ h', setNextUnlessNull h p q = some h' ∧
      (∀ r, r ≠ nullptr → nextOf h' r = Function.update (nextOf h) p q r) ∧
      prevOf h' = prevOf h ∧ dataOf h' = dataOf h := by
  by_cases hnull : p = nullptr
  · refine ⟨h, if_pos hnull, ?_, rfl, rfl⟩
    intro r hr
    rw [hnull, Function.update_of_ne hr]
  · rcases Option.ne_none_iff_exists'.mp (hp hnull) with ⟨d,hd⟩
    rcases setNext_spec h p q d hd with ⟨h',hs,hn,hp',hd'⟩
    refine ⟨h', (if_neg hnull).trans hs, ?_, hp', hd'⟩
    intro r _
    rw [hn]

theorem setPrevUnlessNull_spec (p q : ℕ) (hp : p ≠ nullptr → dataOf h p ≠ none) :
    ∃ h', setPrevUnlessNull h p q = some h' ∧
      (∀ r, r ≠ nullptr → prevOf h' r = Function.update (prevOf h) p q r) ∧
      nextOf h' = nextOf h ∧ dataOf h' = dataOf h := by
  by_cases hnull : p = nullptr
  · refine ⟨h, if_pos hnull, ?_, rfl, rfl⟩
    intro r hr
    rw [hnull, Function.update_of_ne hr]
  · rcases Option.ne_none_iff_exists'.mp (hp hnull) with ⟨d,hd⟩
    rcases setPrev_spec h p q d hd with ⟨h',hs,hn,hp',hd'⟩
    refine ⟨h', (if_neg hnull).trans hs, ?_, hp', hd'⟩
    intro r _
    rw [hn]

/-- The end of an insertion: the new item is behind `tail`. -/
theorem ItemRing.link (x : ℕ) (hr : ItemRing h head tail l) (hx : x ∉ nullptr :: l)
    (hlive : ∀ p ∈ x :: l, dataOf h p ≠ none) : ∃ h1 h2 h',
      setNext h x nullptr = some h1 ∧ setPrev h1 x tail = some h2 ∧
      setNextUnlessNull h2 tail x = some h' ∧
      ItemRing h' (if head = nullptr then x else head) x (l ++ [x]) ∧ dataOf h' = dataOf h := by
  rcases Option.ne_none_iff_exists'.mp (hlive x List.mem_cons_self) with ⟨dx,hdx⟩
  have htail : tail ∈ nullptr :: l := by
    have hp := hr.prev_mem
    rwa [Function.update_self] at hp
  rcases setNext_spec h x nullptr dx hdx with ⟨h1,hs1,hn1,hp1,hd1⟩
  rcases setPrev_spec h1 x tail dx (by rw [hd1, hdx]) with ⟨h2,hs2,hp2,hn2,hd2⟩
  rcases setNextUnlessNull_spec h2 tail x (by
    intro hne
    rw [hd2, hd1]
    exact hlive tail (List.mem_cons_of_mem x ((List.mem_cons.mp htail).resolve_left hne))) with
    ⟨h',hs3,hn3,hp3,hd3⟩
  refine ⟨h1, h2, h', hs1, hs2, hs3, ?_, hd3.trans (hd2.trans hd1)⟩
  -- the list is empty exactly if both ends are null
  have hends : head = nullptr ↔ nullptr = tail := by
    have he := hr.empty_iff h head tail l
    exact he.1.trans (he.2.symm.trans eq_comm)
  have hx0 : nullptr ≠ x := fun he => hx (by simp [he])
  have hback := Ring.link_back hr hx
  rw [Function.update_self] at hback
  -- besides the null pointer, the writes are those of the ring
  apply Ring.congr hback
  · intro p _
    by_cases hp : p = nullptr
    · simp only [hp, Function.update_apply, if_true, hends, hx0, if_false]
    · simp only [Function.update_apply, hp, if_false, hn3 p hp, hn2, hn1]
  · intro p _
    by_cases hp : p = nullptr
    · simp only [hp, Function.update_apply, if_true, hx0, if_false]
    · simp only [Function.update_apply, hp, if_false, hp3, hp2, hp1]

/-- The links of an item, and how they tell that it is the first or the last. -/
theorem ItemRing.neighbours (x : ℕ) (hr : ItemRing h head tail (l ++ x :: k)) :
    (nextOf h x ≠ nullptr → nextOf h x ∈ l ++ x :: k) ∧
    (prevOf h x ≠ nullptr → prevOf h x ∈ l ++ x :: k) ∧ nextOf h x ≠ x ∧ prevOf h x ≠ x ∧
    (x = head ↔ prevOf h x = nullptr) ∧ (x = tail ↔ nextOf h x = nullptr) := by
  have hx0 : x ≠ nullptr := by
    rintro rfl
    exact (List.nodup_cons.mp hr.nodup).1 (by simp)
  have hrot := Ring.rotate hr
  have hback (p : ℕ) (hp : p ∈ x :: (k ++ nullptr :: l)) (hne : p ≠ nullptr) : p ∈ l ++ x :: k := by
    simp only [List.mem_cons, List.mem_append] at hp ⊢
    tauto
  have hnext := hback _ hrot.next_mem
  have hprev := hback _ hrot.prev_mem
  have hne := Ring.neighbours_ne hr
  -- the null pointer is the node of the ring between the last item and the first
  have hinv0 := Ring.next_prev hr nullptr List.mem_cons_self
  have hinvx := Ring.next_prev hr x (by simp)
  rw [Function.update_self, Function.update_self] at hinv0
  rw [Function.update_of_ne hx0, Function.update_of_ne hx0] at hinvx hne
  rw [Function.update_of_ne hx0] at hnext hprev
  refine ⟨hnext, hprev, hne.1, hne.2, ?_, ?_⟩
  · constructor
    · rintro rfl
      rw [← hinv0.1, Function.update_of_ne hx0]
    · intro he
      rw [← hinvx.2, he, Function.update_self]
  · constructor
    · rintro rfl
      rw [← hinv0.2, Function.update_of_ne hx0]
    · intro he
      rw [← hinvx.1, he, Function.update_self]

/-- Taking an item out: `head` and `tail` move with it. -/
theorem ItemRing.unlink (x : ℕ) (hr : ItemRing h head tail (l ++ x :: k))
    (hlive : ∀ p ∈ l ++ x :: k, dataOf h p ≠ none) : ∃ h', unlinkItem h x = some h' ∧
      ItemRing h' (if x = head then nextOf h x else head) (if x = tail then prevOf h x else tail)
        (l ++ k) ∧ dataOf h' = dataOf h := by
  have hx0 : x ≠ nullptr := by
    rintro rfl
    exact (List.nodup_cons.mp hr.nodup).1 (by simp)
  rcases hr.neighbours h head tail l k x with ⟨hnext,hprev,hnx,hpx,hhead,htail⟩
  rcases Option.ne_none_iff_exists'.mp (hlive x (by simp)) with ⟨dx,hdx⟩
  rcases setNextUnlessNull_spec h (prevOf h x) (nextOf h x) (fun hne => hlive _ (hprev hne)) with
    ⟨h1,hs1,hn1,hp1,hd1⟩
  -- the first write is on a neighbour, so the source still reads the old links of `x`
  have hn1x : nextOf h1 x = nextOf h x := by
    rw [hn1 x hx0, Function.update_of_ne hpx.symm]
  rcases setPrevUnlessNull_spec h1 (nextOf h x) (prevOf h x) (by
    intro hne
    rw [hd1]
    exact hlive _ (hnext hne)) with ⟨h2,hs2,hp2,hn2,hd2⟩
  rcases setNext_spec h2 x nullptr dx (by rw [hd2, hd1, hdx]) with ⟨h3,hs3,hn3,hp3,hd3⟩
  rcases setPrev_spec h3 x nullptr dx (by rw [hd3, hd2, hd1, hdx]) with ⟨h4,hs4,hp4,hn4,hd4⟩
  refine ⟨h4, ?_, ?_, by rw [hd4, hd3, hd2, hd1]⟩
  · have hnode := dataOf_eq_some h x dx hdx
    have hnode1 : h1 x = some ⟨dx, prevOf h x, nextOf h x⟩ := by
      rw [← hp1, ← hn1x]
      exact dataOf_eq_some h1 x dx (by rw [hd1, hdx])
    simp only [unlinkItem, hnode, Option.bind_eq_bind, Option.bind_some, hs1, hnode1, hs2, hs3, hs4]
  · have hcut := Ring.cut hr
    rw [Function.update_of_ne hx0, Function.update_of_ne hx0] at hcut
    have hout (p : ℕ) (hp : p ∈ nullptr :: (l ++ k)) : p ≠ x := by
      rintro rfl
      apply (List.nodup_cons.mp (Ring.rotate hr).nodup).1
      simp only [List.mem_cons, List.mem_append] at hp ⊢
      tauto
    -- besides the null pointer, the writes are those of the ring
    apply Ring.congr hcut
    · intro p hp
      by_cases hnull : p = nullptr
      · simp only [hnull, Function.update_apply, if_true, hhead, eq_comm]
      · simp only [hn4, hn3, hn2, Function.update_apply, hnull, hout p hp, hn1 p hnull, if_false]
    · intro p hp
      by_cases hnull : p = nullptr
      · simp only [hnull, Function.update_apply, if_true, htail, eq_comm]
      · simp only [hp4, hp3, hp1, Function.update_apply, hnull, hout p hp, hp2 p hnull, if_false]

/-- The list is closed to a circle and opened again in front of `x`. -/
theorem ItemRing.turn (x : ℕ) (hr : ItemRing h head tail (l ++ x :: k))
    (hlive : ∀ p ∈ l ++ x :: k, dataOf h p ≠ none) : ∃ h1 h2 h3 h',
      setNext h tail head = some h1 ∧ setPrev h1 head tail = some h2 ∧
      setPrev h2 x nullptr = some h3 ∧ setNext h3 (prevOf h2 x) nullptr = some h' ∧
      ItemRing h' x (prevOf h2 x) (x :: (k ++ l)) ∧ dataOf h2 = dataOf h ∧
      dataOf h' = dataOf h := by
  have hnull := (List.nodup_cons.mp hr.nodup).1
  have hne (p : ℕ) (hp : p ∈ l ++ x :: k) : p ≠ nullptr := fun he => hnull (he ▸ hp)
  have hx : x ∈ l ++ x :: k := by simp
  have hends := hr.empty_iff h head tail _
  have hhead : head ∈ l ++ x :: k := by
    have hm := hr.next_mem
    rw [Function.update_self] at hm
    exact (List.mem_cons.mp hm).resolve_left (fun he => by simp [hends.1.mp he] at hx)
  have htail : tail ∈ l ++ x :: k := by
    have hm := hr.prev_mem
    rw [Function.update_self] at hm
    exact (List.mem_cons.mp hm).resolve_left (fun he => by simp [hends.2.mp he] at hx)
  rcases Option.ne_none_iff_exists'.mp (hlive tail htail) with ⟨dt,hdt⟩
  rcases setNext_spec h tail head dt hdt with ⟨h1,hs1,hn1,hp1,hd1⟩
  rcases Option.ne_none_iff_exists'.mp (hlive head hhead) with ⟨dh,hdh⟩
  rcases setPrev_spec h1 head tail dh (by rw [hd1, hdh]) with ⟨h2,hs2,hp2,hn2,hd2⟩
  rcases Option.ne_none_iff_exists'.mp (hlive x hx) with ⟨dx,hdx⟩
  rcases setPrev_spec h2 x nullptr dx (by rw [hd2, hd1, hdx]) with ⟨h3,hs3,hp3,hn3,hd3⟩
  -- the circle is the ring without the null pointer
  have hcut := Ring.cut (Ring.rotate hr)
  rw [Function.update_self, Function.update_self] at hcut
  have hprev : Function.update (Function.update (prevOf h) nullptr tail) head tail x =
      prevOf h2 x := by
    simp only [hp2, hp1, Function.update_apply, hne x hx, if_false]
  have hlast : prevOf h2 x ∈ l ++ x :: k := by
    have hm := hcut.prev_mem
    rw [hprev] at hm
    simp only [List.mem_cons, List.mem_append] at hm ⊢
    tauto
  rcases Option.ne_none_iff_exists'.mp (hlive _ hlast) with ⟨dl,hdl⟩
  rcases setNext_spec h3 (prevOf h2 x) nullptr dl (by rw [hd3, hd2, hd1, hdl]) with
    ⟨h4,hs4,hn4,hp4,hd4⟩
  refine ⟨h1, h2, h3, h4, hs1, hs2, hs3, hs4, ?_, hd2.trans hd1, by rw [hd4, hd3, hd2, hd1]⟩
  -- and the null pointer comes back in front of `x`
  have hout : nullptr ∉ x :: (k ++ l) := by
    intro hm
    apply hnull
    simp only [List.mem_cons, List.mem_append] at hm ⊢
    tauto
  have hback := Ring.rotate (Ring.link_back hcut hout)
  rw [hprev] at hback
  apply Ring.congr hback
  · intro p _
    by_cases hp : p = nullptr
    · simp only [hp, Function.update_apply, if_true, (hne _ hlast).symm, if_false]
    · simp only [Function.update_apply, hp, if_false, hn4, hn3, hn2, hn1]
  · intro p _
    by_cases hp : p = nullptr
    · simp only [hp, Function.update_apply, if_true]
    · simp only [Function.update_apply, hp, if_false, hp4, hp3, hp2, hp1]

/-- The clearing loop frees every item in the order of the list and counts them down. -/
theorem ItemRing.clear (items : UInt32) (fuel : ℕ) (hf : l.length < fuel)
    (hr : ItemRing h head tail l) (hlive : ∀ p ∈ l, dataOf h p ≠ none) :
    ∃ h', clearItems fuel h items head = some (h', items-UInt32.ofNat l.length, l) := by
  induction l generalizing h head tail items fuel with
  | nil =>
    obtain ⟨f,rfl⟩ := Nat.exists_eq_succ_of_ne_zero (Nat.ne_of_gt hf)
    refine ⟨h, ?_⟩
    rw [clearItems, if_pos ((hr.empty_iff h head tail []).1.mpr rfl)]
    simp
  | cons x l ih =>
    obtain ⟨f,rfl⟩ := Nat.exists_eq_succ_of_ne_zero (Nat.ne_of_gt (Nat.zero_lt_of_lt hf))
    obtain rfl := hr.head_eq h head tail l x
    have hx := (List.nodup_cons.mp (List.nodup_cons.mp hr.nodup).2).1
    rcases Option.ne_none_iff_exists'.mp (hlive head List.mem_cons_self) with ⟨d,hd⟩
    rcases hr.unlink h head tail [] l head hlive with ⟨h1,hs1,hr1,hd1⟩
    rw [if_pos rfl] at hr1
    -- the first item is freed, and the rest of the ring is not
    have hkeep (p : ℕ) (hp : p ∈ l) := free_of_ne h1 head p (fun he => hx (he ▸ hp))
    have hr2 := hr1.congr h1 _ _ l (free h1 head) (fun p hp => ⟨(hkeep p hp).1, (hkeep p hp).2.1⟩)
    rcases ih (free h1 head) (nextOf h head) _ (items-1) f (Nat.lt_of_succ_lt_succ hf) hr2 (by
      intro p hp
      rw [(hkeep p hp).2.2, hd1]
      exact hlive p (List.mem_cons_of_mem head hp)) with ⟨h',hs'⟩
    refine ⟨h', ?_⟩
    have hnull : head ≠ nullptr := by
      rintro rfl
      exact (List.nodup_cons.mp hr.nodup).1 List.mem_cons_self
    rw [clearItems, if_neg hnull]
    have hcount : items-1-UInt32.ofNat l.length = items-UInt32.ofNat (head :: l).length := by
      rw [List.length_cons, UInt32.ofNat_add]
      grind
    simp only [dataOf_eq_some h head d hd, Option.bind_eq_bind, Option.bind_some, hs1, hs', hcount]

end ring

end Cclab.Hashtable
