import Mathlib.Data.List.Nodup
import Mathlib.Logic.Function.Basic
import Mathlib.Tactic.Common

/-! Linked lists threaded through the pointers of their own nodes: doubly linked
rings and singly linked chains, and what relinking a few pointers does to them. -/
namespace Cclab.IntrusiveLists

variable {N : Type*} {next prev next' prev' : N → N}

theorem mem_snoc_iff (p h : N) (l : List N) : p ∈ l ++ [h] ↔ p ∈ h :: l := by
  rw [List.mem_append, List.mem_singleton, List.mem_cons, or_comm]

/-- Following `next` from `a` passes exactly the nodes of `l` and arrives at `b`,
and `prev` undoes every one of these steps. -/
def Seg (next prev : N → N) : N → List N → N → Prop
  | a, [], b => next a = b ∧ prev b = a
  | a, x :: l, b => next a = x ∧ prev x = a ∧ Seg next prev x l b

theorem seg_append (a x b : N) (l k : List N) :
    Seg next prev a (l ++ x :: k) b ↔ Seg next prev a l x ∧ Seg next prev x k b := by
  induction l generalizing a with
  | nil => simp only [List.nil_append, Seg, and_assoc]
  | cons y l ih => simp only [List.cons_append, Seg, ih, and_assoc]

theorem seg_congr (a b : N) (l : List N) (h : Seg next prev a l b)
    (hn : ∀ p ∈ a :: l, next' p = next p) (hp : ∀ p ∈ l ++ [b], prev' p = prev p) :
    Seg next' prev' a l b := by
  induction l generalizing a with
  | nil =>
    refine ⟨(hn a (by simp)).trans h.1, (hp b (by simp)).trans h.2⟩
  | cons x l ih =>
    obtain ⟨h1,h2,h3⟩ := h
    refine ⟨(hn a (by simp)).trans h1, (hp x (by simp)).trans h2, ih x h3 ?_ ?_⟩
    · intro p hm
      exact hn p (List.mem_cons_of_mem a hm)
    · intro p hm
      exact hp p (List.mem_cons_of_mem x hm)

/-- The first step of a segment leads to its first node, or to its end. -/
theorem seg_next (a b : N) (l : List N) (h : Seg next prev a l b) :
    next a = (l ++ [b]).head (by simp) := by
  cases l with
  | nil => exact h.1
  | cons x l => exact h.1

theorem seg_unique (a b : N) (l k : List N) (hl : Seg next prev a l b) (hk : Seg next prev a k b)
    (hbl : b ∉ l) (hbk : b ∉ k) : l = k := by
  induction l generalizing a k with
  | nil =>
    cases k with
    | nil => rfl
    | cons y k =>
      obtain rfl : y = b := hk.1.symm.trans hl.1
      exact absurd List.mem_cons_self hbk
  | cons x l ih =>
    cases k with
    | nil =>
      obtain rfl : x = b := hl.1.symm.trans hk.1
      exact absurd List.mem_cons_self hbl
    | cons y k =>
      obtain rfl : y = x := hk.1.symm.trans hl.1
      have hrest := ih y k hl.2.2 hk.2.2 (List.not_mem_of_not_mem_cons hbl)
        (List.not_mem_of_not_mem_cons hbk)
      rw [hrest]

theorem seg_prev (a b : N) (l : List N) (h : Seg next prev a l b) :
    prev b = (a :: l).getLast (by simp) := by
  induction l generalizing a with
  | nil => exact h.2
  | cons x l ih =>
    rw [List.getLast_cons (by simp)]
    exact ih x h.2.2

/-- A new start `x` takes over the first step of `a`. -/
theorem seg_restart (a b x : N) (l : List N) (h : Seg next prev a l b)
    (hd : (l ++ [b]).Nodup) (hx : next' x = next a) (hb : prev' (next a) = x)
    (hn : ∀ p ∈ l, next' p = next p)
    (hp : ∀ p ∈ l ++ [b], p ≠ next a → prev' p = prev p) : Seg next' prev' x l b := by
  cases l with
  | nil =>
    obtain ⟨h1,-⟩ := h
    rw [h1] at hx hb
    exact ⟨hx,hb⟩
  | cons y l =>
    obtain ⟨h1,h2,h3⟩ := h
    rw [h1] at hx hb hp
    refine ⟨hx, hb, seg_congr y b l h3 hn ?_⟩
    intro p hm
    apply hp p (List.mem_cons_of_mem y hm)
    rintro rfl
    exact (List.nodup_cons.mp hd).1 hm

/-- A new end `c` takes over the last step into `b`. -/
theorem seg_retarget (a b c : N) (l : List N) (h : Seg next prev a l b)
    (hd : (a :: l).Nodup) (hx : next' (prev b) = c) (hc : prev' c = prev b)
    (hn : ∀ p ∈ a :: l, p ≠ prev b → next' p = next p)
    (hp : ∀ p ∈ l, prev' p = prev p) : Seg next' prev' a l c := by
  induction l generalizing a with
  | nil =>
    obtain ⟨-,h2⟩ := h
    rw [h2] at hx hc
    exact ⟨hx,hc⟩
  | cons x l ih =>
    obtain ⟨h1,h2,h3⟩ := h
    have hlast := seg_prev x b l h3
    have hne : a ≠ prev b := by
      intro he
      apply (List.nodup_cons.mp hd).1
      rw [he, hlast]
      exact List.getLast_mem _
    refine ⟨(hn a (by simp) hne).trans h1, (hp x (by simp)).trans h2,
      ih x h3 (List.nodup_cons.mp hd).2 ?_ ?_⟩
    · intro p hm
      exact hn p (List.mem_cons_of_mem a hm)
    · intro p hm
      exact hp p (List.mem_cons_of_mem x hm)

/-- A closed doubly linked ring through `h`, with the other nodes in the order `l`. -/
structure Ring (next prev : N → N) (h : N) (l : List N) : Prop where
  nodup : (h :: l).Nodup
  seg : Seg next prev h l h

/-- The links determine the ring. -/
theorem Ring.unique (h : N) (l k : List N) (hl : Ring next prev h l) (hk : Ring next prev h k) :
    l = k :=
  seg_unique h h l k hl.seg hk.seg (List.nodup_cons.mp hl.nodup).1 (List.nodup_cons.mp hk.nodup).1

theorem Ring.singleton (h : N) (hn : next h = h) (hp : prev h = h) : Ring next prev h [] :=
  ⟨List.nodup_singleton h, hn, hp⟩

theorem Ring.congr {h : N} {l : List N} (hr : Ring next prev h l)
    (hn : ∀ p ∈ h :: l, next' p = next p) (hp : ∀ p ∈ h :: l, prev' p = prev p) :
    Ring next' prev' h l := by
  refine ⟨hr.nodup, seg_congr h h l hr.seg hn ?_⟩
  intro p hm
  exact hp p ((mem_snoc_iff p h l).mp hm)

/-- The ring seen from another of its nodes. -/
theorem Ring.rotate {h x : N} {l k : List N} (hr : Ring next prev h (l ++ x :: k)) :
    Ring next prev x (k ++ h :: l) := by
  obtain ⟨hs,ht⟩ := (seg_append h x h l k).mp hr.seg
  refine ⟨?_, (seg_append x h x k l).mpr ⟨ht,hs⟩⟩
  have hperm : (h :: (l ++ x :: k)).Perm (x :: (k ++ h :: l)) := by
    have h1 : (h :: l ++ x :: k).Perm (x :: k ++ h :: l) := List.perm_append_comm
    exact h1
  exact hperm.nodup_iff.mp hr.nodup

theorem Ring.next_head {h : N} {l : List N} (hr : Ring next prev h l) :
    next h = (l ++ [h]).head (by simp) := seg_next h h l hr.seg

theorem Ring.prev_head {h : N} {l : List N} (hr : Ring next prev h l) :
    prev h = (h :: l).getLast (by simp) := seg_prev h h l hr.seg

theorem Ring.next_mem {h : N} {l : List N} (hr : Ring next prev h l) : next h ∈ h :: l := by
  rw [hr.next_head]
  exact (mem_snoc_iff _ h l).mp (List.head_mem _)

theorem Ring.prev_mem {h : N} {l : List N} (hr : Ring next prev h l) : prev h ∈ h :: l := by
  rw [hr.prev_head]
  exact List.getLast_mem _

/-- `prev` is the inverse of `next` all around the ring, and the other way. -/
theorem Ring.next_prev {h : N} {l : List N} (hr : Ring next prev h l) (p : N) (hp : p ∈ h :: l) :
    prev (next p) = p ∧ next (prev p) = p := by
  have hhead (a : N) (k : List N) (ha : Ring next prev a k) :
      prev (next a) = a ∧ next (prev a) = a := by
    have hs := ha.seg
    cases k with
    | nil => exact ⟨by rw [hs.1, hs.2], by rw [hs.2, hs.1]⟩
    | cons x k =>
      refine ⟨by rw [hs.1, hs.2.1], ?_⟩
      rcases List.eq_nil_or_concat k with rfl | ⟨k',y,rfl⟩
      · rw [hs.2.2.2, hs.2.2.1]
      · have hy := (seg_append x y a k' []).mp (by simpa using hs.2.2)
        rw [hy.2.2, hy.2.1]
  rcases List.mem_cons.mp hp with rfl | hm
  · exact hhead p l hr
  · obtain ⟨s,t,rfl⟩ := List.append_of_mem hm
    exact hhead p _ hr.rotate

/-- Linking a new node in right behind `h`. -/
theorem Ring.push_front {h x : N} {l : List N} (hr : Ring next prev h l) (hx : x ∉ h :: l)
    (h1 : next' h = x) (h2 : prev' x = h) (h3 : next' x = next h) (h4 : prev' (next h) = x)
    (hn : ∀ p ∈ l, next' p = next p)
    (hp : ∀ p ∈ h :: l, p ≠ next h → prev' p = prev p) : Ring next' prev' h (x :: l) := by
  have hd := hr.nodup
  have hcomm : (h :: l).Perm (l ++ [h]) := (List.perm_append_singleton h l).symm
  have hd' : (l ++ [h]).Nodup := hcomm.nodup_iff.mp hd
  refine ⟨?_, h1, h2, seg_restart h h x l hr.seg hd' h3 h4 hn ?_⟩
  · simp only [List.mem_cons, not_or] at hx
    simp only [List.nodup_cons, List.mem_cons, not_or] at hd ⊢
    exact ⟨⟨fun he => hx.1 he.symm, hd.1⟩, hx.2, hd.2⟩
  · intro p hm hne
    exact hp p ((mem_snoc_iff p h l).mp hm) hne

/-- Linking a new node in right before `h`, that is at the end of the list. -/
theorem Ring.push_back {h x : N} {l : List N} (hr : Ring next prev h l) (hx : x ∉ h :: l)
    (h1 : next' (prev h) = x) (h2 : prev' x = prev h) (h3 : next' x = h) (h4 : prev' h = x)
    (hn : ∀ p ∈ h :: l, p ≠ prev h → next' p = next p)
    (hp : ∀ p ∈ l, prev' p = prev p) : Ring next' prev' h (l ++ [x]) := by
  have hinv := hr.next_prev h (by simp)
  rcases List.eq_nil_or_concat l with rfl | ⟨k,a,rfl⟩
  · have hph : prev h = h := hr.seg.2
    rw [hph] at h1 h2
    have hnh : next h = h := hr.seg.1
    exact hr.push_front hx h1 h2 (h3.trans hnh.symm) (by rw [hnh, h4]) (by simp)
      (by simp [hnh])
  -- seen from the last node `a`, the new node comes right behind the start
  · have ha : prev h = a := by
      rw [hr.prev_head]
      simp
    rw [ha] at h1 h2 hn hinv
    rw [List.concat_eq_append] at hr hx hn hp ⊢
    have hr' : Ring next prev a (h :: k) := hr.rotate
    have hmem (p : N) : p ∈ h :: (k ++ [a]) ↔ p ∈ a :: h :: k := by
      simp only [List.mem_cons, List.mem_append, List.not_mem_nil, or_false]
      tauto
    have hpush : Ring next' prev' a (x :: h :: k) := by
      apply hr'.push_front (fun hm => hx ((hmem x).mpr hm)) h1 h2 (h3.trans hinv.2.symm)
        (by rw [hinv.2, h4])
      · intro p hm
        apply hn p ((hmem p).mpr (List.mem_cons_of_mem a hm))
        rintro rfl
        exact (List.nodup_cons.mp hr'.nodup).1 hm
      · intro p hm hne
        rw [hinv.2] at hne
        have hm' := (hmem p).mpr hm
        rcases List.mem_cons.mp hm' with rfl | hk
        · exact absurd rfl hne
        · exact hp p hk
    have hback : Ring next' prev' h (k ++ a :: [x]) := @Ring.rotate N next' prev' a h [x] k hpush
    simpa using hback

/-- Unlinking a node: its neighbours point past it. -/
theorem Ring.unlink {h x : N} {l k : List N} (hr : Ring next prev h (l ++ x :: k))
    (h1 : next' (prev x) = next x) (h2 : prev' (next x) = prev x)
    (hn : ∀ p ∈ h :: (l ++ k), p ≠ prev x → next' p = next p)
    (hp : ∀ p ∈ h :: (l ++ k), p ≠ next x → prev' p = prev p) : Ring next' prev' h (l ++ k) := by
  -- a ring that is seen from the unlinked node closes over its second node
  have hhead (y : N) (m : List N) (ha : Ring next prev x (y :: m))
      (hsub : ∀ p ∈ y :: m, p ∈ h :: (l ++ k)) : Ring next' prev' y m := by
    obtain ⟨hnx,hpy,hs⟩ := ha.seg
    have hd := (List.nodup_cons.mp ha.nodup).2
    rw [hnx] at h1 h2 hp
    refine ⟨hd, seg_retarget y x y m hs hd h1 h2 ?_ ?_⟩
    · intro p hm hne
      exact hn p (hsub p hm) hne
    · intro p hm
      apply hp p (hsub p (List.mem_cons_of_mem y hm))
      rintro rfl
      exact (List.nodup_cons.mp hd).1 hm
  have hr' := hr.rotate
  cases k with
  | nil =>
    rw [List.append_nil]
    apply hhead h l hr'
    intro p hm
    simpa using hm
  | cons y k =>
    have hy := hhead y (k ++ h :: l) hr' (by
      intro p hm
      simp only [List.mem_cons, List.mem_append] at hm ⊢
      tauto)
    exact hy.rotate

/-- A node besides `h` is not its own neighbour. -/
theorem Ring.neighbours_ne {h x : N} {l k : List N} (hr : Ring next prev h (l ++ x :: k)) :
    next x ≠ x ∧ prev x ≠ x := by
  have hr' := hr.rotate
  have hx := (List.nodup_cons.mp hr'.nodup).1
  have hne : k ++ h :: l ≠ [] := by simp
  constructor
  · rw [hr'.next_head, List.head_append_left hne]
    intro he
    have hm := List.head_mem hne
    rw [he] at hm
    exact hx hm
  · rw [hr'.prev_head, List.getLast_cons hne]
    intro he
    have hm := List.getLast_mem hne
    rw [he] at hm
    exact hx hm

section update
variable [DecidableEq N]

/-- The four writes that link `x` in behind `h`. -/
theorem Ring.link_front {h x : N} {l : List N} (hr : Ring next prev h l) (hx : x ∉ h :: l) :
    Ring (Function.update (Function.update next x (next h)) h x)
      (Function.update (Function.update prev x h) (next h) x) h (x :: l) := by
  have hxh : x ≠ h := fun he => hx (by simp [he])
  have hne : ∀ p ∈ h :: l, p ≠ x := by
    rintro p hp rfl
    exact hx hp
  have hxn : x ≠ next h := (hne _ hr.next_mem).symm
  apply hr.push_front hx
  · rw [Function.update_self]
  · rw [Function.update_of_ne hxn, Function.update_self]
  · rw [Function.update_of_ne hxh, Function.update_self]
  · rw [Function.update_self]
  · intro p hp
    have hph : p ≠ h := by
      rintro rfl
      exact (List.nodup_cons.mp hr.nodup).1 hp
    rw [Function.update_of_ne hph, Function.update_of_ne (hne p (List.mem_cons_of_mem h hp))]
  · intro p hp hpn
    rw [Function.update_of_ne hpn, Function.update_of_ne (hne p hp)]

/-- The four writes that link `x` in behind the last node, which is before `h`. -/
theorem Ring.link_back {h x : N} {l : List N} (hr : Ring next prev h l) (hx : x ∉ h :: l) :
    Ring (Function.update (Function.update next x h) (prev h) x)
      (Function.update (Function.update prev h x) x (prev h)) h (l ++ [x]) := by
  have hne : ∀ p ∈ h :: l, p ≠ x := by
    rintro p hp rfl
    exact hx hp
  have hxp : x ≠ prev h := (hne _ hr.prev_mem).symm
  apply hr.push_back hx
  · rw [Function.update_self]
  · rw [Function.update_self]
  · rw [Function.update_of_ne hxp, Function.update_self]
  · rw [Function.update_of_ne (hne h List.mem_cons_self), Function.update_self]
  · intro p hp hpn
    rw [Function.update_of_ne hpn, Function.update_of_ne (hne p hp)]
  · intro p hp
    have hph : p ≠ h := by
      rintro rfl
      exact (List.nodup_cons.mp hr.nodup).1 hp
    rw [Function.update_of_ne (hne p (List.mem_cons_of_mem h hp)), Function.update_of_ne hph]

/-- The two writes that unlink `x`. -/
theorem Ring.cut {h x : N} {l k : List N} (hr : Ring next prev h (l ++ x :: k)) :
    Ring (Function.update next (prev x) (next x)) (Function.update prev (next x) (prev x)) h
      (l ++ k) := by
  apply hr.unlink
  · rw [Function.update_self]
  · rw [Function.update_self]
  · intro p _ hp
    exact Function.update_of_ne hp _ _
  · intro p _ hp
    exact Function.update_of_ne hp _ _

end update

/-- A singly linked chain from the pointer `o`, ended by a null pointer. -/
def Chain (nxt : N → Option N) : Option N → List N → Prop
  | o, [] => o = none
  | o, p :: l => o = some p ∧ Chain nxt (nxt p) l

variable {nxt nxt' : N → Option N}

theorem Chain.congr {o : Option N} {l : List N} (h : Chain nxt o l)
    (hn : ∀ p ∈ l, nxt' p = nxt p) : Chain nxt' o l := by
  induction l generalizing o with
  | nil => exact h
  | cons p l ih =>
    refine ⟨h.1, ?_⟩
    rw [hn p (by simp)]
    exact ih h.2 (fun q hq => hn q (List.mem_cons_of_mem p hq))

theorem Chain.unique {o : Option N} {l k : List N} (hl : Chain nxt o l) (hk : Chain nxt o k) :
    l = k := by
  induction l generalizing o k with
  | nil =>
    cases k with
    | nil => rfl
    | cons q k => exact absurd (hl.symm.trans hk.1) (by simp)
  | cons p l ih =>
    cases k with
    | nil => exact absurd (hl.1.symm.trans hk) (by simp)
    | cons q k =>
      obtain rfl : p = q := Option.some.inj (hl.1.symm.trans hk.1)
      rw [ih hl.2 hk.2]

theorem Chain.suffix {o : Option N} {l k : List N} {p : N} (h : Chain nxt o (l ++ p :: k)) :
    Chain nxt (nxt p) k := by
  induction l generalizing o with
  | nil => exact h.2
  | cons q l ih => exact ih h.2

/-- A chain that ends never comes back to one of its nodes. -/
theorem Chain.nodup {o : Option N} {l : List N} (h : Chain nxt o l) : l.Nodup := by
  induction l generalizing o with
  | nil => exact List.nodup_nil
  | cons p l ih =>
    refine List.nodup_cons.mpr ⟨?_, ih h.2⟩
    intro hm
    obtain ⟨s,t,rfl⟩ := List.append_of_mem hm
    have hlen := congrArg List.length (Chain.unique h.2 h.2.suffix)
    simp only [List.length_append, List.length_cons] at hlen
    omega

/-- Unlinking `x`: whatever pointed at it, the chain's own pointer or the node
before it, now points at its successor. -/
theorem Chain.unlink {o : Option N} {l k : List N} {x : N} (h : Chain nxt o (l ++ x :: k))
    (hlast : ∀ p ∈ l.getLast?, nxt' p = nxt x)
    (hn : ∀ p ∈ l ++ k, l.getLast? ≠ some p → nxt' p = nxt p) :
    Chain nxt' (if l = [] then nxt x else o) (l ++ k) := by
  have hd := h.nodup
  induction l generalizing o with
  | nil =>
    simp only [List.nil_append, if_true]
    exact h.2.congr (fun p hp => hn p (by simpa using hp) (by simp))
  | cons q l ih =>
    simp only [reduceCtorEq, if_false]
    refine ⟨h.1, ?_⟩
    have hq := (List.nodup_cons.mp hd).1
    have hrest := ih h.2 (fun p hp => hlast p (by
        cases l with
        | nil => simp at hp
        | cons r l => simpa using hp)) (fun p hp hne => hn p (List.mem_cons_of_mem q hp) (by
        cases l with
        | nil =>
          intro he
          obtain rfl : q = p := by simpa using he
          exact hq (by simpa using Or.inr hp)
        | cons r l => simpa using hne)) (List.nodup_cons.mp hd).2
    cases l with
    | nil =>
      rw [hlast q (by simp)]
      simpa using hrest
    | cons r l =>
      have hkeep : nxt' q = nxt q := by
        apply hn q (by simp)
        intro he
        apply hq
        have hm : q ∈ r :: l := List.mem_of_getLast? (by simpa using he)
        exact List.mem_append_left _ hm
      rw [hkeep]
      simpa using hrest

end Cclab.IntrusiveLists
