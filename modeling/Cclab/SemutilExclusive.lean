import Cclab.SemutilModel

/-! The kernel's side of the exclusion: as long as nobody sets or removes a held semaphore,
its value, its holder and the adjustments on record agree. -/
namespace Cclab.Shmmq

/-- The semaphore `i` is the only one, has the value `v` and is held by `holder`. -/
structure Single (k : Kernel) (inside : ℕ → Option ℕ) (i v : ℕ) (holder : Option ℕ) : Prop where
  key : k.semKey = some i
  known : i < k.nextSemid
  value : k.semval i = some v
  others : ∀ j, j ≠ i → k.semval j = none
  inside : ∀ p, inside p = if holder = some p then some i else none
  semadj : ∀ p, k.semadj p i = if holder = some p then 1 else 0
  free : v ≤ 1
  held : holder ≠ none → v = 0

/-- No semaphore exists and nobody is inside. -/
structure Absent (k : Kernel) (inside : ℕ → Option ℕ) : Prop where
  value : ∀ i, k.semval i = none
  inside : ∀ p, inside p = none

/-- At most one semaphore exists and at most one process holds it. -/
structure Exclusive (k : Kernel) (inside : ℕ → Option ℕ) : Prop where
  fresh : ∀ i, k.nextSemid ≤ i → ∀ p, k.semadj p i = 0
  cases : Absent k inside ∨ ∃ i v holder, Single k inside i v holder

section kernel
variable (k : Kernel) (inside : ℕ → Option ℕ)

theorem Exclusive.onSemaphore (semid : Option ℕ) (f : ℕ → ℕ → Option (Kernel × Option ℕ))
    (r : Kernel × Option ℕ) (h : Exclusive k inside) (hr : k.onSemaphore semid f = some r) :
    r = (k,none) ∨ ∃ i v holder, Single k inside i v holder ∧ semid = some i ∧ f i v = some r := by
  cases semid with
  | none => exact Or.inl (Option.some.inj hr).symm
  | some j =>
    simp only [Kernel.onSemaphore] at hr
    rcases h.cases with ha | ⟨i,v,holder,hs⟩
    · rw [ha.value j] at hr
      exact Or.inl (Option.some.inj hr).symm
    · by_cases hji : j = i
      · subst hji
        rw [hs.value] at hr
        exact Or.inr ⟨j, v, holder, hs, rfl, hr⟩
      · rw [hs.others j hji] at hr
        exact Or.inl (Option.some.inj hr).symm

theorem Single.of_outside (i v : ℕ) (holder : Option ℕ) (hs : Single k inside i v holder)
    (ho : ∀ p, inside p = none) : holder = none := by
  cases holder with
  | none => rfl
  | some p =>
    have hp := hs.inside p
    rw [ho p, if_pos rfl] at hp
    exact absurd hp (by simp)

theorem Exclusive.getSemvalue (h : Exclusive k inside) : Exclusive k.getSemvalue.1 inside := by
  unfold Kernel.getSemvalue
  cases hk : k.semKey with
  | some i => exact h
  | none =>
    rcases h.cases with ha | ⟨i,v,holder,hs⟩
    · refine ⟨fun i hi => h.fresh i (Nat.le_of_succ_le hi), Or.inr ⟨k.nextSemid, 0, none, ?_⟩⟩
      refine ⟨rfl, Nat.lt_succ_self _, Function.update_self _ _ _, ?_, ?_, ?_, by decide, fun _ => rfl⟩
      · intro j hj
        dsimp only
        rw [Function.update_of_ne hj, ha.value j]
      · intro p
        rw [ha.inside p]
        rfl
      · intro p
        exact h.fresh _ (Nat.le_refl _) p
    · exact absurd (hs.key.symm.trans hk) (by simp)

theorem Exclusive.setSemvalue (semid : Option ℕ) (r : Kernel × Option ℕ)
    (h : Exclusive k inside)
    (ho : ∀ i, semid = some i → k.semval i ≠ none → ∀ p, inside p = none)
    (hr : k.setSemvalue semid = some r) : Exclusive r.1 inside := by
  rcases h.onSemaphore k inside semid _ r hr with rfl | ⟨i,v,holder,hs,hi,hf⟩
  · exact h
  · have ho' := ho i hi (by simp [hs.value])
    obtain rfl := hs.of_outside k inside i v holder ho'
    obtain rfl := Option.some.inj hf
    refine ⟨?_, Or.inr ⟨i, 1, none, hs.key, hs.known, Function.update_self _ _ _, ?_, hs.inside,
      fun p => if_pos rfl, by decide, fun h => absurd rfl h⟩⟩
    · intro j hj p
      have hji : j ≠ i := Nat.ne_of_gt (Nat.lt_of_lt_of_le hs.known hj)
      dsimp only
      rw [if_neg hji]
      exact h.fresh j hj p
    · intro j hj
      dsimp only
      rw [Function.update_of_ne hj, hs.others j hj]

theorem Exclusive.delSemvalue (semid : Option ℕ) (r : Kernel × Option ℕ)
    (h : Exclusive k inside)
    (ho : ∀ i, semid = some i → k.semval i ≠ none → ∀ p, inside p = none)
    (hr : k.delSemvalue semid = some r) : Exclusive r.1 inside := by
  rcases h.onSemaphore k inside semid _ r hr with rfl | ⟨i,v,holder,hs,hi,hf⟩
  · exact h
  · have ho' := ho i hi (by simp [hs.value])
    obtain rfl := Option.some.inj hf
    refine ⟨h.fresh, Or.inl ⟨?_, ho'⟩⟩
    intro j
    by_cases hj : j = i
    · rw [hj]
      exact Function.update_self _ _ _
    · dsimp only
      rw [Function.update_of_ne hj, hs.others j hj]

/-- Changing the value of the only semaphore together with its holder. -/
theorem Single.adjust (p i v w : ℕ) (d : ℤ) (holder holder' o : Option ℕ)
    (hs : Single k inside i v holder)
    (hin : ∀ q, Function.update inside p o q = if holder' = some q then some i else none)
    (hadj : ∀ q, (if holder = some q then (1:ℤ) else 0)+(if q = p then d else 0) =
      if holder' = some q then 1 else 0)
    (hfree : w ≤ 1) (hheld : holder' ≠ none → w = 0) :
    Single (k.adjust p i w d) (Function.update inside p o) i w holder' := by
  refine ⟨hs.key, hs.known, Function.update_self _ _ _, ?_, hin, ?_, hfree, hheld⟩
  · intro j hj
    exact (Function.update_of_ne hj _ _).trans (hs.others j hj)
  · intro q
    rw [← hadj q, ← hs.semadj q]
    by_cases hq : q = p
    · subst hq
      simp only [Kernel.adjust, Function.update_self, if_pos]
    · simp only [Kernel.adjust, Function.update_of_ne hq, if_neg hq, Int.add_zero]

theorem Exclusive.adjust (p i v w : ℕ) (d : ℤ) (holder holder' o : Option ℕ)
    (h : Exclusive k inside) (hs : Single k inside i v holder)
    (hs' : Single (k.adjust p i w d) (Function.update inside p o) i w holder') :
    Exclusive (k.adjust p i w d) (Function.update inside p o) := by
  refine ⟨?_, Or.inr ⟨i,w,holder',hs'⟩⟩
  intro j hj q
  have hji : j ≠ i := by
    have hi := hs.known
    change k.nextSemid ≤ j at hj
    omega
  rw [← h.fresh j hj q]
  by_cases hq : q = p
  · subst hq
    simp only [Kernel.adjust, Function.update_self, Function.update_of_ne hji]
  · simp only [Kernel.adjust, Function.update_of_ne hq]

theorem Exclusive.semaphoreP (p : ℕ) (semid : Option ℕ) (r : Kernel × Option ℕ)
    (h : Exclusive k inside) (hp : inside p = none) (hr : k.semaphoreP p semid = some r) :
    Exclusive r.1 (Function.update inside p (insideAfter (.semaphoreP semid) r.2 (inside p))) := by
  rcases h.onSemaphore k inside semid _ r hr with rfl | ⟨i,v,holder,hs,rfl,hf⟩
  · simpa only [insideAfter, if_pos, Function.update_eq_self] using h
  · cases v with
    | zero => exact absurd hf (by simp)
    | succ v =>
      obtain rfl := Option.some.inj hf
      -- a positive value means that nobody holds the semaphore
      obtain rfl : holder = none := by
        by_contra hn
        exact absurd (hs.held hn) (by omega)
      obtain rfl : v = 0 := by
        have hfree := hs.free
        omega
      apply h.adjust k inside p i 1 0 1 none (some p) _ hs
      apply hs.adjust k inside p i 1 0 1 none (some p) _ _ _ (by decide) fun _ => rfl
      · intro q
        by_cases hq : q = p
        · subst hq
          rw [Function.update_self, if_pos rfl]
          rfl
        · rw [Function.update_of_ne hq, if_neg fun h => hq (Option.some.inj h).symm]
          exact hs.inside q
      · intro q
        by_cases hq : q = p
        · rw [if_pos hq, if_pos (congrArg some hq.symm)]
          rfl
        · rw [if_neg hq, if_neg fun h => hq (Option.some.inj h).symm]
          rfl

/-- A process inside holds the only semaphore. -/
theorem Exclusive.holding (p i : ℕ) (h : Exclusive k inside) (hp : inside p = some i) :
    Single k inside i 0 (some p) := by
  rcases h.cases with ha | ⟨j,v,holder,hs⟩
  · exact absurd (hp.symm.trans (ha.inside p)) (by simp)
  · have hin := hs.inside p
    rw [hp] at hin
    by_cases hh : holder = some p
    · subst hh
      rw [if_pos rfl] at hin
      obtain rfl := Option.some.inj hin
      obtain rfl := hs.held (by simp)
      exact hs
    · rw [if_neg hh] at hin
      exact absurd hin (by simp)

/-- The holder leaves the semaphore: its value is 1 again and the adjustment is cancelled. -/
theorem Exclusive.leave (p i : ℕ) (h : Exclusive k inside) (hp : inside p = some i) :
    Exclusive (k.adjust p i 1 (-1)) (Function.update inside p none) := by
  have hs := h.holding k inside p i hp
  apply h.adjust k inside p i 0 1 (-1) (some p) none _ hs
  apply hs.adjust k inside p i 0 1 (-1) (some p) none _ _ _ (by decide) fun h => absurd rfl h
  · intro q
    rw [if_neg (by simp)]
    by_cases hq : q = p
    · rw [hq, Function.update_self]
    · rw [Function.update_of_ne hq, hs.inside q, if_neg fun h => hq (Option.some.inj h).symm]
  · intro q
    rw [if_neg (show ¬ none = some q by simp)]
    by_cases hq : q = p
    · rw [if_pos hq, if_pos (congrArg some hq.symm)]
      rfl
    · rw [if_neg hq, if_neg fun h => hq (Option.some.inj h).symm]
      rfl

theorem Exclusive.semaphoreV (p i : ℕ) (r : Kernel × Option ℕ) (h : Exclusive k inside)
    (hp : inside p = some i) (hr : k.semaphoreV p (some i) = some r) :
    Exclusive r.1 (Function.update inside p none) := by
  have hv := (h.holding k inside p i hp).value
  simp only [Kernel.semaphoreV, Kernel.onSemaphore, hv] at hr
  rw [if_pos (by decide)] at hr
  obtain rfl := Option.some.inj hr
  exact h.leave k inside p i hp

theorem exit_semval (p i v : ℕ) (d : ℤ) (hv : k.semval i = some v) (hd : k.semadj p i = d)
    (hle : ((v:ℤ)+d).toNat ≤ 1) : (k.exit p).semval i = some ((v:ℤ)+d).toNat := by
  have hmin : min semvmx ((v:ℤ)+d).toNat = ((v:ℤ)+d).toNat :=
    Nat.min_eq_right (Nat.le_trans hle (by decide))
  simp only [Kernel.exit, hv, hd, Option.map_some, hmin]

/-- A crash gives the semaphore back as `semaphore_v` would have done. -/
theorem Exclusive.exit (p : ℕ) (h : Exclusive k inside) :
    Exclusive (k.exit p) (Function.update inside p none) := by
  have hadj (q i : ℕ) : (k.exit p).semadj q i = if q = p then 0 else k.semadj q i := by
    by_cases hq : q = p
    · simp only [Kernel.exit, hq, Function.update_self, if_pos]
    · simp only [Kernel.exit, Function.update_of_ne hq, if_neg hq]
  have hin (q : ℕ) : Function.update inside p none q = if q = p then none else inside q := by
    by_cases hq : q = p
    · rw [hq, Function.update_self, if_pos rfl]
    · rw [Function.update_of_ne hq, if_neg hq]
  have hgone (i : ℕ) (hi : k.semval i = none) : (k.exit p).semval i = none := by
    simp only [Kernel.exit, hi, Option.map_none]
  refine ⟨?_, ?_⟩
  · intro i hi q
    rw [hadj, h.fresh i hi q, ite_self]
  · rcases h.cases with ha | ⟨i,v,holder,hs⟩
    · left
      refine ⟨fun i => hgone i (ha.value i), ?_⟩
      intro q
      rw [hin, ha.inside q, ite_self]
    · right
      -- the kernel undoes what the dead process did, which is something only for the holder
      by_cases hh : holder = some p
      · subst hh
        obtain rfl := hs.held (by simp)
        refine ⟨i, 1, none, hs.key, hs.known, ?_, fun j hj => hgone j (hs.others j hj), ?_, ?_,
          Nat.le_refl 1, fun h => absurd rfl h⟩
        · exact exit_semval k p i 0 1 hs.value ((hs.semadj p).trans (if_pos rfl)) (by decide)
        · intro q
          rw [hin, hs.inside q]
          by_cases hq : q = p
          · simp [hq]
          · simp [hq, Ne.symm hq]
        · intro q
          rw [hadj, hs.semadj q]
          by_cases hq : q = p
          · simp [hq]
          · simp [hq, Ne.symm hq]
      · refine ⟨i, v, holder, hs.key, hs.known, ?_, fun j hj => hgone j (hs.others j hj), ?_, ?_,
          hs.free, hs.held⟩
        · have hexit := exit_semval k p i v 0 hs.value ((hs.semadj p).trans (if_neg hh))
            (by have hfree := hs.free; omega)
          simpa using hexit
        · intro q
          rw [hin, hs.inside q]
          by_cases hq : q = p
          · simp [hq, hh]
          · simp [hq]
        · intro q
          rw [hadj, hs.semadj q]
          by_cases hq : q = p
          · simp [hq, hh]
          · simp [hq]

end kernel

end Cclab.Shmmq
