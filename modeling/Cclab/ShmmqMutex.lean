import Cclab.ShmmqBrackets
import Cclab.SemutilExclusive

/-! Mutual exclusion of the queue calls. What breaks it is only that `shmmq_open` sets the
semaphore to 1, or removes it, while another process is inside. -/
namespace Cclab.Shmmq
open OperationRuns

/-- What the answer to a semaphore call leaves: the kernel with the process in or out of
the semaphore, and the rest of its code. `ho` is needed only where the call sets or removes
a semaphore. -/
theorem Exclusive.reply (k : Kernel) (inside : ℕ → Option ℕ) (p : ℕ) (c : SemCall)
    (code : Option ℕ → Code) (fails : Bool) (r : Kernel × Option ℕ) (h : Exclusive k inside)
    (hb : Bracketed (inside p) (.sem c code)) (hr : k.reply p c fails = some r)
    (ho : fails = false → ∀ i, c = .setSemvalue (some i) ∨ c = .delSemvalue (some i) →
      k.semval i ≠ none → ∀ q, inside q = none) :
    Exclusive r.1 (Function.update inside p (insideAfter c r.2 (inside p))) ∧
      Bracketed (insideAfter c r.2 (inside p)) (code r.2) := by
  cases fails with
  | true =>
    -- a failing call changes nothing, and each early return is outside
    unfold Kernel.reply at hr
    rw [if_pos rfl] at hr
    cases c with
    | getSemvalue =>
      obtain rfl := Option.some.inj hr
      simp only [insideAfter, Function.update_eq_self]
      exact ⟨h, by rw [hb.1]; exact hb.2 none⟩
    | setSemvalue semid =>
      obtain rfl := Option.some.inj hr
      simp only [insideAfter, Function.update_eq_self]
      exact ⟨h, by rw [hb.1]; exact hb.2.1 none⟩
    | delSemvalue semid =>
      obtain rfl := Option.some.inj hr
      simp only [insideAfter, Function.update_eq_self]
      exact ⟨h, by rw [hb.1]; exact hb.2 none⟩
    | semaphoreP semid =>
      obtain rfl := Option.some.inj hr
      simp only [insideAfter, if_pos, Function.update_eq_self]
      exact ⟨h, by rw [hb.1]; exact hb.2.1⟩
    | semaphoreV semid => exact absurd hr (by simp [SemCall.mayFail])
  | false =>
    change k.answer p c = some r at hr
    cases c with
    | getSemvalue =>
      obtain rfl := Option.some.inj hr
      simp only [insideAfter, Function.update_eq_self]
      exact ⟨h.getSemvalue, by rw [hb.1]; exact hb.2 _⟩
    | setSemvalue semid =>
      simp only [insideAfter, Function.update_eq_self]
      refine ⟨h.setSemvalue k inside semid r ?_ hr, by rw [hb.1]; exact hb.2.1 _⟩
      rintro i rfl
      exact ho rfl i (Or.inl rfl)
    | delSemvalue semid =>
      simp only [insideAfter, Function.update_eq_self]
      refine ⟨h.delSemvalue k inside semid r ?_ hr, by rw [hb.1]; exact hb.2 _⟩
      rintro i rfl
      exact ho rfl i (Or.inr rfl)
    | semaphoreP semid =>
      refine ⟨h.semaphoreP k inside p semid r hb.1 hr, ?_⟩
      rcases h.onSemaphore k inside semid _ r hr with rfl | ⟨i,v,holder,hs,rfl,hf⟩
      · simp only [insideAfter, if_pos, hb.1]
        exact hb.2.1
      · cases v with
        | zero => exact absurd hf (by simp)
        | succ v =>
          obtain rfl := Option.some.inj hf
          exact hb.2.2 i 0 rfl
    | semaphoreV semid =>
      obtain ⟨⟨i,hi,rfl⟩,hrest⟩ := hb
      exact ⟨h.semaphoreV k inside p i r hi hr, hrest _⟩

def Status.Brackets (o : Option ℕ) : Status → Prop
  | .running c => Bracketed o c
  | _ => o = none

/-- The invariant of the machine. -/
structure Mutex (s : Machine) : Prop where
  kernel : Exclusive s.kernel s.inside
  brackets : ∀ p, (s.status p).Brackets (s.inside p)
  idle : ∃ n, ∀ p, n ≤ p → s.status p = .idle

/-- The step sets the semaphore to 1 or removes it. -/
def Resets (s : Machine) : Event → Prop
  | .sem p false => ∃ i c k, (c = .setSemvalue (some i) ∨ c = .delSemvalue (some i)) ∧
      s.status p = .running (.sem c k) ∧ s.kernel.semval i ≠ none
  | _ => False

/-- Nobody is inside when the semaphore is set or removed. -/
def Guarded (s : Machine) (e : Event) : Prop := Resets s e → ∀ p, s.inside p = none

theorem brackets_update (s : Machine) (p : ℕ) (st : Status) (o : Option ℕ)
    (h : ∀ q, (s.status q).Brackets (s.inside q)) (hst : st.Brackets o) (q : ℕ) :
    (Function.update s.status p st q).Brackets (Function.update s.inside p o q) := by
  by_cases hq : q = p
  · subst hq
    rwa [Function.update_self, Function.update_self]
  · rw [Function.update_of_ne hq, Function.update_of_ne hq]
    exact h q

theorem idle_update (s : Machine) (p : ℕ) (st : Status)
    (h : ∃ n, ∀ q, n ≤ q → s.status q = .idle) :
    ∃ n, ∀ q, n ≤ q → Function.update s.status p st q = .idle := by
  obtain ⟨n,hn⟩ := h
  refine ⟨n+p+1, fun q hq => ?_⟩
  rw [Function.update_of_ne (by omega)]
  exact hn q (by omega)

/-- A step that leaves the semaphore alone. -/
theorem Mutex.keep (s : Machine) (p : ℕ) (st : Status) (shm : Shm) (statics : ℕ → Statics)
    (h : Mutex s) (hst : st.Brackets (s.inside p)) :
    Mutex { s with shm := shm, statics := statics, status := Function.update s.status p st } := by
  refine ⟨h.kernel, ?_, idle_update s p st h.idle⟩
  have hb := brackets_update s p st (s.inside p) h.brackets hst
  rwa [Function.update_eq_self] at hb

theorem Mutex.step (s s' : Machine) (e : Event) (h : Mutex s) (hg : Guarded s e)
    (hs : s.step e = some s') : Mutex s' := by
  cases e with
  | start p c =>
    have hb := h.brackets p
    cases hst : s.status p with
    | idle =>
      simp only [Machine.step, hst, Option.some.injEq] at hs
      subst hs
      rw [hst] at hb
      -- a call starts outside, and its code is bracketed
      apply h.keep s p _ s.shm s.statics
      rw [show s.inside p = none from hb]
      exact bracketed_call _ c
    | _ => simp [Machine.step, hst] at hs
  | compute p =>
    have hb := h.brackets p
    cases hst : s.status p with
    | running c =>
      rw [hst] at hb
      cases c with
      | done ret item =>
        simp only [Machine.step, hst, Option.some.injEq] at hs
        subst hs
        exact h.keep s p .idle s.shm s.statics hb
      | fault =>
        simp only [Machine.step, hst, Option.some.injEq] at hs
        subst hs
        -- a crash inside releases the semaphore
        exact ⟨h.kernel.exit s.kernel s.inside p, brackets_update s p .crashed none h.brackets rfl,
          idle_update s p .crashed h.idle⟩
      | act f k =>
        simp only [Machine.step, hst, Option.some.injEq] at hs
        subst hs
        exact h.keep s p _ _ _ (hb _)
      | sem c k => simp [Machine.step, hst] at hs
    | _ => simp [Machine.step, hst] at hs
  | sem p fails =>
    have hb := h.brackets p
    cases hst : s.status p with
    | running code =>
      rw [hst] at hb
      cases code with
      | sem c k =>
        simp only [Machine.step, hst, Option.map_eq_some_iff] at hs
        obtain ⟨r,hr,rfl⟩ := hs
        have hrep := h.kernel.reply s.kernel s.inside p c k fails r hb hr (by
          rintro rfl i hc hv
          exact hg ⟨i, c, k, hc, hst, hv⟩)
        exact ⟨hrep.1, brackets_update s p _ _ h.brackets hrep.2, idle_update s p _ h.idle⟩
      | _ => simp [Machine.step, hst] at hs
    | _ => simp [Machine.step, hst] at hs

/-- At most one process is between `semaphore_p` and `semaphore_v`, and no semaphore is
above 1. -/
def MutuallyExclusive (s : Machine) : Prop :=
  (∀ p q, s.inside p ≠ none → s.inside q ≠ none → p = q) ∧
    ∀ i v, s.kernel.semval i = some v → v ≤ 1

theorem mutex_initial : Mutex Machine.initial :=
  ⟨⟨fun _ _ _ => rfl, Or.inl ⟨fun _ => rfl, fun _ => rfl⟩⟩, fun _ => rfl, 0, fun _ _ => rfl⟩

theorem Mutex.mutuallyExclusive (s : Machine) (h : Mutex s) : MutuallyExclusive s := by
  rcases h.kernel.cases with ha | ⟨i,v,holder,hs⟩
  · exact ⟨fun p _ hp => absurd (ha.inside p) hp, fun i v hv => absurd hv (by simp [ha.value i])⟩
  · refine ⟨?_, ?_⟩
    -- whoever is inside is the holder, and there is only one
    · have hholder (p : ℕ) (hp : s.inside p ≠ none) : holder = some p := by
        by_contra hn
        exact hp ((hs.inside p).trans (if_neg hn))
      intro p q hp hq
      exact Option.some.inj ((hholder p hp).symm.trans (hholder q hq))
    · intro j w hj
      by_cases hji : j = i
      · subst hji
        obtain rfl := Option.some.inj (hj.symm.trans hs.value)
        exact hs.free
      · exact absurd hj (by simp [hs.others j hji])

/-- Setting a held semaphore lets the process that did it in. -/
theorem set_violates (s s' : Machine) (p q i : ℕ) (k : Option ℕ → Code) (h : Mutex s)
    (hq : s.inside q ≠ none) (hst : s.status p = .running (.sem (.setSemvalue (some i)) k))
    (hv : s.kernel.semval i ≠ none) (hs : s.step (.sem p false) = some s') :
    ∃ s'', s'.step (.sem p false) = some s'' ∧ ¬ MutuallyExclusive s'' := by
  have hb := h.brackets p
  rw [hst] at hb
  obtain ⟨hp,-,hnext⟩ := hb
  obtain ⟨k',hk'⟩ := hnext 0
  obtain ⟨v,hv⟩ := Option.ne_none_iff_exists'.mp hv
  have hpq : q ≠ p := by
    rintro rfl
    exact hq hp
  simp only [Machine.step, hst, Kernel.reply, Kernel.answer, Kernel.setSemvalue, Kernel.onSemaphore,
    hv, Bool.false_eq_true, if_false, Option.map_some, Option.some.injEq, hk'] at hs
  subst hs
  -- the value is 1 again, and the next call of the same process enters
  refine ⟨_, by
    simp only [Machine.step, Function.update_self, Kernel.reply, Bool.false_eq_true, if_false,
      Kernel.answer, Kernel.semaphoreP, Kernel.onSemaphore, Option.map_some]
    rfl, ?_⟩
  intro hm
  have hone := hm.1 p q
  simp only [Function.update_self, Function.update_of_ne hpq, insideAfter, reduceCtorEq, if_false,
    ne_eq, not_false_eq_true, forall_const] at hone
  exact hpq (hone hq).symm

/-- Where the semaphore is gone, `shmmq_open` makes a new one and enters it. -/
theorem open_enters (s : Machine) (p : ℕ) (hp : s.status p = .idle) (hk : s.kernel.semKey = none) :
    ∃ s', [.start p (.shmmqOpen ⟨0,false⟩ 1 1 1), .sem p false, .compute p, .sem p false,
      .sem p false].foldlM Machine.step s = some s' ∧
      s'.inside = Function.update s.inside p (some s.kernel.nextSemid) := by
  simp [Machine.step, hp, hk, Call.code, shmmqOpen, Kernel.reply, Kernel.answer, Kernel.getSemvalue,
    Kernel.setSemvalue, Kernel.semaphoreP, Kernel.onSemaphore, shmmqOpenLocked, insideAfter]

/-- Removing a held semaphore lets the next process in that opens the queue. -/
theorem del_violates (s s' : Machine) (p q i : ℕ) (k : Option ℕ → Code) (h : Mutex s)
    (hq : s.inside q ≠ none) (hst : s.status p = .running (.sem (.delSemvalue (some i)) k))
    (hv : s.kernel.semval i ≠ none) (hs : s.step (.sem p false) = some s') :
    ∃ (es : List Event) (s'' : Machine), es.foldlM Machine.step s' = some s'' ∧
      ¬ MutuallyExclusive s'' := by
  obtain ⟨j,hj⟩ := Option.ne_none_iff_exists'.mp hq
  obtain ⟨v,hv⟩ := Option.ne_none_iff_exists'.mp hv
  have hkey := (h.kernel.holding s.kernel s.inside q j hj).key
  have hval := (h.kernel.holding s.kernel s.inside q j hj).others i
  -- there is only one semaphore, so the removed one is held
  obtain rfl : i = j := by
    by_contra hn
    exact absurd (hval hn) (by simp [hv])
  simp only [Machine.step, hst, Kernel.reply, Kernel.answer, Kernel.delSemvalue, Kernel.onSemaphore,
    hv, Bool.false_eq_true, if_false, Option.map_some, Option.some.injEq, insideAfter,
    Function.update_eq_self, hkey, if_true] at hs
  -- some process has not started anything yet
  obtain ⟨n,hn⟩ := h.idle
  have hfar : n+p+q+1 ≠ q := by omega
  have hidle : s'.status (n+p+q+1) = .idle := by
    subst hs
    dsimp only
    rw [Function.update_of_ne (by omega)]
    exact hn _ (by omega)
  obtain ⟨s'',hrun,hin⟩ := open_enters s' (n+p+q+1) hidle (by rw [← hs])
  refine ⟨_, s'', hrun, ?_⟩
  intro hm
  have hone := hm.1 (n+p+q+1) q
  rw [hin, Function.update_self, Function.update_of_ne hfar.symm, ← hs] at hone
  exact hfar (hone (by simp) hq)

/-- Every run in which the semaphore is set and removed only while nobody is inside keeps
the calls mutually exclusive, and the first step that breaks this rule leads to two
processes inside. -/
theorem shmmq_exclusive_while_guarded (es : List Event) (s : Machine)
    (hrun : GuardedRun Machine.step Guarded Machine.initial es s) :
    MutuallyExclusive s ∧
      ∀ e s', s.step e = some s' → ¬ Guarded s e → ∃ es' s'',
        GuardedRun Machine.step (fun _ _ => True) Machine.initial (es ++ [e] ++ es') s'' ∧
          ¬ MutuallyExclusive s'' := by
  have h : Mutex s := hrun.invariant Mutex
    (fun s e s' h hg hs => h.step s s' e hg hs) _ s es mutex_initial
  refine ⟨h.mutuallyExclusive, ?_⟩
  intro e s' hs hg
  unfold Guarded at hg
  push Not at hg
  obtain ⟨hreset,q,hq⟩ := hg
  have hrun' := GuardedRun.step es e s s' (hrun.weaken (fun _ _ => True) (fun _ _ _ => trivial) _ s es)
    trivial hs
  -- only a semaphore call that does not fail can break the rule
  cases e with
  | sem p fails =>
    cases fails with
    | true => exact absurd hreset (fun h => h)
    | false =>
      obtain ⟨i,c,k,rfl | rfl,hst,hv⟩ := hreset
      · obtain ⟨s'',hstep,hn⟩ := set_violates s s' p q i k h hq hst hv hs
        exact ⟨[.sem p false], s'', .step _ _ s' s'' hrun' trivial hstep, hn⟩
      · obtain ⟨es',s'',hfold,hn⟩ := del_violates s s' p q i k h hq hst hv hs
        exact ⟨es', s'', hrun'.trans _ s' s'' _ es' (.of_foldlM s' s'' es' hfold), hn⟩
  | _ => exact absurd hreset (fun h => h)

/-- Process 0 creates the queue and enters its critical section alone. -/
theorem shmmq_exclusive_while_guarded_open : ∃ es s,
    GuardedRun Machine.step Guarded Machine.initial es s ∧ s.inside 0 = some 0 ∧
      MutuallyExclusive s := by
  have hout (s : Machine) (e : Event) (h : s.inside = fun _ => none) : Guarded s e :=
    fun _ p => congrFun h p
  have hrun : ∃ es s, GuardedRun Machine.step Guarded Machine.initial es s ∧
      s.inside 0 = some 0 := by
    refine ⟨_, _, .step _ (.sem 0 false) _ _ (.step _ (.sem 0 false) _ _ (.step _ (.compute 0) _ _
      (.step _ (.sem 0 false) _ _ (.step [] (.start 0 (.shmmqOpen ⟨8192,true⟩ 1 2 1)) _ _ .start
        (hout _ _ rfl) rfl) (hout _ _ ?_) rfl) (hout _ _ ?_) rfl) (hout _ _ ?_) rfl)
        (hout _ _ ?_) rfl, rfl⟩
    all_goals simp [Machine.initial, insideAfter]
  obtain ⟨es,s,hrun,hin⟩ := hrun
  exact ⟨es, s, hrun, hin, (shmmq_exclusive_while_guarded es s hrun).1⟩

/-- Process 0 created the queue and is inside `shmmq_enqueue` when process 1 opens the queue
with `iscreated`, sets the semaphore to 1 and enters as well. -/
theorem open_enters_held_queue : ∃ es s,
    GuardedRun Machine.step (fun _ _ => True) Machine.initial es s ∧ ¬ MutuallyExclusive s := by
  refine ⟨[.start 0 (.shmmqOpen ⟨8192,true⟩ 1 2 1), .sem 0 false, .compute 0, .sem 0 false,
    .sem 0 false, .compute 0, .sem 0 false, .compute 0,
    .start 0 (.shmmqEnqueue (some fun _ => 7) 1), .sem 0 false,
    .start 1 (.shmmqOpen ⟨8192,true⟩ 1 2 1), .sem 1 false, .compute 1, .sem 1 false,
    .sem 1 false], _, .of_foldlM _ _ _ rfl, ?_⟩
  intro hm
  exact absurd (hm.1 0 1 (by decide) (by decide)) (by decide)

end Cclab.Shmmq
