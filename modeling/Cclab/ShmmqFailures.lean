import Cclab.ShmmqCounters

/-! What a queue operation that reports an error has done. All exits of the two functions
leave the segment alone but one: `semaphore_v` may fail behind the update, and then the
error code stands for an operation that has taken place. -/
namespace Cclab.Shmmq
open ByteMemory

/-- The calls of `shmmq_enqueue` and `shmmq_dequeue`. -/
def QueueOperation : Call → Prop
  | .shmmqEnqueue _ _ => True
  | .shmmqDequeue _ _ => True
  | _ => False

/-- The arguments pass the first test of the function. -/
def Accepted (g : Statics) : Call → Prop
  | .shmmqEnqueue item size => item.isSome ∧ 0 < size ∧ size ≤ g.gItemsize
  | .shmmqDequeue item size => item = true ∧ 0 < size ∧ size ≤ g.gItemsize
  | _ => False

/-- The `goto queue_full` of the function is not taken. -/
def Possible (g : Statics) (q : Segment) : Call → Prop
  | .shmmqEnqueue _ _ => q.deqPos + UInt32.ofInt g.gMqsize - 1 ≠ q.enqPos
  | .shmmqDequeue _ _ => q.enqPos ≠ q.deqPos
  | _ => False

/-- The call enqueues or dequeues an item and then fails to give the semaphore back. -/
def ReleaseFails (sem : SemCall → Option ℕ) (st : System) (i : ℕ) (c : Call) : Prop :=
  Accepted (st.procs i) c ∧ sem (.semaphoreP (st.procs i).gSemid) ≠ none ∧
    (∃ id, (st.procs i).gPhead = some id ∧ Possible (st.procs i) (st.shm.segment id) c) ∧
    sem (.semaphoreV (st.procs i).gSemid) = none

/-- A non-zero return code means that the shared memory is as it was before the call. -/
def FailsClean (sem : SemCall → Option ℕ) (st : System) (i : ℕ) (c : Call) : Prop :=
  ∀ st' r, st.call sem (i,c) = some (st',r) → r.1 ≠ .success → st'.shm = st.shm

/-! The critical section of an operation: its return code, the bytes it hands out, and
the segment it leaves. -/

def critical (g : Statics) : Call → Segment → Ret × List UInt8 × Segment
  | .shmmqEnqueue (some item) size, q =>
    ((enqueueItem g item size q).1, [], (enqueueItem g item size q).2)
  | .shmmqDequeue _ size, q => dequeueItem g size q
  | _, q => (.errorInvalidArgument, [], q)

theorem critical_impossible (g : Statics) (q : Segment) (c : Call) (ha : Accepted g c)
    (hp : ¬ Possible g q c) : critical g c q = (.errorMsgqueueFull,[],q) := by
  cases c with
  | shmmqEnqueue item size =>
    obtain ⟨item,rfl⟩ := Option.isSome_iff_exists.mp ha.1
    have hfull : enqueueItem g item size q = (.errorMsgqueueFull,q) :=
      if_pos (not_ne_iff.mp hp)
    simp only [critical, hfull]
  | shmmqDequeue item size => exact if_pos (not_ne_iff.mp hp)
  | shmmqOpen env iscreated mqsize itemsize => exact ha.elim
  | shmmqClear sf => exact ha.elim

theorem uint32_succ_ne (x : UInt32) : x+1 ≠ x := by
  intro h
  have hx : x + 1 = x + 0 := by
    rw [h, UInt32.add_zero]
  exact absurd ((UInt32.add_right_inj x).mp hx) (by decide)

theorem critical_possible (g : Statics) (q : Segment) (c : Call) (ha : Accepted g c)
    (hp : Possible g q c) : (critical g c q).1 = .success ∧ (critical g c q).2.2 ≠ q := by
  cases c with
  | shmmqEnqueue item size =>
    obtain ⟨item,rfl⟩ := Option.isSome_iff_exists.mp ha.1
    have hroom : ¬ q.deqPos + UInt32.ofInt g.gMqsize - 1 = q.enqPos := hp
    simp only [critical, enqueueItem, if_neg hroom, true_and]
    intro hq
    exact uint32_succ_ne q.enqPos (congrArg Segment.enqPos hq)
  | shmmqDequeue item size =>
    have hitem : ¬ q.enqPos = q.deqPos := hp
    simp only [critical, dequeueItem, if_neg hitem, true_and]
    intro hq
    exact uint32_succ_ne q.deqPos (congrArg Segment.deqPos hq)
  | shmmqOpen env iscreated mqsize itemsize => exact ha.elim
  | shmmqClear sf => exact ha.elim

/-! The whole call, for every outcome of its semaphore calls. -/

theorem exec_release (sem : SemCall → Option ℕ) (semid : Option ℕ) (ret : Ret)
    (item : List UInt8) (w : World) :
    (release semid ret item).exec sem w =
      some (w, if sem (.semaphoreV semid) = none then .errorSemaphoreV else ret, item) := by
  by_cases hv : sem (.semaphoreV semid) = none
  · simp only [release, Code.exec, if_pos hv]
  · simp only [release, Code.exec, if_neg hv]

theorem code_refused (g : Statics) (c : Call) (hc : QueueOperation c) (ha : ¬ Accepted g c) :
    c.code g = .done .errorInvalidArgument [] := by
  cases c with
  | shmmqEnqueue item size =>
    cases item with
    | none => rfl
    | some item =>
      apply if_pos
      by_contra hs
      exact ha ⟨rfl, by omega, by omega⟩
  | shmmqDequeue item size =>
    apply if_pos
    by_contra hs
    simp only [not_or, Bool.not_eq_false] at hs
    exact ha ⟨hs.1, by omega, by omega⟩
  | shmmqOpen env iscreated mqsize itemsize => exact hc.elim
  | shmmqClear sf => exact hc.elim

theorem code_accepted (g : Statics) (c : Call) (ha : Accepted g c) :
    c.code g = .sem (.semaphoreP g.gSemid) fun r =>
      if r = none then .done .errorSemaphoreP []
      else match g.gPhead with
        | none => .fault
        | some id =>
          .act (fun w => { w with shm := w.shm.modify id (fun q => (critical g c q).2.2) })
            fun w => release g.gSemid (critical g c (w.shm.segment id)).1
              (critical g c (w.shm.segment id)).2.1 := by
  cases c with
  | shmmqEnqueue item size =>
    obtain ⟨item,rfl⟩ := Option.isSome_iff_exists.mp ha.1
    have hs : ¬ (size ≤ 0 ∨ size > g.gItemsize) := by
      have h1 := ha.2.1
      have h2 := ha.2.2
      omega
    exact if_neg hs
  | shmmqDequeue item size =>
    obtain ⟨rfl,h0,hle⟩ := ha
    have hs : ¬ (true = false ∨ size ≤ 0 ∨ size > g.gItemsize) := by
      simp only [Bool.true_eq_false, false_or]
      omega
    exact if_neg hs
  | shmmqOpen env iscreated mqsize itemsize => exact ha.elim
  | shmmqClear sf => exact ha.elim

/-- The call when its arguments are accepted and `semaphore_p` succeeds. -/
theorem call_accepted (sem : SemCall → Option ℕ) (st : System) (i : ℕ) (c : Call) (id : ℕ)
    (ha : Accepted (st.procs i) c) (hP : sem (.semaphoreP (st.procs i).gSemid) ≠ none)
    (hid : (st.procs i).gPhead = some id) :
    st.call sem (i,c) =
      some (⟨st.shm.modify id (fun q => (critical (st.procs i) c q).2.2), st.procs⟩,
        if sem (.semaphoreV (st.procs i).gSemid) = none then .errorSemaphoreV
        else (critical (st.procs i) c (st.shm.segment id)).1,
        (critical (st.procs i) c (st.shm.segment id)).2.1) := by
  simp only [System.call, code_accepted (st.procs i) c ha, Code.exec, if_neg hP, hid,
    exec_release, Option.map_some, Function.update_eq_self]

/-- The exits before the critical section change nothing. -/
theorem call_early (sem : SemCall → Option ℕ) (st st' : System) (i : ℕ) (c : Call)
    (r : Ret × List UInt8) (hc : QueueOperation c)
    (he : ¬ (Accepted (st.procs i) c ∧ sem (.semaphoreP (st.procs i).gSemid) ≠ none ∧
      (st.procs i).gPhead ≠ none))
    (h : st.call sem (i,c) = some (st',r)) : st' = st := by
  by_cases ha : Accepted (st.procs i) c
  · rw [System.call, code_accepted (st.procs i) c ha] at h
    by_cases hP : sem (.semaphoreP (st.procs i).gSemid) = none
    · simp only [Code.exec, if_pos hP, Option.map_some, Function.update_eq_self,
        Option.some.injEq, Prod.mk.injEq] at h
      exact h.1.symm
    · have hid : (st.procs i).gPhead = none := by
        by_contra hne
        exact he ⟨ha,hP,hne⟩
      simp only [Code.exec, if_neg hP, hid, Option.map_none, reduceCtorEq] at h
  · exact (call_invalid sem st st' (i,c) r (code_refused (st.procs i) c hc ha) h).1

theorem modify_self (m : Shm) (id : ℕ) (f : Segment → Segment)
    (h : f (m.segment id) = m.segment id) : m.modify id f = m := by
  unfold Shm.modify
  rw [h, Function.update_eq_self]

/-- A failed queue operation has no effect, for every state, all arguments and every
outcome of its semaphore calls, if and only if it is not one whose item has been copied
when `semaphore_v` fails. -/
theorem failsClean_iff (sem : SemCall → Option ℕ) (st : System) (i : ℕ) (c : Call)
    (hc : QueueOperation c) : FailsClean sem st i c ↔ ¬ ReleaseFails sem st i c := by
  constructor
  · rintro hclean ⟨ha,hP,⟨id,hid,hp⟩,hV⟩
    have hcall := call_accepted sem st i c id ha hP hid
    rw [if_pos hV] at hcall
    -- the call reports an error, so the segment should be the one before it
    have hshm := hclean _ _ hcall (by simp)
    apply (critical_possible (st.procs i) (st.shm.segment id) c ha hp).2
    calc
      _ = (st.shm.modify id (fun q => (critical (st.procs i) c q).2.2)).segment id :=
        (modify_segment _ _ _).symm
      _ = _ := congrArg (fun m => Shm.segment m id) hshm
  · intro hr st' r hcall hne
    by_cases he : Accepted (st.procs i) c ∧ sem (.semaphoreP (st.procs i).gSemid) ≠ none ∧
        (st.procs i).gPhead ≠ none
    · obtain ⟨ha,hP,hphead⟩ := he
      obtain ⟨id,hid⟩ := Option.ne_none_iff_exists'.mp hphead
      rw [call_accepted sem st i c id ha hP hid] at hcall
      obtain ⟨rfl,rfl⟩ := Prod.mk.inj (Option.some.inj hcall)
      by_cases hp : Possible (st.procs i) (st.shm.segment id) c
      -- an operation that took place fails only in `semaphore_v`, which is excluded
      · have hV : sem (.semaphoreV (st.procs i).gSemid) ≠ none := by
          intro hV
          exact hr ⟨ha,hP,⟨id,hid,hp⟩,hV⟩
        rw [if_neg hV] at hne
        exact absurd (critical_possible (st.procs i) (st.shm.segment id) c ha hp).1 hne
      -- a full or an empty queue is left alone
      · have hq := critical_impossible (st.procs i) (st.shm.segment id) c ha hp
        show st.shm.modify id (fun q => (critical (st.procs i) c q).2.2) = st.shm
        apply modify_self
        show (critical (st.procs i) c (st.shm.segment id)).2.2 = _
        rw [hq]
    · rw [call_early sem st st' i c r hc he hcall]

/-- The semaphore is taken and then removed by another process. -/
def semaphoreLost : SemCall → Option ℕ
  | .semaphoreV _ => none
  | c => semaphoresSucceed 0 c

/-- In a queue that has just been opened, `shmmq_dequeue` finds nothing and leaves nothing behind,
while `shmmq_enqueue` does. -/
theorem failsClean_iff_lost : ∃ st,
    System.initial.call (semaphoresSucceed 0) (0,.shmmqOpen ⟨8192,true⟩ 1 4 8) =
      some (st,.success,[]) ∧
    FailsClean semaphoreLost st 0 (.shmmqDequeue true 8) ∧
    ¬ FailsClean semaphoreLost st 0 (.shmmqEnqueue (some fun _ => 7) 8) := by
  refine ⟨_, rfl, ?_, ?_⟩
  · apply (failsClean_iff semaphoreLost _ 0 (.shmmqDequeue true 8) trivial).mpr
    rintro ⟨-,-,⟨id,hid,hp⟩,-⟩
    obtain rfl := Option.some.inj hid
    exact hp rfl
  · rw [failsClean_iff semaphoreLost _ 0 (.shmmqEnqueue (some fun _ => 7) 8) trivial, not_not]
    refine ⟨⟨rfl,?_,?_⟩, Option.some_ne_none _, ⟨0,rfl,?_⟩, rfl⟩
    · decide
    · decide
    · show _ ≠ _
      decide

/-- In a queue that has just been opened, `shmmq_enqueue` returns `ERROR_SEMAPHORE_V` with
the item in the queue. -/
theorem enqueue_fails_enqueued : ∃ st,
    System.initial.call (semaphoresSucceed 0) (0,.shmmqOpen ⟨8192,true⟩ 1 4 8) =
      some (st,.success,[]) ∧
    ¬ FailsClean semaphoreLost st 0 (.shmmqEnqueue (some fun _ => 7) 8) := by
  refine ⟨_, rfl, ?_⟩
  intro hclean
  have hshm := hclean _ _ rfl (by decide)
  have hpos := congrArg (fun m => (Shm.segment m 0).enqPos) hshm
  exact absurd hpos (by decide)

end Cclab.Shmmq
