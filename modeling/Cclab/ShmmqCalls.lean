import Cclab.ShmmqModel

/-! The queue as processes with one common geometry use it: what each of their calls
can do to the shared memory. -/
namespace Cclab.Shmmq
open ByteMemory

/-- A process that opened the segment `shmid` with `m` items of `s` bytes. -/
structure Opened (semid shmid m : ℕ) (s : ℤ) (g : Statics) : Prop where
  semid : g.gSemid = some semid
  phead : g.gPhead = some shmid
  mqsize : g.gMqsize = m
  itemsize : g.gItemsize = s

/-- Every process either has no segment yet or opened the one under the key. -/
structure Joined (semid shmid m : ℕ) (s : ℤ) (st : System) : Prop where
  key : st.shm.key = some shmid
  members : ∀ i, (st.procs i).gPhead = none ∨ Opened semid shmid m s (st.procs i)

/-- The calls of processes that use the geometry `(m,s)`: joining, enqueueing, dequeueing. -/
def QueueCall (m : ℕ) (s : ℤ) : Call → Prop
  | .shmmqOpen _ iscreated mqsize itemsize => iscreated = 0 ∧ mqsize = m ∧ itemsize = s
  | .shmmqEnqueue _ _ => True
  | .shmmqDequeue _ _ => True
  | .shmmqClear _ => False

-- the item that a call enqueued, and the size that it dequeued and the bytes that it stored, if it did
def enqueuedBy : (ℕ × Call) × Ret × List UInt8 → Option (List UInt8)
  | ((_,.shmmqEnqueue (some item) size),.success,_) => some (load item 0 size.toNat)
  | _ => none

def dequeuedBy : (ℕ × Call) × Ret × List UInt8 → Option (ℕ × List UInt8)
  | ((_,.shmmqDequeue _ size),.success,bytes) => some (size.toNat,bytes)
  | _ => none

def enqueued (cs : List (ℕ × Call)) (rs : List (Ret × List UInt8)) : List (List UInt8) :=
  (cs.zip rs).filterMap enqueuedBy

def dequeued (cs : List (ℕ × Call)) (rs : List (Ret × List UInt8)) : List (ℕ × List UInt8) :=
  (cs.zip rs).filterMap dequeuedBy

theorem enqueuedBy_eq_none (c : ℕ × Call) (r : Ret × List UInt8) (h : r.1 ≠ .success) :
    enqueuedBy (c,r) = none := by
  obtain ⟨i,c⟩ := c
  obtain ⟨ret,bytes⟩ := r
  cases c with
  | shmmqEnqueue item size => cases item <;> cases ret <;> first | rfl | exact absurd rfl h
  | _ => rfl

theorem dequeuedBy_eq_none (c : ℕ × Call) (r : Ret × List UInt8) (h : r.1 ≠ .success) :
    dequeuedBy (c,r) = none := by
  obtain ⟨i,c⟩ := c
  obtain ⟨ret,bytes⟩ := r
  cases c with
  | shmmqDequeue item size => cases ret <;> first | rfl | exact absurd rfl h
  | _ => rfl

@[simp] theorem modify_segment (m : Shm) (id : ℕ) (f : Segment → Segment) :
    (m.modify id f).segment id = f (m.segment id) := by
  simp only [Shm.modify, Function.update_self]

/-! What the calls do when they are run alone. -/

section exec
variable (semid shmid m : ℕ) (s : ℤ) (st : System) (i : ℕ)
  (ho : Opened semid shmid m s (st.procs i))
include ho

theorem call_enqueue (item : Mem) (size : ℤ) (h0 : 0 < size) (hs : size ≤ s) :
    st.call (semaphoresSucceed semid) (i,.shmmqEnqueue (some item) size) =
      some (⟨st.shm.modify shmid (fun q => (enqueueItem (st.procs i) item size q).2),
          st.procs⟩,
        (enqueueItem (st.procs i) item size (st.shm.segment shmid)).1, []) := by
  have hsize : ¬ (size ≤ 0 ∨ size > (st.procs i).gItemsize) := by
    rw [ho.itemsize]
    omega
  simp only [System.call, Call.code, shmmqEnqueue, if_neg hsize, Code.exec, ho.semid, ho.phead,
    semaphoresSucceed, release, reduceCtorEq, if_false, Option.map_some, Function.update_eq_self]

theorem call_dequeue (size : ℤ) (h0 : 0 < size) (hs : size ≤ s) :
    st.call (semaphoresSucceed semid) (i,.shmmqDequeue true size) =
      some (⟨st.shm.modify shmid (fun q => (dequeueItem (st.procs i) size q).2.2),
          st.procs⟩,
        (dequeueItem (st.procs i) size (st.shm.segment shmid)).1,
        (dequeueItem (st.procs i) size (st.shm.segment shmid)).2.1) := by
  have hsize : ¬ (False ∨ size ≤ 0 ∨ size > (st.procs i).gItemsize) := by
    rw [ho.itemsize, false_or]
    omega
  simp only [System.call, Call.code, shmmqDequeue, Bool.true_eq_false, if_neg hsize, Code.exec,
    ho.semid, ho.phead, semaphoresSucceed, release, reduceCtorEq, if_false, Option.map_some, Function.update_eq_self]

end exec

/-- `shmmq_open` with every semaphore call succeeding. -/
theorem exec_open (semid : ℕ) (env : OpenEnv) (iscreated mqsize itemsize : ℤ) (w : World) :
    (shmmqOpen env iscreated mqsize itemsize).exec (semaphoresSucceed semid) w =
      let a := attachSegment env iscreated mqsize itemsize
        { w with proc := { w.proc with gSemid := some semid } }
      some (if a.1 ≠ .success ∧ iscreated ≠ 0 then removeSegment a.2 else a.2, a.1, []) := by
  have hlocked (w : World) : (shmmqOpenLocked env (some semid) iscreated mqsize itemsize).exec
      (semaphoresSucceed semid) w =
      let a := attachSegment env iscreated mqsize itemsize w
      some (if a.1 ≠ .success ∧ iscreated ≠ 0 then removeSegment a.2 else a.2, a.1, []) := by
    simp only [shmmqOpenLocked, Code.exec, semaphoresSucceed, reduceCtorEq, if_false]
    split_ifs <;> simp only [Code.exec, release, semaphoresSucceed, reduceCtorEq, if_false]
  simp only [shmmqOpen, Code.exec, semaphoresSucceed, reduceCtorEq, if_false]
  by_cases hc : iscreated ≠ 0
  · rw [if_pos hc]
    simp only [Code.exec, semaphoresSucceed, reduceCtorEq, if_false, hlocked]
  · rw [if_neg hc, hlocked]

/-- Joining the queue that exists changes the statics of the joining process only. -/
theorem attach_existing (env : OpenEnv) (m : ℕ) (s : ℤ) (hm : 0 < m) (semid shmid : ℕ) (w : World)
    (hk : w.shm.key = some shmid) (hs : w.proc.gSemid = some semid)
    (hp : w.proc.gPhead = none ∨ w.proc.gPhead = some shmid) :
    (attachSegment env 0 m s w).2.shm = w.shm ∧
      ((attachSegment env 0 m s w).2.proc.gPhead = none ∨
        Opened semid shmid m (installedItemsize s) (attachSegment env 0 m s w).2.proc) := by
  have hm' : installedMqsize m = m := if_neg (by omega)
  simp only [attachSegment, shmget, hk, ne_eq, not_true_eq_false, if_false]
  by_cases hsize : requestedSize (installedMqsize m) (installedItemsize s) ≤
      (w.shm.segment shmid).size
  · simp only [if_pos hsize]
    split_ifs
    · exact ⟨rfl, Or.inr ⟨hs,rfl,hm',rfl⟩⟩
    · exact ⟨rfl, hp.imp id (fun h => ⟨hs,h,hm',rfl⟩)⟩
  · simp only [if_neg hsize]
    exact ⟨trivial, hp.imp id (fun h => ⟨hs,h,hm',rfl⟩)⟩

theorem call_open_existing (semid shmid m : ℕ) (s : ℤ) (hm : 0 < m) (st st' : System) (i : ℕ)
    (env : OpenEnv) (r : Ret × List UInt8) (hj : Joined semid shmid m (installedItemsize s) st)
    (h : st.call (semaphoresSucceed semid) (i,.shmmqOpen env 0 m s) = some (st',r)) :
    Joined semid shmid m (installedItemsize s) st' ∧ st'.shm = st.shm := by
  let w : World := ⟨st.shm, { st.procs i with gSemid := some semid }⟩
  have ha := attach_existing env m s hm semid shmid w hj.key rfl
    ((hj.members i).imp id (fun ho => ho.phead))
  simp only [System.call, Call.code, exec_open, ne_eq, not_true_eq_false, and_false, if_false,
    Option.map_some, Option.some.injEq, Prod.mk.injEq] at h
  obtain ⟨rfl,-⟩ := h
  refine ⟨⟨?_, ?_⟩, ha.1⟩
  · change (attachSegment env 0 m s w).2.shm.key = _
    rw [ha.1]
    exact hj.key
  · intro j
    by_cases hji : j = i
    · subst hji
      simpa only [Function.update_self] using ha.2
    · simpa only [ne_eq, hji, not_false_eq_true, Function.update_of_ne] using hj.members j

/-- A process without a segment cannot enqueue: the call fails or never returns. -/
theorem call_enqueue_detached (sem : SemCall → Option ℕ) (st st' : System) (i : ℕ)
    (item : Option Mem) (size : ℤ) (r : Ret × List UInt8) (hp : (st.procs i).gPhead = none)
    (h : st.call sem (i,.shmmqEnqueue item size) = some (st',r)) :
    st' = st ∧ r.1 ≠ .success := by
  cases item with
  | none =>
    simp only [System.call, Call.code, shmmqEnqueue, Code.exec, Option.map_some,
      Function.update_eq_self, Option.some.injEq, Prod.mk.injEq] at h
    obtain ⟨rfl,rfl⟩ := h
    exact ⟨rfl, by simp⟩
  | some item =>
    simp only [System.call, Call.code, shmmqEnqueue, hp] at h
    split_ifs at h
    · simp only [Code.exec, Option.map_some, Function.update_eq_self, Option.some.injEq,
        Prod.mk.injEq] at h
      obtain ⟨rfl,rfl⟩ := h
      exact ⟨rfl, by simp⟩
    · simp only [Code.exec] at h
      split_ifs at h <;> simp only [Code.exec, Option.map_some, Option.map_none,
        Function.update_eq_self, Option.some.injEq, Prod.mk.injEq, reduceCtorEq] at h
      obtain ⟨rfl,rfl⟩ := h
      exact ⟨rfl, by simp⟩

theorem call_dequeue_detached (sem : SemCall → Option ℕ) (st st' : System) (i : ℕ)
    (item : Bool) (size : ℤ) (r : Ret × List UInt8) (hp : (st.procs i).gPhead = none)
    (h : st.call sem (i,.shmmqDequeue item size) = some (st',r)) :
    st' = st ∧ r.1 ≠ .success := by
  simp only [System.call, Call.code, shmmqDequeue, hp] at h
  split_ifs at h
  · simp only [Code.exec, Option.map_some, Function.update_eq_self, Option.some.injEq,
      Prod.mk.injEq] at h
    obtain ⟨rfl,rfl⟩ := h
    exact ⟨rfl, by simp⟩
  · simp only [Code.exec] at h
    split_ifs at h <;> simp only [Code.exec, Option.map_some, Option.map_none,
      Function.update_eq_self, Option.some.injEq, Prod.mk.injEq, reduceCtorEq] at h
    obtain ⟨rfl,rfl⟩ := h
    exact ⟨rfl, by simp⟩

/-- A call whose arguments are refused before `semaphore_p`. -/
theorem call_invalid (sem : SemCall → Option ℕ) (st st' : System) (c : ℕ × Call)
    (r : Ret × List UInt8) (hc : c.2.code (st.procs c.1) = .done .errorInvalidArgument [])
    (h : st.call sem c = some (st',r)) : st' = st ∧ r.1 ≠ .success := by
  simp only [System.call, hc, Code.exec, Option.map_some, Function.update_eq_self,
    Option.some.injEq, Prod.mk.injEq] at h
  obtain ⟨rfl,rfl⟩ := h
  exact ⟨rfl, by simp⟩

theorem shmget_some (shmmax : ℕ) (m m' : Shm) (size : ℕ) (create : Bool) (id : ℕ)
    (h : shmget shmmax m size create = (some id,m')) :
    m'.key = some id ∧ size ≤ (m'.segment id).size := by
  unfold shmget at h
  split at h
  · rename_i id' hk
    by_cases hsz : size ≤ (m.segment id').size
    · rw [if_pos hsz] at h
      obtain ⟨h1,rfl⟩ := Prod.mk.inj h
      obtain rfl := Option.some.inj h1
      exact ⟨hk,hsz⟩
    · rw [if_neg hsz] at h
      exact absurd (Prod.mk.inj h).1 (by simp)
  · by_cases hc : create ∧ 0 < size ∧ size ≤ shmmax
    · rw [if_pos hc] at h
      obtain ⟨h1,rfl⟩ := Prod.mk.inj h
      obtain rfl := Option.some.inj h1
      simp only [Function.update_self, Nat.le_refl, and_self]
    · rw [if_neg hc] at h
      exact absurd (Prod.mk.inj h).1 (by simp)

/-- A successful creation resets both counters to -1. -/
theorem attach_created (env : OpenEnv) (m : ℕ) (s : ℤ) (hm : 0 < m) (semid : ℕ) (w w' : World)
    (hs : w.proc.gSemid = some semid) (h : attachSegment env 1 m s w = (.success,w')) :
    ∃ shmid, w'.shm.key = some shmid ∧ Opened semid shmid m (installedItemsize s) w'.proc ∧
      (w'.shm.segment shmid).enqPos = -1 ∧ (w'.shm.segment shmid).deqPos = -1 ∧
      requestedSize m (installedItemsize s) ≤ (w'.shm.segment shmid).size := by
  have hm' : installedMqsize m = m := if_neg (by omega)
  simp only [attachSegment, hm', ne_eq, Int.one_ne_zero, not_false_eq_true, decide_true, if_true] at h
  rcases hr : shmget env.shmmax w.shm (requestedSize m (installedItemsize s)) true with ⟨_ | id,shm⟩
  · simp only [hr, Prod.mk.injEq, reduceCtorEq, false_and] at h
  · obtain ⟨hk,hsz⟩ := shmget_some _ _ shm _ _ id hr
    simp only [hr] at h
    by_cases hat : env.shmat = true
    · rw [if_pos hat] at h
      obtain ⟨-,rfl⟩ := Prod.mk.inj h
      refine ⟨id, hk, ⟨hs,rfl,rfl,rfl⟩, ?_, ?_, ?_⟩
      · rw [modify_segment]
      · rw [modify_segment]
      · rw [modify_segment]
        exact hsz
    · rw [if_neg hat] at h
      exact absurd (Prod.mk.inj h).1 (by simp)

/-- The process `j` has no segment yet, or uses the one under the key with the geometry
`(m,s)`. -/
def Sharing (semid m : ℕ) (s : ℤ) (st : System) (j : ℕ) : Prop :=
  (st.procs j).gPhead = none ∨
    ∃ shmid, st.shm.key = some shmid ∧ Opened semid shmid m (installedItemsize s) (st.procs j)

theorem call_open_created (semid m : ℕ) (s : ℤ) (hm : 0 < m) (st st' : System) (i : ℕ)
    (env : OpenEnv) (b : List UInt8) (hi : ∀ j, j ≠ i → Sharing semid m s st' j)
    (h : st.call (semaphoresSucceed semid) (i,.shmmqOpen env 1 m s) = some (st',.success,b)) :
    ∃ shmid, Joined semid shmid m (installedItemsize s) st' ∧
      Opened semid shmid m (installedItemsize s) (st'.procs i) ∧
      (st'.shm.segment shmid).enqPos = -1 ∧ (st'.shm.segment shmid).deqPos = -1 ∧
      requestedSize m (installedItemsize s) ≤ (st'.shm.segment shmid).size := by
  let w : World := ⟨st.shm, { st.procs i with gSemid := some semid }⟩
  -- with semaphores that succeed, the call is `attachSegment` and its error path
  have hexec : st.call (semaphoresSucceed semid) (i,.shmmqOpen env 1 m s) =
      let a := attachSegment env 1 m s w
      let w' := if a.1 ≠ .success ∧ (1:ℤ) ≠ 0 then removeSegment a.2 else a.2
      some (⟨w'.shm, Function.update st.procs i w'.proc⟩, a.1, []) := by
    simp only [System.call, Call.code, exec_open, Option.map_some]
    rfl
  rw [hexec] at h
  rcases ha : attachSegment env 1 m s w with ⟨ret,w'⟩
  simp only [ha, Option.some.injEq, Prod.mk.injEq] at h
  obtain ⟨hst,hret,-⟩ := h
  rw [hret] at ha hst
  simp only [ne_eq, not_true_eq_false, false_and, if_false] at hst
  subst hst
  obtain ⟨shmid,hk,ho,hrest⟩ := attach_created env m s hm semid w w' rfl ha
  have ho' : Opened semid shmid m (installedItemsize s) (Function.update st.procs i w'.proc i) := by
    rw [Function.update_self]
    exact ho
  refine ⟨shmid, ⟨hk,?_⟩, ho', hrest⟩
  intro j
  by_cases hji : j = i
  · subst hji
    exact Or.inr ho'
  · rcases hi j hji with hp | ⟨id,hid,hoj⟩
    · exact Or.inl hp
    · obtain rfl := Option.some.inj (hk.symm.trans hid)
      exact Or.inr hoj

/-- All that a call of a process with the common geometry can do to the queue. -/
theorem call_cases (semid shmid m : ℕ) (s : ℤ) (hm : 0 < m) (st st' : System) (c : ℕ × Call)
    (r : Ret × List UInt8) (hq : QueueCall m s c.2)
    (hj : Joined semid shmid m (installedItemsize s) st)
    (h : st.call (semaphoresSucceed semid) c = some (st',r)) :
    Joined semid shmid m (installedItemsize s) st' ∧
    ((st'.shm = st.shm ∧ enqueuedBy (c,r) = none ∧ dequeuedBy (c,r) = none) ∨
      (∃ item size, c.2 = .shmmqEnqueue (some item) size ∧ 0 < size ∧
        size ≤ installedItemsize s ∧
        Opened semid shmid m (installedItemsize s) (st.procs c.1) ∧
        r = ((enqueueItem (st.procs c.1) item size (st.shm.segment shmid)).1,[]) ∧
        st'.shm.segment shmid =
          (enqueueItem (st.procs c.1) item size (st.shm.segment shmid)).2) ∨
      (∃ size, c.2 = .shmmqDequeue true size ∧ 0 < size ∧ size ≤ installedItemsize s ∧
        Opened semid shmid m (installedItemsize s) (st.procs c.1) ∧
        r = ((dequeueItem (st.procs c.1) size (st.shm.segment shmid)).1,
          (dequeueItem (st.procs c.1) size (st.shm.segment shmid)).2.1) ∧
        st'.shm.segment shmid = (dequeueItem (st.procs c.1) size (st.shm.segment shmid)).2.2)) := by
  -- a call that is refused leaves everything as it was
  have hquiet (h' : st' = st ∧ r.1 ≠ .success) : Joined semid shmid m (installedItemsize s) st' ∧
      (st'.shm = st.shm ∧ enqueuedBy (c,r) = none ∧ dequeuedBy (c,r) = none) := by
    obtain ⟨rfl,hr⟩ := h'
    exact ⟨hj, rfl, enqueuedBy_eq_none c r hr, dequeuedBy_eq_none c r hr⟩
  obtain ⟨i,c⟩ := c
  cases c with
  | shmmqOpen env iscreated mqsize itemsize =>
    obtain ⟨rfl,rfl,rfl⟩ := hq
    have ho := call_open_existing semid shmid m itemsize hm st st' i env r hj h
    exact ⟨ho.1, Or.inl ⟨ho.2,rfl,rfl⟩⟩
  | shmmqEnqueue item size =>
    rcases hj.members i with hp | ho
    · have hd := hquiet (call_enqueue_detached _ st st' i item size r hp h)
      exact ⟨hd.1, Or.inl hd.2⟩
    cases item with
    | none =>
      have hd := hquiet (call_invalid _ st st' _ r rfl h)
      exact ⟨hd.1, Or.inl hd.2⟩
    | some item =>
      by_cases hsize : 0 < size ∧ size ≤ installedItemsize s
      · rw [call_enqueue semid shmid m _ st i ho item size hsize.1 hsize.2] at h
        obtain ⟨rfl,rfl⟩ := Prod.mk.inj (Option.some.inj h)
        refine ⟨⟨hj.key,hj.members⟩, Or.inr (Or.inl ⟨item, size, rfl, hsize.1, hsize.2, ho, rfl, ?_⟩)⟩
        rw [modify_segment]
      · have hc : Call.code (st.procs i) (.shmmqEnqueue (some item) size) =
            .done .errorInvalidArgument [] := if_pos (by rw [ho.itemsize]; omega)
        have hd := hquiet (call_invalid _ st st' _ r hc h)
        exact ⟨hd.1, Or.inl hd.2⟩
  | shmmqDequeue item size =>
    rcases hj.members i with hp | ho
    · have hd := hquiet (call_dequeue_detached _ st st' i item size r hp h)
      exact ⟨hd.1, Or.inl hd.2⟩
    by_cases hsize : item = true ∧ 0 < size ∧ size ≤ installedItemsize s
    · obtain ⟨rfl,h0,hs⟩ := hsize
      rw [call_dequeue semid shmid m _ st i ho size h0 hs] at h
      obtain ⟨rfl,rfl⟩ := Prod.mk.inj (Option.some.inj h)
      refine ⟨⟨hj.key,hj.members⟩, Or.inr (Or.inr ⟨size, rfl, h0, hs, ho, rfl, ?_⟩)⟩
      rw [modify_segment]
    · have hc : Call.code (st.procs i) (.shmmqDequeue item size) =
          .done .errorInvalidArgument [] := by
        apply if_pos
        rw [ho.itemsize]
        cases item with
        | false => exact Or.inl rfl
        | true =>
          simp only [true_and] at hsize
          omega
      have hd := hquiet (call_invalid _ st st' _ r hc h)
      exact ⟨hd.1, Or.inl hd.2⟩
  | shmmqClear sf => exact absurd hq (fun h => h)

end Cclab.Shmmq
