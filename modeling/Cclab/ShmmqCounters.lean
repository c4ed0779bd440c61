import Cclab.ShmmqCalls
import Cclab.WrappingSlots

/-! The two counters of the queue over whole runs. Both start at -1 and wrap at `2^32`;
after `e` successful enqueues and `d` successful dequeues they are `counter e` and
`counter d`, and this invariant makes the fullness and the emptiness test exact. -/
namespace Cclab.Shmmq
open ByteMemory WrappingSlots OperationRuns

structure Counts (m : ℕ) (q : Segment) (e d : ℕ) : Prop where
  enq : q.enqPos = counter e
  deq : q.deqPos = counter d
  le : d ≤ e
  room : e-d ≤ m-1

/-- Where the code copies the `n`-th item of the run. -/
def slotOffset (g : Statics) (n : ℕ) : ℕ :=
  ((counter n+1) % UInt32.ofInt g.gMqsize * UInt32.ofInt g.gItemsize).toNat

section step
variable (m : ℕ) (hm : 0 < m) (hm' : m ≤ 2^31) (g : Statics) (hg : g.gMqsize = m)
  (size : ℤ) (q : Segment) (e d : ℕ) (hc : Counts m q e d)
include hm hm' hg hc

theorem enqueueItem_cases (item : Mem) :
    (e-d = m-1 ∧ enqueueItem g item size q = (.errorMsgqueueFull,q)) ∨
    (e-d < m-1 ∧ enqueueItem g item size q = (.success, { q with
      content := store q.content (slotOffset g e) (load item 0 size.toNat)
      enqPos := counter (e+1) })) := by
  have hfull := counter_full_iff m e d hm hm' hc.le hc.room
  unfold enqueueItem
  rw [hc.deq, hc.enq, hg, uint32_ofInt_natCast]
  by_cases h : e-d = m-1
  · exact Or.inl ⟨h, if_pos (hfull.mpr h)⟩
  · right
    have hroom := hc.room
    rw [if_neg (fun hh => h (hfull.mp hh)), counter_succ, slotOffset, hg, uint32_ofInt_natCast]
    exact ⟨by omega, rfl⟩

theorem dequeueItem_cases :
    (e = d ∧ dequeueItem g size q = (.errorMsgqueueFull,[],q)) ∨
    (d < e ∧ dequeueItem g size q = (.success, load q.content (slotOffset g d) size.toNat,
      { q with deqPos := counter (d+1) })) := by
  have hroom := hc.room
  have hempty := counter_eq_iff e d hc.le (by omega)
  unfold dequeueItem
  rw [hc.deq, hc.enq]
  by_cases h : e = d
  · exact Or.inl ⟨h, if_pos (hempty.mpr h)⟩
  · right
    have hle := hc.le
    rw [if_neg (fun hh => h (hempty.mp hh)), counter_succ, slotOffset]
    exact ⟨by omega, rfl⟩

end step

theorem Counts.enqueue (m : ℕ) (q : Segment) (e d : ℕ) (hc : Counts m q e d) (h : e-d < m-1)
    (content : Mem) : Counts m { q with content := content, enqPos := counter (e+1) } (e+1) d := by
  have hle := hc.le
  exact ⟨rfl, hc.deq, by omega, by omega⟩

theorem Counts.dequeue (m : ℕ) (q : Segment) (e d : ℕ) (hc : Counts m q e d) (h : d < e) :
    Counts m { q with deqPos := counter (d+1) } e (d+1) := by
  have hroom := hc.room
  exact ⟨hc.enq, rfl, h, by omega⟩

theorem enqueued_cons (c : ℕ × Call) (cs : List (ℕ × Call)) (r : Ret × List UInt8)
    (rs : List (Ret × List UInt8)) :
    enqueued (c :: cs) (r :: rs) = (enqueuedBy (c,r)).toList ++ enqueued cs rs := by
  simp only [enqueued, List.zip_cons_cons, List.filterMap_cons]
  cases enqueuedBy (c,r) <;> rfl

theorem dequeued_cons (c : ℕ × Call) (cs : List (ℕ × Call)) (r : Ret × List UInt8)
    (rs : List (Ret × List UInt8)) :
    dequeued (c :: cs) (r :: rs) = (dequeuedBy (c,r)).toList ++ dequeued cs rs := by
  simp only [dequeued, List.zip_cons_cons, List.filterMap_cons]
  cases dequeuedBy (c,r) <;> rfl

section run
variable (semid shmid m : ℕ) (s : ℤ) (hm : 0 < m) (hm' : m ≤ 2^31)
include hm hm'

/-- One call moves each counter by exactly the item that it enqueued or dequeued. -/
theorem call_counts (st st' : System) (c : ℕ × Call) (r : Ret × List UInt8) (e d : ℕ)
    (hj : Joined semid shmid m (installedItemsize s) st)
    (hc : Counts m (st.shm.segment shmid) e d) (hq : QueueCall m s c.2)
    (h : st.call (semaphoresSucceed semid) c = some (st',r)) :
    Joined semid shmid m (installedItemsize s) st' ∧
      Counts m (st'.shm.segment shmid) (e+(enqueuedBy (c,r)).toList.length)
        (d+(dequeuedBy (c,r)).toList.length) := by
  obtain ⟨hj',hcase⟩ := call_cases semid shmid m s hm st st' c r hq hj h
  refine ⟨hj', ?_⟩
  obtain ⟨i,c⟩ := c
  rcases hcase with ⟨hs,he,hd⟩ | ⟨item,size,rfl,-,-,ho,rfl,hs⟩ | ⟨size,rfl,-,-,ho,rfl,hs⟩
  · rw [hs, he, hd]
    exact hc
  · rw [hs]
    rcases enqueueItem_cases m hm hm' _ ho.mqsize size _ e d hc item with ⟨-,hf⟩ | ⟨hlt,hf⟩
    · rw [hf, enqueuedBy_eq_none _ _ (by simp)]
      exact hc
    · rw [hf]
      exact hc.enqueue m _ e d hlt _
  · rw [hs]
    rcases dequeueItem_cases m hm hm' _ ho.mqsize size _ e d hc with ⟨-,hf⟩ | ⟨hlt,hf⟩
    · rw [hf, dequeuedBy_eq_none _ _ (by simp)]
      exact hc
    · rw [hf]
      exact hc.dequeue m _ e d hlt

/-- What a valid call answers depends on the fill level alone. -/
theorem call_results (st : System) (j : ℕ) (e d : ℕ) (size : ℤ)
    (ho : Opened semid shmid m s (st.procs j)) (hc : Counts m (st.shm.segment shmid) e d)
    (h0 : 0 < size) (hs : size ≤ s) :
    (∀ item, ∃ st', st.call (semaphoresSucceed semid) (j,.shmmqEnqueue (some item) size) =
      some (st', if e-d = m-1 then .errorMsgqueueFull else .success, [])) ∧
    ∃ st' bytes, st.call (semaphoresSucceed semid) (j,.shmmqDequeue true size) =
      some (st', if e-d = 0 then .errorMsgqueueFull else .success, bytes) := by
  constructor
  · intro item
    rw [call_enqueue semid shmid m s st j ho item size h0 hs]
    rcases enqueueItem_cases m hm hm' _ ho.mqsize size _ e d hc item with ⟨h,hf⟩ | ⟨h,hf⟩
    · rw [hf, if_pos h]
      exact ⟨_, rfl⟩
    · rw [hf, if_neg (by omega)]
      exact ⟨_, rfl⟩
  · have hle := hc.le
    rw [call_dequeue semid shmid m s st j ho size h0 hs]
    rcases dequeueItem_cases m hm hm' _ ho.mqsize size _ e d hc with ⟨h,hf⟩ | ⟨h,hf⟩
    · rw [hf, if_pos (by omega)]
      exact ⟨_, _, rfl⟩
    · rw [hf, if_neg (by omega)]
      exact ⟨_, _, rfl⟩

theorem run_counts (cs : List (ℕ × Call)) (hq : ∀ c ∈ cs, QueueCall m s c.2) (st st' : System)
    (rs : List (Ret × List UInt8)) (e d : ℕ)
    (hj : Joined semid shmid m (installedItemsize s) st)
    (hc : Counts m (st.shm.segment shmid) e d)
    (h : run (System.call (semaphoresSucceed semid)) st cs = some (st',rs)) :
    Joined semid shmid m (installedItemsize s) st' ∧
      Counts m (st'.shm.segment shmid) (e+(enqueued cs rs).length)
        (d+(dequeued cs rs).length) := by
  induction cs generalizing st rs e d with
  | nil =>
    obtain ⟨rfl,rfl⟩ := Prod.mk.inj (Option.some.inj h)
    exact ⟨hj,hc⟩
  | cons c cs ih =>
    obtain ⟨st1,r,rs',h1,h2,rfl⟩ := run_cons_eq_some st st' c cs rs h
    obtain ⟨hj1,hc1⟩ := call_counts semid shmid m s hm hm' st st1 c r e d hj hc
      (hq c (by simp)) h1
    have hrest := ih (fun b hb => hq b (List.mem_cons_of_mem c hb)) st1 rs' _ _ hj1 hc1 h2
    rw [enqueued_cons, dequeued_cons, List.length_append, List.length_append,
      ← Nat.add_assoc, ← Nat.add_assoc]
    exact hrest

end run

/-- A run of calls with the geometry `(m,s)` behind a successful `shmmq_open(1,m,s)`. -/
def QueueRun (semid m : ℕ) (s : ℤ) (cs : List (ℕ × Call)) (rs : List (Ret × List UInt8))
    (st' : System) : Prop :=
  ∃ (env : OpenEnv) (st0 st : System) (i : ℕ) (b : List UInt8),
    (∀ j, j ≠ i → Sharing semid m s st j) ∧
    st0.call (semaphoresSucceed semid) (i,.shmmqOpen env 1 m s) = some (st,.success,b) ∧
    (∀ c ∈ cs, QueueCall m s c.2) ∧
    run (System.call (semaphoresSucceed semid)) st cs = some (st',rs)

/-- In every run after `shmmq_open(1,m,s)` the counters give the fill level modulo `2^32`,
and with valid arguments the queue is reported full at `m-1` items and empty at none. -/
theorem shmmq_counters_exact (semid m : ℕ) (s : ℤ) (hm : 1 ≤ m) (hm' : m ≤ 2^31-1)
    (cs : List (ℕ × Call)) (rs : List (Ret × List UInt8)) (st' : System)
    (hrun : QueueRun semid m s cs rs st') :
    ∃ shmid, st'.shm.key = some shmid ∧
      (dequeued cs rs).length ≤ (enqueued cs rs).length ∧
      (enqueued cs rs).length-(dequeued cs rs).length ≤ m-1 ∧
      ((st'.shm.segment shmid).enqPos-(st'.shm.segment shmid).deqPos).toNat =
        (enqueued cs rs).length-(dequeued cs rs).length ∧
      ∀ j, (st'.procs j).gPhead = some shmid → ∀ size : ℤ, 0 < size →
        size ≤ (st'.procs j).gItemsize →
        (∀ item, ∃ st'', st'.call (semaphoresSucceed semid) (j,.shmmqEnqueue (some item) size) =
          some (st'', if (enqueued cs rs).length-(dequeued cs rs).length = m-1 then
            .errorMsgqueueFull else .success, [])) ∧
        ∃ st'' bytes, st'.call (semaphoresSucceed semid) (j,.shmmqDequeue true size) =
          some (st'', if (enqueued cs rs).length-(dequeued cs rs).length = 0 then
            .errorMsgqueueFull else .success, bytes) := by
  obtain ⟨env,st0,st,i,b,hi,hopen,hq,hrun⟩ := hrun
  obtain ⟨shmid,hj,-,he,hd,-⟩ := call_open_created semid m s hm st0 st i env b hi hopen
  -- the creator sets both counters to -1, that is no item went in or out
  have hstart : Counts m (st.shm.segment shmid) 0 0 :=
    ⟨he.trans counter_zero.symm, hd.trans counter_zero.symm, le_rfl, by omega⟩
  have hmle : m ≤ 2^31 := by omega
  obtain ⟨hj',hc⟩ := run_counts semid shmid m s hm hmle cs hq st st' rs 0 0 hj hstart hrun
  simp only [Nat.zero_add] at hc
  have hroom := hc.room
  refine ⟨shmid, hj'.key, hc.le, hroom, ?_, ?_⟩
  · rw [hc.enq, hc.deq, counter_sub _ _ hc.le]
    omega
  · intro j hp size h0 hs
    -- an attached process has the geometry of the creator
    have ho : Opened semid shmid m (installedItemsize s) (st'.procs j) := by
      rcases hj'.members j with hn | ho
      · exact absurd (hn.symm.trans hp) (by simp)
      · exact ho
    rw [ho.itemsize] at hs
    exact call_results semid shmid m _ hm hmle st' j _ _ size ho hc h0 hs

/-- No segment exists and no process has opened one. -/
def System.initial : System :=
  ⟨⟨fun _ => ⟨0,0,0,fun _ => 0⟩, none, 0⟩, fun _ => Statics.initial⟩

theorem shmmq_counters_exact_one_item : ∃ st',
    QueueRun 0 2 1 [(0,.shmmqEnqueue (some fun _ => 7) 1)] [(.success,[])] st' ∧
    ∃ shmid, st'.shm.key = some shmid ∧
      ((st'.shm.segment shmid).enqPos-(st'.shm.segment shmid).deqPos).toNat = 1 := by
  have hrun : ∃ st', QueueRun 0 2 1 [(0,.shmmqEnqueue (some fun _ => 7) 1)] [(.success,[])] st' := by
    refine ⟨_, ⟨8192,true⟩, System.initial, _, 0, [], ?_, rfl, ?_, rfl⟩
    · intro j hj
      left
      simp only [hj, ne_eq, not_false_eq_true, Function.update_of_ne]
      rfl
    · simp [QueueCall]
  obtain ⟨st',hrun⟩ := hrun
  obtain ⟨shmid,hk,-,-,hfill,-⟩ := shmmq_counters_exact 0 2 1 (by decide) (by decide) _ _ st' hrun
  exact ⟨st', hrun, shmid, hk, hfill⟩

end Cclab.Shmmq
