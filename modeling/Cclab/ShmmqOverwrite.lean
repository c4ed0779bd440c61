import Cclab.ShmmqFifo

/-! Which queue lengths lose items. The slot of an item is its counter modulo `2^32` and
then modulo `m`; unless `m` divides `2^32` or `2^32+1`, the item behind the wrap lands on one
that still waits. One process that keeps the queue almost full reaches the wrap. -/
namespace Cclab.Shmmq
open ByteMemory WrappingSlots OperationRuns

/-- In every run of the queue each dequeue delivers what the matching enqueue stored. -/
def Lossless (m : ℕ) (s : ℤ) : Prop :=
  ∀ (semid : ℕ) (cs : List (ℕ × Call)) (rs : List (Ret × List UInt8)) (st' : System),
    QueueRun semid m s cs rs st' → Fifo (enqueued cs rs) (dequeued cs rs)

/-- A queue that every later enqueue finds clear is a FIFO. -/
theorem queueRun_fifo (semid m s : ℕ) (hm : 0 < m) (hs : 0 < s) (hsz : m*s < 2^31)
    (cs : List (ℕ × Call)) (rs : List (Ret × List UInt8)) (st' : System)
    (hrun : QueueRun semid m s cs rs st')
    (hclear : ∀ d e, d ≤ e → e-d < m-1 → e < (enqueued cs rs).length → Clear m d e) :
    Fifo (enqueued cs rs) (dequeued cs rs) := by
  obtain ⟨env,st0,st,i,b,hi,hopen,hq,hrun⟩ := hrun
  obtain ⟨shmid,hj,-,he,hd,-⟩ := call_open_created semid m s hm st0 st i env b hi hopen
  have hw : Waiting m s (st.shm.segment shmid) 0 [] := by
    refine ⟨⟨he.trans counter_zero.symm, hd.trans counter_zero.symm, le_rfl, by simp⟩, ?_⟩
    intro k item hk
    simp at hk
  obtain ⟨taken,rest,htr,hall⟩ := run_fifo semid shmid m s hm hs hsz cs hq st st' rs 0 [] hj hw
    (by simpa using hclear) hrun
  rw [List.nil_append] at htr
  rw [htr]
  exact fifo_of_forall2 taken rest _ hall

section clear
variable (m d e : ℕ) (hroom : e-d < m-1)
include hroom

theorem clear_of_dvd (hd : m ∣ 2^32) : Clear m d e := by
  intro j hj hje
  exact slot_ne_of_dvd _ m j e hd hje (by omega)

theorem clear_of_dvd_succ (hm : m ≤ 2^32) (hd : m ∣ 2^32+1) : Clear m d e := by
  intro j hj hje
  exact slot_ne_of_dvd_succ _ m j e hm hd hje (by omega)

theorem clear_of_lt (he : e < 2^32) : Clear m d e := by
  intro j hj hje
  exact slot_ne_of_lt _ m j e he hje (by omega)

end clear

/-! The run that loses an item. Process 0 creates the queue and enqueues copies of one
item. -/

theorem QueueRun.snoc (semid m : ℕ) (s : ℤ) (cs : List (ℕ × Call))
    (rs : List (Ret × List UInt8)) (st st' : System) (c : ℕ × Call) (r : Ret × List UInt8)
    (h : QueueRun semid m s cs rs st) (hq : QueueCall m s c.2)
    (hc : st.call (semaphoresSucceed semid) c = some (st',r)) :
    QueueRun semid m s (cs ++ [c]) (rs ++ [r]) st' := by
  obtain ⟨env,st0,st1,i,b,hi,hopen,hcs,hrun⟩ := h
  refine ⟨env, st0, st1, i, b, hi, hopen, ?_, ?_⟩
  · intro x hx
    rcases List.mem_append.mp hx with hx | hx
    · exact hcs x hx
    · rw [List.mem_singleton.mp hx]
      exact hq
  · apply run_append st1 st st' cs [c] rs [r] hrun
    rw [run_cons st st' c [] r hc]
    rfl

theorem QueueRun.length (semid m : ℕ) (s : ℤ) (cs : List (ℕ × Call))
    (rs : List (Ret × List UInt8)) (st : System) (h : QueueRun semid m s cs rs st) :
    cs.length = rs.length := by
  obtain ⟨env,st0,st1,i,b,-,-,-,hrun⟩ := h
  exact (run_length st1 st cs rs hrun).symm

theorem enqueued_snoc (c : ℕ × Call) (cs : List (ℕ × Call)) (r : Ret × List UInt8)
    (rs : List (Ret × List UInt8)) (h : cs.length = rs.length) :
    enqueued (cs ++ [c]) (rs ++ [r]) = enqueued cs rs ++ (enqueuedBy (c,r)).toList := by
  rw [enqueued, enqueued, List.zip_append h, List.filterMap_append]
  cases h : enqueuedBy (c,r) <;> simp [h]

theorem dequeued_snoc (c : ℕ × Call) (cs : List (ℕ × Call)) (r : Ret × List UInt8)
    (rs : List (Ret × List UInt8)) (h : cs.length = rs.length) :
    dequeued (cs ++ [c]) (rs ++ [r]) = dequeued cs rs ++ (dequeuedBy (c,r)).toList := by
  rw [dequeued, dequeued, List.zip_append h, List.filterMap_append]
  cases h : dequeuedBy (c,r) <;> simp [h]

/-- A run after which process 0 can go on, having enqueued `e` items and dequeued `d`. -/
structure Solo (m : ℕ) (s : ℤ) (cs : List (ℕ × Call)) (rs : List (Ret × List UInt8))
    (st : System) (shmid e d : ℕ) : Prop where
  run : QueueRun 0 m s cs rs st
  opened : Opened 0 shmid m s (st.procs 0)
  counts : Counts m (st.shm.segment shmid) e d
  deq : (dequeued cs rs).length = d

def putItem (b : UInt8) : ℕ × Call := (0,.shmmqEnqueue (some fun _ => b) 1)

def takeItem : ℕ × Call := (0,.shmmqDequeue true 1)

section solo
variable (m : ℕ) (s : ℤ) (hm : 0 < m) (hm' : m ≤ 2^31) (hs : 1 ≤ s) (cs : List (ℕ × Call))
  (rs : List (Ret × List UInt8)) (st : System) (shmid e d : ℕ)
  (h : Solo m s cs rs st shmid e d)
include hm hm' hs h

theorem Solo.put (b : UInt8) (hlt : e-d < m-1) : ∃ st',
    Solo m s (cs ++ [putItem b]) (rs ++ [(.success,[])]) st' shmid (e+1) d ∧
      enqueued (cs ++ [putItem b]) (rs ++ [(.success,[])]) = enqueued cs rs ++ [[b]] ∧
      (st'.shm.segment shmid).content = store (st.shm.segment shmid).content
        (slotOffset (st.procs 0) e) [b] ∧ st'.procs = st.procs := by
  have hcall := call_enqueue 0 shmid m s st 0 h.opened (fun _ => b) 1 (by decide) hs
  rcases enqueueItem_cases m hm hm' _ h.opened.mqsize 1 _ e d h.counts fun _ => b with
    ⟨hfull,-⟩ | ⟨-,hf⟩
  · omega
  · rw [hf] at hcall
    have hlen := h.run.length
    refine ⟨_, ⟨h.run.snoc _ _ _ _ _ _ _ _ _ trivial hcall, h.opened, ?_, ?_⟩, ?_, ?_, rfl⟩
    · rw [modify_segment, hf]
      exact h.counts.enqueue m _ e d hlt _
    · rw [dequeued_snoc _ _ _ _ hlen]
      simpa only [putItem, dequeuedBy, Option.toList_none, List.append_nil] using h.deq
    · exact enqueued_snoc _ _ _ _ hlen
    · rw [modify_segment, hf]
      rfl

theorem Solo.take (hlt : d < e) : ∃ st' bytes,
    Solo m s (cs ++ [takeItem]) (rs ++ [(.success,bytes)]) st' shmid e (d+1) ∧
      enqueued (cs ++ [takeItem]) (rs ++ [(.success,bytes)]) = enqueued cs rs ∧
      dequeued (cs ++ [takeItem]) (rs ++ [(.success,bytes)]) = dequeued cs rs ++ [(1,bytes)] ∧
      bytes = load (st.shm.segment shmid).content (slotOffset (st.procs 0) d) 1 := by
  have hcall := call_dequeue 0 shmid m s st 0 h.opened 1 (by decide) hs
  rcases dequeueItem_cases m hm hm' _ h.opened.mqsize 1 _ e d h.counts with ⟨hempty,-⟩ | ⟨-,hf⟩
  · omega
  · rw [hf] at hcall
    dsimp only at hcall
    have hlen := h.run.length
    have hdeq := dequeued_snoc takeItem cs (.success, load (st.shm.segment shmid).content
      (slotOffset (st.procs 0) d) (Int.toNat 1)) rs hlen
    refine ⟨_, _, ⟨h.run.snoc _ _ _ _ _ _ _ _ _ trivial hcall, h.opened, ?_, ?_⟩, ?_, hdeq, rfl⟩
    · rw [modify_segment, hf]
      exact h.counts.dequeue m _ e d hlt
    · rw [hdeq, List.length_append, h.deq]
      rfl
    · rw [enqueued_snoc _ _ _ _ hlen]
      exact List.append_nil _

end solo

/-- Process 0 creates the queue as the first process of the system. -/
theorem solo_start (m s : ℕ) (hm : 0 < m) (hs : 1 ≤ s) (hsz : m*s+4096 ≤ 2^31-1) :
    ∃ st shmid, Solo m s [] [] st shmid 0 0 := by
  have hmi : installedMqsize m = m := if_neg (by omega)
  have hsi : installedItemsize s = s := if_neg (by omega)
  have hreq : requestedSize m s = m*s+4096 := by
    have hcast : (m:ℤ)*s+defaultHeadSize = ((m*s+4096 : ℕ):ℤ) := by
      push_cast
      rfl
    rw [requestedSize, hcast, Int.bmod_def]
    omega
  let st : System := ⟨⟨Function.update (fun _ => ⟨0,0,0,fun _ => 0⟩) 0
      ⟨m*s+4096,-1,-1,fun _ => 0⟩, some 0, 1⟩,
    Function.update (fun _ => Statics.initial) 0 ⟨some 0,some 0,m,s,some 0,some 0⟩⟩
  have hopen : System.initial.call (semaphoresSucceed 0)
      (0,.shmmqOpen ⟨m*s+4096,true⟩ 1 m s) = some (st,.success,[]) := by
    simp only [System.call, Call.code, exec_open, attachSegment, shmget, System.initial, hmi, hsi,
      hreq, Option.map_some]
    simp [st, Shm.modify, Statics.initial]
  have ho : Opened 0 0 m s (st.procs 0) := by
    simp only [st, Function.update_self]
    exact ⟨rfl,rfl,rfl,rfl⟩
  refine ⟨st, 0, ⟨⟨_, _, st, 0, [], ?_, hopen, by simp, rfl⟩, ho, ?_, rfl⟩⟩
  · intro j hj
    left
    simp only [st, hj, ne_eq, not_false_eq_true, Function.update_of_ne]
    rfl
  · exact ⟨rfl, rfl, le_rfl, by omega⟩

section reach
variable (m s : ℕ) (hm : 2 ≤ m) (hs : 1 ≤ s) (hsz : m*s+4096 ≤ 2^31-1)
include hm hs hsz

-- one item at a time through the queue
theorem solo_pass (n : ℕ) : ∃ cs rs st shmid, Solo m s cs rs st shmid n n ∧
    enqueued cs rs = List.replicate n [1] := by
  have hms : m ≤ m*s := Nat.le_mul_of_pos_right m hs
  induction n with
  | zero =>
    obtain ⟨st,shmid,h⟩ := solo_start m s (by omega) hs hsz
    exact ⟨[], [], st, shmid, h, rfl⟩
  | succ n ih =>
    obtain ⟨cs,rs,st,shmid,h,he⟩ := ih
    obtain ⟨st1,h1,he1,-⟩ := h.put m s (by omega) (by omega) (by omega) cs rs st shmid n n 1 (by omega)
    obtain ⟨st2,bytes,h2,he2,-⟩ := h1.take m s (by omega) (by omega) (by omega) _ _ st1 shmid (n+1) n
      (by omega)
    refine ⟨_, _, st2, shmid, h2, ?_⟩
    rw [he2, he1, he, ← List.replicate_succ']

-- then items that stay
theorem solo_fill (n k : ℕ) (hk : k ≤ m-1) : ∃ cs rs st shmid,
    Solo m s cs rs st shmid (n+k) n ∧ enqueued cs rs = List.replicate (n+k) [1] := by
  have hms : m ≤ m*s := Nat.le_mul_of_pos_right m hs
  induction k with
  | zero => exact solo_pass m s hm hs hsz n
  | succ k ih =>
    obtain ⟨cs,rs,st,shmid,h,he⟩ := ih (by omega)
    obtain ⟨st1,h1,he1,-⟩ := h.put m s (by omega) (by omega) (by omega) cs rs st shmid (n+k) n 1 (by omega)
    refine ⟨_, _, st1, shmid, h1, ?_⟩
    rw [he1, he, ← List.replicate_succ', Nat.add_assoc]

/-- If two waiting items share a slot, then some run delivers the later one in place of
the earlier one. -/
theorem not_lossless_of_clash (i j : ℕ) (hij : i < j) (hroom : j-i+1 < m)
    (hclash : slot (2^32) m i = slot (2^32) m j) : ¬ Lossless m s := by
  intro hl
  have hms : m ≤ m*s := Nat.le_mul_of_pos_right m hs
  obtain ⟨cs,rs,st,shmid,h,he⟩ := solo_fill m s hm hs hsz i (j-i) (by omega)
  rw [Nat.add_sub_cancel' hij.le] at h he
  obtain ⟨st1,h1,he1,hc1,hp1⟩ := h.put m s (by omega) (by omega) (by omega) cs rs st shmid j i 2
    (by omega)
  obtain ⟨st2,bytes,h2,he2,hd2,hbytes⟩ := h1.take m s (by omega) (by omega) (by omega) _ _ st1 shmid
    (j+1) i (by omega)
  -- the dequeue reads the slot that the last enqueue wrote
  have hslot : slotOffset (st1.procs 0) i = slotOffset (st.procs 0) j := by
    rw [hp1, slotOffset_eq 0 shmid m s _ h.opened (by omega) hs (by omega) i,
      slotOffset_eq 0 shmid m s _ h.opened (by omega) hs (by omega) j, hclash]
  have hget : bytes = [2] := by
    rw [hbytes, hslot, hc1]
    exact load_store_same _ _ [2]
  have hfifo := hl 0 _ _ st2 h2.run i (1,bytes) (by
    rw [hd2, List.getElem?_append_right h1.deq.le, h1.deq, Nat.sub_self]
    rfl)
  obtain ⟨item,hitem,hsame⟩ := hfifo
  rw [he2, he1, he, List.getElem?_append_left (by simpa using hij),
    List.getElem?_replicate_of_lt hij] at hitem
  obtain rfl := Option.some.inj hitem
  rw [hget] at hsame
  exact absurd hsame (by simp [SameItem])

end reach

/-- The queue is a lossless FIFO exactly when its length divides `2^32` or `2^32+1`; any
other length is safe up to the wrap of the enqueue counter. -/
theorem shmmq_lossless_iff (m s : ℕ) (hm : 2 ≤ m) (hs : 1 ≤ s) (hsz : m*s+4096 ≤ 2^31-1) :
    (Lossless m s ↔ m ∣ 2^32 ∨ m ∣ 2^32+1) ∧
      ∀ semid cs rs st', QueueRun semid m s cs rs st' → (enqueued cs rs).length ≤ 2^32 →
        Fifo (enqueued cs rs) (dequeued cs rs) := by
  have hms : m ≤ m*s := Nat.le_mul_of_pos_right m hs
  refine ⟨⟨?_, ?_⟩, ?_⟩
  · intro hl
    by_contra hnd
    rw [not_or] at hnd
    obtain ⟨i,j,hij,hroom,-,hi,hj⟩ := slot_clash (2^32) m (by omega) hnd.1 hnd.2
    exact not_lossless_of_clash m s hm hs hsz i j hij hroom (hi.trans hj.symm) hl
  · intro hd semid cs rs st' hrun
    apply queueRun_fifo semid m s (by omega) hs (by omega) cs rs st' hrun
    intro d e _ hroom _
    rcases hd with hd | hd
    · exact clear_of_dvd m d e hroom hd
    · exact clear_of_dvd_succ m d e hroom (by omega) hd
  · intro semid cs rs st' hrun hlen
    apply queueRun_fifo semid m s (by omega) hs (by omega) cs rs st' hrun
    intro d e _ hroom hlt
    exact clear_of_lt m d e hroom (by omega)

theorem shmmq_lossless_iff_three : ¬ (3 ∣ 2^32 ∨ 3 ∣ 2^32+1) ∧
    (Lossless 3 1 ↔ 3 ∣ 2^32 ∨ 3 ∣ 2^32+1) :=
  ⟨by decide, (shmmq_lossless_iff 3 1 (by decide) (by decide) (by decide)).1⟩

/-- With three slots of one byte, items `2^32-1` and `2^32` share slot 0. -/
theorem three_slots_lose_items : ¬ Lossless 3 1 :=
  not_lossless_of_clash 3 1 (by decide) (by decide) (by decide) (2^32-1) (2^32) (by decide)
    (by decide) (by decide)

end Cclab.Shmmq
