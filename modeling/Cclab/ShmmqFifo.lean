import Cclab.ShmmqCounters

/-! The queue as a FIFO. The `n`-th item of a run lies in slot `n % 2^32 % m`, so an item
waits undisturbed as long as no later item reaches its slot before it is dequeued. -/
namespace Cclab.Shmmq
open ByteMemory WrappingSlots OperationRuns

/-- A dequeue of `taken.1` bytes stores as many bytes, and these agree with the item on the smaller
of the two sizes. -/
def SameItem (item : List UInt8) (taken : ℕ × List UInt8) : Prop :=
  taken.2.length = taken.1 ∧
    taken.2.take (min item.length taken.1) = item.take (min item.length taken.1)

/-- The `k`-th dequeue delivers the item of the `k`-th enqueue. -/
def Fifo (enq : List (List UInt8)) (deq : List (ℕ × List UInt8)) : Prop :=
  ∀ (k : ℕ) (taken : ℕ × List UInt8), deq[k]? = some taken →
    ∃ item, enq[k]? = some item ∧ SameItem item taken

/-- No waiting item lies in the slot of the next enqueue. -/
def Clear (m d e : ℕ) : Prop := ∀ j, d ≤ j → j < e → slot (2^32) m j ≠ slot (2^32) m e

/-- The items that wait in the queue, from position `d` on, lie whole in their slots. -/
def Stored (m s : ℕ) (q : Segment) (d : ℕ) (pending : List (List UInt8)) : Prop :=
  ∀ (k : ℕ) (item : List UInt8), pending[k]? = some item → item.length ≤ s ∧
    load q.content (slot (2^32) m (d+k)*s) item.length = item

theorem fifo_of_forall2 (taken rest : List (List UInt8)) (deq : List (ℕ × List UInt8))
    (h : List.Forall₂ SameItem taken deq) : Fifo (taken ++ rest) deq := by
  intro k bytes hk
  induction h generalizing k with
  | nil => simp at hk
  | cons hp _ ih =>
    cases k with
    | zero =>
      obtain rfl := Option.some.inj hk
      exact ⟨_, rfl, hp⟩
    | succ k => exact ih k hk

theorem slotOffset_eq (semid shmid m s : ℕ) (g : Statics) (ho : Opened semid shmid m (s:ℤ) g)
    (hm : 0 < m) (hs : 0 < s) (hsz : m*s < 2^32) (n : ℕ) :
    slotOffset g n = slot (2^32) m n*s := by
  have hms : m ≤ m*s := Nat.le_mul_of_pos_right m hs
  have hsm : s ≤ m*s := Nat.le_mul_of_pos_left s hm
  have hslot := slot_lt (2^32) m n hm
  have hle : slot (2^32) m n*s ≤ m*s := Nat.mul_le_mul_right s hslot.le
  rw [slotOffset, ho.mqsize, ho.itemsize, uint32_ofInt_natCast, uint32_ofInt_natCast,
    UInt32.toNat_mul, counter_slot m n (by omega), UInt32.toNat_ofNat',
    Nat.mod_eq_of_lt (show s < 2^32 by omega), Nat.mod_eq_of_lt (by omega)]

theorem slots_disjoint (a b s x y : ℕ) (hab : a ≠ b) (hx : x ≤ s) (hy : y ≤ s) :
    Apart (a*s) x (b*s) y := by
  unfold Apart
  rcases Nat.lt_or_gt_of_ne hab with h | h
  · have hle := Nat.mul_le_mul_right s (Nat.succ_le_of_lt h)
    rw [Nat.succ_mul] at hle
    omega
  · have hle := Nat.mul_le_mul_right s (Nat.succ_le_of_lt h)
    rw [Nat.succ_mul] at hle
    omega

/-- Writing the next item keeps the waiting ones if its slot is clear. -/
theorem Stored.enqueue (m s : ℕ) (q : Segment) (d e : ℕ) (pending : List (List UInt8))
    (item : List UInt8) (hq : Stored m s q d pending) (he : e = d+pending.length)
    (hclear : Clear m d e) (hsize : item.length ≤ s) (p : UInt32) :
    Stored m s { q with content := store q.content (slot (2^32) m e*s) item, enqPos := p }
      d (pending ++ [item]) := by
  subst he
  intro k x hx
  by_cases hk : k < pending.length
  · rw [List.getElem?_append_left hk] at hx
    obtain ⟨hl,hv⟩ := hq k x hx
    refine ⟨hl, ?_⟩
    have hne := (hclear (d+k) (by omega) (by omega)).symm
    exact (load_store_disjoint _ _ _ _ _ (slots_disjoint _ _ s _ _ hne hsize hl)).trans hv
  · rw [List.getElem?_append_right (by omega)] at hx
    have hkl := (List.getElem?_eq_some_iff.mp hx).1
    simp only [List.length_singleton, Nat.lt_one_iff] at hkl
    have hk' : k = pending.length := by omega
    subst hk'
    obtain rfl : item = x := by simpa using hx
    exact ⟨hsize, load_store_same _ _ _⟩

theorem Stored.tail (m s : ℕ) (q : Segment) (d : ℕ) (item : List UInt8)
    (pending : List (List UInt8)) (hq : Stored m s q d (item :: pending)) (p : UInt32) :
    Stored m s { q with deqPos := p } (d+1) pending := by
  intro k x hx
  have h := hq (k+1) x hx
  rwa [show d+(k+1) = d+1+k by omega] at h

/-- Copying out of the slot of the first waiting item delivers that item. -/
theorem Stored.head (m s : ℕ) (q : Segment) (d n : ℕ) (item : List UInt8)
    (pending : List (List UInt8)) (hq : Stored m s q d (item :: pending)) :
    SameItem item (n, load q.content (slot (2^32) m d*s) n) := by
  obtain ⟨-,hv⟩ := hq 0 item rfl
  simp only [Nat.add_zero] at hv
  refine ⟨load_length _ _ _, ?_⟩
  dsimp only
  conv_rhs => rw [← hv]
  rw [load_take, load_take, load_length]
  congr 1
  omega

/-- The head and the slots of a queue in which the items `pending` wait from position `d`. -/
structure Waiting (m s : ℕ) (q : Segment) (d : ℕ) (pending : List (List UInt8)) : Prop where
  counts : Counts m q (d+pending.length) d
  stored : Stored m s q d pending

section run
variable (semid shmid m s : ℕ) (hm : 0 < m) (hs : 0 < s) (hsz : m*s < 2^31)
include hm hs hsz

/-- One call moves at most one item: in at the end, or out at the front. -/
theorem call_fifo (st st' : System) (c : ℕ × Call) (r : Ret × List UInt8) (d : ℕ)
    (pending : List (List UInt8)) (hj : Joined semid shmid m (installedItemsize s) st)
    (hw : Waiting m s (st.shm.segment shmid) d pending) (hq : QueueCall m s c.2)
    (hclear : (enqueuedBy (c,r)).isSome → pending.length < m-1 → Clear m d (d+pending.length))
    (h : st.call (semaphoresSucceed semid) c = some (st',r)) :
    (enqueuedBy (c,r) = none ∧ dequeuedBy (c,r) = none ∧
      Waiting m s (st'.shm.segment shmid) d pending) ∨
    (∃ item, enqueuedBy (c,r) = some item ∧ dequeuedBy (c,r) = none ∧
      Waiting m s (st'.shm.segment shmid) d (pending ++ [item])) ∨
    (∃ item rest taken, pending = item :: rest ∧ enqueuedBy (c,r) = none ∧
      dequeuedBy (c,r) = some taken ∧ SameItem item taken ∧
      Waiting m s (st'.shm.segment shmid) (d+1) rest) := by
  have hms : m ≤ m*s := Nat.le_mul_of_pos_right m hs
  have hitem : installedItemsize s = s := if_neg (by omega)
  obtain ⟨-,hcase⟩ := call_cases semid shmid m s hm st st' c r hq hj h
  obtain ⟨i,c⟩ := c
  dsimp only at hcase
  have hc := hw.counts
  rcases hcase with ⟨hseg,he,hd⟩ | ⟨item,size,rfl,h0,hle,ho,rfl,hseg⟩ |
    ⟨size,rfl,h0,hle,ho,rfl,hseg⟩
  · left
    rw [hseg]
    exact ⟨he,hd,hw⟩
  · rw [hitem] at hle ho
    -- the queue is full, or the item goes into the slot behind the waiting ones
    rcases enqueueItem_cases m hm (by omega) _ ho.mqsize size _ _ _ hc item with
      ⟨-,hf⟩ | ⟨hlt,hf⟩
    · left
      rw [hf] at hseg ⊢
      rw [hseg]
      exact ⟨rfl,rfl,hw⟩
    · right
      left
      rw [hf] at hseg hclear ⊢
      rw [hseg]
      have hlen : (load item 0 size.toNat).length ≤ s := by
        rw [load_length]
        omega
      have hcl := hclear rfl (by omega)
      refine ⟨_, rfl, rfl, ?_, ?_⟩
      · rw [List.length_append, List.length_singleton, ← Nat.add_assoc]
        exact hc.enqueue m _ _ d hlt _
      · dsimp only
        rw [slotOffset_eq semid shmid m s _ ho hm hs (by omega)]
        exact hw.stored.enqueue m s _ d _ pending _ rfl hcl hlen _
  · rw [hitem] at hle ho
    -- the queue is empty, or the first waiting item comes out
    rcases dequeueItem_cases m hm (by omega) _ ho.mqsize size _ _ _ hc with ⟨-,hf⟩ | ⟨hlt,hf⟩
    · left
      rw [hf] at hseg ⊢
      rw [hseg]
      exact ⟨rfl,rfl,hw⟩
    · right
      right
      rw [hf] at hseg ⊢
      rw [hseg]
      cases pending with
      | nil =>
        rw [List.length_nil] at hlt
        omega
      | cons item rest =>
        have hc1 := hc.dequeue m _ _ d hlt
        rw [List.length_cons, show d+(rest.length+1) = d+1+rest.length by omega] at hc1
        refine ⟨item, rest, _, rfl, rfl, rfl, ?_, hc1, hw.stored.tail m s _ d item rest _⟩
        rw [slotOffset_eq semid shmid m s _ ho hm hs (by omega)]
        exact hw.stored.head m s _ d size.toNat item rest

/-- If every enqueue of a run finds its slot clear, then the queue is a FIFO. -/
theorem run_fifo (cs : List (ℕ × Call)) (hq : ∀ c ∈ cs, QueueCall m s c.2) (st st' : System)
    (rs : List (Ret × List UInt8)) (d : ℕ) (pending : List (List UInt8))
    (hj : Joined semid shmid m (installedItemsize s) st)
    (hw : Waiting m s (st.shm.segment shmid) d pending)
    (hclear : ∀ d' e', d' ≤ e' → e'-d' < m-1 →
      e' < d+pending.length+(enqueued cs rs).length → Clear m d' e')
    (h : run (System.call (semaphoresSucceed semid)) st cs = some (st',rs)) :
    ∃ taken rest, pending ++ enqueued cs rs = taken ++ rest ∧
      List.Forall₂ SameItem taken (dequeued cs rs) := by
  induction cs generalizing st rs d pending with
  | nil => exact ⟨[], pending ++ enqueued [] rs, rfl, List.Forall₂.nil⟩
  | cons c cs ih =>
    obtain ⟨st1,r,rs',h1,h2,rfl⟩ := run_cons_eq_some st st' c cs rs h
    have hqc := hq c (by simp)
    have hq' : ∀ b ∈ cs, QueueCall m s b.2 := fun b hb => hq b (List.mem_cons_of_mem c hb)
    obtain ⟨hj1,-⟩ := call_cases semid shmid m s hm st st1 c r hqc hj h1
    rw [enqueued_cons, dequeued_cons]
    rw [enqueued_cons, List.length_append] at hclear
    -- the condition on the slots is that of the run at this call
    have hcl : (enqueuedBy (c,r)).isSome → pending.length < m-1 →
        Clear m d (d+pending.length) := by
      intro hsome hlt
      obtain ⟨item,he⟩ := Option.isSome_iff_exists.mp hsome
      apply hclear d _ (by omega) (by omega)
      rw [he]
      simp only [Option.toList_some, List.length_singleton]
      omega
    rcases call_fifo semid shmid m s hm hs hsz st st1 c r d pending hj hw hqc hcl h1 with
      ⟨he,hd,hw1⟩ | ⟨item,he,hd,hw1⟩ | ⟨item,rest,bytes,rfl,he,hd,hsame,hw1⟩
    · rw [he] at hclear
      rw [he, hd]
      simp only [Option.toList_none, List.length_nil, Nat.zero_add] at hclear
      exact ih hq' st1 rs' d pending hj1 hw1 hclear h2
    · rw [he] at hclear
      rw [he, hd]
      obtain ⟨taken,rest,htr,hall⟩ := ih hq' st1 rs' d (pending ++ [item]) hj1 hw1 (by
        intro d' e' hde hroom hlt
        apply hclear d' e' hde hroom
        simp only [Option.toList_some, List.length_append, List.length_singleton] at hlt ⊢
        omega) h2
      exact ⟨taken, rest, by simpa using htr, hall⟩
    · rw [he] at hclear
      rw [he, hd]
      obtain ⟨taken,rest',htr,hall⟩ := ih hq' st1 rs' (d+1) rest hj1 hw1 (by
        intro d' e' hde hroom hlt
        apply hclear d' e' hde hroom
        simp only [Option.toList_none, List.length_nil, List.length_cons] at hlt ⊢
        omega) h2
      exact ⟨item :: taken, rest', by simpa using htr, List.Forall₂.cons hsame hall⟩

end run

end Cclab.Shmmq
