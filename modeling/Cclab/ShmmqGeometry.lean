import Cclab.ShmmqCounters

/-! The layout of the queue as each process computes it from its own static variables. -/
namespace Cclab.Shmmq
open ByteMemory WrappingSlots OperationRuns

/-- The offset of the slot behind the counter `pos`. -/
def slotAddress (g : Statics) (pos : UInt32) : ℕ :=
  ((pos+1) % UInt32.ofInt g.gMqsize * UInt32.ofInt g.gItemsize).toNat

def seesFull (g : Statics) (q : Segment) : Prop := q.deqPos + UInt32.ofInt g.gMqsize - 1 = q.enqPos

def seesEmpty (_ : Statics) (q : Segment) : Prop := q.enqPos = q.deqPos

/-- Where `g'` looks for it lies the item that `g` enqueues. -/
def Delivers (g g' : Statics) (q : Segment) : Prop :=
  ∀ item size, 0 < size → (enqueueItem g item size q).1 = .success →
    load (enqueueItem g item size q).2.content (slotAddress g' q.enqPos) size.toNat =
      load item 0 size.toNat

/-- Two processes compute the same from the head of the queue. -/
structure Agree (g g' : Statics) (q : Segment) : Prop where
  enqAddress : slotAddress g q.enqPos = slotAddress g' q.enqPos
  deqAddress : slotAddress g q.deqPos = slotAddress g' q.deqPos
  full : seesFull g q ↔ seesFull g' q
  empty : seesEmpty g q ↔ seesEmpty g' q
  delivers : Delivers g g' q ∧ Delivers g' g q

theorem Agree.symm (g g' : Statics) (q : Segment) (h : Agree g g' q) : Agree g' g q :=
  ⟨h.enqAddress.symm, h.deqAddress.symm, h.full.symm, h.empty.symm, h.delivers.symm⟩

/-- The queue after any enqueues and dequeues of two processes, from its creation on. -/
inductive ReachedBy (g g' : Statics) : Segment → Prop
  | created (q : Segment) (he : q.enqPos = -1) (hd : q.deqPos = -1) : ReachedBy g g' q
  | enqueue (f : Statics) (item : Mem) (size : ℤ) (q : Segment) (hf : f = g ∨ f = g')
      (h : ReachedBy g g' q) : ReachedBy g g' (enqueueItem f item size q).2
  | dequeue (f : Statics) (size : ℤ) (q : Segment) (hf : f = g ∨ f = g')
      (h : ReachedBy g g' q) : ReachedBy g g' (dequeueItem f size q).2.2

theorem ReachedBy.symm (g g' : Statics) (q : Segment) (h : ReachedBy g g' q) : ReachedBy g' g q := by
  induction h with
  | created q he hd => exact .created q he hd
  | enqueue f item size q hf _ ih => exact .enqueue f item size q hf.symm ih
  | dequeue f size q hf _ ih => exact .dequeue f size q hf.symm ih

/-- Enqueueing alone fills the queue as far as one of the processes sees it. -/
theorem reached_fill (g g' : Statics) (m : ℕ) (hg : g.gMqsize = m) (hm : 0 < m) (hm' : m ≤ 2^31)
    (k : ℕ) (hk : k ≤ m-1) : ∃ q, ReachedBy g g' q ∧ Counts m q k 0 := by
  induction k with
  | zero =>
    refine ⟨⟨0,-1,-1,fun _ => 0⟩, .created _ rfl rfl, rfl, rfl, Nat.le_refl 0, Nat.zero_le _⟩
  | succ k ih =>
    rcases ih (by omega) with ⟨q,hq,hc⟩
    refine ⟨_, .enqueue g (fun _ => 0) 1 q (Or.inl rfl) hq, ?_⟩
    rcases enqueueItem_cases m hm hm' g hg 1 q k 0 hc (fun _ => 0) with ⟨hfull,-⟩ | ⟨hroom,he⟩
    · omega
    · rw [he]
      exact hc.enqueue m q k 0 hroom _

theorem delivers_of_address (g g' : Statics) (q : Segment)
    (h : slotAddress g q.enqPos = slotAddress g' q.enqPos) : Delivers g g' q := by
  intro item size _ hs
  have hlen : (load item 0 size.toNat).length = size.toNat := load_length item 0 _
  unfold enqueueItem at hs ⊢
  by_cases hfull : q.deqPos + UInt32.ofInt g.gMqsize - 1 = q.enqPos
  · rw [if_pos hfull] at hs
    exact absurd hs (by simp)
  · rw [if_neg hfull]
    change load (store q.content (slotAddress g q.enqPos) (load item 0 size.toNat)) _ _ = _
    have hload := load_store_same q.content (slotAddress g q.enqPos) (load item 0 size.toNat)
    rw [hlen] at hload
    rw [← h]
    exact hload

section agree
variable (g g' : Statics) (m m' s s' : ℕ) (hg : g.gMqsize = m ∧ g.gItemsize = s)
  (hg' : g'.gMqsize = m' ∧ g'.gItemsize = s')
include hg hg'

theorem agree_of_geometry (hm : m' = m) (hs : s' = s ∨ m = 1) (q : Segment) : Agree g g' q := by
  have haddress (pos : UInt32) : slotAddress g pos = slotAddress g' pos := by
    unfold slotAddress
    rw [hg.1, hg.2, hg'.1, hg'.2, hm]
    rcases hs with rfl | rfl
    · rfl
    -- in a queue of one slot the item size does not matter
    · have hone : UInt32.ofInt ((1:ℕ):ℤ) = 1 := rfl
      rw [hone, UInt32.mod_one, UInt32.zero_mul, UInt32.zero_mul]
  refine ⟨haddress _, haddress _, ?_, Iff.rfl, delivers_of_address g g' q (haddress _),
    delivers_of_address g' g q (haddress _).symm⟩
  unfold seesFull
  rw [hg.1, hg'.1, hm]

/-- A queue that one process sees full is not full for one with more slots. -/
theorem not_agree_of_less (hm : 0 < m) (hlt : m < m') (hm' : m' ≤ 2^31) :
    ∃ q, ReachedBy g g' q ∧ ¬ Agree g g' q := by
  rcases reached_fill g g' m hg.1 hm (by omega) (m-1) (Nat.le_refl _) with ⟨q,hq,hc⟩
  refine ⟨q, hq, ?_⟩
  intro h
  have hfull := (counter_full_iff m (m-1) 0 hm (by omega) hc.le hc.room).mpr (by omega)
  have hsees : seesFull g q := by
    rw [seesFull, hc.enq, hc.deq, hg.1, uint32_ofInt_natCast]
    exact hfull
  have hsees' := h.full.mp hsees
  rw [seesFull, hc.enq, hc.deq, hg'.1, uint32_ofInt_natCast] at hsees'
  have hlevel := (counter_full_iff m' (m-1) 0 (by omega) hm' (by omega) (by omega)).mp hsees'
  omega

/-- The second slot lies behind one item. -/
theorem not_agree_of_itemsize (hm : 1 < m) (hlt : m ≤ 2^31) (he : m' = m) (hs : s ≠ s')
    (hs1 : s < 2^32) (hs2 : s' < 2^32) : ∃ q, ReachedBy g g' q ∧ ¬ Agree g g' q := by
  rcases reached_fill g g' m hg.1 (by omega) hlt 1 (by omega) with ⟨q,hq,hc⟩
  refine ⟨q, hq, ?_⟩
  intro h
  have haddress (f : Statics) (t : ℕ) (hf : f.gMqsize = m ∧ f.gItemsize = t) (ht : t < 2^32) :
      slotAddress f q.enqPos = t := by
    unfold slotAddress
    rw [hc.enq, hf.1, hf.2, uint32_ofInt_natCast, uint32_ofInt_natCast, UInt32.toNat_mul,
      counter_slot m 1 (by omega), UInt32.toNat_ofNat', slot]
    have hone : 1%2^32%m = 1 := Nat.mod_eq_of_lt hm
    rw [hone, Nat.one_mul, Nat.mod_mod, Nat.mod_eq_of_lt ht]
  have hsame := h.enqAddress
  rw [haddress g s hg hs1, haddress g' s' (he ▸ hg') hs2] at hsame
  exact hs hsame

end agree

/-- What a call leaves and returns, whatever its semaphore calls answer. -/
def Code.Ends (Q : World → Ret → Prop) : Code → World → Prop
  | .done ret _, w => Q w ret
  | .fault, _ => True
  | .sem _ k, w => ∀ r, (k r).Ends Q w
  | .act f k, w => (k w).Ends Q (f w)

theorem Code.Ends.exec (Q : World → Ret → Prop) (sem : SemCall → Option ℕ) (c : Code) (w w' : World)
    (ret : Ret) (item : List UInt8) (h : c.Ends Q w) (he : c.exec sem w = some (w',ret,item)) :
    Q w' ret := by
  induction c generalizing w with
  | done r b =>
    simp only [Code.exec, Option.some.injEq, Prod.mk.injEq] at he
    rw [← he.1, ← he.2.1]
    exact h
  | fault => exact absurd he (by simp [Code.exec])
  | sem c k ih => exact ih (sem c) w (h (sem c)) he
  | act f k ih => exact ih w (f w) h he

section ends
variable (Q : World → Ret → Prop) (w : World)

theorem ends_ite (P : Prop) [Decidable P] (c d : Code) (hc : c.Ends Q w) (hd : d.Ends Q w) :
    (if P then c else d).Ends Q w := by
  by_cases h : P
  · rwa [if_pos h]
  · rwa [if_neg h]

theorem ends_release (semid : Option ℕ) (ret : Ret) (item : List UInt8) (h : Q w ret)
    (hv : Q w .errorSemaphoreV) : (release semid ret item).Ends Q w := by
  intro r
  exact ends_ite Q w _ _ _ hv h

/-- A call that works on the attached segment, between `semaphore_p` and `semaphore_v`. -/
theorem ends_attached (semid phead : Option ℕ) (body : ℕ → Code) (hp : Q w .errorSemaphoreP)
    (h : ∀ id, (body id).Ends Q w) :
    (Code.sem (.semaphoreP semid) fun r =>
      if r = none then .done .errorSemaphoreP []
      else match phead with
        | none => .fault
        | some id => body id).Ends Q w := by
  intro r
  refine ends_ite Q w _ (.done .errorSemaphoreP []) _ hp ?_
  cases phead with
  | none => trivial
  | some id => exact h id

end ends

theorem attach_geometry (env : OpenEnv) (iscreated m s : ℤ) (w : World) :
    (attachSegment env iscreated m s w).2.proc.gMqsize = installedMqsize m ∧
      (attachSegment env iscreated m s w).2.proc.gItemsize = installedItemsize s := by
  simp only [attachSegment]
  split
  · exact ⟨rfl,rfl⟩
  · by_cases hat : env.shmat = true
    · rw [if_pos hat]
      exact ⟨rfl,rfl⟩
    · rw [if_neg hat]
      exact ⟨rfl,rfl⟩

/-- `shmmq_open` succeeds only by attaching the segment. -/
theorem ends_open_success (Q : World → Prop) (env : OpenEnv) (iscreated m s : ℤ) (w : World)
    (h : ∀ w', w'.shm = w.shm → (attachSegment env iscreated m s w').1 = .success →
      Q (attachSegment env iscreated m s w').2) :
    (shmmqOpen env iscreated m s).Ends (fun w ret => ret = .success → Q w) w := by
  have hlocked (semid : Option ℕ) (w' : World) (hw : w'.shm = w.shm) :
      (shmmqOpenLocked env semid iscreated m s).Ends (fun w ret => ret = .success → Q w) w' := by
    intro r
    apply ends_ite
    · intro h
      exact absurd h (by simp)
    · by_cases herror : (attachSegment env iscreated m s w').1 ≠ .success ∧ iscreated ≠ 0
      -- the error path, which returns no success
      · have hcode (c d : Code) : (if (attachSegment env iscreated m s w').1 ≠ .success ∧
            iscreated ≠ 0 then c else d) = c := if_pos herror
        simp only [Code.Ends, hcode]
        intro _ _ h
        exact absurd h herror.1
      · have hcode (c d : Code) : (if (attachSegment env iscreated m s w').1 ≠ .success ∧
            iscreated ≠ 0 then c else d) = d := if_neg herror
        simp only [Code.Ends, hcode]
        apply ends_release
        · exact h w' hw
        · intro h
          exact absurd h (by simp)
  intro semid
  apply ends_ite
  · intro h
    exact absurd h (by simp)
  · apply ends_ite
    · intro r
      apply ends_ite
      · intro h
        exact absurd h (by simp)
      · exact hlocked _ _ rfl
    · exact hlocked _ _ rfl

/-- A successful `shmmq_open` leaves what its body leaves. -/
theorem open_success (Q : World → Prop) (sem : SemCall → Option ℕ) (st st' : System) (i : ℕ)
    (env : OpenEnv) (iscreated m s : ℤ) (bytes : List UInt8)
    (hQ : ∀ w, w.shm = st.shm → (attachSegment env iscreated m s w).1 = .success →
      Q (attachSegment env iscreated m s w).2)
    (h : st.call sem (i,.shmmqOpen env iscreated m s) = some (st',.success,bytes)) :
    Q ⟨st'.shm,st'.procs i⟩ := by
  rcases Option.map_eq_some_iff.mp h with ⟨⟨w,ret,item⟩,he,hst⟩
  obtain ⟨rfl,hret⟩ := Prod.mk.inj hst
  have hends := (ends_open_success Q env iscreated m s ⟨st.shm,st.procs i⟩ hQ).exec _ sem _ _ w
    ret item he
  simp only [Function.update_self]
  exact hends (Prod.mk.inj hret).1

theorem ends_statics (c : Call) (hc : ∀ env iscreated m s, c ≠ .shmmqOpen env iscreated m s)
    (g : Statics) (w : World) : (c.code g).Ends (fun w' _ => w'.proc = w.proc) w := by
  cases c with
  | shmmqOpen env iscreated m s => exact absurd rfl (hc env iscreated m s)
  | shmmqEnqueue item size =>
    cases item with
    | none => exact rfl
    | some item =>
      apply ends_ite
      · exact rfl
      · apply ends_attached _ _ _ _ _ rfl
        intro id
        apply ends_release _ _ g.gSemid
        · exact rfl
        · exact rfl
  | shmmqDequeue item size =>
    apply ends_ite
    · exact rfl
    · apply ends_attached _ _ _ _ _ rfl
      intro id
      apply ends_release _ _ g.gSemid
      · exact rfl
      · exact rfl
  | shmmqClear sf =>
    cases sf with
    | none => exact rfl
    | some sf =>
      apply ends_attached _ _ _ _ _ rfl
      intro id
      apply ends_ite
      · apply ends_release _ _ g.gSemid
        · exact rfl
        · exact rfl
      · apply ends_release _ _ g.gSemid
        · exact rfl
        · exact rfl

theorem call_statics (sem : SemCall → Option ℕ) (st st' : System) (i j : ℕ) (c : Call)
    (r : Ret × List UInt8)
    (hc : i = j → ∀ env iscreated m s, c ≠ .shmmqOpen env iscreated m s)
    (h : st.call sem (i,c) = some (st',r)) : st'.procs j = st.procs j := by
  rcases Option.map_eq_some_iff.mp h with ⟨⟨w,ret,item⟩,he,hst⟩
  obtain ⟨rfl,-⟩ := Prod.mk.inj hst
  by_cases hij : i = j
  · subst hij
    have hends := (ends_statics c (hc rfl) (st.procs i) ⟨st.shm,st.procs i⟩).exec _ sem _ _ w ret item he
    simp only [Function.update_self]
    exact hends
  · exact Function.update_of_ne (fun he => hij he.symm) _ _

/-- A successful `shmmq_open` installs the sizes of its caller. -/
theorem open_geometry (sem : SemCall → Option ℕ) (st st' : System) (i : ℕ) (env : OpenEnv)
    (iscreated m s : ℤ) (bytes : List UInt8)
    (h : st.call sem (i,.shmmqOpen env iscreated m s) = some (st',.success,bytes)) :
    (st'.procs i).gMqsize = installedMqsize m ∧ (st'.procs i).gItemsize = installedItemsize s :=
  open_success (fun w => w.proc.gMqsize = installedMqsize m ∧
      w.proc.gItemsize = installedItemsize s) sem st st' i env iscreated m s bytes
    (fun w _ _ => attach_geometry env iscreated m s w) h

/-- One call with the answers that its semaphore calls get. -/
def answered (st : System) (c : (SemCall → Option ℕ) × ℕ × Call) :
    Option (System × Ret × List UInt8) := st.call c.1 c.2

/-- Other calls leave the sizes of a process that opens nothing any more. -/
theorem run_statics (a : ℕ) (cs : List ((SemCall → Option ℕ) × ℕ × Call))
    (hcs : ∀ c ∈ cs, c.2.1 = a → ∀ env iscreated m s, c.2.2 ≠ .shmmqOpen env iscreated m s)
    (st st' : System) (rs : List (Ret × List UInt8)) (h : run answered st cs = some (st',rs)) :
    st'.procs a = st.procs a :=
  run_invariant (fun s => s.procs a = st.procs a) (fun c => c.2.1 = a →
      ∀ env iscreated m s, c.2.2 ≠ .shmmqOpen env iscreated m s)
    (fun s c s' o hs hc hcall => (call_statics c.1 s s' c.2.1 a c.2.2 o hc hcall).trans hs)
    st st' cs rs rfl hcs h

/-- A process that creates the queue and one that opens it later, with any calls between, agree
on its layout exactly if they were given the same number of slots and, unless there is only one
slot, the same item size. -/
theorem attached_agree_iff (a b : ℕ) (hab : a ≠ b) (semA semB : SemCall → Option ℕ)
    (envA envB : OpenEnv) (iscreated m s m' s' : ℤ) (hm : m < 2^31) (hs : s < 2^31)
    (hm' : m' < 2^31) (hs' : s' < 2^31) (st st1 st2 st3 : System) (bytes bytes' : List UInt8)
    (cs : List ((SemCall → Option ℕ) × ℕ × Call)) (rs : List (Ret × List UInt8))
    (hcs : ∀ c ∈ cs, c.2.1 = a → ∀ env iscreated m s, c.2.2 ≠ .shmmqOpen env iscreated m s)
    (h1 : st.call semA (a,.shmmqOpen envA iscreated m s) = some (st1,.success,bytes))
    (h2 : run answered st1 cs = some (st2,rs))
    (h3 : st2.call semB (b,.shmmqOpen envB 0 m' s') = some (st3,.success,bytes')) :
    (∀ q, ReachedBy (st3.procs a) (st3.procs b) q → Agree (st3.procs a) (st3.procs b) q) ↔
      installedMqsize m' = installedMqsize m ∧
        (installedItemsize s' = installedItemsize s ∨ installedMqsize m = 1) := by
  have hA : st3.procs a = st1.procs a :=
    (call_statics semB st2 st3 b a _ _ (fun he => absurd he.symm hab) h3).trans
      (run_statics a cs hcs st1 st2 rs h2)
  have hgA := open_geometry semA st st1 a envA iscreated m s bytes h1
  have hgB := open_geometry semB st2 st3 b envB 0 m' s' bytes' h3
  rw [← hA] at hgA
  -- the installed sizes are positive and fit an `int`
  have hmq (x : ℤ) (hx : x < 2^31) : ∃ k : ℕ, installedMqsize x = k ∧ 0 < k ∧ k < 2^31 := by
    unfold installedMqsize defaultMqSize
    split_ifs with h
    · exact ⟨1024, rfl, by decide, by decide⟩
    · exact ⟨x.toNat, by omega, by omega, by omega⟩
  have hitem (x : ℤ) (hx : x < 2^31) : ∃ k : ℕ, installedItemsize x = k ∧ k < 2^31 := by
    unfold installedItemsize defaultItemSize
    split_ifs with h
    · exact ⟨256, rfl, by decide⟩
    · exact ⟨x.toNat, by omega, by omega⟩
  rcases hmq m hm with ⟨k,hk,hk0,hk1⟩
  rcases hmq m' hm' with ⟨k',hk',hk0',hk1'⟩
  rcases hitem s hs with ⟨t,ht,ht1⟩
  rcases hitem s' hs' with ⟨t',ht',ht1'⟩
  rw [hk, ht] at hgA
  rw [hk', ht'] at hgB
  rw [hk, hk', ht, ht', Int.natCast_inj, Int.natCast_inj]
  constructor
  · intro hall
    have hslots : k' = k := by
      rcases Nat.lt_trichotomy k k' with hlt | he | hgt
      · rcases not_agree_of_less _ _ k k' t t' hgA hgB hk0 hlt (by omega) with ⟨q,hq,hnot⟩
        exact absurd (hall q hq) hnot
      · exact he.symm
      · rcases not_agree_of_less _ _ k' k t' t hgB hgA hk0' hgt (by omega) with ⟨q,hq,hnot⟩
        exact absurd (hall q hq.symm).symm hnot
    refine ⟨hslots, ?_⟩
    by_contra hne
    rw [not_or] at hne
    rcases not_agree_of_itemsize _ _ k k' t t' hgA hgB (by omega) (by omega) hslots
      (fun he => hne.1 he.symm) (by omega) (by omega) with ⟨q,hq,hnot⟩
    exact hnot (hall q hq)
  · rintro ⟨hslots,hsize⟩ q -
    exact agree_of_geometry _ _ k k' t t' hgA hgB hslots (hsize.imp id (by omega)) q

/-- Two processes before their first call, on a system without a segment under the key. -/
def unopened : System := ⟨⟨fun _ => ⟨0,0,0,fun _ => 0⟩,none,0⟩,fun _ => .initial⟩

/-- The queue is created and opened with two slots of four bytes. -/
theorem attached_agree_iff_same : ∃ st1 st3,
    unopened.call (semaphoresSucceed 0) (0,.shmmqOpen ⟨8192,true⟩ 1 2 4) = some (st1,.success,[]) ∧
    st1.call (semaphoresSucceed 0) (1,.shmmqOpen ⟨8192,true⟩ 0 2 4) = some (st3,.success,[]) ∧
    ∀ q, ReachedBy (st3.procs 0) (st3.procs 1) q → Agree (st3.procs 0) (st3.procs 1) q := by
  refine ⟨_, _, rfl, rfl, ?_⟩
  exact (attached_agree_iff 0 1 (by decide) (semaphoresSucceed 0) (semaphoresSucceed 0) ⟨8192,true⟩
    ⟨8192,true⟩ 1 2 4 2 4 (by decide) (by decide) (by decide) (by decide) unopened _ _ _ [] [] [] []
    (by simp) rfl rfl rfl).mpr ⟨rfl,Or.inl rfl⟩

/-- A queue created with two slots and opened with one: the second process sees it full as soon as
it is created. -/
theorem fewer_slots_disagree : ∃ st1 st3,
    unopened.call (semaphoresSucceed 0) (0,.shmmqOpen ⟨8192,true⟩ 1 2 4) = some (st1,.success,[]) ∧
    st1.call (semaphoresSucceed 0) (1,.shmmqOpen ⟨8192,true⟩ 0 1 4) = some (st3,.success,[]) ∧
    ReachedBy (st3.procs 0) (st3.procs 1) (st3.shm.segment 0) ∧
    ¬ seesFull (st3.procs 0) (st3.shm.segment 0) ∧ seesFull (st3.procs 1) (st3.shm.segment 0) ∧
    ¬ Agree (st3.procs 0) (st3.procs 1) (st3.shm.segment 0) := by
  have hfull (q : Segment) (he : q.enqPos = -1) (hd : q.deqPos = -1) (g : Statics) :
      seesFull g q ↔ (-1) + UInt32.ofInt g.gMqsize - 1 = -1 := by rw [seesFull, he, hd]
  refine ⟨_, _, rfl, rfl, .created _ rfl rfl, ?_, ?_, ?_⟩
  · rw [hfull _ rfl rfl]
    decide
  · rw [hfull _ rfl rfl]
    decide
  · intro h
    have hsame := h.full
    rw [hfull _ rfl rfl, hfull _ rfl rfl] at hsame
    exact absurd hsame (by decide)

end Cclab.Shmmq
