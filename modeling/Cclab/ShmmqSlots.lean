import Cclab.ShmmqFailures
import Cclab.ShmmqFifo
import Cclab.ShmmqGeometry

/-! Where the slots of the queue lie in the segment that `shmmq_open` created. The size of
the segment is an `int` expression and the offset of a slot an `unsigned int` one; they
agree as long as the former does not overflow. -/
namespace Cclab.Shmmq
open ByteMemory WrappingSlots

/-- Bytes of the segment that a `memcpy` touches, for the item in the slot `slot`. -/
structure Copied where
  slot : UInt32
  start : ℕ
  length : ℕ
deriving DecidableEq

/-- The bytes behind `g_s_pcontent + pos*g_s_itemsize`, from the start of the segment. -/
def copiedAt (g : Statics) (size : ℤ) (pos : UInt32) : Copied :=
  ⟨pos, defaultHeadSize.toNat+(pos*UInt32.ofInt g.gItemsize).toNat, size.toNat⟩

/-- What `shmmq_enqueue` writes of the segment, if it gets that far. -/
def enqueueCopies (g : Statics) (size : ℤ) (q : Segment) : Option Copied :=
  if size ≤ 0 ∨ size > g.gItemsize ∨ q.deqPos + UInt32.ofInt g.gMqsize - 1 = q.enqPos then none
  else some (copiedAt g size ((q.enqPos+1) % UInt32.ofInt g.gMqsize))

/-- What `shmmq_dequeue` reads of the segment, if it gets that far. -/
def dequeueCopies (g : Statics) (size : ℤ) (q : Segment) : Option Copied :=
  if size ≤ 0 ∨ size > g.gItemsize ∨ q.enqPos = q.deqPos then none
  else some (copiedAt g size ((q.deqPos+1) % UInt32.ofInt g.gMqsize))

theorem enqueueItem_copies (g : Statics) (item : Mem) (size : ℤ) (q : Segment) (c : Copied)
    (h : enqueueCopies g size q = some c) : (enqueueItem g item size q).2.content =
      store q.content (c.start-defaultHeadSize.toNat) (load item 0 c.length) := by
  unfold enqueueCopies at h
  by_cases hskip : size ≤ 0 ∨ size > g.gItemsize ∨ q.deqPos + UInt32.ofInt g.gMqsize - 1 = q.enqPos
  · rw [if_pos hskip] at h
    exact absurd h (by simp)
  · rw [if_neg hskip] at h
    simp only [not_or] at hskip
    obtain rfl := Option.some.inj h
    simp only [enqueueItem, if_neg hskip.2.2, copiedAt, Nat.add_sub_cancel_left]

theorem dequeueItem_copies (g : Statics) (size : ℤ) (q : Segment) (c : Copied)
    (h : dequeueCopies g size q = some c) : (dequeueItem g size q).2.1 =
      load q.content (c.start-defaultHeadSize.toNat) c.length := by
  unfold dequeueCopies at h
  by_cases hskip : size ≤ 0 ∨ size > g.gItemsize ∨ q.enqPos = q.deqPos
  · rw [if_pos hskip] at h
    exact absurd h (by simp)
  · rw [if_neg hskip] at h
    simp only [not_or] at hskip
    obtain rfl := Option.some.inj h
    simp only [dequeueItem, if_neg hskip.2.2, copiedAt, Nat.add_sub_cancel_left]

/-- One of the two operations copies `c`, with some counters in the head. -/
def Copies (g : Statics) (c : Copied) : Prop :=
  ∃ size q, enqueueCopies g size q = some c ∨ dequeueCopies g size q = some c

/-- The slots lie in a segment of `bytes` bytes, apart from each other. -/
structure SlotsInside (g : Statics) (bytes : ℕ) : Prop where
  inside : ∀ c, Copies g c → c.start+c.length ≤ bytes
  apart : ∀ c c', Copies g c → Copies g c' → c.slot ≠ c'.slot →
    Apart c.start c.length c'.start c'.length

section slots
variable (g : Statics) (m s : ℕ) (hg : g.gMqsize = m ∧ g.gItemsize = s) (hm : 0 < m)
  (hm' : m < 2^31) (hs' : s < 2^31)
include hg hm hm' hs'

/-- Every operation copies bytes of a slot of the ring. -/
theorem copies_slot (c : Copied) (hc : Copies g c) : c.slot.toNat < m ∧ c.length ≤ s ∧
    c.start = 4096+c.slot.toNat*s%2^32 := by
  obtain ⟨hgm,hgs⟩ := hg
  have hshape : ∃ pos size, size ≤ g.gItemsize ∧
      c = copiedAt g size (pos % UInt32.ofInt g.gMqsize) := by
    obtain ⟨size,q,h | h⟩ := hc
    · unfold enqueueCopies at h
      split_ifs at h with hskip
      exact ⟨_, size, by omega, (Option.some.inj h).symm⟩
    · unfold dequeueCopies at h
      split_ifs at h with hskip
      exact ⟨_, size, by omega, (Option.some.inj h).symm⟩
  obtain ⟨pos,size,hle,rfl⟩ := hshape
  refine ⟨?_, ?_, ?_⟩
  · change (pos % UInt32.ofInt g.gMqsize).toNat < m
    rw [hgm, uint32_ofInt_natCast, UInt32.toNat_mod, UInt32.toNat_ofNat',
      Nat.mod_eq_of_lt (show m < 2^32 by omega)]
    exact Nat.mod_lt _ hm
  · change size.toNat ≤ s
    omega
  · change 4096+(_*UInt32.ofInt g.gItemsize).toNat = 4096+_
    rw [hgs, uint32_ofInt_natCast, UInt32.toNat_mul, UInt32.toNat_ofNat',
      Nat.mod_eq_of_lt (show s < 2^32 by omega)]
    rfl

/-- Every slot of the ring holds an item that can be dequeued whole. -/
theorem slot_copied (hs : 0 < s) (p : ℕ) (hp : p < m) :
    Copies g ⟨UInt32.ofNat p, 4096+p*s%2^32, s⟩ := by
  obtain ⟨hgm,hgs⟩ := hg
  -- a queue with one item, in the slot `p`
  refine ⟨s, ⟨0,UInt32.ofNat p,UInt32.ofNat p-1,fun _ => 0⟩, Or.inr ?_⟩
  have hitem : ¬ ((s:ℤ) ≤ 0 ∨ (s:ℤ) > g.gItemsize ∨ UInt32.ofNat p = UInt32.ofNat p-1) := by
    rw [hgs]
    have hne : UInt32.ofNat p ≠ UInt32.ofNat p-1 := by
      intro h
      have hsucc := congrArg (fun x => x+1) h
      rw [UInt32.sub_add_cancel] at hsucc
      exact uint32_succ_ne _ hsucc
    rintro (h | h | h)
    · omega
    · omega
    · exact hne h
  have hslot : UInt32.ofNat p % UInt32.ofNat m = UInt32.ofNat p := by
    apply UInt32.toNat_inj.mp
    rw [UInt32.toNat_mod, UInt32.toNat_ofNat', UInt32.toNat_ofNat',
      Nat.mod_eq_of_lt (show p < 2^32 by omega), Nat.mod_eq_of_lt (show m < 2^32 by omega),
      Nat.mod_eq_of_lt hp]
  have hoffset : (UInt32.ofNat p*UInt32.ofNat s).toNat = p*s%2^32 := by
    rw [UInt32.toNat_mul, UInt32.toNat_ofNat', UInt32.toNat_ofNat',
      Nat.mod_eq_of_lt (show p < 2^32 by omega), Nat.mod_eq_of_lt (show s < 2^32 by omega)]
  rw [dequeueCopies, if_neg hitem, copiedAt, UInt32.sub_add_cancel, hgm, hgs,
    uint32_ofInt_natCast, uint32_ofInt_natCast, hslot, hoffset]
  rfl

/-- In a segment that an `int` can count, the offsets of slots that all lie inside have
not wrapped. -/
theorem offset_exact (hs : 0 < s) (bytes : ℕ) (hb : bytes < 2^31)
    (hin : ∀ c, Copies g c → c.start+c.length ≤ bytes) (p : ℕ) (hp : p < m) :
    p*s%2^32 = p*s := by
  induction p with
  | zero => rw [Nat.zero_mul, Nat.zero_mod]
  | succ p ih =>
    have hlast := hin _ (slot_copied g m s hg hm hm' hs' hs p (by omega))
    dsimp only at hlast
    rw [ih (by omega)] at hlast
    rw [Nat.succ_mul]
    exact Nat.mod_eq_of_lt (by omega)

theorem slotsInside_of_exact (bytes : ℕ) (hb : m*s+4096 ≤ bytes) (hb' : m*s < 2^32) :
    SlotsInside g bytes := by
  -- a slot ends where the next one begins, and the last one ends at `m*s`
  have hle (p : ℕ) (hp : p < m) : p*s+s ≤ m*s := by
    rw [← Nat.succ_mul]
    exact Nat.mul_le_mul_right s hp
  have hstart (c : Copied) (hc : Copies g c) : c.length ≤ s ∧ c.slot.toNat*s+s ≤ m*s ∧
      c.start = 4096+c.slot.toNat*s := by
    obtain ⟨hslot,hlen,he⟩ := copies_slot g m s hg hm hm' hs' c hc
    have hlast := hle _ hslot
    rw [Nat.mod_eq_of_lt (by omega)] at he
    exact ⟨hlen,hlast,he⟩
  refine ⟨?_, ?_⟩
  · intro c hc
    obtain ⟨hlen,hlast,he⟩ := hstart c hc
    omega
  · intro c c' hc hc' hne
    obtain ⟨hlen,-,he⟩ := hstart c hc
    obtain ⟨hlen',-,he'⟩ := hstart c' hc'
    have hnat : c.slot.toNat ≠ c'.slot.toNat := fun h => hne (UInt32.toNat_inj.mp h)
    have h := slots_disjoint _ _ s c.length c'.length hnat hlen hlen'
    unfold Apart at h ⊢
    omega

/-- The slots lie inside a segment of the size that the code requests if and only if the
requested size has not overflowed. -/
theorem slotsInside_iff (hs : 0 < s) (bytes : ℕ) (hb : bytes = (m*s+4096)%2^32)
    (hint : bytes < 2^31) : SlotsInside g bytes ↔ m*s+4096 < 2^31 := by
  constructor
  · intro h
    have hlast := h.inside _ (slot_copied g m s hg hm hm' hs' hs (m-1) (by omega))
    dsimp only at hlast
    rw [offset_exact g m s hg hm hm' hs' hs bytes hint h.inside (m-1) (by omega)] at hlast
    have hsum : (m-1)*s+s = m*s := by
      rw [← Nat.succ_mul, Nat.succ_eq_add_one, Nat.sub_add_cancel hm]
    omega
  · intro h
    rw [Nat.mod_eq_of_lt (by omega)] at hb
    exact slotsInside_of_exact g m s hg hm hm' hs' bytes hb.ge (by omega)

end slots

/-- `shmget` makes a new segment only of the size it is asked for. -/
theorem attach_new (env : OpenEnv) (m s : ℤ) (w : World) (hkey : w.shm.key = none)
    (h : (attachSegment env 1 m s w).1 = .success) : ∃ id,
      (attachSegment env 1 m s w).2.proc.gPhead = some id ∧
      ((attachSegment env 1 m s w).2.shm.segment id).size =
        requestedSize (installedMqsize m) (installedItemsize s) ∧
      requestedSize (installedMqsize m) (installedItemsize s) ≤ env.shmmax := by
  let size := requestedSize (installedMqsize m) (installedItemsize s)
  by_cases hsize : decide ((1:ℤ) ≠ 0) = true ∧ 0 < size ∧ size ≤ env.shmmax
  · have hget : shmget env.shmmax w.shm size (decide ((1:ℤ) ≠ 0)) = (some w.shm.nextShmid,
        ⟨Function.update w.shm.segment w.shm.nextShmid ⟨size,0,0,fun _ => 0⟩,
          some w.shm.nextShmid, w.shm.nextShmid+1⟩) := by
      rw [shmget, hkey]
      exact if_pos hsize
    by_cases hat : env.shmat = true
    · simp only [attachSegment, hget, if_pos hat, size]
      refine ⟨w.shm.nextShmid, rfl, ?_, hsize.2.2⟩
      rw [if_pos (by decide), modify_segment]
      simp only [Function.update_self]
    · simp only [attachSegment, hget, if_neg hat, reduceCtorEq, size] at h
  · have hget : shmget env.shmmax w.shm size (decide ((1:ℤ) ≠ 0)) = (none,w.shm) := by
      rw [shmget, hkey]
      exact if_neg hsize
    simp only [attachSegment, hget, reduceCtorEq, size] at h

theorem installed_positive (m s : ℤ) (hm : m < 2^31) (hs : s < 2^31) : ∃ k t : ℕ,
    installedMqsize m = k ∧ installedItemsize s = t ∧ 0 < k ∧ k < 2^31 ∧ 0 < t ∧ t < 2^31 := by
  refine ⟨(installedMqsize m).toNat, (installedItemsize s).toNat, ?_⟩
  unfold installedMqsize installedItemsize defaultMqSize defaultItemSize
  split_ifs
  all_goals omega

/-- A size that the kernel accepts is the requested one modulo `2^32`, and positive as an
`int`. -/
theorem requestedSize_accepted (k t shmmax : ℕ) (hmax : shmmax < 2^64-2^31)
    (h : requestedSize k t ≤ shmmax) :
    requestedSize k t = (k*t+4096)%2^32 ∧ requestedSize k t < 2^31 := by
  unfold requestedSize defaultHeadSize at h ⊢
  have hcast : (k:ℤ)*t+4096 = ((k*t+4096 : ℕ):ℤ) := by push_cast; rfl
  rw [hcast] at h ⊢
  have hsmall := Int.bmod_lt (x := ((k*t+4096 : ℕ):ℤ)) (m := 2^32) (by decide)
  have hlow := Int.le_bmod (x := ((k*t+4096 : ℕ):ℤ)) (m := 2^32) (by decide)
  have hcong := Int.bmod_emod (x := ((k*t+4096 : ℕ):ℤ)) (m := 2^32)
  generalize ((k*t+4096 : ℕ):ℤ).bmod (2^32) = b at *
  omega

/-- For every queue that `shmmq_open` creates, all slots lie in the new segment and apart
from each other if and only if the size of the segment fits an `int`. -/
theorem shmmq_slots_inside_iff (sem : SemCall → Option ℕ) (st st' : System) (i : ℕ)
    (env : OpenEnv) (mqsize itemsize : ℤ) (bytes : List UInt8) (hm : mqsize < 2^31)
    (hs : itemsize < 2^31) (hmax : env.shmmax < 2^64-2^31) (hkey : st.shm.key = none)
    (h : st.call sem (i,.shmmqOpen env 1 mqsize itemsize) = some (st',.success,bytes)) :
    ∃ id, (st'.procs i).gPhead = some id ∧
      (SlotsInside (st'.procs i) (st'.shm.segment id).size ↔
        installedMqsize mqsize*installedItemsize itemsize+4096 < 2^31) := by
  obtain ⟨id,hid,hsize,haccept⟩ := open_success (fun w => ∃ id, w.proc.gPhead = some id ∧
      (w.shm.segment id).size = requestedSize (installedMqsize mqsize) (installedItemsize itemsize) ∧
      requestedSize (installedMqsize mqsize) (installedItemsize itemsize) ≤ env.shmmax)
    sem st st' i env 1 mqsize itemsize bytes
    (fun w hw hret => attach_new env mqsize itemsize w (hw ▸ hkey) hret) h
  have hgeometry := open_geometry sem st st' i env 1 mqsize itemsize bytes h
  obtain ⟨k,t,hk,ht,hk0,hk1,ht0,ht1⟩ := installed_positive mqsize itemsize hm hs
  rw [hk, ht] at hsize haccept hgeometry ⊢
  obtain ⟨he,hint⟩ := requestedSize_accepted k t env.shmmax hmax haccept
  refine ⟨id, hid, ?_⟩
  rw [hsize, slotsInside_iff _ k t hgeometry hk0 hk1 ht1 ht0 _ he hint]
  exact_mod_cast Iff.rfl

/-- Four slots of 16 bytes. -/
theorem shmmq_slots_inside_iff_four : ∃ st' id,
    unopened.call (semaphoresSucceed 0) (0,.shmmqOpen ⟨2^31,true⟩ 1 4 16) = some (st',.success,[]) ∧
    (st'.procs 0).gPhead = some id ∧ SlotsInside (st'.procs 0) (st'.shm.segment id).size := by
  obtain ⟨id,hid,hiff⟩ := shmmq_slots_inside_iff (semaphoresSucceed 0) unopened _ 0 ⟨2^31,true⟩ 4 16
    [] (by decide) (by decide) (by decide) rfl rfl
  exact ⟨_, id, rfl, hid, hiff.mpr (by decide)⟩

/-- The product of 65536 slots of 65536 bytes is 0 as an `int`: the queue is created with a
segment that holds the head alone. -/
theorem shmmq_slots_outside : ∃ st' id,
    unopened.call (semaphoresSucceed 0) (0,.shmmqOpen ⟨2^31,true⟩ 1 65536 65536) =
      some (st',.success,[]) ∧
    (st'.procs 0).gPhead = some id ∧ (st'.shm.segment id).size = 4096 ∧
    ¬ SlotsInside (st'.procs 0) (st'.shm.segment id).size := by
  refine ⟨_, 0, rfl, rfl, by decide, ?_⟩
  intro h
  have hfirst := h.inside ⟨0,4096,1⟩ ⟨1, ⟨0,-1,-1,fun _ => 0⟩, Or.inl (by decide)⟩
  exact absurd hfirst (by decide)

end Cclab.Shmmq
