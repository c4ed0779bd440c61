import Cclab.ShmmqFailures
import Cclab.ShmmqGeometry

/-! What `shmmq_clear` does with the index that its callback returns. -/
namespace Cclab.Shmmq
open ByteMemory WrappingSlots

/-- The items that the process with the static variables `g` finds between the two
counters of the queue, the one to dequeue next at the front. -/
def heldItems (g : Statics) (q : Segment) : List (List UInt8) :=
  (List.range (q.enqPos-q.deqPos).toNat).map fun j =>
    load q.content (slotAddress g (q.deqPos+UInt32.ofNat j)) g.gItemsize.toNat

/-- The overdue items are the first `k` and nothing else changes, or the call fails and
nothing changes at all. -/
def DropsOverdue (sem : SemCall → Option ℕ) (st : System) (i id k : ℕ)
    (sf : UInt32 → UInt32 → UInt32) : Prop :=
  ∃ st' ret bytes, st.call sem (i,.shmmqClear (some sf)) = some (st',ret,bytes) ∧
    (ret = .success →
      (st'.shm.segment id).deqPos = (st.shm.segment id).deqPos+UInt32.ofNat k ∧
      (st'.shm.segment id).enqPos = (st.shm.segment id).enqPos ∧
      (st'.shm.segment id).content = (st.shm.segment id).content ∧
      heldItems (st'.procs i) (st'.shm.segment id) =
        (heldItems (st.procs i) (st.shm.segment id)).drop k) ∧
    (ret ≠ .success → st'.shm = st.shm)

/-- A slot index of a ring that an `int` counts passes the test of `shmmq_clear`. -/
theorem slot_index_accepted (m : ℤ) (pos : UInt32) (hm : 0 < m) (hlt : m < 2^31) :
    ¬ ((pos%UInt32.ofInt m).toInt32.toInt < 0 ∨ (pos%UInt32.ofInt m).toInt32.toInt ≥ m) := by
  obtain ⟨n,rfl⟩ := Int.eq_ofNat_of_zero_le hm.le
  have hslot : (pos%UInt32.ofInt (n:ℤ)).toNat < n := by
    rw [uint32_ofInt_natCast, UInt32.toNat_mod, UInt32.toNat_ofNat',
      Nat.mod_eq_of_lt (show n < 2^32 by omega)]
    exact Nat.mod_lt _ (by omega)
  have hint : (pos%UInt32.ofInt (n:ℤ)).toInt32.toInt = (pos%UInt32.ofInt (n:ℤ)).toNat := by
    change (pos%UInt32.ofInt (n:ℤ)).toBitVec.toInt = _
    rw [BitVec.toInt_eq_toNat_of_lt]
    · rfl
    · change 2*(pos%UInt32.ofInt (n:ℤ)).toNat < 2^32
      omega
  rw [hint]
  omega

section clear
variable (sem : SemCall → Option ℕ) (st : System) (i id k : ℕ) (sf : UInt32 → UInt32 → UInt32)

theorem clear_unlocked (hP : sem (.semaphoreP (st.procs i).gSemid) = none) :
    st.call sem (i,.shmmqClear (some sf)) = some (st,.errorSemaphoreP,[]) := by
  simp only [System.call, Call.code, shmmqClear, Code.exec, if_pos hP, Option.map_some,
    Function.update_eq_self]

/-- An index in range is accepted, and the state is the one before the call. -/
theorem clear_accepted (hid : (st.procs i).gPhead = some id)
    (hm : 0 < (st.procs i).gMqsize) (hlt : (st.procs i).gMqsize < 2^31) (pos : UInt32)
    (hsf : sf ((st.shm.segment id).deqPos % UInt32.ofInt (st.procs i).gMqsize)
      ((st.shm.segment id).enqPos % UInt32.ofInt (st.procs i).gMqsize) =
        pos % UInt32.ofInt (st.procs i).gMqsize)
    (hP : sem (.semaphoreP (st.procs i).gSemid) ≠ none) :
    st.call sem (i,.shmmqClear (some sf)) = some (st,
      if sem (.semaphoreV (st.procs i).gSemid) = none then .errorSemaphoreV else .success, []) := by
  have hindex := slot_index_accepted (st.procs i).gMqsize pos hm hlt
  rw [← hsf] at hindex
  simp only [System.call, Call.code, shmmqClear, Code.exec, if_neg hP, hid, if_neg hindex,
    exec_release, Option.map_some, Function.update_eq_self]

/-- `shmmq_clear` drops the items up to the position that its callback chose if and only if
that is the front of the queue, or the call fails on the semaphore. -/
theorem drops_overdue_iff (hid : (st.procs i).gPhead = some id)
    (hm : 0 < (st.procs i).gMqsize) (hlt : (st.procs i).gMqsize < 2^31)
    (hk : k ≤ ((st.shm.segment id).enqPos-(st.shm.segment id).deqPos).toNat)
    (hsf : sf ((st.shm.segment id).deqPos % UInt32.ofInt (st.procs i).gMqsize)
      ((st.shm.segment id).enqPos % UInt32.ofInt (st.procs i).gMqsize) =
        ((st.shm.segment id).deqPos+UInt32.ofNat k) % UInt32.ofInt (st.procs i).gMqsize) :
    DropsOverdue sem st i id k sf ↔
      k = 0 ∨ sem (.semaphoreP (st.procs i).gSemid) = none ∨
        sem (.semaphoreV (st.procs i).gSemid) = none := by
  by_cases hP : sem (.semaphoreP (st.procs i).gSemid) = none
  · have hcall := clear_unlocked sem st i sf hP
    refine ⟨fun _ => Or.inr (Or.inl hP), fun _ => ⟨_,_,_,hcall,?_,fun _ => rfl⟩⟩
    intro h
    exact absurd h (by simp)
  · have hcall := clear_accepted sem st i id sf hid hm hlt _ hsf hP
    constructor
    · rintro ⟨st',ret,bytes,he,hdrop,-⟩
      rw [hcall] at he
      obtain ⟨rfl,hr⟩ := Prod.mk.inj (Option.some.inj he)
      by_cases hV : sem (.semaphoreV (st.procs i).gSemid) = none
      · exact Or.inr (Or.inr hV)
      · rw [if_neg hV] at hr
        -- the call returned 0, so the counter should have moved by `k`
        have hpos := (hdrop (Prod.mk.inj hr).1.symm).1
        have hk32 := (((st.shm.segment id).enqPos-(st.shm.segment id).deqPos)).toNat_lt
        have hzero : UInt32.ofNat k = 0 := by
          have h := hpos.symm
          rwa [UInt32.add_eq_left] at h
        have hnat := congrArg UInt32.toNat hzero
        rw [UInt32.toNat_ofNat', Nat.mod_eq_of_lt (by omega)] at hnat
        exact Or.inl hnat
    · rintro (rfl | h | hV)
      · refine ⟨_, _, _, hcall, fun _ => ⟨?_,rfl,rfl,rfl⟩, fun _ => rfl⟩
        exact (UInt32.add_zero _).symm
      · exact absurd h hP
      · rw [if_pos hV] at hcall
        refine ⟨_, _, _, hcall, ?_, fun _ => rfl⟩
        intro h
        exact absurd h (by simp)

end clear

/-- Two items of one byte wait in a queue of four. -/
def twoWaiting : System :=
  ⟨⟨fun _ => ⟨4100,1,-1,fun a => UInt8.ofNat a⟩,some 0,1⟩,
    fun _ => ⟨some 0,some 0,4,1,some 0,some 0⟩⟩

/-- The callback keeps everything. -/
theorem drops_overdue_iff_front :
    DropsOverdue (semaphoresSucceed 0) twoWaiting 0 0 0 (fun b _ => b) :=
  (drops_overdue_iff (semaphoresSucceed 0) twoWaiting 0 0 0 (fun b _ => b) rfl (by decide)
    (by decide) (by decide) (by decide)).mpr (Or.inl rfl)

/-- The callback finds the first of the two items overdue and names its slot. -/
theorem clear_keeps_overdue :
    (1 : ℕ) ≤ ((twoWaiting.shm.segment 0).enqPos-(twoWaiting.shm.segment 0).deqPos).toNat ∧
    (0 : UInt32) = ((twoWaiting.shm.segment 0).deqPos+UInt32.ofNat 1) % UInt32.ofInt 4 ∧
    heldItems (twoWaiting.procs 0) (twoWaiting.shm.segment 0) = [[0],[1]] ∧
    twoWaiting.call (semaphoresSucceed 0) (0,.shmmqClear (some fun _ _ => 0)) =
      some (twoWaiting,.success,[]) ∧
    ¬ DropsOverdue (semaphoresSucceed 0) twoWaiting 0 0 1 (fun _ _ => 0) := by
  have hcall : twoWaiting.call (semaphoresSucceed 0) (0,.shmmqClear (some fun _ _ => 0)) =
      some (twoWaiting,.success,[]) :=
    clear_accepted (semaphoresSucceed 0) twoWaiting 0 0 (fun _ _ => 0) rfl (by decide)
      (by decide) 0 (by decide) (by decide)
  refine ⟨by decide, by decide, by decide, hcall, ?_⟩
  rintro ⟨st',ret,bytes,he,hdrop,-⟩
  rw [hcall] at he
  obtain ⟨rfl,hr⟩ := Prod.mk.inj (Option.some.inj he)
  exact absurd (hdrop (Prod.mk.inj hr).1.symm).1 (by decide)

end Cclab.Shmmq
