import Mathlib.Data.Nat.ModEq
import Mathlib.Data.Int.ModEq
import Mathlib.Data.UInt

/-! Free-running counters of a fixed width that select a slot of a ring: which counts
share a slot once the counter has wrapped. -/
namespace Cclab.WrappingSlots

/-- The slot, in a ring of `m`, of the `n`-th use of a counter that wraps at `W`. -/
def slot (W m n : ℕ) : ℕ := n%W%m

theorem slot_lt (W m n : ℕ) (hm : 0 < m) : slot W m n < m := Nat.mod_lt _ hm

theorem slot_of_lt (W m n : ℕ) (hn : n < W) : slot W m n = n%m := by
  rw [slot, Nat.mod_eq_of_lt hn]

theorem mod_ne_of_close (m i j : ℕ) (hij : i < j) (hc : j-i < m) : i%m ≠ j%m := by
  intro he
  have hd := (Nat.modEq_iff_dvd' hij.le).mp he
  have hle := Nat.le_of_dvd (by omega) hd
  omega

/-- Before the counter wraps, a full ring of consecutive counts has distinct slots. -/
theorem slot_ne_of_lt (W m i j : ℕ) (hj : j < W) (hij : i < j) (hc : j-i < m) :
    slot W m i ≠ slot W m j := by
  rw [slot_of_lt W m i (by omega), slot_of_lt W m j hj]
  exact mod_ne_of_close m i j hij hc

theorem slot_ne_of_dvd (W m i j : ℕ) (hd : m ∣ W) (hij : i < j) (hc : j-i < m) :
    slot W m i ≠ slot W m j := by
  rw [slot, slot, Nat.mod_mod_of_dvd _ hd, Nat.mod_mod_of_dvd _ hd]
  exact mod_ne_of_close m i j hij hc

/-- If `m` divides `W+1` the wrap skips one slot, so only a ring of `m-1` stays clear. -/
theorem slot_ne_of_dvd_succ (W m i j : ℕ) (hW : m ≤ W) (hd : m ∣ W+1) (hij : i < j)
    (hc : j-i+1 < m) : slot W m i ≠ slot W m j := by
  have hi := Nat.div_add_mod i W
  have hj := Nat.div_add_mod j W
  have hil := Nat.mod_lt i (show 0 < W by omega)
  have hjl := Nat.mod_lt j (show 0 < W by omega)
  have hmono : i/W ≤ j/W := Nat.div_le_div_right hij.le
  have hnext : j/W ≤ i/W+1 := by
    have h := Nat.div_le_div_right (c := W) (show j ≤ i+W by omega)
    rwa [Nat.add_div_right i (by omega)] at h
  unfold slot
  rcases Nat.lt_or_ge (i/W) (j/W) with hlt | hge
  -- the counter wrapped in between: the two counts differ by `j-i+1` modulo `W+1`
  · have hq : j/W = i/W+1 := by omega
    rw [hq, Nat.mul_add, Nat.mul_one] at hj
    intro he
    have h1 : (m:ℤ) ∣ (j%W : ℕ)-(i%W : ℕ) := Nat.modEq_iff_dvd.mp he
    have h2 : (m:ℤ) ∣ (W+1 : ℕ) := by exact_mod_cast hd
    have h3 := Int.dvd_add h1 h2
    have hsum : ((j%W : ℕ):ℤ)-(i%W : ℕ)+(W+1 : ℕ) = ((j-i+1 : ℕ):ℤ) := by
      push_cast [Nat.cast_sub hij.le]
      omega
    rw [hsum] at h3
    have hle := Nat.le_of_dvd (by omega) (Int.natCast_dvd_natCast.mp h3)
    omega
  · have hq : j/W = i/W := by omega
    rw [hq] at hj
    exact mod_ne_of_close m _ _ (by omega) (by omega)

/-- For every other `m` the last multiple of `m` below the wrap and the wrap itself
share slot 0, less than `m-1` counts apart. -/
theorem slot_clash (W m : ℕ) (hm : 0 < m) (hd : ¬ m ∣ W) (hs : ¬ m ∣ W+1) :
    ∃ i j, i < j ∧ j-i+1 < m ∧ j = W ∧ slot W m i = 0 ∧ slot W m j = 0 := by
  have hr : W%m ≠ 0 := fun h => hd (Nat.dvd_of_mod_eq_zero h)
  have hlt := Nat.mod_lt W hm
  have hle := Nat.mod_le W m
  have hne : W%m+1 ≠ m := by
    intro h
    apply hs
    apply Nat.dvd_of_mod_eq_zero
    rw [Nat.add_mod, Nat.mod_eq_of_lt (show 1 < m by omega), h, Nat.mod_self]
  refine ⟨W-W%m, W, by omega, by omega, rfl, ?_, ?_⟩
  · rw [slot_of_lt W m _ (by omega)]
    exact Nat.mod_eq_zero_of_dvd (Nat.dvd_sub_mod W)
  · rw [slot, Nat.mod_self, Nat.zero_mod]

theorem uint32_ofInt_natCast (m : ℕ) : UInt32.ofInt (m:ℤ) = UInt32.ofNat m := by
  apply UInt32.toNat_inj.mp
  rw [UInt32.ofInt, UInt32.toNat_ofNat', UInt32.toNat_ofNat']
  omega

/-- A 32-bit counter that starts at -1, after `n` increments. -/
def counter (n : ℕ) : UInt32 := UInt32.ofNat n-1

theorem counter_zero : counter 0 = -1 := by decide

theorem counter_add_one (n : ℕ) : counter n+1 = UInt32.ofNat n := by
  rw [counter, UInt32.sub_add_cancel]

theorem counter_succ (n : ℕ) : counter (n+1) = counter n+1 := by
  rw [counter_add_one, counter, UInt32.ofNat_add]
  exact UInt32.add_sub_cancel _ _

/-- The slot expression `(pos+1) % m` of the code, over the count behind `pos`. -/
theorem counter_slot (m n : ℕ) (hm : m < 2^32) :
    ((counter n+1)%UInt32.ofNat m).toNat = slot (2^32) m n := by
  rw [counter_add_one, UInt32.toNat_mod, UInt32.toNat_ofNat', UInt32.toNat_ofNat',
    Nat.mod_eq_of_lt hm, slot]

/-- The fill level is exact modulo the width of the counters. -/
theorem counter_sub (e d : ℕ) (h : d ≤ e) : (counter e-counter d).toNat = (e-d)%2^32 := by
  obtain ⟨k,rfl⟩ := Nat.exists_eq_add_of_le h
  have hk : counter (d+k)-counter d = UInt32.ofNat k := by
    rw [counter, counter, UInt32.ofNat_add]
    grind
  rw [hk, UInt32.toNat_ofNat', Nat.add_sub_cancel_left]

/-- `deq_pos + m - 1 == enq_pos` in 32-bit arithmetic says that the ring is full. -/
theorem counter_full_iff (m e d : ℕ) (hm : 0 < m) (hlt : m ≤ 2^31) (h : d ≤ e)
    (hr : e-d ≤ m-1) : counter d+UInt32.ofNat m-1 = counter e ↔ e-d = m-1 := by
  obtain ⟨k,rfl⟩ := Nat.exists_eq_add_of_le h
  have he : counter d+UInt32.ofNat m-1 = counter (d+k) ↔ UInt32.ofNat (m-1) = UInt32.ofNat k := by
    obtain ⟨m,rfl⟩ : ∃ m', m = m'+1 := ⟨m-1, by omega⟩
    rw [counter, counter, UInt32.ofNat_add, UInt32.ofNat_add, Nat.add_sub_cancel]
    grind
  rw [he, Nat.add_sub_cancel_left, ← UInt32.toNat_inj, UInt32.toNat_ofNat', UInt32.toNat_ofNat']
  omega

theorem counter_eq_iff (e d : ℕ) (h : d ≤ e) (hr : e-d < 2^32) : counter e = counter d ↔ e = d := by
  have hs := counter_sub e d h
  rw [Nat.mod_eq_of_lt hr] at hs
  constructor
  · intro he
    rw [he, UInt32.sub_self] at hs
    have hz : (0 : UInt32).toNat = 0 := rfl
    omega
  · rintro rfl
    rfl

end Cclab.WrappingSlots
