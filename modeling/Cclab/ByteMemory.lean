import Mathlib.Algebra.Ring.Int.Defs
import Mathlib.Algebra.GroupWithZero.Nat
import Mathlib.Data.List.GetD
import Mathlib.Order.Basic
import Mathlib.Tactic.Common

/-! Byte-addressed memory: what a `memcpy` of one range leaves of every other. -/
namespace Cclab.ByteMemory

/-- The byte stored at every offset of one region. -/
abbrev Mem := ℕ → UInt8

def load (m : Mem) (off n : ℕ) : List UInt8 :=
  (List.range n).map (fun i => m (off+i))

/-- Copying `bs` to the range that starts at `off`. -/
def store (m : Mem) (off : ℕ) (bs : List UInt8) : Mem := fun a =>
  if off ≤ a ∧ a < off+bs.length then bs.getD (a-off) 0 else m a

/-- Two ranges, given by offset and length, have no byte in common. -/
def Apart (a n b k : ℕ) : Prop := n = 0 ∨ k = 0 ∨ a+n ≤ b ∨ b+k ≤ a

instance (a n b k : ℕ) : Decidable (Apart a n b k) :=
  inferInstanceAs (Decidable (_ ∨ _))

@[simp] theorem load_length (m : Mem) (off n : ℕ) : (load m off n).length = n := by
  simp only [load, List.length_map, List.length_range]

@[simp] theorem load_zero (m : Mem) (off : ℕ) : load m off 0 = [] := rfl

theorem load_congr (m m' : Mem) (off n : ℕ)
    (h : ∀ a, off ≤ a → a < off+n → m a = m' a) : load m off n = load m' off n := by
  apply List.map_congr_left
  intro i hi
  have hn := List.mem_range.mp hi
  exact h (off+i) (by omega) (by omega)

theorem load_add (m : Mem) (off a b : ℕ) :
    load m off (a+b) = load m off a ++ load m (off+a) b := by
  simp only [load, List.range_add, List.map_append, List.map_map]
  congr 1
  apply List.map_congr_left
  intro i _
  simp only [Function.comp_apply, Nat.add_assoc]

theorem load_take (m : Mem) (off n k : ℕ) :
    (load m off n).take k = load m off (min k n) := by
  rcases Nat.le_total k n with h | h
  · obtain ⟨d,rfl⟩ := Nat.exists_eq_add_of_le h
    rw [load_add, List.take_left' (load_length m off k), Nat.min_eq_left h]
  · rw [List.take_of_length_le (by simpa only [load_length] using h), Nat.min_eq_right h]

theorem load_drop (m : Mem) (off n k : ℕ) :
    (load m off n).drop k = load m (off+k) (n-k) := by
  rcases Nat.le_total k n with h | h
  · obtain ⟨d,rfl⟩ := Nat.exists_eq_add_of_le h
    rw [load_add, List.drop_left' (load_length m off k), Nat.add_sub_cancel_left]
  · rw [List.drop_of_length_le (by simpa only [load_length] using h),
      Nat.sub_eq_zero_of_le h, load_zero]

theorem load_getElem (m : Mem) (off n i : ℕ) (hi : i < (load m off n).length) :
    (load m off n)[i] = m (off+i) := by
  simp only [load, List.getElem_map, List.getElem_range]

theorem store_outside (m : Mem) (off : ℕ) (bs : List UInt8) (a : ℕ)
    (h : a < off ∨ off+bs.length ≤ a) : store m off bs a = m a := by
  unfold store
  rw [if_neg (by omega)]

theorem store_inside (m : Mem) (off : ℕ) (bs : List UInt8) (i : ℕ) (hi : i < bs.length) :
    store m off bs (off+i) = bs[i] := by
  unfold store
  rw [if_pos (by omega), Nat.add_sub_cancel_left, List.getD_eq_getElem _ _ hi]

/-- Reading back a prefix of what was just copied. -/
theorem load_store_take (m : Mem) (off : ℕ) (bs : List UInt8) (n : ℕ) (hn : n ≤ bs.length) :
    load (store m off bs) off n = bs.take n := by
  apply List.ext_getElem
  · simp only [load_length, List.length_take, Nat.min_eq_left hn]
  · intro i hi _
    have hb : i < n := by simpa only [load_length] using hi
    rw [load_getElem, store_inside m off bs i (by omega), List.getElem_take]

theorem load_store_same (m : Mem) (off : ℕ) (bs : List UInt8) :
    load (store m off bs) off bs.length = bs := by
  rw [load_store_take m off bs _ (Nat.le_refl _), List.take_length]

/-- The frame rule: a copy leaves every range apart from it as it was. -/
theorem load_store_disjoint (m : Mem) (off : ℕ) (bs : List UInt8) (o n : ℕ)
    (h : Apart off bs.length o n) : load (store m off bs) o n = load m o n := by
  apply load_congr
  intro a ha hn
  apply store_outside
  unfold Apart at h
  omega

theorem load_eq_iff (m m' : Mem) (off n : ℕ) :
    load m off n = load m' off n ↔ ∀ a, off ≤ a → a < off+n → m a = m' a := by
  constructor
  · intro h a ha hn
    have hi : a-off < (load m off n).length := by
      rw [load_length]
      omega
    have hi' : a-off < (load m' off n).length := by rwa [load_length] at hi ⊢
    have hget : (load m off n)[a-off] = (load m' off n)[a-off] := by simp only [h]
    rw [load_getElem, load_getElem] at hget
    rwa [Nat.add_sub_cancel' ha] at hget
  · intro h
    exact load_congr m m' off n h

/-- A copy leaves a byte as it is where it does not reach, or puts the byte that was there. -/
theorem store_eq_iff (m : Mem) (off : ℕ) (bs : List UInt8) (a : ℕ) : store m off bs a = m a ↔
    (off ≤ a → a < off+bs.length → bs[a-off]? = some (m a)) := by
  by_cases ha : off ≤ a ∧ a < off+bs.length
  · have hi : a-off < bs.length := by omega
    have hstore := store_inside m off bs (a-off) hi
    rw [Nat.add_sub_cancel' ha.1] at hstore
    rw [hstore, List.getElem?_eq_getElem hi, Option.some.injEq]
    exact ⟨fun h _ _ => h, fun h => h ha.1 ha.2⟩
  · have hout : a < off ∨ off+bs.length ≤ a := by omega
    rw [store_outside m off bs a hout]
    exact ⟨fun _ h1 h2 => absurd ⟨h1,h2⟩ ha, fun _ => rfl⟩

theorem store_load (m : Mem) (off n : ℕ) : store m off (load m off n) = m := by
  funext a
  rw [store_eq_iff]
  intro ha hn
  rw [load_length] at hn
  have hi : a-off < (load m off n).length := by
    rw [load_length]
    omega
  rw [List.getElem?_eq_getElem hi, load_getElem, Nat.add_sub_cancel' ha]

theorem store_nil (m : Mem) (off : ℕ) : store m off [] = m := by
  funext a
  exact store_outside m off [] a (by simp only [List.length_nil]; omega)

end Cclab.ByteMemory
