import Mathlib.Algebra.Ring.Int.Defs
import Mathlib.Algebra.GroupWithZero.Nat
import Mathlib.Data.Option.Basic
import Mathlib.Logic.Function.Basic
import Mathlib.Tactic.Common

/-! A heap of nodes that are linked both ways. Reading or writing through a pointer to no
node fails, and one write changes one link and nothing else. -/
namespace Cclab.NodeHeap

variable {D : Type*}

structure Node (D : Type*) where
  data : D
  prev : ℕ
  next : ℕ

/-- The nodes by their addresses. -/
abbrev Heap (D : Type*) := ℕ → Option (Node D)

def nullptr : ℕ := 0

def nextOf (h : Heap D) (p : ℕ) : ℕ := (h p).elim nullptr Node.next

def prevOf (h : Heap D) (p : ℕ) : ℕ := (h p).elim nullptr Node.prev

def dataOf (h : Heap D) (p : ℕ) : Option D := (h p).map Node.data

def modify (h : Heap D) (p : ℕ) (f : Node D → Node D) : Option (Heap D) :=
  (h p).map fun n => Function.update h p (some (f n))

def setNext (h : Heap D) (p q : ℕ) : Option (Heap D) := modify h p fun n => { n with next := q }

def setPrev (h : Heap D) (p q : ℕ) : Option (Heap D) := modify h p fun n => { n with prev := q }

def setData (h : Heap D) (p : ℕ) (d : D) : Option (Heap D) := modify h p fun n => { n with data := d }

def alloc (h : Heap D) (p : ℕ) (n : Node D) : Heap D := Function.update h p (some n)

def free (h : Heap D) (p : ℕ) : Heap D := Function.update h p none

theorem dataOf_eq_some (h : Heap D) (p : ℕ) (d : D) (hd : dataOf h p = some d) :
    h p = some ⟨d, prevOf h p, nextOf h p⟩ := by
  obtain ⟨n,hn,rfl⟩ := Option.map_eq_some_iff.mp hd
  simp only [hn, nextOf, prevOf, Option.elim_some]

/-- A node that the three maps do not tell apart from the old one is the old one. -/
theorem node_ext (h h' : Heap D) (p : ℕ) (hd : dataOf h' p = dataOf h p)
    (hp : prevOf h' p = prevOf h p) (hn : nextOf h' p = nextOf h p) : h' p = h p := by
  cases hh : dataOf h p with
  | none =>
    rw [hh] at hd
    rw [Option.map_eq_none_iff.mp hd, Option.map_eq_none_iff.mp hh]
  | some d =>
    rw [hh] at hd
    rw [dataOf_eq_some h' p d hd, dataOf_eq_some h p d hh, hp, hn]

/-- One write, seen through the three maps. -/
theorem modify_spec (h : Heap D) (p : ℕ) (f : Node D → Node D) (n : Node D) (hn : h p = some n) :
    ∃ h', modify h p f = some h' ∧ nextOf h' = Function.update (nextOf h) p (f n).next ∧
      prevOf h' = Function.update (prevOf h) p (f n).prev ∧
      dataOf h' = Function.update (dataOf h) p (some (f n).data) := by
  refine ⟨Function.update h p (some (f n)), by simp only [modify, hn, Option.map_some], ?_, ?_, ?_⟩
  all_goals
    funext r
    by_cases hr : r = p
    · subst hr
      simp only [nextOf, prevOf, dataOf, Function.update_self, Option.elim_some, Option.map_some]
    · simp only [nextOf, prevOf, dataOf, Function.update_of_ne hr]

section written
variable (h h' : Heap D) (p q : ℕ) (d : D)

/-- The data of all nodes after a write that returned. -/
theorem dataOf_modify (f : Node D → Node D) (hm : modify h p f = some h') : ∃ n, h p = some n ∧
    dataOf h' = Function.update (dataOf h) p (some (f n).data) := by
  obtain ⟨n,hn,-⟩ := Option.map_eq_some_iff.mp hm
  obtain ⟨h1,h2,-,-,hd⟩ := modify_spec h p f n hn
  obtain rfl := Option.some.inj (hm.symm.trans h2)
  exact ⟨n, hn, hd⟩

/-- A write to a link. -/
theorem dataOf_modify_link (f : Node D → Node D) (hf : ∀ n, (f n).data = n.data)
    (hm : modify h p f = some h') : dataOf h' = dataOf h := by
  obtain ⟨n,hn,hd⟩ := dataOf_modify h h' p f hm
  have hold : dataOf h p = some (f n).data := by rw [dataOf, hn, Option.map_some, hf]
  rw [hd, ← hold, Function.update_eq_self]

theorem dataOf_setNext (hs : setNext h p q = some h') : dataOf h' = dataOf h :=
  dataOf_modify_link h h' p (fun n => { n with next := q }) (fun _ => rfl) hs

theorem dataOf_setPrev (hs : setPrev h p q = some h') : dataOf h' = dataOf h :=
  dataOf_modify_link h h' p (fun n => { n with prev := q }) (fun _ => rfl) hs

theorem dataOf_setData (hs : setData h p d = some h') :
    dataOf h' = Function.update (dataOf h) p (some d) :=
  (dataOf_modify h h' p _ hs).choose_spec.2

end written

section write
variable (h : Heap D) (p q : ℕ) (d e : D) (hd : dataOf h p = some d)
include hd

theorem setNext_spec : ∃ h', setNext h p q = some h' ∧ nextOf h' = Function.update (nextOf h) p q ∧
    prevOf h' = prevOf h ∧ dataOf h' = dataOf h := by
  obtain ⟨h',hs,hn,hp,hv⟩ := modify_spec h p (fun n => { n with next := q }) _ (dataOf_eq_some h p d hd)
  refine ⟨h', hs, hn, ?_, ?_⟩
  · rw [hp, Function.update_eq_self]
  · rw [hv, ← hd, Function.update_eq_self]

theorem setPrev_spec : ∃ h', setPrev h p q = some h' ∧ prevOf h' = Function.update (prevOf h) p q ∧
    nextOf h' = nextOf h ∧ dataOf h' = dataOf h := by
  obtain ⟨h',hs,hn,hp,hv⟩ := modify_spec h p (fun n => { n with prev := q }) _ (dataOf_eq_some h p d hd)
  refine ⟨h', hs, hp, ?_, ?_⟩
  · rw [hn, Function.update_eq_self]
  · rw [hv, ← hd, Function.update_eq_self]

theorem setData_spec : ∃ h', setData h p e = some h' ∧
    dataOf h' = Function.update (dataOf h) p (some e) ∧
    nextOf h' = nextOf h ∧ prevOf h' = prevOf h := by
  obtain ⟨h',hs,hn,hp,hv⟩ := modify_spec h p (fun n => { n with data := e }) _ (dataOf_eq_some h p d hd)
  refine ⟨h', hs, hv, ?_, ?_⟩
  · rw [hn, Function.update_eq_self]
  · rw [hp, Function.update_eq_self]

end write

theorem alloc_of_ne (h : Heap D) (p q : ℕ) (n : Node D) (hq : q ≠ p) :
    nextOf (alloc h p n) q = nextOf h q ∧ prevOf (alloc h p n) q = prevOf h q ∧
      dataOf (alloc h p n) q = dataOf h q := by
  simp only [alloc, nextOf, prevOf, dataOf, Function.update_of_ne hq, and_self]

theorem alloc_self (h : Heap D) (p : ℕ) (n : Node D) : nextOf (alloc h p n) p = n.next ∧
    prevOf (alloc h p n) p = n.prev ∧ dataOf (alloc h p n) p = some n.data := by
  simp only [alloc, nextOf, prevOf, dataOf, Function.update_self, Option.elim_some,
    Option.map_some, and_self]

theorem free_of_ne (h : Heap D) (p q : ℕ) (hq : q ≠ p) : nextOf (free h p) q = nextOf h q ∧
    prevOf (free h p) q = prevOf h q ∧ dataOf (free h p) q = dataOf h q := by
  simp only [free, nextOf, prevOf, dataOf, Function.update_of_ne hq, and_self]

theorem free_self (h : Heap D) (p : ℕ) : dataOf (free h p) p = none := by
  simp only [free, dataOf, Function.update_self, Option.map_none]

end Cclab.NodeHeap
