import Mathlib.Logic.Function.Basic
import Mathlib.Tactic.Common

/-! Maps whose insertion keeps the value that is there, as `std::map::insert` does: what a
sequence of insertions adds to what was in the map before. -/
namespace Cclab.KeepFirstMap

variable {K V : Type*} [DecidableEq K]

/-- A map, as what it finds under each key. -/
def insert (m : K → Option V) (p : K × V) : K → Option V :=
  if m p.1 = none then Function.update m p.1 (some p.2) else m

def insertAll (m : K → Option V) (ps : List (K × V)) : K → Option V := ps.foldl insert m

/-- What the pairs alone put into an empty map: the first value of each key. -/
def first (ps : List (K × V)) (k : K) : Option V := (ps.find? (fun p => p.1 = k)).map Prod.snd

/-- Every binding of `m` is one of `m'`. -/
def Sub (m m' : K → Option V) : Prop := ∀ k v, m k = some v → m' k = some v

theorem insert_apply (m : K → Option V) (p : K × V) (k : K) :
    insert m p k = (m k).or (if p.1 = k then some p.2 else none) := by
  unfold insert
  by_cases hk : p.1 = k
  · subst hk
    rw [if_pos rfl]
    cases hm : m p.1 with
    | none => simp only [if_pos, Function.update_self, Option.none_or]
    | some v => simp only [reduceCtorEq, if_false, hm, Option.some_or]
  · rw [if_neg hk, Option.or_none]
    split
    · exact Function.update_of_ne (Ne.symm hk) _ _
    · rfl

theorem insertAll_apply (m : K → Option V) (ps : List (K × V)) (k : K) :
    insertAll m ps k = (m k).or (first ps k) := by
  induction ps generalizing m with
  | nil => exact (Option.or_none).symm
  | cons p ps ih =>
    change insertAll (insert m p) ps k = _
    rw [ih, insert_apply, Option.or_assoc]
    congr 1
    unfold first
    rw [List.find?_cons]
    by_cases hp : p.1 = k
    · simp only [hp, if_pos, decide_true, Option.some_or, Option.map_some]
    · simp only [hp, if_false, decide_false, Option.none_or]

theorem insertAll_append (m : K → Option V) (ps qs : List (K × V)) :
    insertAll m (ps ++ qs) = insertAll (insertAll m ps) qs := List.foldl_append

theorem insertAll_empty (ps : List (K × V)) : insertAll (fun _ => none) ps = first ps := by
  funext k
  exact (insertAll_apply _ _ _).trans Option.none_or

theorem first_append (ps qs : List (K × V)) (k : K) :
    first (ps ++ qs) k = (first ps k).or (first qs k) := by
  rw [← insertAll_empty, insertAll_append, insertAll_apply, insertAll_empty]

/-- An insertion leaves what the map would be without its old bindings exactly when these
are among the new ones. -/
theorem insertAll_eq_first_iff (m : K → Option V) (ps : List (K × V)) :
    insertAll m ps = first ps ↔ Sub m (first ps) := by
  constructor
  · intro h k v hv
    rw [← h, insertAll_apply, hv]
    rfl
  · intro h
    ext k : 1
    rw [insertAll_apply]
    cases hm : m k with
    | none => rfl
    | some v => rw [h k v hm]; rfl

theorem Sub.append (m : K → Option V) (ps qs : List (K × V)) (h : Sub m (first ps)) :
    Sub m (first (ps ++ qs)) := by
  intro k v hv
  rw [first_append, h k v hv]
  rfl

theorem first_eq_none (ps : List (K × V)) (k : K) (h : ∀ p ∈ ps, p.1 ≠ k) : first ps k = none := by
  rw [first, List.find?_eq_none.mpr (by simpa using h)]
  rfl

theorem first_ne_none (ps : List (K × V)) (p : K × V) (h : p ∈ ps) : first ps p.1 ≠ none := by
  intro hn
  have hfind : ps.find? (fun q => q.1 = p.1) = none := Option.map_eq_none_iff.mp hn
  exact absurd (List.find?_eq_none.mp hfind p h) (by simp)

/-- Only the keys of the pairs have to be looked at. -/
theorem sub_first_iff (ps : List (K × V)) (m : K → Option V) :
    Sub (first ps) m ↔ ∀ p ∈ ps, m p.1 = first ps p.1 := by
  constructor
  · intro h p hp
    cases hv : first ps p.1 with
    | none => exact absurd hv (first_ne_none ps p hp)
    | some v => exact h p.1 v hv
  · intro h k v hv
    rcases Option.map_eq_some_iff.mp hv with ⟨p,hp,-⟩
    have hk : p.1 = k := by simpa using List.find?_some hp
    rw [← hk, h p (List.mem_of_find?_eq_some hp), hk, hv]

instance [DecidableEq V] (ps : List (K × V)) (m : K → Option V) : Decidable (Sub (first ps) m) :=
  decidable_of_iff _ (sub_first_iff ps m).symm

end Cclab.KeepFirstMap
