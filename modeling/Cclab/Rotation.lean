import Mathlib.Data.List.Nodup
import Mathlib.Tactic.Common

/-! Queues in rotation: the item in front is visited, and it goes to the end of the queue or
leaves it. Between two visits of an item every other one has its turn. -/
namespace Cclab.Rotation

variable {A : Type*} [DecidableEq A]

/-- The queue after the visits of `log`, which must be those of the items in front. Every visit
tells whether the item is kept. -/
def turns : List A → List (A × Bool) → Option (List A)
  | q, [] => some q
  | [], _ :: _ => none
  | x :: q, v :: log =>
    if v.1 = x then turns (if v.2 then q ++ [x] else q) log else none

theorem turns_append (q : List A) (log more : List (A × Bool)) :
    turns q (log ++ more) = (turns q log).bind fun r => turns r more := by
  induction log generalizing q with
  | nil =>
    cases q with
    | nil => rfl
    | cons x q => rfl
  | cons v log ih =>
    cases q with
    | nil => rfl
    | cons x q =>
      rw [List.cons_append, turns, turns]
      by_cases hv : v.1 = x
      · rw [if_pos hv, if_pos hv]
        exact ih _
      · rw [if_neg hv, if_neg hv]
        rfl

/-- A pass over the items in front, each of them once. -/
theorem turns_pass (log : List (A × Bool)) (rest kept : List A) :
    turns (log.map Prod.fst ++ rest ++ kept) log =
      some (rest ++ kept ++ (log.filter Prod.snd).map Prod.fst) := by
  induction log generalizing kept with
  | nil =>
    rw [List.map_nil, List.nil_append, List.filter_nil, List.map_nil, List.append_nil]
    cases rest ++ kept <;> rfl
  | cons v log ih =>
    rw [List.map_cons, List.cons_append, List.cons_append, turns, if_pos rfl]
    cases hv : v.2 with
    -- a kept item goes behind those that were kept before it
    | true =>
      rw [if_pos rfl, List.append_assoc, ih, List.filter_cons_of_pos hv, List.map_cons]
      simp only [List.append_assoc, List.singleton_append]
    | false =>
      rw [if_neg (by simp), ih, List.filter_cons_of_neg (by simp [hv])]

/-- One visit, seen from the queue behind it. -/
theorem turns_cons_eq_some (q q' : List A) (v : A × Bool) (log : List (A × Bool))
    (h : turns q (v :: log) = some q') :
    ∃ r, q = v.1 :: r ∧ turns (if v.2 then r ++ [v.1] else r) log = some q' := by
  cases q with
  | nil => exact absurd h (by simp [turns])
  | cons x r =>
    rw [turns] at h
    by_cases hv : v.1 = x
    · rw [if_pos hv, ← hv] at h
      exact ⟨r, by rw [hv], h⟩
    · rw [if_neg hv] at h
      exact absurd h (by simp)

theorem turns_nil_eq_some (q q' : List A) (h : turns q [] = some q') : q = q' := by
  cases q <;> exact Option.some.inj h

section kept
variable (q q' : List A) (log : List (A × Bool)) (h : turns q log = some q')
include h

theorem turns_subset : q' ⊆ q := by
  induction log generalizing q with
  | nil => exact (turns_nil_eq_some q q' h) ▸ List.Subset.refl q
  | cons v log ih =>
    rcases turns_cons_eq_some q q' v log h with ⟨r,rfl,hr⟩
    apply List.Subset.trans (ih _ hr)
    split_ifs
    · exact List.append_subset.mpr ⟨List.subset_cons_self v.1 r, by simp⟩
    · exact List.subset_cons_self v.1 r

/-- What no visit takes out stays. -/
theorem turns_stays (y : A) (hy : y ∈ q) (hkept : (y,false) ∉ log) : y ∈ q' := by
  induction log generalizing q with
  | nil => exact (turns_nil_eq_some q q' h) ▸ hy
  | cons v log ih =>
    rcases turns_cons_eq_some q q' v log h with ⟨r,rfl,hr⟩
    apply ih _ hr _ (fun hm => hkept (List.mem_cons_of_mem v hm))
    split_ifs with hv
    · rwa [List.mem_append, List.mem_singleton, or_comm, ← List.mem_cons]
    · rcases List.mem_cons.mp hy with rfl | hm
      · have hout : v = (v.1,false) := Prod.ext rfl (by simpa using hv)
        exact absurd (hout ▸ List.mem_cons_self) hkept
      · exact hm

theorem turns_nodup (hq : q.Nodup) : q'.Nodup := by
  induction log generalizing q with
  | nil => exact (turns_nil_eq_some q q' h) ▸ hq
  | cons v log ih =>
    rcases turns_cons_eq_some q q' v log h with ⟨r,rfl,hr⟩
    apply ih _ hr
    split_ifs
    · exact (List.perm_append_singleton v.1 r).nodup_iff.mpr hq
    · exact (List.nodup_cons.mp hq).2

end kept

/-- Until an item comes to the front, all in front of it are visited. -/
theorem turns_waits (x y : A) (l r r' : List A) (log : List (A × Bool))
    (h : turns (l ++ x :: r) log = some (x :: r')) (hx : x ∉ l) (hy : y ∈ l) :
    y ∈ log.map Prod.fst := by
  induction log generalizing l r with
  | nil =>
    have he := turns_nil_eq_some _ _ h
    cases l with
    | nil => exact absurd hy (by simp)
    | cons z l =>
      obtain ⟨rfl,-⟩ := List.cons.inj he
      exact absurd List.mem_cons_self hx
  | cons v log ih =>
    rcases turns_cons_eq_some _ _ v log h with ⟨q,hq,hr⟩
    cases l with
    | nil => exact absurd hy (by simp)
    | cons z l =>
      obtain ⟨rfl,rfl⟩ := List.cons.inj hq
      rw [List.map_cons, List.mem_cons]
      rcases List.mem_cons.mp hy with rfl | hm
      · exact Or.inl rfl
      · right
        -- the visited item goes behind the one that waits
        have hx' : x ∉ l := fun hm => hx (List.mem_cons_of_mem v.1 hm)
        split_ifs at hr with hv
        · apply ih l (r ++ [v.1]) _ hx' hm
          rw [← hr]
          exact congrArg (fun q => turns q log) (List.append_assoc l (x :: r) [v.1]).symm
        · exact ih l r hr hx' hm

/-- Between two visits of an item, every other item that is still in the queue has its turn. -/
theorem turns_fair (q q' : List A) (hq : q.Nodup) (pre mid post : List (A × Bool))
    (v w : A × Bool) (h : turns q (pre ++ v :: (mid ++ w :: post)) = some q') (hw : w.1 = v.1)
    (y : A) (hy : y ∈ q) (hkept : (y,false) ∉ pre) (hne : y ≠ v.1) : y ∈ mid.map Prod.fst := by
  rw [turns_append] at h
  obtain ⟨q1,h1,h⟩ := Option.bind_eq_some_iff.mp h
  rcases turns_cons_eq_some q1 q' v _ h with ⟨r,rfl,h2⟩
  rw [turns_append] at h2
  obtain ⟨q2,h2,h3⟩ := Option.bind_eq_some_iff.mp h2
  rcases turns_cons_eq_some q2 q' w post h3 with ⟨r2,rfl,-⟩
  have hnodup := turns_nodup q _ pre h1 hq
  have hout := (List.nodup_cons.mp hnodup).1
  have hyr : y ∈ r := (List.mem_cons.mp (turns_stays q _ pre h1 y hy hkept)).resolve_left hne
  rw [hw] at h2
  split_ifs at h2 with hv
  · exact turns_waits v.1 y r [] r2 mid h2 hout hyr
  -- an item that has left does not come back
  · exact absurd (turns_subset _ _ mid h2 List.mem_cons_self) hout

end Cclab.Rotation
