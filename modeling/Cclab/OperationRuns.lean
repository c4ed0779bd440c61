import Mathlib.Algebra.Ring.Int.Defs
import Mathlib.Algebra.GroupWithZero.Nat
import Mathlib.Data.Option.Basic
import Mathlib.Data.List.Basic
import Mathlib.Tactic.Common

/-! Runs of operations on a machine whose single operation may fail to return,
and the two inductions over such runs: an invariant and a refinement. Behind them, runs
of an interleaving machine whose steps meet a condition on the state before them. -/
namespace Cclab.OperationRuns

variable {S T A O : Type*}

/-- The results of a whole sequence of operations; `none` as soon as one of them
does not return. -/
def run (step : S → A → Option (S × O)) : S → List A → Option (S × List O)
  | s, [] => some (s,[])
  | s, a :: as =>
    (step s a).bind fun r => (run step r.1 as).map fun q => (q.1, r.2 :: q.2)

/-- The same for operations that always return. -/
def specRun (spec : T → A → T × O) : T → List A → T × List O
  | t, [] => (t,[])
  | t, a :: as =>
    ((specRun spec (spec t a).1 as).1, (spec t a).2 :: (specRun spec (spec t a).1 as).2)

/-- Every operation of the sequence is allowed in the abstract state it meets. -/
def Legal (spec : T → A → T × O) (ok : T → A → Prop) : T → List A → Prop
  | _, [] => True
  | t, a :: as => ok t a ∧ Legal spec ok (spec t a).1 as

variable {step : S → A → Option (S × O)} {spec : T → A → T × O}

@[simp] theorem run_nil (s : S) : run step s [] = some (s,[]) := rfl

theorem run_cons (s s' : S) (a : A) (as : List A) (o : O) (h : step s a = some (s',o)) :
    run step s (a :: as) = (run step s' as).map fun q => (q.1, o :: q.2) := by
  simp only [run, h, Option.bind_some]

theorem run_cons_eq_some (s t : S) (a : A) (as : List A) (os : List O)
    (h : run step s (a :: as) = some (t,os)) :
    ∃ s' o os', step s a = some (s',o) ∧ run step s' as = some (t,os') ∧ os = o :: os' := by
  simp only [run, Option.bind_eq_some_iff, Option.map_eq_some_iff] at h
  obtain ⟨⟨s',o⟩,hs,⟨t',os'⟩,hr,he⟩ := h
  obtain ⟨rfl,rfl⟩ := Prod.mk.inj he
  exact ⟨s', o, os', hs, hr, rfl⟩

/-- A run of operations that are read as those of another machine. -/
theorem run_map {B : Type*} (op : B → A) (s : S) (bs : List B) :
    run (fun s b => step s (op b)) s bs = run step s (bs.map op) := by
  induction bs generalizing s with
  | nil => rfl
  | cons b bs ih => simp only [List.map_cons, run, ih]

theorem run_append (s t u : S) (as bs : List A) (os ps : List O)
    (h : run step s as = some (t,os)) (k : run step t bs = some (u,ps)) :
    run step s (as ++ bs) = some (u, os ++ ps) := by
  induction as generalizing s os with
  | nil =>
    obtain ⟨rfl,rfl⟩ := Prod.mk.inj (Option.some.inj h)
    exact k
  | cons a as ih =>
    obtain ⟨s',o,os',hs,hr,rfl⟩ := run_cons_eq_some s t a as os h
    rw [List.cons_append, run_cons s s' a _ o hs, ih s' os' hr]
    rfl

theorem specRun_append (t : T) (as bs : List A) :
    specRun spec t (as ++ bs) = ((specRun spec (specRun spec t as).1 bs).1,
      (specRun spec t as).2 ++ (specRun spec (specRun spec t as).1 bs).2) := by
  induction as generalizing t with
  | nil => rfl
  | cons a as ih =>
    rw [List.cons_append, specRun, ih]
    rfl

theorem legal_append (ok : T → A → Prop) (t : T) (as bs : List A) :
    Legal spec ok t (as ++ bs) ↔ Legal spec ok t as ∧ Legal spec ok (specRun spec t as).1 bs := by
  induction as generalizing t with
  | nil => simp only [List.nil_append, Legal, specRun, true_and]
  | cons a as ih => rw [List.cons_append, Legal, Legal, ih, specRun, and_assoc]

/-- A condition on every element and those before it, one element at a time. -/
theorem forall_split_cons (P : List A → A → Prop) (a : A) (as : List A) :
    (∀ pre b post, a :: as = pre ++ b :: post → P pre b) ↔
      P [] a ∧ ∀ pre b post, as = pre ++ b :: post → P (a :: pre) b := by
  constructor
  · intro h
    refine ⟨h [] a as rfl, ?_⟩
    intro pre b post he
    exact h (a :: pre) b post (by rw [he, List.cons_append])
  · rintro ⟨hhead,hrest⟩ pre b post he
    cases pre with
    | nil =>
      obtain ⟨rfl,-⟩ := List.cons.inj he
      exact hhead
    | cons c pre =>
      obtain ⟨rfl,htail⟩ := List.cons.inj he
      exact hrest pre b post htail

theorem run_length (s t : S) (as : List A) (os : List O) (h : run step s as = some (t,os)) :
    os.length = as.length := by
  induction as generalizing s os with
  | nil =>
    obtain ⟨-,rfl⟩ := Prod.mk.inj (Option.some.inj h)
    rfl
  | cons a as ih =>
    obtain ⟨s',o,os',-,hr,rfl⟩ := run_cons_eq_some s t a as os h
    rw [List.length_cons, List.length_cons, ih s' os' hr]

/-- What every operation preserves, a whole run preserves. -/
theorem run_invariant (Inv : S → Prop) (ok : A → Prop)
    (hstep : ∀ s a s' o, Inv s → ok a → step s a = some (s',o) → Inv s')
    (s t : S) (as : List A) (os : List O) (hs : Inv s) (ha : ∀ a ∈ as, ok a)
    (h : run step s as = some (t,os)) : Inv t := by
  induction as generalizing s os with
  | nil =>
    obtain ⟨rfl,-⟩ := Prod.mk.inj (Option.some.inj h)
    exact hs
  | cons a as ih =>
    obtain ⟨s',o,os',h1,h2,-⟩ := run_cons_eq_some s t a as os h
    exact ih s' os' (hstep s a s' o hs (ha a (by simp)) h1)
      (fun b hb => ha b (List.mem_cons_of_mem a hb)) h2

/-- If every allowed operation returns, answers as the abstract one does and keeps
the two states related, then so does every allowed run. -/
theorem run_refines (R : S → T → Prop) (ok : T → A → Prop)
    (hstep : ∀ s t a, R s t → ok t a → ∃ s', step s a = some (s', (spec t a).2) ∧ R s' (spec t a).1)
    (s : S) (t : T) (as : List A) (hR : R s t) (hl : Legal spec ok t as) :
    ∃ s', run step s as = some (s', (specRun spec t as).2) ∧ R s' (specRun spec t as).1 := by
  induction as generalizing s t with
  | nil => exact ⟨s, rfl, hR⟩
  | cons a as ih =>
    obtain ⟨s1,h1,hR1⟩ := hstep s t a hR hl.1
    obtain ⟨s',h2,hR'⟩ := ih s1 (spec t a).1 hR1 hl.2
    refine ⟨s', ?_, hR'⟩
    rw [run_cons s s1 a as _ h1, h2]
    rfl

theorem foldlM_append_eq_some (f : S → A → Option S) (s u : S) (as bs : List A)
    (h : (as ++ bs).foldlM f s = some u) :
    ∃ t, as.foldlM f s = some t ∧ bs.foldlM f t = some u := by
  rw [List.foldlM_append] at h
  exact Option.bind_eq_some_iff.mp h

theorem foldlM_cons_eq_some (f : S → A → Option S) (s u : S) (a : A) (bs : List A)
    (h : (a :: bs).foldlM f s = some u) :
    ∃ t, f s a = some t ∧ bs.foldlM f t = some u := by
  rw [List.foldlM_cons] at h
  exact Option.bind_eq_some_iff.mp h

/-- Every move of the sequence is allowed in the state that it meets. -/
def Permitted (move : S → A → Option S) (ok : S → A → Prop) : S → List A → Prop
  | _, [] => True
  | s, a :: as => ok s a ∧ ∀ t, move s a = some t → Permitted move ok t as

/-- Every move of the sequence meets `P`, which sees the states around it. -/
def Along (move : S → A → Option S) (P : S → A → S → Prop) : S → List A → Prop
  | _, [] => True
  | s, a :: as => ∀ t, move s a = some t → P s a t ∧ Along move P t as

section moves
variable (move : S → A → Option S) (ok : S → A → Prop)

theorem permitted_append (s : S) (as bs : List A) (h : Permitted move ok s (as ++ bs)) :
    Permitted move ok s as ∧ ∀ t, as.foldlM move s = some t → Permitted move ok t bs := by
  induction as generalizing s with
  | nil =>
    refine ⟨trivial, ?_⟩
    intro t ht
    rwa [← Option.some.inj ht]
  | cons a as ih =>
    refine ⟨⟨h.1, fun t ht => (ih t (h.2 t ht)).1⟩, ?_⟩
    intro t ht
    rcases foldlM_cons_eq_some move s t a as ht with ⟨u,hu,hrest⟩
    exact (ih u (h.2 u hu)).2 t hrest

theorem permitted_concat (s t : S) (as bs : List A) (h : Permitted move ok s as)
    (hrun : as.foldlM move s = some t) (hbs : Permitted move ok t bs) :
    Permitted move ok s (as ++ bs) := by
  induction as generalizing s with
  | nil =>
    obtain rfl := Option.some.inj hrun
    exact hbs
  | cons a as ih =>
    rcases foldlM_cons_eq_some move s t a as hrun with ⟨u,hu,hrest⟩
    refine ⟨h.1, ?_⟩
    intro v hv
    obtain rfl := Option.some.inj (hu.symm.trans hv)
    exact ih u (h.2 u hu) hrest

/-- If every allowed move returns and keeps a state related to its abstract one, then so does
every permitted sequence. -/
theorem foldlM_refines (R : S → T → Prop) (f : T → A → T)
    (hstep : ∀ s t a, R s t → ok s a → ∃ s', move s a = some s' ∧ R s' (f t a))
    (s : S) (t : T) (as : List A) (hR : R s t) (hp : Permitted move ok s as) :
    ∃ s', as.foldlM move s = some s' ∧ R s' (as.foldl f t) := by
  induction as generalizing s t with
  | nil => exact ⟨s, rfl, hR⟩
  | cons a as ih =>
    rcases hstep s t a hR hp.1 with ⟨s1,h1,hR1⟩
    rcases ih s1 (f t a) hR1 (hp.2 s1 h1) with ⟨s',h',hR'⟩
    refine ⟨s', ?_, hR'⟩
    rw [List.foldlM_cons, h1]
    exact h'

/-- Two conditions that agree on every step from the invariant agree along every permitted
sequence. -/
theorem along_iff (Inv : S → Prop) (P Q : S → A → S → Prop)
    (hstep : ∀ s a t, Inv s → ok s a → move s a = some t → Inv t ∧ (P s a t ↔ Q s a t))
    (s : S) (as : List A) (hs : Inv s) (hp : Permitted move ok s as) :
    Along move P s as ↔ Along move Q s as := by
  induction as generalizing s with
  | nil => exact Iff.rfl
  | cons a as ih =>
    apply forall_congr'
    intro t
    apply imp_congr_right
    intro ht
    rcases hstep s a t hs hp.1 ht with ⟨hi,hiff⟩
    rw [hiff, ih t hi (hp.2 t ht)]

/-- What holds of the state after every move, if a move from a state where it holds keeps it
exactly if it meets `Q`. -/
theorem along_state_iff (Inv P : S → Prop) (Q : S → A → S → Prop)
    (hstep : ∀ s a t, Inv s → P s → move s a = some t → Inv t ∧ (P t ↔ Q s a t))
    (s : S) (as : List A) (hi : Inv s) (hp : P s) :
    Along move (fun _ _ t => P t) s as ↔ Along move Q s as := by
  induction as generalizing s with
  | nil => exact Iff.rfl
  | cons a as ih =>
    apply forall_congr'
    intro t
    apply imp_congr_right
    intro ht
    rcases hstep s a t hi hp ht with ⟨hit,hiff⟩
    constructor
    · rintro ⟨hpt,hrest⟩
      exact ⟨hiff.mp hpt, (ih t hit hpt).mp hrest⟩
    · rintro ⟨hq,hrest⟩
      exact ⟨hiff.mpr hq, (ih t hit (hiff.mpr hq)).mpr hrest⟩

end moves

/-- The steps `as` lead from `s` to the last state, each one enabled and meeting `ok`. -/
inductive GuardedRun (move : S → A → Option S) (ok : S → A → Prop) (s : S) : List A → S → Prop
  | start : GuardedRun move ok s [] s
  | step (as : List A) (a : A) (t u : S) (h : GuardedRun move ok s as t) (hok : ok t a)
      (hs : move t a = some u) : GuardedRun move ok s (as ++ [a]) u

variable {move : S → A → Option S} {ok : S → A → Prop}

theorem GuardedRun.invariant (Inv : S → Prop)
    (hstep : ∀ s a t, Inv s → ok s a → move s a = some t → Inv t)
    (s t : S) (as : List A) (h : GuardedRun move ok s as t) (hs : Inv s) : Inv t := by
  induction h with
  | start => exact hs
  | step as a t u _ hok hm ih => exact hstep t a u ih hok hm

theorem GuardedRun.trans (s t u : S) (as bs : List A) (h : GuardedRun move ok s as t)
    (k : GuardedRun move ok t bs u) : GuardedRun move ok s (as ++ bs) u := by
  induction k with
  | start => rwa [List.append_nil]
  | step bs b v w _ hok hm ih =>
    rw [← List.append_assoc]
    exact .step _ b v w ih hok hm

/-- Executing the steps one by one gives an unguarded run. -/
theorem GuardedRun.of_foldlM (s t : S) (as : List A) (h : as.foldlM move s = some t) :
    GuardedRun move (fun _ _ => True) s as t := by
  induction as generalizing s with
  | nil =>
    obtain rfl := Option.some.inj h
    exact .start
  | cons a as ih =>
    obtain ⟨u,hu,hrest⟩ := foldlM_cons_eq_some move s t a as h
    exact GuardedRun.trans s u t [a] as (.step [] a s u .start trivial hu) (ih u hrest)

theorem GuardedRun.weaken (ok' : S → A → Prop) (hok : ∀ s a, ok s a → ok' s a) (s t : S)
    (as : List A) (h : GuardedRun move ok s as t) : GuardedRun move ok' s as t := by
  induction h with
  | start => exact .start
  | step as a t u _ hk hm ih => exact .step as a t u ih (hok t a hk) hm

end Cclab.OperationRuns
