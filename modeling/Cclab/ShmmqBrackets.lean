import Cclab.SemutilModel

/-! Every queue call holds the semaphore from its `semaphore_p` to its `semaphore_v`, on every
path through it. -/
namespace Cclab.Shmmq

/-- `Bracketed o c`: a process that holds `o` and goes on with `c` takes the semaphore only
when it holds none, gives back the one it holds and returns holding none. -/
def Bracketed : Option ℕ → Code → Prop
  | o, .done _ _ => o = none
  | _, .fault => True
  | o, .act _ k => ∀ w, Bracketed o (k w)
  | o, .sem c k =>
    match c with
    | .getSemvalue => o = none ∧ ∀ r, Bracketed none (k r)
    | .setSemvalue semid => o = none ∧ (∀ r, Bracketed none (k r)) ∧
        ∀ r, ∃ k', k (some r) = .sem (.semaphoreP semid) k'
    | .delSemvalue _ => o = none ∧ ∀ r, Bracketed none (k r)
    | .semaphoreP semid => o = none ∧ Bracketed none (k none) ∧
        ∀ i r, semid = some i → Bracketed (some i) (k (some r))
    | .semaphoreV semid => (∃ i, o = some i ∧ semid = some i) ∧ ∀ r, Bracketed none (k r)

theorem bracketed_ite (o : Option ℕ) (P : Prop) [Decidable P] (c d : Code) (hc : Bracketed o c)
    (hd : Bracketed o d) : Bracketed o (if P then c else d) := by
  by_cases h : P
  · rwa [if_pos h]
  · rwa [if_neg h]

theorem bracketed_release (i : ℕ) (ret : Ret) (item : List UInt8) :
    Bracketed (some i) (release (some i) ret item) :=
  ⟨⟨i,rfl,rfl⟩, fun _ => bracketed_ite none _ _ _ rfl rfl⟩

/-- `semaphore_p`, an early return when it fails, and otherwise the critical section. -/
theorem bracketed_locked (semid : Option ℕ) (body : Code)
    (h : ∀ i, semid = some i → Bracketed (some i) body) :
    Bracketed none (.sem (.semaphoreP semid) fun r =>
      if r = none then .done .errorSemaphoreP [] else body) :=
  ⟨rfl, rfl, fun i _ hi => h i hi⟩

theorem bracketed_openLocked (env : OpenEnv) (semid : Option ℕ) (iscreated mqsize itemsize : ℤ) :
    Bracketed none (shmmqOpenLocked env semid iscreated mqsize itemsize) := by
  apply bracketed_locked
  rintro i rfl w
  apply bracketed_ite
  · intro w'
    exact ⟨⟨i,rfl,rfl⟩, fun _ => ⟨rfl, fun _ => rfl⟩⟩
  · exact bracketed_release i _ _

theorem bracketed_open (env : OpenEnv) (iscreated mqsize itemsize : ℤ) :
    Bracketed none (shmmqOpen env iscreated mqsize itemsize) := by
  refine ⟨rfl, ?_⟩
  intro semid w
  have hlocked := bracketed_openLocked env semid iscreated mqsize itemsize
  apply bracketed_ite
  · rfl
  · apply bracketed_ite
    · refine ⟨rfl, fun r => bracketed_ite none _ _ _ rfl hlocked, ?_⟩
      intro r
      exact ⟨_, rfl⟩
    · exact hlocked

/-- The critical section of the calls that work on the attached segment. -/
theorem bracketed_attached (g : Statics) (body : ℕ → Code)
    (h : ∀ i id, g.gSemid = some i → Bracketed (some i) (body id)) :
    Bracketed none (.sem (.semaphoreP g.gSemid) fun r =>
      if r = none then .done .errorSemaphoreP []
      else match g.gPhead with
        | none => .fault
        | some id => body id) := by
  apply bracketed_locked
  intro i hi
  cases g.gPhead with
  | none => trivial
  | some id => exact h i id hi

theorem bracketed_call (g : Statics) (c : Call) : Bracketed none (c.code g) := by
  cases c with
  | shmmqOpen env iscreated mqsize itemsize => exact bracketed_open env iscreated mqsize itemsize
  | shmmqEnqueue item size =>
    cases item with
    | none => exact rfl
    | some item =>
      apply bracketed_ite
      · rfl
      · apply bracketed_attached
        intro i id hi w
        rw [hi]
        exact bracketed_release i _ _
  | shmmqDequeue item size =>
    apply bracketed_ite
    · rfl
    · apply bracketed_attached
      intro i id hi w
      rw [hi]
      exact bracketed_release i _ _
  | shmmqClear sf =>
    cases sf with
    | none => exact rfl
    | some sf =>
      apply bracketed_attached
      intro i id hi w
      rw [hi]
      apply bracketed_ite
      · exact bracketed_release i _ _
      · exact bracketed_release i _ _

end Cclab.Shmmq
