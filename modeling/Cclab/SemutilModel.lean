import Cclab.ShmmqModel

/-! The semaphore calls of `shmmq/semutil.c` on a kernel with System V semaphores, and any
number of processes whose queue calls interleave at them. -/
namespace Cclab.Shmmq

/-- The largest value of a semaphore. -/
def semvmx : ℕ := 32767

/-- The semaphore sets, of one semaphore each, and the one that `SEM_KEY` names. A removed
set has no value any more. `semadj p i` is what the end of process `p` adds to semaphore
`i`, since every operation is done with `SEM_UNDO`. -/
structure Kernel where
  semval : ℕ → Option ℕ
  semKey : Option ℕ
  nextSemid : ℕ
  semadj : ℕ → ℕ → ℤ

namespace Kernel

/-- `semget(key, 1, 0666|IPC_CREAT)`: a new semaphore has the value 0. -/
def getSemvalue (k : Kernel) : Kernel × Option ℕ :=
  match k.semKey with
  | some i => (k, some i)
  | none =>
    ({ k with
      semval := Function.update k.semval k.nextSemid (some 0)
      semKey := some k.nextSemid
      nextSemid := k.nextSemid+1 }, some k.nextSemid)

/-- `semctl` and `semop` fail on an identifier that names no semaphore. -/
def onSemaphore (k : Kernel) (semid : Option ℕ) (f : ℕ → ℕ → Option (Kernel × Option ℕ)) :
    Option (Kernel × Option ℕ) :=
  match semid with
  | none => some (k,none)
  | some i =>
    match k.semval i with
    | none => some (k,none)
    | some v => f i v

/-- `semctl(semid, 0, SETVAL, 1)` also clears the adjustments of every process. -/
def setSemvalue (k : Kernel) (semid : Option ℕ) : Option (Kernel × Option ℕ) :=
  k.onSemaphore semid fun i _ =>
    some ({ k with
      semval := Function.update k.semval i (some 1)
      semadj := fun p j => if j = i then 0 else k.semadj p j }, some 0)

/-- `semctl(semid, 0, IPC_RMID)` -/
def delSemvalue (k : Kernel) (semid : Option ℕ) : Option (Kernel × Option ℕ) :=
  k.onSemaphore semid fun i _ =>
    some ({ k with
      semval := Function.update k.semval i none
      semKey := if k.semKey = some i then none else k.semKey }, some 0)

def adjust (k : Kernel) (p i v : ℕ) (d : ℤ) : Kernel :=
  { k with
    semval := Function.update k.semval i (some v)
    semadj := Function.update k.semadj p (Function.update (k.semadj p) i (k.semadj p i+d)) }

/-- `semop` with -1; `none` where the process has to wait. -/
def semaphoreP (k : Kernel) (p : ℕ) (semid : Option ℕ) : Option (Kernel × Option ℕ) :=
  k.onSemaphore semid fun i v =>
    match v with
    | 0 => none
    | v+1 => some (k.adjust p i v 1, some 0)

/-- `semop` with +1 -/
def semaphoreV (k : Kernel) (p : ℕ) (semid : Option ℕ) : Option (Kernel × Option ℕ) :=
  k.onSemaphore semid fun i v =>
    if v < semvmx then some (k.adjust p i (v+1) (-1), some 0) else some (k,none)

/-- The end of a process undoes its semaphore operations. -/
def exit (k : Kernel) (p : ℕ) : Kernel :=
  { k with
    semval := fun i => (k.semval i).map fun (v : ℕ) => min semvmx ((v:ℤ)+k.semadj p i).toNat
    semadj := Function.update k.semadj p fun _ => 0 }

def answer (k : Kernel) (p : ℕ) : SemCall → Option (Kernel × Option ℕ)
  | .getSemvalue => some k.getSemvalue
  | .setSemvalue semid => k.setSemvalue semid
  | .delSemvalue semid => k.delSemvalue semid
  | .semaphoreP semid => k.semaphoreP p semid
  | .semaphoreV semid => k.semaphoreV p semid

end Kernel

/-- A call can fail for reasons of its own (rights, memory, a signal), except for the
`semop` that adds 1. -/
def SemCall.mayFail : SemCall → Bool
  | .semaphoreV _ => false
  | _ => true

inductive Status where
  | idle
  | running (c : Code)
  | crashed

/-- The shared memory, the kernel and the processes. `inside p` is the semaphore that `p`
holds: set by a successful `semaphore_p`, reset by the next `semaphore_v`. -/
structure Machine where
  shm : Shm
  kernel : Kernel
  statics : ℕ → Statics
  status : ℕ → Status
  inside : ℕ → Option ℕ

inductive Event where
  | start (p : ℕ) (c : Call)
  | compute (p : ℕ)
  | sem (p : ℕ) (fails : Bool)

def insideAfter (c : SemCall) (r i : Option ℕ) : Option ℕ :=
  match c with
  | .semaphoreP semid => if r = none then i else semid
  | .semaphoreV _ => none
  | _ => i

/-- The answer that the process gets, or `none` if it has to wait. -/
def Kernel.reply (k : Kernel) (p : ℕ) (c : SemCall) (fails : Bool) : Option (Kernel × Option ℕ) :=
  if fails then if c.mayFail then some (k,none) else none
  else k.answer p c

/-- One step of one process: it begins a call, works until the next semaphore call, or
performs that call. -/
def Machine.step (s : Machine) : Event → Option Machine
  | .start p c =>
    match s.status p with
    | .idle => some { s with
        status := Function.update s.status p (.running (c.code (s.statics p))) }
    | _ => none
  | .compute p =>
    match s.status p with
    | .running (.done _ _) => some { s with status := Function.update s.status p .idle }
    | .running .fault => some { s with
        kernel := s.kernel.exit p
        status := Function.update s.status p .crashed
        inside := Function.update s.inside p none }
    | .running (.act f k) =>
      let w := f ⟨s.shm, s.statics p⟩
      some { s with
        shm := w.shm
        statics := Function.update s.statics p w.proc
        status := Function.update s.status p (.running (k ⟨s.shm, s.statics p⟩)) }
    | _ => none
  | .sem p fails =>
    match s.status p with
    | .running (.sem c k) => (s.kernel.reply p c fails).map fun r => { s with
        kernel := r.1
        status := Function.update s.status p (.running (k r.2))
        inside := Function.update s.inside p (insideAfter c r.2 (s.inside p)) }
    | _ => none

/-- Nothing exists yet and no process has done anything. -/
def Machine.initial : Machine where
  shm := ⟨fun _ => ⟨0,0,0,fun _ => 0⟩, none, 0⟩
  kernel := ⟨fun _ => none, none, 0, fun _ _ => 0⟩
  statics := fun _ => Statics.initial
  status := fun _ => .idle
  inside := fun _ => none

end Cclab.Shmmq
