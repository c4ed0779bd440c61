import Cclab.ByteMemory
import Cclab.OperationRuns
import Mathlib.Logic.Function.Basic
import Mathlib.Data.Int.Notation

/-! The message queue of `shmmq/shmmq.c`, one call at a time. A call is a tree that
stops at each of the semaphore calls of `shmmq/semutil.c`, so that the same text can be
run alone, with every semaphore call answered, or interleaved with other processes. -/
namespace Cclab.Shmmq
open ByteMemory

def defaultMqSize : ℤ := 1024
def defaultItemSize : ℤ := 256
def defaultHeadSize : ℤ := 4096

/-- The values of the unnamed enumeration of return codes. -/
inductive Ret where
  | success
  | errorInvalidArgument
  | errorGetSemvalue
  | errorSetSemvalue
  | errorDelSemvalue
  | errorShmget
  | errorShmat
  | errorShmdt
  | errorShmctl
  | errorSemaphoreP
  | errorSemaphoreV
  | errorMsgqueueFull
deriving DecidableEq, Repr

/-- A shared segment: `shmmq_head` at its start and the items behind the first
`DEFAULT_HEAD_SIZE` bytes, indexed from `g_s_pcontent`. -/
structure Segment where
  size : ℕ
  enqPos : UInt32
  deqPos : UInt32
  content : Mem

/-- The segments of the system, and the one that `SHM_KEY` names. A segment removed
from its key stays usable for the processes that attached it. -/
structure Shm where
  segment : ℕ → Segment
  key : Option ℕ
  nextShmid : ℕ

/-- The static variables of one process; `none` is the value -1 of an identifier and
the null pointer. `gPhead` stands for `g_s_phead` and `g_s_pcontent`. -/
structure Statics where
  gSemid : Option ℕ
  gShmid : Option ℕ
  gMqsize : ℤ
  gItemsize : ℤ
  gPbase : Option ℕ
  gPhead : Option ℕ

def Statics.initial : Statics :=
  ⟨none, none, defaultMqSize, defaultItemSize, none, none⟩

/-- What a call of one process acts on. -/
structure World where
  shm : Shm
  proc : Statics

def Shm.modify (m : Shm) (id : ℕ) (f : Segment → Segment) : Shm :=
  { m with segment := Function.update m.segment id (f (m.segment id)) }

inductive SemCall where
  | getSemvalue
  | setSemvalue (semid : Option ℕ)
  | delSemvalue (semid : Option ℕ)
  | semaphoreP (semid : Option ℕ)
  | semaphoreV (semid : Option ℕ)
deriving DecidableEq

/-- A call in progress: it returns, dereferences a null pointer, waits for a semaphore
call (whose failure is `none`), or works on memory without one. The continuation of
`act` sees the world from before the action. -/
inductive Code where
  | done (ret : Ret) (item : List UInt8)
  | fault
  | sem (c : SemCall) (k : Option ℕ → Code)
  | act (f : World → World) (k : World → Code)

/-- `if (-1 == semaphore_v(g_s_semid)) return ERROR_SEMAPHORE_V; return ret;` -/
def release (semid : Option ℕ) (ret : Ret) (item : List UInt8) : Code :=
  .sem (.semaphoreV semid) fun r =>
    if r = none then .done .errorSemaphoreV item else .done ret item

/-- `shmget` with the size as the kernel receives it: an existing segment must be at
least as large, a new one is zeroed and exactly as large as requested. -/
def shmget (shmmax : ℕ) (m : Shm) (size : ℕ) (create : Bool) : Option ℕ × Shm :=
  match m.key with
  | some id => if size ≤ (m.segment id).size then (some id, m) else (none, m)
  | none =>
    if create ∧ 0 < size ∧ size ≤ shmmax then
      (some m.nextShmid,
        ⟨Function.update m.segment m.nextShmid ⟨size, 0, 0, fun _ => 0⟩,
          some m.nextShmid, m.nextShmid+1⟩)
    else (none, m)

/-- The `int` expression `g_s_mqsize * g_s_itemsize + DEFAULT_HEAD_SIZE`, converted to
the `size_t` that `shmget` takes. -/
def requestedSize (mqsize itemsize : ℤ) : ℕ :=
  ((mqsize*itemsize+defaultHeadSize).bmod (2^32) % 2^64).toNat

/-- What `shmmq_open` leaves to the system: the largest segment and whether `shmat`
succeeds. -/
structure OpenEnv where
  shmmax : ℕ
  shmat : Bool

def installedMqsize (mqsize : ℤ) : ℤ := if mqsize ≤ 0 then defaultMqSize else mqsize
def installedItemsize (itemsize : ℤ) : ℤ := if itemsize ≤ 0 then defaultItemSize else itemsize

/-- The body of the `while (1)` of `shmmq_open`. -/
def attachSegment (env : OpenEnv) (iscreated mqsize itemsize : ℤ) (w : World) : Ret × World :=
  let r := shmget env.shmmax w.shm
    (requestedSize (installedMqsize mqsize) (installedItemsize itemsize)) (decide (iscreated ≠ 0))
  let g := { w.proc with
    gMqsize := installedMqsize mqsize
    gItemsize := installedItemsize itemsize
    gShmid := r.1 }
  match r.1 with
  | none => (.errorShmget, ⟨r.2,g⟩)
  | some id =>
    if env.shmat then
      let shm := if iscreated ≠ 0 then
        r.2.modify id (fun q => { q with enqPos := -1, deqPos := -1 }) else r.2
      (.success, ⟨shm, { g with gPbase := some id, gPhead := some id }⟩)
    else (.errorShmat, ⟨r.2, { g with gPbase := none }⟩)

/-- `if (g_s_shmid >= 0) shmctl(g_s_shmid, IPC_RMID, 0);` -/
def removeSegment (w : World) : World :=
  if w.proc.gShmid ≠ none ∧ w.shm.key = w.proc.gShmid then
    { w with shm := { w.shm with key := none } }
  else w

/-- `shmmq_open` from `semaphore_p` on. -/
def shmmqOpenLocked (env : OpenEnv) (semid : Option ℕ) (iscreated mqsize itemsize : ℤ) : Code :=
  .sem (.semaphoreP semid) fun r =>
    if r = none then .done .errorSemaphoreP []
    else
      .act (fun w => (attachSegment env iscreated mqsize itemsize w).2) fun w =>
        let ret := (attachSegment env iscreated mqsize itemsize w).1
        if ret ≠ .success ∧ iscreated ≠ 0 then
          .act removeSegment fun _ =>
            .sem (.semaphoreV semid) fun _ =>
              .sem (.delSemvalue semid) fun _ => .done ret []
        else release semid ret []

def shmmqOpen (env : OpenEnv) (iscreated mqsize itemsize : ℤ) : Code :=
  .sem .getSemvalue fun semid =>
    .act (fun w => { w with proc := { w.proc with gSemid := semid } }) fun _ =>
      if semid = none then .done .errorGetSemvalue []
      else if iscreated ≠ 0 then
        .sem (.setSemvalue semid) fun r =>
          if r = none then .done .errorSetSemvalue []
          else shmmqOpenLocked env semid iscreated mqsize itemsize
      else shmmqOpenLocked env semid iscreated mqsize itemsize

/-- The critical section of `shmmq_enqueue`. -/
def enqueueItem (g : Statics) (item : Mem) (size : ℤ) (q : Segment) : Ret × Segment :=
  if q.deqPos + UInt32.ofInt g.gMqsize - 1 = q.enqPos then (.errorMsgqueueFull, q)
  else
    let pos := (q.enqPos+1) % UInt32.ofInt g.gMqsize
    (.success, { q with
      content := store q.content (pos * UInt32.ofInt g.gItemsize).toNat (load item 0 size.toNat)
      enqPos := q.enqPos+1 })

/-- `item` is the memory behind the caller's pointer, if that is not null. -/
def shmmqEnqueue (g : Statics) (item : Option Mem) (size : ℤ) : Code :=
  match item with
  | none => .done .errorInvalidArgument []
  | some item =>
    if size ≤ 0 ∨ size > g.gItemsize then .done .errorInvalidArgument []
    else
      .sem (.semaphoreP g.gSemid) fun r =>
        if r = none then .done .errorSemaphoreP []
        else match g.gPhead with
          | none => .fault
          | some id =>
            .act (fun w => { w with shm := w.shm.modify id (fun q => (enqueueItem g item size q).2) })
              fun w => release g.gSemid (enqueueItem g item size (w.shm.segment id)).1 []

/-- The critical section of `shmmq_dequeue`, with the bytes copied to the caller. -/
def dequeueItem (g : Statics) (size : ℤ) (q : Segment) : Ret × List UInt8 × Segment :=
  if q.enqPos = q.deqPos then (.errorMsgqueueFull, [], q)
  else
    let pos := (q.deqPos+1) % UInt32.ofInt g.gMqsize
    (.success, load q.content (pos * UInt32.ofInt g.gItemsize).toNat size.toNat,
      { q with deqPos := q.deqPos+1 })

/-- `item` tells whether the caller's pointer is not null. -/
def shmmqDequeue (g : Statics) (item : Bool) (size : ℤ) : Code :=
  if item = false ∨ size ≤ 0 ∨ size > g.gItemsize then .done .errorInvalidArgument []
  else
    .sem (.semaphoreP g.gSemid) fun r =>
      if r = none then .done .errorSemaphoreP []
      else match g.gPhead with
        | none => .fault
        | some id =>
          .act (fun w => { w with shm := w.shm.modify id (fun q => (dequeueItem g size q).2.2) })
            fun w => release g.gSemid (dequeueItem g size (w.shm.segment id)).1
              (dequeueItem g size (w.shm.segment id)).2.1

/-- `shmmq_clear`: it checks the index that the callback returns and stores nothing. -/
def shmmqClear (g : Statics) (sf : Option (UInt32 → UInt32 → UInt32)) : Code :=
  match sf with
  | none => .done .errorInvalidArgument []
  | some sf =>
    .sem (.semaphoreP g.gSemid) fun r =>
      if r = none then .done .errorSemaphoreP []
      else match g.gPhead with
        | none => .fault
        | some id =>
          .act (fun w => w) fun w =>
            let q := w.shm.segment id
            let begin := sf (q.deqPos % UInt32.ofInt g.gMqsize) (q.enqPos % UInt32.ofInt g.gMqsize)
            if begin.toInt32.toInt < 0 ∨ begin.toInt32.toInt ≥ g.gMqsize then
              release g.gSemid .errorInvalidArgument []
            else release g.gSemid .success []

inductive Call where
  | shmmqOpen (env : OpenEnv) (iscreated mqsize itemsize : ℤ)
  | shmmqEnqueue (item : Option Mem) (size : ℤ)
  | shmmqDequeue (item : Bool) (size : ℤ)
  | shmmqClear (sf : Option (UInt32 → UInt32 → UInt32))

/-- The call as the process with the static variables `g` performs it. -/
def Call.code (g : Statics) : Call → Code
  | .shmmqOpen env iscreated mqsize itemsize => Shmmq.shmmqOpen env iscreated mqsize itemsize
  | .shmmqEnqueue item size => Shmmq.shmmqEnqueue g item size
  | .shmmqDequeue item size => Shmmq.shmmqDequeue g item size
  | .shmmqClear sf => Shmmq.shmmqClear g sf

/-- A whole call, the semaphore calls being answered by `sem`; `none` is a crash. -/
def Code.exec (sem : SemCall → Option ℕ) : Code → World → Option (World × Ret × List UInt8)
  | .done ret item, w => some (w,ret,item)
  | .fault, _ => none
  | .sem c k, w => (k (sem c)).exec sem w
  | .act f k, w => (k w).exec sem (f w)

/-- The shared memory and the static variables of every process. -/
structure System where
  shm : Shm
  procs : ℕ → Statics

/-- One call of one process, run alone. -/
def System.call (sem : SemCall → Option ℕ) (s : System) (c : ℕ × Call) :
    Option (System × Ret × List UInt8) :=
  ((c.2.code (s.procs c.1)).exec sem ⟨s.shm, s.procs c.1⟩).map fun r =>
    (⟨r.1.shm, Function.update s.procs c.1 r.1.proc⟩, r.2)

/-- Every semaphore call succeeds on the semaphore `semid` of `SEM_KEY`; a process that
never opened it passes -1 and fails. -/
def semaphoresSucceed (semid : ℕ) : SemCall → Option ℕ
  | .getSemvalue => some semid
  | .setSemvalue i => i
  | .delSemvalue i => i
  | .semaphoreP i => i
  | .semaphoreV i => i

end Cclab.Shmmq
