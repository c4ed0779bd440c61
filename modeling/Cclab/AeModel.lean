import Cclab.LinkedCells
import Mathlib.Data.UInt
import Mathlib.Data.Int.Notation

/-! The event loop of `ae/ae.c` on the multiplexing layer of `ae/ae_epoll.c`. The functions that a
program registers are numbers for the loop; a program says what each of them does to the world. -/
namespace Cclab.Ae
open LinkedCells

/-- The number of descriptors that the loop can watch. -/
def aeSetsize : ℕ := 1024*10

def aeOk : ℤ := 0
def aeErr : ℤ := -1

def aeNone : UInt32 := 0
def aeReadable : UInt32 := 1
def aeWritable : UInt32 := 2

def aeFileEvents : UInt32 := 1
def aeTimeEvents : UInt32 := 2
def aeAllEvents : UInt32 := aeFileEvents ||| aeTimeEvents
def aeDontWait : UInt32 := 4

def aeNomore : ℤ := -1

structure AeFileEvent where
  mask : UInt32
  rfileProc : ℕ
  wfileProc : ℕ
  clientData : ℕ

/-- `aeTimeEvent`; its link is kept in the cell. -/
structure AeTimeEvent where
  id : ℤ
  whenSec : ℤ
  whenMs : ℤ
  timeProc : ℕ
  finalizerProc : Option ℕ
  clientData : ℕ

structure AeEventLoop where
  maxfd : ℤ
  timeEventNextId : ℤ
  events : ℕ → AeFileEvent
  timeEventHead : Option ℕ
  stop : Bool
  beforesleep : Option ℕ

/-- The two bits of `epoll_event.events` that the code knows. -/
structure EpollEvents where
  epollin : Bool
  epollout : Bool
deriving DecidableEq

/-- The open file of each descriptor, all from `bound` on being closed, and the interest list of the
epoll instance. Its entries are for an open file and a descriptor, and stay as long as the file is
open through any descriptor. -/
structure Kernel where
  files : ℕ → Option ℕ
  bound : ℕ
  nextFile : ℕ
  interest : ℕ → ℕ → Option EpollEvents
  closed : ∀ fd, bound ≤ fd → files fd = none
  older : ∀ fd f, files fd = some f → f < nextFile
  watched : ∀ f fd, interest f fd ≠ none → ∃ j, files j = some f

structure Timeval where
  tvSec : ℕ
  tvUsec : Fin 1000000

/-- What `gettimeofday` says when it is called for the n-th time, and whether the n-th
`EPOLL_CTL_ADD` fails for reasons of the system: a limit, or a file that cannot be polled. -/
structure Environment where
  clock : ℕ → Timeval
  addFails : ℕ → Bool

/-- Memory, kernel and the state of the program itself. Time events are allocated one behind the
other, so that a freed one is never valid again. -/
structure World (σ : Type) where
  eventLoop : AeEventLoop
  timers : Heap AeTimeEvent
  nextTimer : ℕ
  kernel : Kernel
  readings : ℕ
  adds : ℕ
  app : σ

/-- What the registered functions do; `none` is a crash. -/
structure Program (σ : Type) where
  fileProc : ℕ → World σ → (fd : ℕ) → (clientData : ℕ) → (mask : UInt32) → Option (World σ)
  timeProc : ℕ → World σ → (id : ℤ) → (clientData : ℕ) → Option (World σ × ℤ)
  finalizerProc : ℕ → World σ → (clientData : ℕ) → Option (World σ)
  beforesleep : ℕ → World σ → Option (World σ)

variable {σ : Type}

namespace Kernel

def opened (k : Kernel) (fd : ℕ) : Bool := (k.files fd).isSome

/-- The entry that `epoll_ctl` finds for a descriptor: the one for its open file. -/
def entry (k : Kernel) (fd : ℕ) : Option EpollEvents := (k.files fd).bind fun f => k.interest f fd

def setEntry (k : Kernel) (fd : ℕ) (ee : Option EpollEvents) : Kernel :=
  { k with
    interest := fun f j => if k.files fd = some f ∧ j = fd then ee else k.interest f j
    watched := by
      intro f j h
      split_ifs at h with hf
      · exact ⟨fd,hf.1⟩
      · exact k.watched f j h }

/-- `EPOLL_CTL_ADD`: no `EBADF`, no `EEXIST`. -/
def epollCtlAdd (k : Kernel) (fails : Bool) (fd : ℕ) (ee : EpollEvents) : Option Kernel :=
  if k.opened fd = false ∨ k.entry fd ≠ none ∨ fails = true then none
  else some (k.setEntry fd (some ee))

/-- `EPOLL_CTL_MOD`: no `EBADF`, no `ENOENT`. -/
def epollCtlMod (k : Kernel) (fd : ℕ) (ee : EpollEvents) : Option Kernel :=
  if k.entry fd = none then none
  else some (k.setEntry fd (some ee))

def epollCtlDel (k : Kernel) (fd : ℕ) : Option Kernel :=
  if k.entry fd = none then none
  else some (k.setEntry fd none)

/-- Another descriptor refers to the same open file. -/
def Shared (k : Kernel) (fd : ℕ) : Prop := ∃ j < k.bound, j ≠ fd ∧ k.files j = k.files fd

instance (k : Kernel) (fd : ℕ) : Decidable (k.Shared fd) :=
  inferInstanceAs (Decidable (∃ j < k.bound, j ≠ fd ∧ k.files j = k.files fd))

/-- `close`; the last descriptor of a file takes its entries out of the interest list. -/
def close (k : Kernel) (fd : ℕ) : Kernel where
  files := Function.update k.files fd none
  bound := k.bound
  nextFile := k.nextFile
  interest := fun f j => if k.files fd = some f ∧ ¬ k.Shared fd then none else k.interest f j
  closed := by
    intro j hj
    rw [Function.update_apply]
    split_ifs
    · rfl
    · exact k.closed j hj
  older := by
    intro j f h
    rw [Function.update_apply] at h
    split_ifs at h
    exact k.older j f h
  watched := by
    intro f j h
    split_ifs at h with hlast
    · exact absurd rfl h
    obtain ⟨i,hi⟩ := k.watched f j h
    -- where `fd` itself kept the entry alive, another descriptor does now
    by_cases hfd : i = fd
    · rw [hfd] at hi
      obtain ⟨l,-,hne,hl⟩ := not_not.mp fun hs => hlast ⟨hi,hs⟩
      exact ⟨l, by rw [Function.update_of_ne hne, hl, hi]⟩
    · exact ⟨i, by rw [Function.update_of_ne hfd, hi]⟩

/-- The descriptor refers to this open file from now on. -/
def attach (k : Kernel) (fd f : ℕ) : Kernel where
  files := Function.update k.files fd (some f)
  bound := max k.bound (fd+1)
  nextFile := max k.nextFile (f+1)
  interest := (k.close fd).interest
  closed := by
    intro j hj
    rw [Function.update_of_ne (by omega)]
    exact k.closed j (by omega)
  older := by
    intro j g h
    rw [Function.update_apply] at h
    split_ifs at h with hj
    · obtain rfl := Option.some.inj h
      omega
    · have hlt := k.older j g h
      omega
  watched := by
    intro g j h
    obtain ⟨i,hi⟩ := (k.close fd).watched g j h
    have hne : i ≠ fd := by
      rintro rfl
      exact absurd hi (by simp [close])
    refine ⟨i, ?_⟩
    change Function.update k.files fd none i = some g at hi
    rw [Function.update_of_ne hne] at hi ⊢
    exact hi

/-- A new descriptor for a new open file, as `socket` or `accept` returns it. -/
def openFd (k : Kernel) (fd : ℕ) : Kernel := k.attach fd k.nextFile

/-- A second descriptor for the open file of `fd`, as `dup` returns it. -/
def dup (k : Kernel) (fd new : ℕ) : Kernel :=
  match k.files fd with
  | none => k
  | some f => k.attach new f

/-- Nothing is open. -/
def empty : Kernel where
  files := fun _ => none
  bound := 0
  nextFile := 0
  interest := fun _ _ => none
  closed := fun _ _ => rfl
  older := fun _ _ h => absurd h (by simp)
  watched := fun _ _ h => absurd rfl h

end Kernel

namespace World

abbrev events (w : World σ) (fd : ℕ) : AeFileEvent := w.eventLoop.events fd

def setEvents (w : World σ) (fd : ℕ) (fe : AeFileEvent) : World σ :=
  { w with eventLoop := { w.eventLoop with events := Function.update w.eventLoop.events fd fe } }

def setMaxfd (w : World σ) (maxfd : ℤ) : World σ :=
  { w with eventLoop := { w.eventLoop with maxfd := maxfd } }

/-- The clock has been read once more. -/
def tick (w : World σ) : World σ := { w with readings := w.readings+1 }

end World

/-- `aeCreateEventLoop`; only the masks of the table are initialised. -/
def aeCreateEventLoop (events : ℕ → AeFileEvent) (kernel : Kernel) (app : σ) : World σ where
  eventLoop :=
    { maxfd := -1
      timeEventNextId := 0
      events := fun fd => { events fd with mask := aeNone }
      timeEventHead := none
      stop := false
      beforesleep := none }
  timers := fun _ => none
  nextTimer := 0
  kernel := { kernel with interest := fun _ _ => none, watched := fun _ _ h => absurd rfl h }
  readings := 0
  adds := 0
  app := app

def aeStop (w : World σ) : World σ := { w with eventLoop := { w.eventLoop with stop := true } }

def aeSetBeforeSleepProc (w : World σ) (beforesleep : Option ℕ) : World σ :=
  { w with eventLoop := { w.eventLoop with beforesleep := beforesleep } }

/-- The `ee.events` of a mask. -/
def epollEvents (mask : UInt32) : EpollEvents :=
  ⟨decide (mask &&& aeReadable ≠ 0), decide (mask &&& aeWritable ≠ 0)⟩

section files
variable (env : Environment) (w : World σ) (fd : ℕ) (mask : UInt32)

/-- `aeApiAddEvent`, with whether it succeeds. -/
def aeApiAddEvent : World σ × Bool :=
  let ee := epollEvents (mask ||| (w.events fd).mask)
  if (w.events fd).mask = aeNone then
    let w' := { w with adds := w.adds+1 }
    match w.kernel.epollCtlAdd (env.addFails w.adds) fd ee with
    | none => (w',false)
    | some k => ({ w' with kernel := k },true)
  else
    match w.kernel.epollCtlMod fd ee with
    | none => (w,false)
    | some k => ({ w with kernel := k },true)

/-- `aeApiDelEvent`; what `epoll_ctl` returns is not looked at. -/
def aeApiDelEvent : World σ :=
  let rest := (w.events fd).mask &&& ~~~mask
  let k :=
    if rest ≠ aeNone then w.kernel.epollCtlMod fd (epollEvents rest) else w.kernel.epollCtlDel fd
  { w with kernel := k.getD w.kernel }

/-- The entry of the table behind `aeCreateFileEvent`. -/
def AeFileEvent.add (fe : AeFileEvent) (mask : UInt32) (proc clientData : ℕ) : AeFileEvent where
  mask := fe.mask ||| mask
  rfileProc := if mask &&& aeReadable ≠ 0 then proc else fe.rfileProc
  wfileProc := if mask &&& aeWritable ≠ 0 then proc else fe.wfileProc
  clientData := clientData

def aeCreateFileEvent (proc clientData : ℕ) : World σ × ℤ :=
  if aeSetsize ≤ fd then (w,aeErr)
  else
    let r := aeApiAddEvent env w fd mask
    if r.2 = false then (r.1,aeErr)
    else
      let w := r.1.setEvents fd ((r.1.events fd).add mask proc clientData)
      (if w.eventLoop.maxfd < fd then w.setMaxfd fd else w, aeOk)

/-- `for (j = n-1; j >= 0; j--) if (events[j].mask != AE_NONE) break;` -/
def scanDown (events : ℕ → AeFileEvent) : ℕ → ℤ
  | 0 => -1
  | j+1 => if (events j).mask ≠ aeNone then j else scanDown events j

def aeDeleteFileEvent : World σ :=
  if aeSetsize ≤ fd then w
  else if (w.events fd).mask = aeNone then w
  else
    let fe := { w.events fd with mask := (w.events fd).mask &&& ~~~mask }
    let w := w.setEvents fd fe
    let w := if w.eventLoop.maxfd = fd ∧ fe.mask = aeNone then
      w.setMaxfd (scanDown w.eventLoop.events fd) else w
    aeApiDelEvent w fd mask

end files

section timers
variable (env : Environment) (prog : Program σ)

/-- The n-th reading of the clock in seconds and milliseconds. -/
def reading (n : ℕ) : ℤ × ℤ := ((env.clock n).tvSec, ((env.clock n).tvUsec / 1000 : ℕ))

def aeGetTime (w : World σ) : (ℤ × ℤ) × World σ := (reading env w.readings, w.tick)

/-- `aeAddMillisecondsToNow`; division and remainder of C round towards zero. -/
def addMilliseconds (now : ℤ × ℤ) (milliseconds : ℤ) : ℤ × ℤ :=
  let sec := now.1+milliseconds.tdiv 1000
  let ms := now.2+milliseconds.tmod 1000
  if ms ≥ 1000 then (sec+1,ms-1000) else (sec,ms)

def aeAddMillisecondsToNow (w : World σ) (milliseconds : ℤ) : (ℤ × ℤ) × World σ :=
  let (now,w) := aeGetTime env w
  (addMilliseconds now milliseconds,w)

/-- `aeCreateTimeEvent`; `zmalloc` does not return without memory. -/
def aeCreateTimeEvent (w : World σ) (milliseconds : ℤ) (proc clientData : ℕ)
    (finalizerProc : Option ℕ) : World σ × ℤ :=
  let id := w.eventLoop.timeEventNextId
  let (when_,w) := aeAddMillisecondsToNow env w milliseconds
  let te : AeTimeEvent := ⟨id,when_.1,when_.2,proc,finalizerProc,clientData⟩
  ({ w with
    eventLoop := { w.eventLoop with timeEventNextId := id+1, timeEventHead := some w.nextTimer }
    timers := alloc w.timers w.nextTimer ⟨te,w.eventLoop.timeEventHead⟩
    nextTimer := w.nextTimer+1 }, id)

/-- The search of `aeDeleteTimeEvent` and the cut, with the event that it cut out. -/
def unlinkTimeEvent (w : World σ) (id : ℤ) : Option (Option (World σ × ℕ × AeTimeEvent)) := do
  let found ← search w.timers (fun te => te.id = id) (w.nextTimer+1) none w.eventLoop.timeEventHead
  match found with
  | none => return none
  | some (prev,te,cell) =>
    let (timers,head) ← cut w.timers w.eventLoop.timeEventHead prev cell.next
    return some
      ({ w with eventLoop := { w.eventLoop with timeEventHead := head }, timers := timers },
        te,cell.data)

def zfreeTimeEvent (w : World σ) (te : ℕ) : Option (World σ) :=
  (free w.timers te).map fun timers => { w with timers := timers }

/-- The finalizer of an event, if it has one. -/
def finalize (w : World σ) (te : AeTimeEvent) : Option (World σ) :=
  match te.finalizerProc with
  | none => some w
  | some proc => prog.finalizerProc proc w te.clientData

/-- `aeDeleteTimeEvent`: the finalizer runs between the cut and the release. -/
def aeDeleteTimeEvent (w : World σ) (id : ℤ) : Option (World σ × ℤ) := do
  match ← unlinkTimeEvent w id with
  | none => return (w,aeErr)
  | some (w,p,te) =>
    let w ← finalize prog w te
    let w ← zfreeTimeEvent w p
    return (w,aeOk)

/-- One is before the other: seconds first. -/
def earlier (a b : ℤ × ℤ) : Prop := a.1 < b.1 ∨ a.1 = b.1 ∧ a.2 < b.2

instance (a b : ℤ × ℤ) : Decidable (earlier a b) := inferInstanceAs (Decidable (_ ∨ _ ∧ _))

def AeTimeEvent.when_ (te : AeTimeEvent) : ℤ × ℤ := (te.whenSec,te.whenMs)

/-- The test of the loop in `aeSearchNearestTimer`. -/
def nearer (nearest : Option (ℕ × AeTimeEvent)) (p : ℕ) (te : AeTimeEvent) :
    Option (ℕ × AeTimeEvent) :=
  match nearest with
  | none => some (p,te)
  | some best => if earlier te.when_ best.2.when_ then some (p,te) else some best

def aeSearchNearestTimer (w : World σ) : Option (Option (ℕ × AeTimeEvent)) :=
  fold w.timers nearer (w.nextTimer+1) w.eventLoop.timeEventHead none

/-- `now_sec > te->when_sec || (now_sec == te->when_sec && now_ms >= te->when_ms)` -/
def AeTimeEvent.due (te : AeTimeEvent) (now : ℤ × ℤ) : Prop := ¬ earlier now te.when_

instance (te : AeTimeEvent) (now : ℤ × ℤ) : Decidable (te.due now) :=
  inferInstanceAs (Decidable (¬ _))

/-- The new deadline of an event that is not done. -/
def reschedule (w : World σ) (te : ℕ) (milliseconds : ℤ) : Option (World σ) :=
  let (when_,w) := aeAddMillisecondsToNow env w milliseconds
  (modify w.timers te fun c => { c with data :=
    { c.data with whenSec := when_.1, whenMs := when_.2 } }).map fun timers =>
      { w with timers := timers }

/-- What follows a call of `timeProc`. -/
def afterTimeProc (w : World σ) (te : ℕ) (id retval : ℤ) : Option (World σ) :=
  if retval ≠ aeNomore then reschedule env w te retval
  else (aeDeleteTimeEvent prog w id).map Prod.fst

/-- The loop of `processTimeEvents`, with the events whose `timeProc` it calls and the time it
had read before each call. -/
def timeLoop (maxId : ℤ) : ℕ → World σ → Option ℕ → Option (World σ × List (ℤ × ℤ × ℤ))
  | 0, _, _ => none
  | _+1, w, none => some (w,[])
  | fuel+1, w, some te => do
    let cell ← w.timers te
    if maxId < cell.data.id then timeLoop maxId fuel w cell.next
    else
      let (now,w) := aeGetTime env w
      if cell.data.due now then
        let (w,retval) ← prog.timeProc cell.data.timeProc w cell.data.id cell.data.clientData
        let w ← afterTimeProc env prog w te cell.data.id retval
        let r ← timeLoop maxId fuel w w.eventLoop.timeEventHead
        return (r.1,(cell.data.id,now) :: r.2)
      else timeLoop maxId fuel w cell.next

def processTimeEvents (fuel : ℕ) (w : World σ) : Option (World σ × List (ℤ × ℤ × ℤ)) :=
  timeLoop env prog (w.eventLoop.timeEventNextId-1) fuel w w.eventLoop.timeEventHead

end timers

section polling
variable (env : Environment) (prog : Program σ)

/-- `tv` of the time missing for a timer: seconds and microseconds. -/
def timeMissing (now : ℤ × ℤ) (te : AeTimeEvent) : ℤ × ℤ :=
  let tv :=
    if te.whenMs < now.2 then (te.whenSec-now.1-1,((te.whenMs+1000)-now.2)*1000)
    else (te.whenSec-now.1,(te.whenMs-now.2)*1000)
  (if tv.1 < 0 then 0 else tv.1, if tv.2 < 0 then 0 else tv.2)

/-- `shortest`, which is looked for only if the loop may wait for it. -/
def shortestTimer (w : World σ) (flags : UInt32) : Option (Option (ℕ × AeTimeEvent)) :=
  if flags &&& aeTimeEvents ≠ 0 ∧ flags &&& aeDontWait = 0 then aeSearchNearestTimer w
  else some none

/-- `tvp`, a null pointer to wait for ever. -/
def pollTime (w : World σ) (flags : UInt32) : Option (Option (ℤ × ℤ) × World σ) := do
  match ← shortestTimer w flags with
  | some te =>
    let (now,w) := aeGetTime env w
    return (some (timeMissing now te.2),w)
  | none => return (if flags &&& aeDontWait ≠ 0 then some (0,0) else none, w)

/-- The `int` that `aeApiPoll` passes to `epoll_wait`. -/
def epollTimeout : Option (ℤ × ℤ) → ℤ
  | none => -1
  | some tv => (tv.1*1000+tv.2.tdiv 1000).bmod (2^32)

/-- An event that `epoll_wait` returns. -/
structure EpollEvent where
  fd : ℕ
  events : EpollEvents

/-- The mask of a fired event. -/
def EpollEvent.mask (e : EpollEvent) : UInt32 :=
  (if e.events.epollin then aeReadable else 0) ||| (if e.events.epollout then aeWritable else 0)

/-- A call of a `fileProc`. -/
structure FileCall where
  proc : ℕ
  fd : ℕ
  mask : UInt32

/-- The first call for a fired event. -/
def fireReadable (w : World σ) (fired : EpollEvent) : Option (World σ × List FileCall) :=
  let fe := w.events fired.fd
  if fe.mask &&& fired.mask &&& aeReadable ≠ 0 then
    (prog.fileProc fe.rfileProc w fired.fd fe.clientData fired.mask).map fun w =>
      (w,[⟨fe.rfileProc,fired.fd,fired.mask⟩])
  else some (w,[])

/-- The second one. The entry of the table is read again, as the first call left it. -/
def fireWritable (w : World σ) (fired : EpollEvent) (calls : List FileCall) :
    Option (World σ × List FileCall) :=
  let fe := w.events fired.fd
  if fe.mask &&& fired.mask &&& aeWritable ≠ 0 ∧ (calls = [] ∨ fe.wfileProc ≠ fe.rfileProc) then
    (prog.fileProc fe.wfileProc w fired.fd fe.clientData fired.mask).map fun w =>
      (w,calls ++ [⟨fe.wfileProc,fired.fd,fired.mask⟩])
  else some (w,calls)

def fireOne (w : World σ) (fired : EpollEvent) : Option (World σ × List FileCall) := do
  let r ← fireReadable prog w fired
  fireWritable prog r.1 fired r.2

def fireAll : World σ → List EpollEvent → Option (World σ × List FileCall)
  | w, [] => some (w,[])
  | w, e :: es => do
    let r ← fireOne prog w e
    let q ← fireAll r.1 es
    return (q.1,r.2 ++ q.2)

/-- What a call of `aeProcessEvents` did: how it polled, whom it called, and its result. -/
structure Processed where
  timeout : Option ℤ
  files : List FileCall
  timers : List (ℤ × ℤ × ℤ)
  count : ℕ

/-- The part of `aeProcessEvents` that polls, with how it waited and how many events fired. -/
def pollFiles (w : World σ) (flags : UInt32) (polled : List EpollEvent) :
    Option (World σ × Option ℤ × List FileCall × ℕ) :=
  if w.eventLoop.maxfd ≠ -1 ∨ flags &&& aeTimeEvents ≠ 0 ∧ flags &&& aeDontWait = 0 then do
    let (tvp,w) ← pollTime env w flags
    let r ← fireAll prog w polled
    return (r.1,some (epollTimeout tvp),r.2,polled.length)
  else some (w,none,[],0)

/-- `aeProcessEvents`, with what `epoll_wait` returns. -/
def aeProcessEvents (fuel : ℕ) (w : World σ) (flags : UInt32) (polled : List EpollEvent) :
    Option (World σ × Processed) :=
  if flags &&& aeTimeEvents = 0 ∧ flags &&& aeFileEvents = 0 then some (w,⟨none,[],[],0⟩)
  else do
    let (w,timeout,files,fired) ← pollFiles env prog w flags polled
    if flags &&& aeTimeEvents ≠ 0 then
      let r ← processTimeEvents env prog fuel w
      return (r.1,⟨timeout,files,r.2,fired+r.2.length⟩)
    else return (w,⟨timeout,files,[],fired⟩)

/-- `beforesleep` of an iteration, if it is set. -/
def sleep (w : World σ) : Option (World σ) :=
  match w.eventLoop.beforesleep with
  | none => some w
  | some proc => prog.beforesleep proc w

/-- The loop of `aeMain`, as far as `epoll_wait` has returned so far; whether it has ended. -/
def mainLoop (fuel : ℕ) : World σ → List (List EpollEvent) → Option (World σ × Bool)
  | w, [] => some (w,w.eventLoop.stop)
  | w, polled :: rest =>
    if w.eventLoop.stop then some (w,true)
    else do
      let w ← sleep prog w
      let r ← aeProcessEvents env prog fuel w aeAllEvents polled
      mainLoop fuel r.1 rest

def aeMain (fuel : ℕ) (w : World σ) (polled : List (List EpollEvent)) : Option (World σ × Bool) :=
  mainLoop env prog fuel { w with eventLoop := { w.eventLoop with stop := false } } polled

end polling

end Cclab.Ae
