import Cclab.AeTimers

/-! The echo server of `ae/main.c` on the event loop: which descriptors it has open, and what it
sends. -/
namespace Cclab.Ae
open LinkedCells

def oRdwr : UInt32 := 0x2
def oNonblock : UInt32 := 0x800
def fdCloexec : UInt32 := 0x1

/-- The flags that `F_SETFL` changes: `O_APPEND`, `O_NONBLOCK`, `O_ASYNC`, `O_DIRECT` and
`O_NOATIME`. -/
def settable : UInt32 := 0x46C00

inductive ReadResult
  | bytes (n : ℕ)
  | eof
  | again
  | error

/-- What `send` does: it takes some bytes, or none with an `errno` that asks to try again or does
not; or the peer is gone, and `SIGPIPE`, which the server leaves as it is, ends the process. -/
inductive SendResult
  | sent (k : ℕ)
  | stopped (retry : Bool)
  | killed

/-- What the system answers to the n-th call of each kind. -/
structure Sockets where
  accept : ℕ → Kernel → Option ℕ
  accept_free : ∀ n k fd, accept n k = some fd → k.opened fd = false
  fcntlFails : ℕ → Bool
  read : ℕ → ReadResult
  send : ℕ → (ss : ℕ) → SendResult
  send_bound : ∀ n ss k, send n ss = .sent k → 0 < k ∧ k ≤ ss

/-- How many calls there have been, the status flags of the descriptors, what has been sent to them,
and the clients that were accepted and then forgotten. -/
structure Server where
  accepts : ℕ
  fcntls : ℕ
  reads : ℕ
  sends : ℕ
  status : ℕ → UInt32
  sent : ℕ → List UInt8
  forgotten : List ℕ

section calls
variable (sys : Sockets)

/-- `fcntl(fd, F_SETFL, flag)` -/
def setfl (status flag : UInt32) : UInt32 := (status &&& ~~~settable) ||| (flag &&& settable)

/-- `flag = fcntl(fd, F_GETFL); flag |= bit; fcntl(fd, F_SETFL, flag)` -/
def orFlag (bit : UInt32) (s : Server) (fd : ℕ) : Server × ℤ :=
  if sys.fcntlFails s.fcntls = true then ({ s with fcntls := s.fcntls+1 },-1)
  else if sys.fcntlFails (s.fcntls+1) = true then ({ s with fcntls := s.fcntls+2 },-1)
  else ({ s with
    fcntls := s.fcntls+2
    status := Function.update s.status fd (setfl (s.status fd) (s.status fd ||| bit)) },0)

def setNonblocking (s : Server) (fd : ℕ) : Server × ℤ := orFlag sys oNonblock s fd

def setClosexec (s : Server) (fd : ℕ) : Server × ℤ := orFlag sys fdCloexec s fd

/-- The loop of `non_block_send`, with what is left at its end; `some none` is the end of the
process. -/
def sendLoop (buffer : List UInt8) (fd : ℕ) :
    ℕ → Server → (ss cp : ℕ) → Option (Option (Server × ℕ))
  | 0, _, _, _ => none
  | fuel+1, s, ss, cp =>
    if ss = 0 then some (some (s,ss))
    else
      let s' := { s with sends := s.sends+1 }
      match sys.send s.sends ss with
      | .sent rv =>
        let data := (buffer.drop cp).take rv
        sendLoop buffer fd fuel { s' with sent := Function.update s.sent fd (s.sent fd ++ data) }
          (ss-rv) (cp+rv)
      | .stopped true => sendLoop buffer fd fuel s' ss cp
      | .stopped false => some (some (s',ss))
      | .killed => some none

def nonBlockSend (fuel : ℕ) (s : Server) (fd : ℕ) (buffer : List UInt8) (totalSize : ℕ) :
    Option (Option (Server × ℤ)) :=
  (sendLoop sys buffer fd fuel s totalSize 0).map fun ended =>
    ended.map fun r => (r.1,if r.2 = 0 then 0 else -1)

def World.setApp {σ : Type} (w : World σ) (app : σ) : World σ := { w with app := app }

/-- `close(fd)` -/
def World.close {σ : Type} (w : World σ) (fd : ℕ) : World σ := { w with kernel := w.kernel.close fd }

/-- "ok" -/
def say : List UInt8 := [111,107]

def driveMachine (fuel : ℕ) (w : World Server) (fd : ℕ) : Option (World Server) :=
  let s := { w.app with reads := w.app.reads+1 }
  match sys.read w.app.reads with
  | .again => some (w.setApp s)
  | .error => some ((aeDeleteFileEvent (w.setApp s) fd aeReadable).close fd)
  | .eof => some ((aeDeleteFileEvent (w.setApp s) fd aeReadable).close fd)
  | .bytes _ => (nonBlockSend sys fuel s fd say 2).join.map fun r => w.setApp r.1

/-- The numbers of the two functions that the server registers. -/
def acceptHandlerProc : ℕ := 0
def driveMachineProc : ℕ := 1

/-- The end of `accept_handler`; what `aeCreateFileEvent` returns is not looked at. -/
def registerClient (env : Environment) (w : World Server) (client : ℕ) : World Server :=
  let r := aeCreateFileEvent env w client aeReadable driveMachineProc 0
  if r.2 = aeOk then r.1
  else r.1.setApp { r.1.app with forgotten := client :: r.1.app.forgotten }

/-- A new descriptor is open for reading and writing, and nothing has been sent to it. -/
def newClient (s : Server) (client : ℕ) : Server :=
  { s with
    status := Function.update s.status client oRdwr
    sent := Function.update s.sent client [] }

/-- What `accept_handler` does with a client. -/
def acceptClient (env : Environment) (w : World Server) (client : ℕ) : World Server :=
  let w := { w with kernel := w.kernel.openFd client }
  let r := setNonblocking sys (newClient w.app client) client
  if r.2 = -1 then (w.setApp r.1).close client
  else
    let q := setClosexec sys r.1 client
    if q.2 = -1 then (w.setApp q.1).close client
    else registerClient env (w.setApp q.1) client

def acceptHandler (env : Environment) (w : World Server) : World Server :=
  let s := { w.app with accepts := w.app.accepts+1 }
  match sys.accept w.app.accepts w.kernel with
  | none => w.setApp s
  | some client => acceptClient sys env (w.setApp s) client

/-- The server as a program of the loop. -/
def server (env : Environment) (fuel : ℕ) : Program Server where
  fileProc := fun proc w fd _ _ =>
    if proc = acceptHandlerProc then some (acceptHandler sys env w) else driveMachine sys fuel w fd
  timeProc := fun _ w _ _ => some (w,aeNomore)
  finalizerProc := fun _ w _ => some w
  beforesleep := fun _ w => some w

end calls

section send
variable (sys : Sockets) (buffer : List UInt8) (fd : ℕ)

/-- The loop has sent what is not left, in order and to this descriptor only. -/
theorem sendLoop_spec (fuel : ℕ) (s s' : Server) (ss cp left : ℕ)
    (h : sendLoop sys buffer fd fuel s ss cp = some (some (s',left))) :
    s'.status = s.status ∧ s'.forgotten = s.forgotten ∧ left ≤ ss ∧
      s'.sent = Function.update s.sent fd (s.sent fd ++ (buffer.drop cp).take (ss-left)) := by
  induction fuel generalizing s ss cp with
  | zero => exact absurd h (by simp [sendLoop])
  | succ fuel ih =>
    have hnone (t : ℕ → List UInt8) : t = Function.update t fd (t fd ++ (buffer.drop cp).take 0) := by
      rw [List.take_zero, List.append_nil, Function.update_eq_self]
    rw [sendLoop] at h
    by_cases hz : ss = 0
    · rw [if_pos hz] at h
      obtain ⟨rfl,rfl⟩ := Prod.mk.inj (Option.some.inj (Option.some.inj h))
      refine ⟨rfl, rfl, le_rfl, ?_⟩
      rw [Nat.sub_self]
      exact hnone s.sent
    rw [if_neg hz] at h
    dsimp only at h
    cases hr : sys.send s.sends ss with
    | sent rv =>
      rw [hr] at h
      obtain ⟨-,hle⟩ := sys.send_bound _ _ _ hr
      obtain ⟨hs,hf,hl,hsent⟩ := ih _ _ _ h
      refine ⟨hs, hf, hl.trans (Nat.sub_le _ _), ?_⟩
      have hadd : ss-left = rv+(ss-rv-left) := by omega
      dsimp only at hsent
      rw [hsent, Function.update_idem, Function.update_self, hadd, List.take_add, List.drop_drop,
        List.append_assoc]
    | stopped retry =>
      rw [hr] at h
      cases retry with
      | true => exact ih { s with sends := s.sends+1 } ss cp h
      | false =>
        obtain ⟨rfl,rfl⟩ := Prod.mk.inj (Option.some.inj (Option.some.inj h))
        refine ⟨rfl, rfl, le_rfl, ?_⟩
        rw [Nat.sub_self]
        exact hnone s.sent
    | killed =>
      rw [hr] at h
      exact absurd (Option.some.inj h) (by simp)

/-- The process ends in a `send` of the loop only. -/
theorem sendLoop_killed (fuel : ℕ) (s : Server) (ss cp : ℕ)
    (h : sendLoop sys buffer fd fuel s ss cp = some none) :
    ∃ n k, s.sends ≤ n ∧ 0 < k ∧ k ≤ ss ∧ sys.send n k = .killed := by
  induction fuel generalizing s ss cp with
  | zero => exact absurd h (by simp [sendLoop])
  | succ fuel ih =>
    rw [sendLoop] at h
    by_cases hz : ss = 0
    · rw [if_pos hz] at h
      exact absurd (Option.some.inj h) (by simp)
    rw [if_neg hz] at h
    dsimp only at h
    cases hr : sys.send s.sends ss with
    | sent rv =>
      rw [hr] at h
      obtain ⟨n,k,hn,hpos,hk,hkill⟩ := ih _ _ _ h
      exact ⟨n, k, (Nat.le_succ _).trans hn, hpos, hk.trans (Nat.sub_le _ _), hkill⟩
    | stopped retry =>
      rw [hr] at h
      cases retry with
      | true =>
        obtain ⟨n,k,hn,hrest⟩ := ih { s with sends := s.sends+1 } ss cp h
        exact ⟨n, k, (Nat.le_succ _).trans hn, hrest⟩
      | false => exact absurd (Option.some.inj h) (by simp)
    | killed => exact ⟨s.sends, ss, le_rfl, Nat.pos_of_ne_zero hz, le_rfl, hr⟩

/-- The loop ends if the system does not put it off for ever. -/
theorem sendLoop_returns (hsys : ∀ n, ∃ m, n ≤ m ∧ ∀ ss, sys.send m ss ≠ .stopped true)
    (ss cp : ℕ) (s : Server) : ∃ fuel r, sendLoop sys buffer fd fuel s ss cp = some r := by
  induction ss using Nat.strong_induction_on generalizing s cp with
  | _ ss ih =>
    by_cases hz : ss = 0
    · refine ⟨1, some (s,ss), ?_⟩
      rw [sendLoop, if_pos hz]
    obtain ⟨m,hm,hstop⟩ := hsys s.sends
    obtain ⟨k,hk⟩ := Nat.exists_eq_add_of_le hm
    clear hm
    -- at the latest, the m-th call does not ask to try again
    induction k using Nat.strong_induction_on generalizing s with
    | _ k ihk =>
      cases hr : sys.send s.sends ss with
      | sent rv =>
        obtain ⟨hpos,hle⟩ := sys.send_bound _ _ _ hr
        obtain ⟨fuel,r,hloop⟩ := ih (ss-rv) (by omega) (cp+rv) { s with
          sends := s.sends+1
          sent := Function.update s.sent fd (s.sent fd ++ (buffer.drop cp).take rv) }
        refine ⟨fuel+1, r, ?_⟩
        rw [sendLoop, if_neg hz, hr]
        exact hloop
      | stopped retry =>
        cases retry with
        | true =>
          have hk0 : k ≠ 0 := by
            rintro rfl
            rw [hk] at hstop
            exact hstop ss hr
          obtain ⟨fuel,r,hloop⟩ := ihk (k-1) (by omega) { s with sends := s.sends+1 }
            (hk.trans (by dsimp only; omega))
          refine ⟨fuel+1, r, ?_⟩
          rw [sendLoop, if_neg hz, hr]
          exact hloop
        | false =>
          refine ⟨1, some ({ s with sends := s.sends+1 },ss), ?_⟩
          rw [sendLoop, if_neg hz, hr]
      | killed =>
        refine ⟨1, none, ?_⟩
        rw [sendLoop, if_neg hz, hr]

/-- And does not while the system puts it off. -/
theorem sendLoop_spins (fuel ss cp : ℕ) (s : Server) (hss : ss ≠ 0)
    (hsys : ∀ n, s.sends ≤ n → sys.send n ss = .stopped true) :
    sendLoop sys buffer fd fuel s ss cp = none := by
  induction fuel generalizing s with
  | zero => rfl
  | succ fuel ih =>
    rw [sendLoop, if_neg hss, hsys s.sends le_rfl]
    apply ih
    exact fun n hn => hsys n ((Nat.le_succ _).trans hn)

/-- `non_block_send` sends a part of the buffer from its beginning, to this descriptor only, and
returns 0 exactly if it sent all of it. It comes to an end if the system does not put it off for
ever, by returning unless a `send` to a peer that is gone ends the process; and while the system puts
it off, the whole server waits. -/
theorem nonBlockSend_spec (s : Server) (totalSize : ℕ) :
    (∀ fuel s' r, nonBlockSend sys fuel s fd buffer totalSize = some (some (s',r)) →
      ∃ k, k ≤ totalSize ∧ s'.sent = Function.update s.sent fd (s.sent fd ++ buffer.take k) ∧
        (r = 0 ∨ r = -1) ∧ (r = 0 ↔ k = totalSize)) ∧
    ((∀ n, ∃ m, n ≤ m ∧ ∀ ss, sys.send m ss ≠ .stopped true) →
      ∃ fuel r, nonBlockSend sys fuel s fd buffer totalSize = some r) ∧
    (∀ fuel, nonBlockSend sys fuel s fd buffer totalSize = some none →
      ∃ n k, s.sends ≤ n ∧ 0 < k ∧ k ≤ totalSize ∧ sys.send n k = .killed) ∧
    (totalSize ≠ 0 → (∀ n, s.sends ≤ n → sys.send n totalSize = .stopped true) →
      ∀ fuel, nonBlockSend sys fuel s fd buffer totalSize = none) := by
  refine ⟨?_, ?_, ?_, ?_⟩
  · intro fuel s' r h
    obtain ⟨ended,hloop,hq⟩ := Option.map_eq_some_iff.mp h
    obtain ⟨⟨q,left⟩,rfl,he⟩ := Option.map_eq_some_iff.mp hq
    obtain ⟨rfl,rfl⟩ := Prod.mk.inj he
    obtain ⟨-,-,hle,hsent⟩ := sendLoop_spec sys buffer fd fuel s q totalSize 0 left hloop
    rw [List.drop_zero] at hsent
    refine ⟨totalSize-left, Nat.sub_le _ _, hsent, ?_, ?_⟩
    · dsimp only
      split_ifs
      · exact Or.inl rfl
      · exact Or.inr rfl
    · dsimp only
      split_ifs with hz
      · exact iff_of_true rfl (by omega)
      · exact iff_of_false (by decide) (by omega)
  · intro hsys
    obtain ⟨fuel,r,hloop⟩ := sendLoop_returns sys buffer fd hsys totalSize 0 s
    exact ⟨fuel, _, congrArg (Option.map _) hloop⟩
  · intro fuel h
    obtain ⟨ended,hloop,hq⟩ := Option.map_eq_some_iff.mp h
    rw [Option.map_eq_none_iff.mp hq] at hloop
    exact sendLoop_killed sys buffer fd fuel s totalSize 0 hloop
  · intro hss hsys fuel
    rw [nonBlockSend, sendLoop_spins sys buffer fd fuel totalSize 0 s hss hsys, Option.map_none]

end send

/-- `main` up to `aeMain`: `init_server` has opened `server_fd`, and nothing has been sent yet. -/
def startServer (env : Environment) (events : ℕ → AeFileEvent) (kernel : Kernel)
    (status : ℕ → UInt32) (serverFd : ℕ) : World Server :=
  (aeCreateFileEvent env (aeCreateEventLoop events kernel ⟨0,0,0,0,status,fun _ => [],[]⟩)
    serverFd aeReadable acceptHandlerProc 0).1

/-- The invariant of the server: what is registered, and what is open. -/
structure Serving (env : Environment) (initial : ℕ → Bool) (serverFd : ℕ) (w : World Server) :
    Prop where
  registered : Registered w
  masks : ∀ fd, (w.events fd).mask = aeNone ∨ (w.events fd).mask = aeReadable
  listening : (w.events serverFd).mask ≠ aeNone → (w.events serverFd).rfileProc = acceptHandlerProc
  clients : ∀ fd, fd ≠ serverFd → (w.events fd).mask ≠ aeNone →
    (w.events fd).rfileProc = driveMachineProc ∧ initial fd = false ∧ fd ∉ w.app.forgotten ∧
      w.app.status fd = oRdwr ||| oNonblock
  opened : ∀ fd, w.kernel.opened fd = true ↔
    initial fd = true ∨ (w.events fd).mask ≠ aeNone ∨ fd ∈ w.app.forgotten
  forgotten : ∀ fd ∈ w.app.forgotten, aeSetsize ≤ fd ∨ ∃ n, env.addFails n = true
  timers : ∀ p, w.timers p = none

/-- A client has been accepted in `w`: in `v` its descriptor is open and set up, and not registered
yet. -/
structure Accepted (initial : ℕ → Bool) (w v : World Server) (client : ℕ) : Prop where
  unregistered : (w.events client).mask = aeNone
  initial : initial client = false
  forgotten : client ∉ w.app.forgotten
  kernel : v.kernel = w.kernel.openFd client
  eventLoop : v.eventLoop = w.eventLoop
  timers : v.timers = w.timers
  same : v.app.forgotten = w.app.forgotten
  others : ∀ fd, fd ≠ client → v.app.status fd = w.app.status fd
  status : v.app.status client = oRdwr ||| oNonblock

section serving
variable (sys : Sockets) (env : Environment) (initial : ℕ → Bool) (serverFd : ℕ) (w : World Server)
  (hw : Serving env initial serverFd w)
include hw

theorem Serving.congr (v : World Server) (hr : Registered v)
    (ho : v.kernel.opened = w.kernel.opened) (hl : v.eventLoop = w.eventLoop)
    (ht : v.timers = w.timers) (hf : v.app.forgotten = w.app.forgotten)
    (hs : ∀ fd, (w.events fd).mask ≠ aeNone → v.app.status fd = w.app.status fd) :
    Serving env initial serverFd v := by
  have he : v.events = w.events := congrArg AeEventLoop.events hl
  constructor
  · exact hr
  · rw [he]
    exact hw.masks
  · rw [he]
    exact hw.listening
  · intro fd hfd hm
    rw [he] at hm ⊢
    rw [hf, hs fd hm]
    exact hw.clients fd hfd hm
  · rw [ho, he, hf]
    exact hw.opened
  · rw [hf]
    exact hw.forgotten
  · rw [ht]
    exact hw.timers

/-- What the handlers keep for themselves is not looked at, but for the clients. -/
theorem Serving.setApp (s : Server) (hf : s.forgotten = w.app.forgotten)
    (hs : ∀ fd, (w.events fd).mask ≠ aeNone → s.status fd = w.app.status fd) :
    Serving env initial serverFd (w.setApp s) := by
  have hr : Registered (w.setApp s) := hw.registered.congr w _ rfl rfl rfl rfl
  exact hw.congr env initial serverFd w _ hr rfl rfl rfl hf hs

/-- The end of a connection. -/
theorem Serving.closeClient (fd : ℕ) (hfd : fd ≠ serverFd) (hm : (w.events fd).mask ≠ aeNone) :
    Serving env initial serverFd ((aeDeleteFileEvent w fd aeReadable).close fd) := by
  obtain ⟨-,hinit,hforgotten,-⟩ := hw.clients fd hfd hm
  have hread : (w.events fd).mask = aeReadable := (hw.masks fd).resolve_left hm
  have hrest : restMask w fd aeReadable = aeNone := by
    rw [restMask, hread]
    decide
  have hdel := hw.registered.delete w fd aeReadable
  have heq := aeDeleteFileEvent_eq w fd aeReadable (hw.registered.usable fd hm).1 hm
  have hself : ((aeDeleteFileEvent w fd aeReadable).events fd).mask = aeNone := by
    rw [heq]
    exact (congrArg AeFileEvent.mask (setEvents_self w fd _)).trans hrest
  have hother (j : ℕ) (hj : j ≠ fd) : (aeDeleteFileEvent w fd aeReadable).events j = w.events j := by
    rw [heq]
    exact setEvents_of_ne w fd _ j hj
  have happ : (aeDeleteFileEvent w fd aeReadable).app = w.app := by
    rw [heq]
    rfl
  have hopened : (aeDeleteFileEvent w fd aeReadable).kernel.opened = w.kernel.opened := by
    rw [heq]
    show (if w.kernel.entry fd = none then w.kernel else _).opened = _
    split_ifs
    · rfl
    · rfl
  have hsub (j : ℕ) (h : ((aeDeleteFileEvent w fd aeReadable).events j).mask ≠ aeNone) :
      j ≠ fd ∧ (w.events j).mask ≠ aeNone := by
    have hj : j ≠ fd := by
      rintro rfl
      exact h hself
    exact ⟨hj, hother j hj ▸ h⟩
  constructor
  · exact hdel.close _ fd hself
  · intro j
    show ((aeDeleteFileEvent w fd aeReadable).events j).mask = _ ∨ _
    by_cases hj : j = fd
    · rw [hj]
      exact Or.inl hself
    · have hold := hw.masks j
      rw [← hother j hj] at hold
      exact hold
  · show ((aeDeleteFileEvent w fd aeReadable).events serverFd).mask ≠ _ →
      ((aeDeleteFileEvent w fd aeReadable).events serverFd).rfileProc = _
    rw [hother serverFd hfd.symm]
    exact hw.listening
  · intro j hj hjm
    have hjold := hsub j hjm
    show ((aeDeleteFileEvent w fd aeReadable).events j).rfileProc = _ ∧ _ ∧
      j ∉ (aeDeleteFileEvent w fd aeReadable).app.forgotten ∧
      (aeDeleteFileEvent w fd aeReadable).app.status j = _
    rw [hother j hjold.1, happ]
    exact hw.clients j hj hjold.2
  · intro j
    show ((aeDeleteFileEvent w fd aeReadable).kernel.close fd).opened j = true ↔
      _ ∨ ((aeDeleteFileEvent w fd aeReadable).events j).mask ≠ _ ∨
        j ∈ (aeDeleteFileEvent w fd aeReadable).app.forgotten
    rw [happ]
    by_cases hj : j = fd
    · rw [hj, Kernel.opened, Kernel.close_self, hself, hinit]
      simp [hforgotten]
    · rw [Kernel.opened, Kernel.close_of_ne fd _ j hj, ← Kernel.opened, hopened, hother j hj]
      exact hw.opened j
  · show ∀ j ∈ (aeDeleteFileEvent w fd aeReadable).app.forgotten, _
    rw [happ]
    exact hw.forgotten
  · intro p
    exact (congrFun (sameTimers_deleteFileEvent w fd aeReadable).1 p).trans (hw.timers p)

theorem Serving.driveMachine (v : World Server) (fuel fd : ℕ) (hfd : fd ≠ serverFd)
    (hm : (w.events fd).mask ≠ aeNone) (h : driveMachine sys fuel w fd = some v) :
    Serving env initial serverFd v := by
  have hset (s : Server) (hf : s.forgotten = w.app.forgotten) (hs : s.status = w.app.status) :
      Serving env initial serverFd (w.setApp s) :=
    hw.setApp env initial serverFd w s hf fun fd _ => congrFun hs fd
  unfold Ae.driveMachine at h
  dsimp only at h
  cases hr : sys.read w.app.reads with
  | again =>
    rw [hr] at h
    obtain rfl := Option.some.inj h
    exact hset _ rfl rfl
  | error =>
    rw [hr] at h
    obtain rfl := Option.some.inj h
    exact Serving.closeClient env initial serverFd _
      (hset { w.app with reads := w.app.reads+1 } rfl rfl) fd hfd hm
  | eof =>
    rw [hr] at h
    obtain rfl := Option.some.inj h
    exact Serving.closeClient env initial serverFd _
      (hset { w.app with reads := w.app.reads+1 } rfl rfl) fd hfd hm
  | bytes n =>
    rw [hr] at h
    obtain ⟨⟨s,r⟩,hsend,rfl⟩ := Option.map_eq_some_iff.mp h
    rw [Option.join_eq_some_iff] at hsend
    obtain ⟨ended,hloop,hq⟩ := Option.map_eq_some_iff.mp hsend
    obtain ⟨q,rfl,he⟩ := Option.map_eq_some_iff.mp hq
    obtain ⟨rfl,-⟩ := Prod.mk.inj he
    obtain ⟨hs,hf,-⟩ := sendLoop_spec sys say fd fuel _ q.1 2 0 q.2 hloop
    exact hset q.1 hf hs

omit hw in
theorem orFlag_cases (bit : UInt32) (s : Server) (fd : ℕ) : ∃ fcntls,
    orFlag sys bit s fd = ({ s with fcntls := fcntls },-1) ∨
    orFlag sys bit s fd = ({ s with
      fcntls := fcntls
      status := Function.update s.status fd (setfl (s.status fd) (s.status fd ||| bit)) },0) := by
  unfold orFlag
  split_ifs
  · exact ⟨_, Or.inl rfl⟩
  · exact ⟨_, Or.inl rfl⟩
  · exact ⟨_, Or.inr rfl⟩

section accepted
variable (client : ℕ) (v : World Server) (hv : Accepted initial w v client)
include hv

omit hw in
theorem Accepted.events : v.events = w.events := congrArg AeEventLoop.events hv.eventLoop

omit hw in
theorem Accepted.opened (j : ℕ) :
    v.kernel.opened j = true ↔ j = client ∨ w.kernel.opened j = true := by
  rw [hv.kernel, Kernel.opened, Kernel.openFd]
  by_cases hj : j = client
  · rw [hj, Kernel.attach_self]
    exact iff_of_true rfl (Or.inl rfl)
  · rw [Kernel.attach_of_ne client _ _ j hj]
    exact (or_iff_right hj).symm

theorem Accepted.registered : Registered v := by
  have hclosed : w.kernel.opened client = false := by
    rw [Bool.eq_false_iff]
    intro ho
    rcases (hw.opened client).mp ho with h | h | h
    · exact Bool.false_ne_true (hv.initial.symm.trans h)
    · exact h hv.unregistered
    · exact hv.forgotten h
  have hopen := hw.registered.attach w client w.kernel.nextFile hclosed
  apply hopen.congr _ v
  · exact congrArg Kernel.files hv.kernel
  · exact congrArg Kernel.interest hv.kernel
  · exact hv.events initial w client v
  · exact congrArg AeEventLoop.maxfd hv.eventLoop

/-- It could not be registered, and stays open for ever. -/
theorem Serving.forget (adds : ℕ) (hwhy : aeSetsize ≤ client ∨ ∃ n, env.addFails n = true) :
    Serving env initial serverFd ({ v with adds := adds }.setApp
      { v.app with forgotten := client :: v.app.forgotten }) := by
  have he := hv.events initial w client v
  constructor
  · exact (hv.registered env initial serverFd w hw client v).congr v _ rfl rfl rfl rfl
  · show ∀ j, (v.events j).mask = _ ∨ (v.events j).mask = _
    rw [he]
    exact hw.masks
  · show (v.events serverFd).mask ≠ _ → (v.events serverFd).rfileProc = _
    rw [he]
    exact hw.listening
  · intro j hj hjm
    have hjm' : (w.events j).mask ≠ aeNone := by
      rw [← he]
      exact hjm
    have hjc : j ≠ client := by
      rintro rfl
      exact hjm' hv.unregistered
    obtain ⟨hproc,hinit',hforgotten,hstat⟩ := hw.clients j hj hjm'
    refine ⟨?_, hinit', ?_, ?_⟩
    · show (v.events j).rfileProc = _
      rw [he]
      exact hproc
    · show j ∉ client :: v.app.forgotten
      rw [List.mem_cons, not_or, hv.same]
      exact ⟨hjc,hforgotten⟩
    · exact (hv.others j hjc).trans hstat
  · intro j
    show v.kernel.opened j = true ↔ _ ∨ (v.events j).mask ≠ _ ∨ j ∈ client :: v.app.forgotten
    rw [hv.opened initial w client v, hw.opened, he, hv.same, List.mem_cons]
    tauto
  · show ∀ j ∈ client :: v.app.forgotten, _
    rw [hv.same]
    intro j hj
    rcases List.mem_cons.mp hj with rfl | hj
    · exact hwhy
    · exact hw.forgotten j hj
  · intro p
    exact (congrFun hv.timers p).trans (hw.timers p)

/-- It is registered for reading. -/
theorem Serving.join (hne : client ≠ serverFd)
    (hok : (aeCreateFileEvent env v client aeReadable driveMachineProc 0).2 = aeOk) :
    Serving env initial serverFd
      (aeCreateFileEvent env v client aeReadable driveMachineProc 0).1 := by
  have he := hv.events initial w client v
  have hcreate := (hv.registered env initial serverFd w hw client v).create env v client aeReadable
    driveMachineProc 0 (by decide)
  obtain ⟨herr,-⟩ | ⟨-,-,-,adds,h1⟩ :=
    aeCreateFileEvent_cases env v client aeReadable driveMachineProc 0
  · rw [herr] at hok
    exact absurd hok (by decide)
  rw [h1] at hcreate ⊢
  have hvm : (v.events client).mask = aeNone := by
    rw [he]
    exact hv.unregistered
  generalize hu : (World.setEvents { v with
    adds := adds
    kernel := v.kernel.setEntry client (some (epollEvents (aeReadable ||| (v.events client).mask))) }
      client ((v.events client).add aeReadable driveMachineProc 0)).setMaxfd
        (max v.eventLoop.maxfd client) = u at *
  have hself : u.events client = (v.events client).add aeReadable driveMachineProc 0 := by
    rw [← hu]
    exact setEvents_self _ client _
  have hother (j : ℕ) (hj : j ≠ client) : u.events j = w.events j := by
    rw [← hu, ← he]
    exact setEvents_of_ne _ client _ j hj
  have hmask : (u.events client).mask = aeReadable := by
    rw [hself]
    show (v.events client).mask ||| aeReadable = aeReadable
    rw [hvm]
    decide
  have happ : u.app = v.app := by
    rw [← hu]
    rfl
  have hopen : u.kernel.opened = v.kernel.opened := by
    rw [← hu]
    rfl
  constructor
  · exact hcreate
  · intro j
    by_cases hj : j = client
    · rw [hj]
      exact Or.inr hmask
    · rw [hother j hj]
      exact hw.masks j
  · rw [hother serverFd hne.symm]
    exact hw.listening
  · intro j hj hjm
    rw [happ, hv.same]
    by_cases hjc : j = client
    · rw [hjc, hself]
      exact ⟨rfl, hv.initial, hv.forgotten, hv.status⟩
    · rw [hother j hjc] at hjm ⊢
      rw [hv.others j hjc]
      exact hw.clients j hj hjm
  · intro j
    rw [hopen, hv.opened initial w client v, happ, hv.same, hw.opened]
    by_cases hjc : j = client
    · rw [hjc, hmask]
      exact iff_of_true (Or.inl rfl) (Or.inr (Or.inl (by decide)))
    · rw [hother j hjc]
      exact or_iff_right hjc
  · rw [happ, hv.same]
    exact hw.forgotten
  · intro p
    have ht : u.timers = v.timers := by
      rw [← hu]
      rfl
    rw [ht, hv.timers]
    exact hw.timers p

theorem Serving.registerClient (hne : client ≠ serverFd) :
    Serving env initial serverFd (registerClient env v client) := by
  have hvm : (v.events client).mask = aeNone := by
    rw [hv.events initial w client v]
    exact hv.unregistered
  unfold Ae.registerClient
  dsimp only
  by_cases hok : (aeCreateFileEvent env v client aeReadable driveMachineProc 0).2 = aeOk
  · rw [if_pos hok]
    exact hw.join env initial serverFd w client v hv hne hok
  · rw [if_neg hok]
    obtain ⟨-,adds,h1⟩ | ⟨hok',-⟩ :=
      aeCreateFileEvent_cases env v client aeReadable driveMachineProc 0
    · rw [h1]
      apply hw.forget env initial serverFd w client v hv adds
      -- an open descriptor that epoll does not know is refused for its number, or by the system
      rw [aeCreateFileEvent_succeeds, aeApiAddEvent_succeeds, if_pos hvm, not_and_or] at hok
      rcases hok with hbig | hadd
      · exact Or.inl (not_lt.mp hbig)
      · refine Or.inr ⟨v.adds, Bool.eq_true_of_not_eq_false fun hz => hadd ⟨?_, ?_, hz⟩⟩
        · exact (hv.opened initial w client v client).mpr (Or.inl rfl)
        · rw [(hv.registered env initial serverFd w hw client v).entry, if_pos hvm]
    · exact absurd hok' hok

end accepted

/-- A client whose descriptor is new. -/
theorem Serving.acceptClient (client : ℕ) (hfree : w.kernel.opened client = false)
    (hserver : initial serverFd = true) :
    Serving env initial serverFd (acceptClient sys env w client) := by
  have hno := (not_congr (hw.opened client)).mp (Bool.eq_false_iff.mp hfree)
  rw [not_or, not_or, not_not] at hno
  obtain ⟨hinit,hm,hout⟩ := hno
  have hinit' : initial client = false := Bool.eq_false_iff.mpr hinit
  have hne : client ≠ serverFd := by
    rintro rfl
    exact hinit hserver
  -- the descriptor is closed again, and all is as before
  have hback (s : Server) (hf : s.forgotten = w.app.forgotten)
      (hs : ∀ fd, fd ≠ client → s.status fd = w.app.status fd) : Serving env initial serverFd
        (World.close { w with kernel := w.kernel.openFd client, app := s } client) := by
    have hopen : Registered { w with kernel := w.kernel.openFd client } :=
      hw.registered.attach w client w.kernel.nextFile hfree
    have hclose := (hopen.close _ client hm).congr _
      (World.close { w with kernel := w.kernel.openFd client, app := s } client) rfl rfl rfl rfl
    refine hw.congr env initial serverFd w _ hclose ?_ rfl rfl hf ?_
    rotate_left
    · intro fd hfd
      apply hs fd
      rintro rfl
      exact hfd hm
    · ext1 fd
      show ((w.kernel.openFd client).close client).opened fd = w.kernel.opened fd
      by_cases hfd : fd = client
      · rw [hfd, hfree, Kernel.opened, Kernel.close_self]
        rfl
      · rw [Kernel.opened, Kernel.close_of_ne client _ fd hfd, Kernel.openFd,
          Kernel.attach_of_ne client _ _ fd hfd, Kernel.opened]
  have hself : (newClient w.app client).status client = oRdwr := Function.update_self ..
  have hother (fd : ℕ) (hfd : fd ≠ client) : (newClient w.app client).status fd = w.app.status fd :=
    Function.update_of_ne hfd _ _
  unfold Ae.acceptClient setNonblocking setClosexec
  dsimp only
  obtain ⟨f1,h1 | h1⟩ := orFlag_cases sys oNonblock (newClient w.app client) client
  · rw [h1, if_pos rfl]
    exact hback _ rfl hother
  rw [h1, if_neg (show ¬ (0 : ℤ) = -1 by decide)]
  dsimp only
  generalize hs1 : { newClient w.app client with
    fcntls := f1
    status := Function.update (newClient w.app client).status client
      (setfl ((newClient w.app client).status client)
        ((newClient w.app client).status client ||| oNonblock)) } = s1
  have hf1 : s1.forgotten = w.app.forgotten := by
    rw [← hs1]
    rfl
  have hself1 : s1.status client = oRdwr ||| oNonblock := by
    rw [← hs1]
    show Function.update _ client _ client = _
    rw [Function.update_self, hself]
    decide
  have hother1 (fd : ℕ) (hfd : fd ≠ client) : s1.status fd = w.app.status fd := by
    rw [← hs1]
    exact (Function.update_of_ne hfd _ _).trans (hother fd hfd)
  obtain ⟨f2,h2 | h2⟩ := orFlag_cases sys fdCloexec s1 client
  · rw [h2, if_pos rfl]
    exact hback _ hf1 hother1
  rw [h2, if_neg (show ¬ (0 : ℤ) = -1 by decide)]
  apply hw.registerClient env initial serverFd w client _ _ hne
  refine ⟨hm, hinit', hout, rfl, rfl, rfl, hf1, ?_, ?_⟩
  · exact fun fd hfd => (Function.update_of_ne hfd _ _).trans (hother1 fd hfd)
  -- `F_SETFL` does not change the bit of `FD_CLOEXEC`
  · show Function.update _ client _ client = _
    rw [Function.update_self, hself1]
    decide

theorem Serving.acceptHandler (hserver : initial serverFd = true) :
    Serving env initial serverFd (acceptHandler sys env w) := by
  have hset : Serving env initial serverFd
      (w.setApp { w.app with accepts := w.app.accepts+1 }) :=
    hw.setApp env initial serverFd w _ rfl fun _ _ => rfl
  unfold Ae.acceptHandler
  dsimp only
  cases ha : sys.accept w.app.accepts w.kernel with
  | none => exact hset
  | some client =>
    exact hset.acceptClient sys env initial serverFd _ client (sys.accept_free _ _ _ ha) hserver

end serving

/-- The handlers keep the invariant: each of them is called for its own descriptors only. -/
theorem serving_keeps (sys : Sockets) (env : Environment) (fuel : ℕ) (initial : ℕ → Bool)
    (serverFd : ℕ) (hserver : initial serverFd = true) :
    Keeps env (server sys env fuel) (Serving env initial serverFd) where
  tick := fun w hw => by
    have hreg := hw.registered.congr w w.tick rfl rfl rfl rfl
    exact hw.congr env initial serverFd w w.tick hreg rfl rfl rfl rfl fun _ _ => rfl
  start := fun w hw => by
    have hreg := hw.registered.congr w { w with eventLoop := { w.eventLoop with stop := false } }
      rfl rfl rfl rfl
    exact ⟨hreg, hw.masks, hw.listening, hw.clients, hw.opened, hw.forgotten, hw.timers⟩
  fileProc := by
    rintro proc w fd clientData mask v hw ⟨-,hwatch⟩ h
    have hm : (w.events fd).mask ≠ aeNone := by
      intro hz
      rw [hz] at hwatch
      rcases hwatch with ⟨hne,-⟩ | ⟨hne,-⟩
      · exact hne (by decide)
      · exact hne (by decide)
    have hread : (w.events fd).mask = aeReadable := (hw.masks fd).resolve_left hm
    have hproc : proc = (w.events fd).rfileProc := by
      rcases hwatch with ⟨-,hp⟩ | ⟨hne,-⟩
      · exact hp
      · rw [hread] at hne
        exact absurd (by decide) hne
    unfold server at h
    dsimp only at h
    by_cases hfd : fd = serverFd
    · subst hfd
      rw [if_pos (hproc.trans (hw.listening hm))] at h
      obtain rfl := Option.some.inj h
      exact hw.acceptHandler sys env initial fd w hserver
    · have hdrive : proc ≠ acceptHandlerProc := by
        rw [hproc, (hw.clients fd hfd hm).1]
        decide
      rw [if_neg hdrive] at h
      exact hw.driveMachine sys env initial serverFd w v fuel fd hfd hm h
  timeProc := by
    intro w te cell v retval u hw hcell
    rw [hw.timers te] at hcell
    exact absurd hcell (by simp)
  beforesleep := by
    intro proc w v hw h
    obtain rfl := Option.some.inj h
    exact hw

/-- At the start the server listens, or is deaf. -/
theorem serving_start (env : Environment) (events : ℕ → AeFileEvent) (kernel : Kernel)
    (status : ℕ → UInt32) (serverFd : ℕ) (hserver : kernel.opened serverFd = true) :
    Serving env kernel.opened serverFd (startServer env events kernel status serverFd) := by
  have hreg : Registered (startServer env events kernel status serverFd) :=
    (registered_create events _ _).create env _ serverFd aeReadable acceptHandlerProc 0 (by decide)
  unfold startServer at hreg ⊢
  generalize hw : aeCreateEventLoop events kernel
    (⟨0,0,0,0,status,fun _ => [],[]⟩ : Server) = w at hreg ⊢
  have hnone (fd : ℕ) : (w.events fd).mask = aeNone := by
    rw [← hw]
    rfl
  have hopened (fd : ℕ) : w.kernel.opened fd = kernel.opened fd := by
    rw [← hw]
    rfl
  have hforgotten : w.app.forgotten = [] := by
    rw [← hw]
    rfl
  have htimers (p : ℕ) : w.timers p = none := by
    rw [← hw]
    rfl
  obtain ⟨-,adds,h1⟩ | ⟨-,-,-,adds,h1⟩ :=
    aeCreateFileEvent_cases env w serverFd aeReadable acceptHandlerProc 0
  · rw [h1] at hreg ⊢
    constructor
    · exact hreg
    · exact fun fd => Or.inl (hnone fd)
    · exact fun hm => absurd (hnone serverFd) hm
    · exact fun fd _ hm => absurd (hnone fd) hm
    · intro fd
      show w.kernel.opened fd = true ↔ _ ∨ (w.events fd).mask ≠ _ ∨ fd ∈ w.app.forgotten
      rw [hopened, hnone, hforgotten]
      simp
    · show ∀ fd ∈ w.app.forgotten, _
      rw [hforgotten]
      simp
    · exact htimers
  · rw [h1] at hreg ⊢
    have hself := setEvents_self w serverFd ((w.events serverFd).add aeReadable acceptHandlerProc 0)
    have hother := setEvents_of_ne w serverFd
      ((w.events serverFd).add aeReadable acceptHandlerProc 0)
    constructor
    · exact hreg
    · intro fd
      show ((w.setEvents serverFd _).events fd).mask = _ ∨ ((w.setEvents serverFd _).events fd).mask = _
      by_cases hfd : fd = serverFd
      · rw [hfd, hself]
        refine Or.inr ?_
        show (w.events serverFd).mask ||| aeReadable = aeReadable
        rw [hnone]
        decide
      · rw [hother fd hfd]
        exact Or.inl (hnone fd)
    · intro _
      exact congrArg AeFileEvent.rfileProc hself
    · intro fd hfd hm
      change ((w.setEvents serverFd _).events fd).mask ≠ _ at hm
      rw [hother fd hfd] at hm
      exact absurd (hnone fd) hm
    · intro fd
      show w.kernel.opened fd = true ↔
        _ ∨ ((w.setEvents serverFd _).events fd).mask ≠ _ ∨ fd ∈ w.app.forgotten
      rw [hopened, hforgotten]
      by_cases hfd : fd = serverFd
      · rw [hfd, hserver]
        exact iff_of_true rfl (Or.inl rfl)
      · rw [hother fd hfd, hnone]
        simp
    · show ∀ fd ∈ w.app.forgotten, _
      rw [hforgotten]
      simp
    · exact htimers

/-- In every run of the server, the open descriptors are those it began with, the registered
clients, which do not block, and the clients that `aeCreateFileEvent` refused: these stay open for
ever. -/
theorem server_descriptors (sys : Sockets) (env : Environment) (fuel : ℕ)
    (events : ℕ → AeFileEvent) (kernel : Kernel) (status : ℕ → UInt32) (serverFd : ℕ)
    (hserver : kernel.opened serverFd = true) (polled : List (List EpollEvent)) (w : World Server)
    (ended : Bool) (h : aeMain env (server sys env fuel) fuel
      (startServer env events kernel status serverFd) polled = some (w,ended)) :
    Serving env kernel.opened serverFd w :=
  (serving_keeps sys env fuel kernel.opened serverFd hserver).main env _ _ fuel _ w polled ended
    (serving_start env events kernel status serverFd hserver) h

/-- One client connects, as descriptor 5, and says something; the answer goes out byte by byte. -/
def oneClient : Sockets where
  accept := fun _ k => if k.opened 5 = false then some 5 else none
  accept_free := by
    intro n k fd h
    split_ifs at h with ho
    obtain rfl := Option.some.inj h
    exact ho
  fcntlFails := fun _ => false
  read := fun _ => .bytes 1
  send := fun _ ss => if ss = 0 then .stopped false else .sent 1
  send_bound := by
    intro n ss k h
    split_ifs at h with hz
    obtain rfl := SendResult.sent.inj h
    exact ⟨Nat.one_pos, Nat.pos_of_ne_zero hz⟩

/-- The first descriptors. -/
def fiveOpen : Kernel := [0,1,2,3,4].foldl Kernel.openFd Kernel.empty

/-- The server with its first descriptors. -/
def startFive : World Server :=
  startServer still (fun _ => ⟨aeNone,0,0,0⟩) fiveOpen (fun _ => oRdwr) 3

theorem serving_oneClient :
    let w := ((aeMain still (server oneClient still 3) 3 startFive
      [[⟨3,⟨true,false⟩⟩],[⟨5,⟨true,false⟩⟩]]).getD (startFive,true)).1
    w.app.sent 5 = say ∧ Serving still fiveOpen.opened 3 w :=
  ⟨rfl, server_descriptors oneClient still 3 (fun _ => ⟨aeNone,0,0,0⟩) fiveOpen
    (fun _ => oRdwr) 3 rfl [[⟨3,⟨true,false⟩⟩],[⟨5,⟨true,false⟩⟩]] _ false rfl⟩

end Cclab.Ae
