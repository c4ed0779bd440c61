import Cclab.HttpTotal
import Cclab.HttpInput
import Cclab.TcpConnection

/-! The reads of a connection that `HttpServer` accepted: `OnNewConnection` starts one, and the
handlers of the completions decide whether another one follows. -/
namespace Cclab.HttpServer
open ByteMemory Iobuf NodeHeap OperationRuns TcpServer
open Cclab.HttpParser (Parser Call httpParserInit httpParserExecute ascii Sane sane_init execute_total
  execute_cases)

/-- A connection with its `HttpContext`. `reads` counts the calls of `async_read_some` whose
handler has not been called. -/
structure Connection where
  tcp : TcpConnection
  reads : ℕ
  closed : Bool
  context : HttpContext
  parser : Parser
  store : Store
  inputBuffer : IOBuf

/-- `TcpConnection::AsyncRead`. -/
def Connection.asyncRead (c : Connection) : Connection := { c with reads := c.reads+1 }

/-- The connection that `HandleAccept` creates, with the context of `CreateHttpContext`. -/
def Connection.create (b : Mem) (mem : ℕ → Mem) (httpMethod : UInt8) (contentLength : UInt64) :
    Connection where
  tcp := .fresh b
  reads := 0
  closed := false
  context := .create httpMethod contentLength
  parser := httpParserInit
  store := (startInput mem).1
  inputBuffer := (startInput mem).2

def Connection.onNewConnection (c : Connection) : Connection := c.asyncRead

/-- The parser on a message in memory, with the callbacks it makes unless an assertion fails. -/
def executeAt (parser : Parser) (mem : Mem) (data len : ℕ) : Option (Parser × List Call) × ℕ :=
  match httpParserExecute (mem (data+len)) parser (load mem data len) with
  | none => (none,0)
  | some r => (some (r.1,r.2.1.map Prod.fst),r.2.2)

section server
variable (response : Bytes)

/-- `OnComplete` writes the response; the other handlers of `HttpContext` do nothing. -/
def onCallback (tcp : TcpConnection) : Call → Option TcpConnection
  | .messageComplete _ => tcp.asyncWrite response
  | _ => some tcp

/-- `HttpServer::OnMessage`. -/
def Connection.onMessage (c : Connection) (msg : Bytes) : Option Connection := do
  let (store,inputBuffer,parsed) ← parse (executeAt c.parser) c.store c.inputBuffer msg
  match parsed with
  | none => return { c with store := store, inputBuffer := inputBuffer }
  | some result =>
    let (parser,calls) ← result
    let tcp ← calls.foldlM (onCallback response) c.tcp
    return { c with
      tcp := tcp
      context := c.context.run (calls.map Call.callback)
      parser := parser
      store := store
      inputBuffer := inputBuffer }

/-- `TcpServer::OnConnectionError`. -/
def Connection.onConnectionError (c : Connection) : Connection := { c with closed := true }

/-- The completions, with whether there is an error. -/
inductive Completion where
  | read (ec : Bool) (msg : Bytes)
  | write (ec : Bool) (bytes : ℕ)

def Completion.failed : Completion → Bool
  | .read ec _ | .write ec _ => ec

def Completion.isRead : Completion → Bool
  | .read _ _ => true
  | .write _ _ => false

/-- `OnRead` and `OnWrite`. A read that completes without an error has some bytes, which fit
`read_buffer_`. -/
def Connection.step (c : Connection) : Completion → Option Connection
  | .read ec msg =>
    if c.reads = 0 then none
    else
      let c := { c with reads := c.reads-1 }
      if ec then some c.onConnectionError
      else if 0 < msg.length ∧ msg.length ≤ maxMsg then c.onMessage response msg
      else none
  | .write ec bytes =>
    if ec then
      match c.tcp.started with
      | [] => none
      | _ :: rest => some { c with tcp := { c.tcp with started := rest } }.onConnectionError
    else (c.tcp.writeSome bytes).map fun tcp => { c with tcp := tcp }

/-- Behind each of the completions the connection is closed or a read is outstanding. -/
def KeepsListening (c : Connection) (es : List Completion) : Prop :=
  ∀ before after c', es = before ++ after → before.foldlM (Connection.step response) c = some c' →
    c'.closed = false → 1 ≤ c'.reads

end server

/-- No read completes without an error before the connection is closed. -/
def NoReadCompletes (es : List Completion) : Prop :=
  ∀ before msg after, es = before ++ .read false msg :: after → ∃ e ∈ before, e.failed = true

section server
variable (response : Bytes)

/-- The message handler of `HttpServer` starts no read. -/
theorem onMessage_reads (c c' : Connection) (msg : Bytes) (h : c.onMessage response msg = some c') :
    c'.reads = c.reads ∧ c'.closed = c.closed := by
  rcases Option.bind_eq_some_iff.mp h with ⟨⟨store,inputBuffer,parsed⟩,-,hrest⟩
  cases parsed with
  | none =>
    obtain rfl := Option.some.inj hrest
    exact ⟨rfl,rfl⟩
  | some result =>
    rcases Option.bind_eq_some_iff.mp hrest with ⟨⟨parser,calls⟩,-,hcalls⟩
    rcases Option.bind_eq_some_iff.mp hcalls with ⟨tcp,-,hdone⟩
    obtain rfl := Option.some.inj hdone
    exact ⟨rfl,rfl⟩

/-- A completed read is one less, and nothing makes up for it. -/
theorem step_reads (c c' : Connection) (e : Completion) (h : c.step response e = some c') :
    c'.reads+[e].countP Completion.isRead = c.reads ∧ c'.closed = (c.closed || e.failed) := by
  cases e with
  | read ec msg =>
    have hcount : [Completion.read ec msg].countP Completion.isRead = 1 := rfl
    unfold Connection.step at h
    dsimp only at h
    by_cases hzero : c.reads = 0
    · rw [if_pos hzero] at h
      exact absurd h (by simp)
    rw [if_neg hzero] at h
    have hreads : c.reads-1+1 = c.reads := Nat.succ_pred_eq_of_pos (Nat.pos_of_ne_zero hzero)
    rw [hcount]
    -- a failed read closes the connection, another one is handed to the server
    cases ec with
    | true =>
      obtain rfl := Option.some.inj h
      exact ⟨hreads, (Bool.or_true c.closed).symm⟩
    | false =>
      rw [if_neg (by decide)] at h
      split_ifs at h
      rcases onMessage_reads response _ c' msg h with ⟨hr,hc⟩
      rw [hr, hc]
      exact ⟨hreads, (Bool.or_false c.closed).symm⟩
  -- a completed write touches no read, whether it failed or not
  | write ec bytes =>
    unfold Connection.step at h
    dsimp only at h
    cases ec with
    | true =>
      rw [if_pos rfl] at h
      cases hs : c.tcp.started with
      | nil =>
        rw [hs] at h
        exact absurd h (by simp)
      | cons size rest =>
        rw [hs] at h
        obtain rfl := Option.some.inj h
        exact ⟨rfl, (Bool.or_true c.closed).symm⟩
    | false =>
      rw [if_neg (by decide)] at h
      rcases Option.map_eq_some_iff.mp h with ⟨tcp,-,rfl⟩
      exact ⟨rfl, (Bool.or_false c.closed).symm⟩

/-- No assertion of the parser fails, and `input_buffer_` is one that its operations built. -/
def Serving (c : Connection) : Prop :=
  Sane c.parser ∧ ∃ l, Sound c.store (l ++ []) ∧ Holds c.store c.inputBuffer l

theorem serving_create (b : Mem) (mem : ℕ → Mem) (httpMethod : UInt8) (contentLength : UInt64) :
    Serving (Connection.create b mem httpMethod contentLength).onNewConnection := by
  rcases waits_start mem with ⟨l,hs,hb,-,-⟩
  exact ⟨sane_init, l, hs, hb⟩

/-- The parser returns on every message and parses no more than all of it. -/
theorem executeAt_returns (parser : Parser) (mem : Mem) (data len : ℕ) (h : Sane parser) :
    (∃ r, (executeAt parser mem data len).1 = some r ∧ Sane r.1) ∧
      (0 < len → (executeAt parser mem data len).2 ≤ len) := by
  rcases execute_total (mem (data+len)) parser (load mem data len) h with ⟨r,hr,hsane⟩
  unfold executeAt
  rw [hr]
  refine ⟨⟨_,rfl,hsane⟩, ?_⟩
  intro hlen
  have hlength : (load mem data len).length = len := load_length mem data len
  have hne : load mem data len ≠ [] := by
    intro he
    rw [he] at hlength
    exact absurd hlength (Nat.ne_of_lt hlen)
  rcases execute_cases _ parser _ r hr with ⟨-,-,hzero⟩ | ⟨hnil,-⟩ | ⟨-,q,-,rfl⟩
  · exact (hzero hne).trans_le (Nat.zero_le len)
  · exact absurd hnil hne
  · dsimp only
    rw [hlength]
    exact Nat.sub_le _ _

theorem onCallback_returns (tcp : TcpConnection) (calls : List Call) (h : response.length ≤ maxMsg) :
    ∃ tcp', calls.foldlM (onCallback response) tcp = some tcp' := by
  induction calls generalizing tcp with
  | nil => exact ⟨tcp,rfl⟩
  | cons c calls ih =>
    have hone : ∃ tcp1, onCallback response tcp c = some tcp1 := by
      cases c with
      | messageComplete parser => exact ⟨_, if_pos h⟩
      | _ => exact ⟨tcp,rfl⟩
    rcases hone with ⟨tcp1,h1⟩
    rcases ih tcp1 with ⟨tcp',h'⟩
    refine ⟨tcp', ?_⟩
    rw [List.foldlM_cons, h1]
    exact h'

/-- Every message is handled, whether or not `Parse` finds room for it. -/
theorem onMessage_returns (c : Connection) (msg : Bytes) (hresponse : response.length ≤ maxMsg)
    (hmsg : 0 < msg.length) (h : Serving c) :
    ∃ c', c.onMessage response msg = some c' ∧ Serving c' := by
  rcases h with ⟨hsane,l,hs,hb⟩
  unfold Connection.onMessage
  -- `Parse` finds room for the message or drops it
  by_cases hroom : msg.length ≤ roomOf c.store c.inputBuffer
  · rcases parse_spec (executeAt c.parser) c.store c.inputBuffer l [] msg hs hb hroom
      (fun mem data => (executeAt_returns c.parser mem data msg.length hsane).2 hmsg) with
      ⟨mem,data,store,inputBuffer,l',-,hparse,hs',hb',-⟩
    rcases (executeAt_returns c.parser mem data msg.length hsane).1 with ⟨⟨parser,calls⟩,hr,hsane'⟩
    rcases onCallback_returns response c.tcp calls hresponse with ⟨tcp,htcp⟩
    rw [hparse, hr]
    simp only [Option.bind_eq_bind, Option.bind_some, htcp]
    exact ⟨_, rfl, hsane', l', hs', hb'⟩
  · rcases parse_early_return (executeAt c.parser) c.store c.inputBuffer l [] msg hs hb
      (not_le.mp hroom) with ⟨store,inputBuffer,l',hparse,hs',hb',-⟩
    rw [hparse]
    exact ⟨_, rfl, hsane, l', hs', hb'⟩

/-- An outstanding read completes with every message that fits. -/
theorem read_returns (c : Connection) (msg : Bytes) (hresponse : response.length ≤ maxMsg)
    (hreads : 1 ≤ c.reads) (hmsg : 0 < msg.length ∧ msg.length ≤ maxMsg) (h : Serving c) :
    ∃ c', c.step response (.read false msg) = some c' ∧ Serving c' := by
  rcases onMessage_returns response { c with reads := c.reads-1 } msg hresponse hmsg.1 h with
    ⟨c',hc,hserving⟩
  refine ⟨c', ?_, hserving⟩
  unfold Connection.step
  dsimp only
  rw [if_neg (Nat.ne_of_gt hreads), if_neg (by decide), if_pos hmsg]
  exact hc

theorem run_reads (c c' : Connection) (es : List Completion)
    (h : es.foldlM (Connection.step response) c = some c') :
    c'.reads+es.countP Completion.isRead = c.reads ∧
      c'.closed = (c.closed || es.any Completion.failed) := by
  induction es generalizing c with
  | nil =>
    obtain rfl := Option.some.inj h
    exact ⟨rfl, (Bool.or_false _).symm⟩
  | cons e es ih =>
    rcases foldlM_cons_eq_some _ c c' e es h with ⟨c1,h1,h2⟩
    rcases step_reads response c c1 e h1 with ⟨hr,hc⟩
    rcases ih c1 h2 with ⟨hrs,hcs⟩
    have hcount : (e :: es).countP Completion.isRead =
        es.countP Completion.isRead+[e].countP Completion.isRead := by
      rw [List.countP_cons, List.countP_singleton]
    rw [hcount, ← Nat.add_assoc, hrs, hr, hcs, hc, List.any_cons, Bool.or_assoc]
    exact ⟨rfl,rfl⟩

/-- The connection listens until it is closed exactly if no read completes before: the handler
of the first one leaves no read outstanding. -/
theorem keeps_listening_iff (b : Mem) (mem : ℕ → Mem) (httpMethod : UInt8) (contentLength : UInt64)
    (es : List Completion) (c : Connection)
    (h : es.foldlM (Connection.step response)
      (Connection.create b mem httpMethod contentLength).onNewConnection = some c) :
    KeepsListening response (Connection.create b mem httpMethod contentLength).onNewConnection es ↔
      NoReadCompletes es := by
  constructor
  · intro hkeeps before msg after he
    by_contra hopen
    have hsplit : es = (before ++ [.read false msg]) ++ after := by
      rw [he, List.append_assoc, List.singleton_append]
    rw [hsplit] at h
    rcases foldlM_append_eq_some _ _ c _ after h with ⟨c',hc',-⟩
    -- behind this read the connection is open, and the one read that was started is over
    rcases run_reads response _ c' _ hc' with ⟨hr,hc⟩
    have hnone : (before ++ [Completion.read false msg]).any Completion.failed = false := by
      rw [List.any_append, List.any_eq_false.mpr fun e hmem hf => hopen ⟨e,hmem,hf⟩]
      rfl
    have hclosed : c'.closed = false := by
      rw [hc, hnone]
      rfl
    have hone := hkeeps _ after c' hsplit hc' hclosed
    rw [List.countP_append] at hr
    have hread : [Completion.read false msg].countP Completion.isRead = 1 := rfl
    have hstart : (Connection.create b mem httpMethod contentLength).onNewConnection.reads = 1 := rfl
    omega
  · intro hno before after c' he hc' hclosed
    rcases run_reads response _ c' before hc' with ⟨hr,hc⟩
    have hcount : before.countP Completion.isRead = 0 := by
      -- no completion has failed, so a read among them would break the condition
      rw [List.countP_eq_zero]
      intro e hmem hread
      have hfine : ∀ e ∈ before, e.failed = false := by
        rw [hclosed] at hc
        simpa using (Bool.or_eq_false_iff.mp hc.symm).2
      cases e with
      | write ec bytes => exact absurd hread (by simp [Completion.isRead])
      | read ec msg =>
        obtain rfl : ec = false := hfine _ hmem
        rcases List.append_of_mem hmem with ⟨front,back,rfl⟩
        rcases hno front msg (back ++ after) (by rw [he]; simp) with ⟨e,hin,hf⟩
        exact absurd (hfine e (List.mem_append_left _ hin)) (by rw [hf]; simp)
    rw [hcount] at hr
    exact Nat.le_of_eq hr.symm

end server

/-- What `HttpContext::OnComplete` writes. -/
def notFound : Bytes := ascii "HTTP/1.1 404 OK\r\nContent-Length: 0\r\n\r\n"

/-- A new connection with nothing in its memory. -/
def newConnection : Connection := (Connection.create (fun _ => 0) (fun _ _ => 0) 0 0).onNewConnection

theorem keeps_listening_iff_byte :
    ∃ c, [Completion.read false [71]].foldlM (Connection.step notFound) newConnection = some c ∧
      (KeepsListening notFound newConnection [.read false [71]] ↔
        NoReadCompletes [.read false [71]]) := by
  rcases read_returns notFound newConnection [71] (by decide) (by decide) (by decide)
    (serving_create _ _ _ _) with ⟨c,hc,-⟩
  have hrun : [Completion.read false [71]].foldlM (Connection.step notFound) newConnection =
      some c := by
    rw [List.foldlM_cons, hc]
    rfl
  exact ⟨c, hrun, keeps_listening_iff notFound _ _ 0 0 _ c hrun⟩

/-- The peer sends the first byte of a request, and the server hears no other byte of it. -/
theorem second_byte_unheard : ¬ ∀ (response : Bytes) (b : Mem) (mem : ℕ → Mem) (httpMethod : UInt8)
    (contentLength : UInt64) (es : List Completion) (c : Connection),
    (∀ e ∈ es, e.failed = false) →
    es.foldlM (Connection.step response)
      (Connection.create b mem httpMethod contentLength).onNewConnection = some c →
    c.closed = false → 1 ≤ c.reads := by
  intro h
  rcases read_returns notFound newConnection [71] (by decide) (by decide) (by decide)
    (serving_create _ _ _ _) with ⟨c,hc,-⟩
  rcases step_reads notFound newConnection c _ hc with ⟨hreads,hclosed⟩
  have hrun : [Completion.read false [71]].foldlM (Connection.step notFound) newConnection =
      some c := by
    rw [List.foldlM_cons, hc]
    rfl
  have hone := h notFound _ _ 0 0 _ c (by simp [Completion.failed]) hrun hclosed
  have hcount : [Completion.read false [71]].countP Completion.isRead = 1 := rfl
  have hstart : newConnection.reads = 1 := rfl
  omega

end Cclab.HttpServer
