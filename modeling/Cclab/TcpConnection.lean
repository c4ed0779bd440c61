import Cclab.ByteMemory
import Cclab.OperationRuns

/-! `TcpConnection` of `httpserver/tcp_server.cc`. All writes of a connection share one
buffer, and a write operation sends what the buffer holds when the operation runs. -/
namespace Cclab.TcpServer
open ByteMemory OperationRuns

def maxMsg : ℕ := 4096

/-- `started` are the sizes of the write operations that have not run, oldest first, as
the socket runs them in order; `transmitted` is all that was sent. -/
structure TcpConnection where
  writeBuffer : Mem
  started : List ℕ
  transmitted : List UInt8

/-- `AsyncWrite`; a message that `std::copy` does not fit into the buffer is `none`. -/
def TcpConnection.asyncWrite (c : TcpConnection) (msg : List UInt8) : Option TcpConnection :=
  if msg.length ≤ maxMsg then
    some { c with
      writeBuffer := store c.writeBuffer 0 msg
      started := c.started ++ [msg.length] }
  else none

/-- `OnWrite` without an error calls `OnWriteComplete`, which does nothing. -/
def TcpConnection.onWrite (c : TcpConnection) (_bytes : ℕ) : TcpConnection := c

/-- The oldest operation sends `k` bytes of the buffer and completes. Only an operation on
no bytes sends none. -/
def TcpConnection.writeSome (c : TcpConnection) (k : ℕ) : Option TcpConnection :=
  match c.started with
  | [] => none
  | size :: rest =>
    if k ≤ size ∧ (k = 0 → size = 0) then
      some (TcpConnection.onWrite { c with
        started := rest
        transmitted := c.transmitted ++ load c.writeBuffer 0 k } k)
    else none

inductive Event where
  | asyncWrite (msg : List UInt8)
  | writeSome (k : ℕ)

def TcpConnection.step (c : TcpConnection) : Event → Option TcpConnection
  | .asyncWrite msg => c.asyncWrite msg
  | .writeSome k => c.writeSome k

/-- The buffer of a new connection holds anything. -/
def TcpConnection.fresh (b : Mem) : TcpConnection := ⟨b,[],[]⟩

def Event.message : Event → List UInt8
  | .asyncWrite msg => msg
  | .writeSome _ => []

def messages (es : List Event) : List UInt8 := (es.map Event.message).flatten

/-- The sizes of the unfinished operations, which depend on no message's contents. -/
def outstanding (s : List ℕ) : Event → Option (List ℕ)
  | .asyncWrite msg => some (s ++ [msg.length])
  | .writeSome k =>
    match s with
    | [] => none
    | size :: rest => if k ≤ size ∧ (k = 0 → size = 0) then some rest else none

/-- Every operation started in these events has completed. -/
def Completed (es : List Event) : Prop := es.foldlM outstanding [] = some []

/-- The connection sends the messages, in the order of the calls, and nothing else. -/
def Delivers (es : List Event) : Prop :=
  ∀ b, ∃ c, es.foldlM TcpConnection.step (.fresh b) = some c ∧ c.transmitted = messages es

/-- What is left of an event when the contents of its message are forgotten. -/
def Event.shape : Event → ℕ ⊕ ℕ
  | .asyncWrite msg => .inl msg.length
  | .writeSome k => .inr k

/-- A message fits the buffer and meets no unsent byte there; an operation sends all. -/
def Undisturbed (s : List ℕ) : Event → Prop
  | .asyncWrite msg => msg.length ≤ maxMsg ∧ (msg ≠ [] → s.sum = 0)
  | .writeSome k => s.head? = some k

/-- Every event is undisturbed by the operations that are unfinished before it. -/
def UndisturbedRun (es : List Event) : Prop :=
  ∀ pre e post s, es = pre ++ e :: post → pre.foldlM outstanding [] = some s → Undisturbed s e

theorem messages_append (es fs : List Event) : messages (es ++ fs) = messages es ++ messages fs := by
  rw [messages, messages, messages, List.map_append, List.flatten_append]

theorem messages_cons (e : Event) (es : List Event) : messages (e :: es) = e.message ++ messages es :=
  rfl

/-- All that one event can do to a connection. -/
theorem step_cases (c c' : TcpConnection) (e : Event) (h : c.step e = some c') :
    (∃ msg, e = .asyncWrite msg ∧ msg.length ≤ maxMsg ∧
      c' = ⟨store c.writeBuffer 0 msg, c.started ++ [msg.length], c.transmitted⟩) ∨
    (∃ k size rest, e = .writeSome k ∧ c.started = size :: rest ∧ k ≤ size ∧
      (k = 0 → size = 0) ∧
      c' = ⟨c.writeBuffer, rest, c.transmitted ++ load c.writeBuffer 0 k⟩) := by
  cases e with
  | asyncWrite msg =>
    simp only [TcpConnection.step, TcpConnection.asyncWrite, Option.ite_none_right_eq_some,
      Option.some.injEq] at h
    exact Or.inl ⟨msg, rfl, h.1, h.2.symm⟩
  | writeSome k =>
    right
    cases hs : c.started with
    | nil => simp [TcpConnection.step, TcpConnection.writeSome, hs] at h
    | cons size rest =>
      simp only [TcpConnection.step, TcpConnection.writeSome, hs, Option.ite_none_right_eq_some,
        Option.some.injEq] at h
      exact ⟨k, size, rest, rfl, rfl, h.1.1, h.1.2, h.2.symm⟩

theorem step_outstanding (c c' : TcpConnection) (e : Event) (h : c.step e = some c') :
    outstanding c.started e = some c'.started := by
  rcases step_cases c c' e h with ⟨msg,rfl,-,rfl⟩ | ⟨k,size,rest,rfl,hs,hle,hpos,rfl⟩
  · rfl
  · rw [hs]
    exact if_pos ⟨hle,hpos⟩

theorem run_outstanding (c c' : TcpConnection) (es : List Event)
    (h : es.foldlM TcpConnection.step c = some c') :
    es.foldlM outstanding c.started = some c'.started := by
  induction es generalizing c with
  | nil =>
    obtain rfl := Option.some.inj h
    rfl
  | cons e es ih =>
    obtain ⟨c1,h1,h2⟩ := foldlM_cons_eq_some _ c c' e es h
    rw [List.foldlM_cons, step_outstanding c c1 e h1]
    exact ih c1 h2

/-- What is sent and what is to be sent never exceed what was given. -/
theorem step_length (c c' : TcpConnection) (e : Event) (h : c.step e = some c') :
    c'.transmitted.length+c'.started.sum ≤ c.transmitted.length+c.started.sum+e.message.length := by
  rcases step_cases c c' e h with ⟨msg,rfl,-,rfl⟩ | ⟨k,size,rest,rfl,hs,hle,-,rfl⟩
  · simp only [Event.message, List.sum_append, List.sum_singleton]
    omega
  · rw [hs]
    simp only [Event.message, List.length_append, load_length, List.sum_cons, List.length_nil]
    omega

theorem run_length (c c' : TcpConnection) (es : List Event)
    (h : es.foldlM TcpConnection.step c = some c') :
    c'.transmitted.length+c'.started.sum ≤
      c.transmitted.length+c.started.sum+(messages es).length := by
  induction es generalizing c with
  | nil =>
    obtain rfl := Option.some.inj h
    exact Nat.le_refl _
  | cons e es ih =>
    obtain ⟨c1,h1,h2⟩ := foldlM_cons_eq_some _ c c' e es h
    have hstep := step_length c c1 e h1
    have hrest := ih c1 h2
    rw [messages_cons, List.length_append]
    omega

end Cclab.TcpServer
