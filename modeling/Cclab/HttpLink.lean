import Cclab.HttpTotal

/-! Two readings of the same bytes, by machines that differ in the counts of the head, in the
marks and in the data behind the byte. What a state does with one byte keeps them alike. -/
namespace Cclab.HttpParser

/-- How two readings may differ, closed under what the states do. -/
structure Link where
  count : UInt32 → UInt32 → Prop
  mark : Option Bytes → Option Bytes → Prop
  calls : List Call → List Call → Prop
  data : Bytes → Bytes → Prop
  count_zero : count 0 0
  mark_none : mark none none
  mark_here : ∀ a a' p p', mark a a' → data p p' → mark (some (a.getD p)) (some (a'.getD p'))
  calls_nil : calls [] []
  calls_append : ∀ c c' d d', calls c c' → calls d d' → calls (c ++ d) (c' ++ d')
  calls_data : ∀ on a a' p p', mark a a' → data p p' →
    calls (callbackData a on p) (callbackData a' on p')
  calls_notify : ∀ on, on = Call.messageBegin ∨ on = Call.headersComplete ∨ on = Call.messageComplete →
    ∀ (parser : Parser) n n', count n n' →
      calls [on { parser with nread := n }] [on { parser with nread := n' }]
  data_tail : ∀ ch p p', data (ch :: p) (ch :: p') → data p p'

/-- The data go on with `w` behind every byte. -/
theorem tail_append (w : Bytes) (ch : UInt8) (p p' : Bytes) (h : ch :: p' = ch :: p ++ w) :
    p' = p ++ w := (List.cons.inj h).2

variable (L : Link)

/-- The parsers are the same but for their counts. -/
structure Link.Parsers (parser parser' : Parser) : Prop where
  eq : parser' = { parser with nread := parser'.nread }
  count : L.count parser.nread parser'.nread

structure Link.Machines (m m' : Machine) : Prop where
  parser : L.Parsers m.parser m'.parser
  field : L.mark m.headerFieldMark m'.headerFieldMark
  value : L.mark m.headerValueMark m'.headerValueMark
  url : L.mark m.urlMark m'.urlMark
  body : L.mark m.bodyMark m'.bodyMark

def Link.Outcomes : Outcome → Outcome → Prop
  | .next m skip calls, .next m' skip' calls' =>
    L.Machines m m' ∧ (skip = 0 ∧ skip' = 0) ∧ L.calls calls calls'
  | .leave m p calls, .leave m' p' calls' =>
    L.Parsers m.parser m'.parser ∧ L.data p p' ∧ L.calls calls calls'
  | .abort, .abort => True
  | _, _ => False

theorem Link.Outcomes.after (o o' : Outcome) (calls calls' : List Call) (h : L.Outcomes o o')
    (hc : L.calls calls calls') : L.Outcomes (o.after calls) (o'.after calls') := by
  cases o <;> cases o'
  case next.next =>
    exact ⟨h.1, h.2.1, L.calls_append _ _ _ _ hc h.2.2⟩
  case leave.leave =>
    exact ⟨h.1, h.2.1, L.calls_append _ _ _ _ hc h.2.2⟩
  all_goals exact h

/-- The second machine, made of the parser of the first one. -/
theorem Link.Machines.elim (m m' : Machine) (h : L.Machines m m') : ∃ n f v u b,
    m' = ⟨{ m.parser with nread := n },f,v,u,b⟩ ∧ L.count m.parser.nread n ∧
    L.mark m.headerFieldMark f ∧ L.mark m.headerValueMark v ∧ L.mark m.urlMark u ∧
    L.mark m.bodyMark b := by
  rcases m' with ⟨parser,f,v,u,b⟩
  exact ⟨parser.nread, f, v, u, b, congrArg (Machine.mk · f v u b) h.parser.eq, h.parser.count,
    h.field, h.value, h.url, h.body⟩

section states
variable (m m' : Machine) (ch : UInt8) (rest rest' : Bytes) (h : L.Machines m m')
  (hd : L.data (ch :: rest) (ch :: rest'))

include h

theorem Link.fail (p p' : Bytes) (e : HttpErrno) (hp : L.data p p') :
    L.Outcomes (m.fail p e) (m'.fail p' e) := by
  obtain ⟨n,f,v,u,b,rfl,hn,-⟩ := h.elim
  exact ⟨⟨rfl,hn⟩, hp, L.calls_nil⟩

theorem Link.breakTo (s : State) : L.Outcomes (m.breakTo s) (m'.breakTo s) := by
  obtain ⟨n,f,v,u,b,rfl,hn,hf,hv,hu,hb⟩ := h.elim
  exact ⟨⟨⟨rfl,hn⟩,hf,hv,hu,hb⟩, ⟨rfl,rfl⟩, L.calls_nil⟩

theorem Link.pass : L.Outcomes (.next m 0 []) (.next m' 0 []) :=
  ⟨h, ⟨rfl,rfl⟩, L.calls_nil⟩

theorem Link.complete : L.Machines m.complete.1 m'.complete.1 ∧
    L.calls m.complete.2 m'.complete.2 := by
  obtain ⟨n,f,v,u,b,rfl,hn,hf,hv,hu,hb⟩ := h.elim
  exact ⟨⟨⟨rfl,L.count_zero⟩,hf,hv,hu,hb⟩,
    L.calls_notify _ (Or.inr (Or.inr rfl)) { m.parser with state := newMessage m.parser } _ _ hn⟩

theorem Link.sMessageDone (p p' : Bytes) :
    L.Outcomes (sMessageDone m 0 p) (sMessageDone m' 0 p') :=
  ⟨(L.complete m m' h).1, ⟨rfl,rfl⟩, (L.complete m m' h).2⟩

include hd

theorem Link.expect (good : Bool) (e : HttpErrno) (s : State) :
    L.Outcomes (m.expect (ch :: rest) good e s) (m'.expect (ch :: rest') good e s) := by
  cases good with
  | true => exact L.breakTo m m' h s
  | false => exact L.fail m m' h _ _ e hd

theorem Link.sDead : L.Outcomes (sDead m ch rest) (sDead m' ch rest') := by
  unfold HttpParser.sDead
  split_ifs
  · exact L.pass m m' h
  · exact L.fail m m' h _ _ _ hd

theorem Link.sStartReq (behind behind' : UInt8)
    (hnext : startMethod ch (rest.headD behind) = startMethod ch (rest'.headD behind')) :
    L.Outcomes (sStartReq m ch rest behind) (sStartReq m' ch rest' behind') := by
  obtain ⟨n,f,v,u,b,rfl,hn,hf,hv,hu,hb⟩ := h.elim
  unfold HttpParser.sStartReq
  dsimp only
  rw [hnext]
  split_ifs
  · exact ⟨⟨⟨rfl,hn⟩,hf,hv,hu,hb⟩, ⟨rfl,rfl⟩, L.calls_nil⟩
  · cases startMethod ch (rest'.headD behind') with
    | none => exact ⟨⟨rfl,hn⟩, hd, L.calls_nil⟩
    | some method =>
      exact ⟨⟨⟨rfl,hn⟩,hf,hv,hu,hb⟩, ⟨rfl,rfl⟩, L.calls_notify _ (Or.inl rfl) { m.parser with
        flags := .none, contentLength := ullongMax, index := 1, method := method,
        state := .reqMethod } _ _ hn⟩
  · exact ⟨⟨rfl,hn⟩, hd, L.calls_nil⟩

theorem Link.sReqMethod : L.Outcomes (sReqMethod m ch rest) (sReqMethod m' ch rest') := by
  obtain ⟨n,f,v,u,b,rfl,hn,hf,hv,hu,hb⟩ := h.elim
  have hm (parser : Parser) (hp : parser.nread = m.parser.nread) : L.Outcomes
      (.next { m with parser := parser } 0 [])
      (.next ⟨{ parser with nread := n },f,v,u,b⟩ 0 []) :=
    ⟨⟨⟨rfl,hp ▸ hn⟩,hf,hv,hu,hb⟩, ⟨rfl,rfl⟩, L.calls_nil⟩
  have hfail (e : HttpErrno) := L.fail m _ h _ _ e hd
  unfold HttpParser.sReqMethod
  dsimp only
  split_ifs
  · exact hfail _
  · exact hm _ rfl
  · exact hm _ rfl
  · cases refineMethod m.parser.method m.parser.index ch with
    | none => exact hfail _
    | some method => exact hm _ rfl
  · exact hfail _

theorem Link.urlChar : L.Outcomes (urlChar m ch rest) (urlChar m' ch rest') := by
  obtain ⟨n,f,v,u,b,rfl,hn,hf,hv,hu,hb⟩ := h.elim
  unfold HttpParser.urlChar
  dsimp only [Machine.goto]
  split_ifs
  · exact ⟨⟨rfl,hn⟩, hd, L.calls_nil⟩
  · exact ⟨⟨⟨rfl,hn⟩,hf,hv,hu,hb⟩, ⟨rfl,rfl⟩, L.calls_nil⟩

theorem Link.sReqSpacesBeforeUrl :
    L.Outcomes (sReqSpacesBeforeUrl m ch rest) (sReqSpacesBeforeUrl m' ch rest') := by
  obtain ⟨n,f,v,u,b,rfl,hn,hf,hv,hu,hb⟩ := h.elim
  have hmark := L.mark_here _ _ _ _ hu hd
  unfold HttpParser.sReqSpacesBeforeUrl
  dsimp only
  split_ifs
  · exact L.pass m _ h
  · exact L.urlChar _ _ ch rest rest' ⟨⟨rfl,hn⟩,hf,hv,hmark,hb⟩ hd
  · exact L.urlChar _ _ ch rest rest' ⟨⟨rfl,hn⟩,hf,hv,hmark,hb⟩ hd

theorem Link.sReqSchema : L.Outcomes (sReqSchema m ch rest) (sReqSchema m' ch rest') := by
  unfold HttpParser.sReqSchema
  split_ifs
  · exact L.fail m m' h _ _ _ hd
  · exact L.urlChar m m' ch rest rest' h hd

theorem Link.sReqServer : L.Outcomes (sReqServer m ch rest) (sReqServer m' ch rest') := by
  obtain ⟨n,f,v,u,b,rfl,hn,hf,hv,hu,hb⟩ := h.elim
  have hcall := L.calls_data .url _ _ _ _ hu hd
  unfold HttpParser.sReqServer
  dsimp only [Machine.goto]
  split_ifs
  · exact ⟨⟨⟨rfl,hn⟩,hf,hv,L.mark_none,hb⟩, ⟨rfl,rfl⟩, hcall⟩
  · exact ⟨⟨⟨rfl,hn⟩,hf,hv,L.mark_none,hb⟩, ⟨rfl,rfl⟩, hcall⟩
  · exact ⟨⟨⟨rfl,hn⟩,hf,hv,L.mark_none,hb⟩, ⟨rfl,rfl⟩, hcall⟩
  · exact L.urlChar m _ ch rest rest' h hd

theorem Link.sReqHttpStart : L.Outcomes (sReqHttpStart m ch rest) (sReqHttpStart m' ch rest') := by
  unfold HttpParser.sReqHttpStart
  split_ifs
  · exact L.breakTo m m' h _
  · exact L.pass m m' h
  · exact L.fail m m' h _ _ _ hd

theorem Link.sReqHttpMajor : L.Outcomes (sReqHttpMajor m ch rest) (sReqHttpMajor m' ch rest') := by
  obtain ⟨n,f,v,u,b,rfl,hn,hf,hv,hu,hb⟩ := h.elim
  unfold HttpParser.sReqHttpMajor
  split_ifs
  · exact ⟨⟨⟨rfl,hn⟩,hf,hv,hu,hb⟩, ⟨rfl,rfl⟩, L.calls_nil⟩
  · exact L.fail m _ h _ _ _ hd

theorem Link.sReqHttpMinor : L.Outcomes (sReqHttpMinor m ch rest) (sReqHttpMinor m' ch rest') := by
  obtain ⟨n,f,v,u,b,rfl,hn,hf,hv,hu,hb⟩ := h.elim
  unfold HttpParser.sReqHttpMinor
  split_ifs
  · exact ⟨⟨⟨rfl,hn⟩,hf,hv,hu,hb⟩, ⟨rfl,rfl⟩, L.calls_nil⟩
  · exact L.fail m _ h _ _ _ hd

theorem Link.sReqHttpEnd : L.Outcomes (sReqHttpEnd m ch rest) (sReqHttpEnd m' ch rest') := by
  unfold HttpParser.sReqHttpEnd
  split_ifs
  · exact L.breakTo m m' h _
  · exact L.breakTo m m' h _
  · exact L.fail m m' h _ _ _ hd

theorem Link.sHeadersDone : L.Outcomes (sHeadersDone m ch rest) (sHeadersDone m' ch rest') := by
  obtain ⟨n,f,v,u,b,rfl,hn,hf,hv,hu,hb⟩ := h.elim
  have hm : L.Machines { m with parser := { m.parser with nread := 0 } }
      ⟨{ m.parser with nread := 0 },f,v,u,b⟩ := ⟨⟨rfl,L.count_zero⟩,hf,hv,hu,hb⟩
  have hdone := L.complete _ _ hm
  unfold HttpParser.sHeadersDone
  dsimp only
  split_ifs
  · exact L.fail m _ h _ _ _ hd
  · exact ⟨hdone.1.parser, L.data_tail _ _ _ hd, hdone.2⟩
  · exact ⟨hdone.1, ⟨rfl,rfl⟩, hdone.2⟩
  · exact L.breakTo _ _ hm _
  · exact ⟨hdone.1, ⟨rfl,rfl⟩, hdone.2⟩
  · exact L.breakTo _ _ hm _
  · exact ⟨hdone.1, ⟨rfl,rfl⟩, hdone.2⟩
  · exact L.breakTo _ _ hm _

theorem Link.sHeadersAlmostDone :
    L.Outcomes (sHeadersAlmostDone m ch rest) (sHeadersAlmostDone m' ch rest') := by
  obtain ⟨n,f,v,u,b,rfl,hn,hf,hv,hu,hb⟩ := h.elim
  have hfail (e : HttpErrno) := L.fail m _ h _ _ e hd
  have hhead (upgrade : Bool) : L.Outcomes
      ((HttpParser.sHeadersDone { m with parser := { m.parser with
        state := .headersDone, upgrade := upgrade } } ch rest).after
        [.headersComplete { m.parser with state := .headersDone, upgrade := upgrade }])
      ((HttpParser.sHeadersDone ⟨{ m.parser with
        nread := n, state := .headersDone, upgrade := upgrade },f,v,u,b⟩ ch rest').after
        [.headersComplete { m.parser with
          nread := n, state := .headersDone, upgrade := upgrade }]) := by
    apply Link.Outcomes.after
    · exact L.sHeadersDone _ _ ch rest rest' ⟨⟨rfl,hn⟩,hf,hv,hu,hb⟩ hd
    · exact L.calls_notify _ (Or.inr (Or.inl rfl)) { m.parser with
        state := .headersDone, upgrade := upgrade } _ _ hn
  unfold HttpParser.sHeadersAlmostDone
  dsimp only
  split_ifs
  · exact hfail _
  · exact L.sMessageDone (m.goto .messageDone) (Machine.goto ⟨{ m.parser with nread := n },f,v,u,b⟩ .messageDone)
      ⟨⟨rfl,hn⟩,hf,hv,hu,hb⟩ _ _
  · exact hfail _
  · exact hhead _
  · exact hhead _

theorem Link.sHeaderFieldStart :
    L.Outcomes (sHeaderFieldStart m ch rest) (sHeaderFieldStart m' ch rest') := by
  obtain ⟨n,f,v,u,b,rfl,hn,hf,hv,hu,hb⟩ := h.elim
  unfold HttpParser.sHeaderFieldStart
  split_ifs
  · exact L.breakTo m _ h _
  · exact L.sHeadersAlmostDone _ _ ch rest rest' ⟨⟨rfl,hn⟩,hf,hv,hu,hb⟩ hd
  · exact L.fail m _ h _ _ _ hd
  · exact ⟨⟨⟨rfl,hn⟩,L.mark_here _ _ _ _ hf hd,hv,hu,hb⟩, ⟨rfl,rfl⟩, L.calls_nil⟩

theorem Link.sHeaderValueStart :
    L.Outcomes (sHeaderValueStart m ch rest) (sHeaderValueStart m' ch rest') := by
  obtain ⟨n,f,v,u,b,rfl,hn,hf,hv,hu,hb⟩ := h.elim
  have hmark := L.mark_here _ _ _ _ hv hd
  have hnext (parser : Parser) (hp : parser.nread = m.parser.nread) : L.Outcomes
      (.next { m with headerValueMark := some (m.headerValueMark.getD (ch :: rest)), parser := parser } 0 [])
      (.next ⟨{ parser with nread := n },f,some (v.getD (ch :: rest')),u,b⟩ 0 []) :=
    ⟨⟨⟨rfl,hp ▸ hn⟩,hf,hmark,hu,hb⟩, ⟨rfl,rfl⟩, L.calls_nil⟩
  unfold HttpParser.sHeaderValueStart
  dsimp only
  cases m.parser.headerState with
  | contentLength =>
    dsimp only
    split_ifs
    · exact ⟨⟨rfl,hn⟩, hd, L.calls_nil⟩
    · exact hnext _ rfl
    · exact ⟨⟨rfl,hn⟩, hd, L.calls_nil⟩
  | _ => exact hnext _ rfl

theorem Link.sHeaderValueDiscardWs :
    L.Outcomes (sHeaderValueDiscardWs m ch rest) (sHeaderValueDiscardWs m' ch rest') := by
  unfold HttpParser.sHeaderValueDiscardWs
  split_ifs
  · exact L.pass m m' h
  · exact L.breakTo m m' h _
  · exact L.breakTo m m' h _
  · exact L.sHeaderValueStart m m' ch rest rest' h hd

theorem Link.sHeaderValueLws :
    L.Outcomes (sHeaderValueLws m ch rest) (sHeaderValueLws m' ch rest') := by
  obtain ⟨n,f,v,u,b,rfl,hn,hf,hv,hu,hb⟩ := h.elim
  unfold HttpParser.sHeaderValueLws
  split_ifs
  · exact L.sHeaderValueStart _ _ ch rest rest' ⟨⟨rfl,hn⟩,hf,hv,hu,hb⟩ hd
  · exact L.sHeaderFieldStart _ _ ch rest rest' ⟨⟨rfl,hn⟩,hf,hv,hu,hb⟩ hd

theorem Link.sHeaderValueDiscardLws :
    L.Outcomes (sHeaderValueDiscardLws m ch rest) (sHeaderValueDiscardLws m' ch rest') := by
  obtain ⟨n,f,v,u,b,rfl,hn,hf,hv,hu,hb⟩ := h.elim
  have hmark := L.mark_here _ _ _ _ hv hd
  unfold HttpParser.sHeaderValueDiscardLws
  dsimp only
  split_ifs
  · exact L.breakTo m _ h _
  · apply Link.Outcomes.after
    · exact L.sHeaderFieldStart _ _ ch rest rest' ⟨⟨rfl,hn⟩,hf,L.mark_none,hu,hb⟩ hd
    · exact L.calls_data .headerValue _ _ _ _ hmark hd

theorem Link.sChunkSizeStart (hone : m.parser.nread = 1 ↔ m'.parser.nread = 1) :
    L.Outcomes (sChunkSizeStart m ch rest) (sChunkSizeStart m' ch rest') := by
  obtain ⟨n,f,v,u,b,rfl,hn,hf,hv,hu,hb⟩ := h.elim
  unfold HttpParser.sChunkSizeStart
  dsimp only at hone ⊢
  simp only [ne_eq, hone]
  split_ifs
  · exact True.intro
  · cases unhex ch with
    | none => exact L.fail m _ h _ _ _ hd
    | some d => exact ⟨⟨⟨rfl,hn⟩,hf,hv,hu,hb⟩, ⟨rfl,rfl⟩, L.calls_nil⟩

theorem Link.sChunkSize : L.Outcomes (sChunkSize m ch rest) (sChunkSize m' ch rest') := by
  obtain ⟨n,f,v,u,b,rfl,hn,hf,hv,hu,hb⟩ := h.elim
  have hfail (e : HttpErrno) := L.fail m _ h _ _ e hd
  unfold HttpParser.sChunkSize
  cases unhex ch with
  | none =>
    dsimp only
    split_ifs
    · exact True.intro
    · exact L.breakTo m _ h _
    · exact L.breakTo m _ h _
    · exact hfail _
  | some d =>
    dsimp only
    cases pushDigit 16 m.parser.contentLength d.toUInt64 with
    | none =>
      split_ifs
      · exact True.intro
      · exact L.breakTo m _ h _
      · exact hfail _
    | some t =>
      split_ifs
      · exact True.intro
      · exact L.breakTo m _ h _
      · exact ⟨⟨⟨rfl,hn⟩,hf,hv,hu,hb⟩, ⟨rfl,rfl⟩, L.calls_nil⟩

theorem Link.sChunkSizeAlmostDone :
    L.Outcomes (sChunkSizeAlmostDone m ch rest) (sChunkSizeAlmostDone m' ch rest') := by
  obtain ⟨n,f,v,u,b,rfl,hn,hf,hv,hu,hb⟩ := h.elim
  unfold HttpParser.sChunkSizeAlmostDone
  dsimp only
  split_ifs
  · exact True.intro
  · exact L.fail m _ h _ _ _ hd
  · exact ⟨⟨⟨rfl,L.count_zero⟩,hf,hv,hu,hb⟩, ⟨rfl,rfl⟩, L.calls_nil⟩
  · exact ⟨⟨⟨rfl,L.count_zero⟩,hf,hv,hu,hb⟩, ⟨rfl,rfl⟩, L.calls_nil⟩

theorem Link.sChunkDataAlmostDone :
    L.Outcomes (sChunkDataAlmostDone m ch rest) (sChunkDataAlmostDone m' ch rest') := by
  obtain ⟨n,f,v,u,b,rfl,hn,hf,hv,hu,hb⟩ := h.elim
  unfold HttpParser.sChunkDataAlmostDone
  dsimp only [Machine.goto]
  split_ifs
  · exact True.intro
  · exact L.fail m _ h _ _ _ hd
  · exact ⟨⟨⟨rfl,hn⟩,hf,hv,hu,L.mark_none⟩, ⟨rfl,rfl⟩, L.calls_data .body _ _ _ _ hb hd⟩

theorem Link.sChunkDataDone :
    L.Outcomes (sChunkDataDone m ch rest) (sChunkDataDone m' ch rest') := by
  obtain ⟨n,f,v,u,b,rfl,hn,hf,hv,hu,hb⟩ := h.elim
  unfold HttpParser.sChunkDataDone
  dsimp only
  split_ifs
  · exact True.intro
  · exact L.fail m _ h _ _ _ hd
  · exact ⟨⟨⟨rfl,L.count_zero⟩,hf,hv,hu,hb⟩, ⟨rfl,rfl⟩, L.calls_nil⟩

end states

/-- The states in which the loop uses up more than one byte at a time. -/
def longState : State → Bool
  | .headerField | .headerValue | .bodyIdentity | .bodyIdentityEof | .chunkData => true
  | _ => false

/-- What the switch does with one byte, however the readings differ. -/
theorem Link.switch (behind behind' : UInt8) (m m' : Machine) (ch : UInt8) (rest rest' : Bytes)
    (h : L.Machines m m') (hd : L.data (ch :: rest) (ch :: rest'))
    (hlong : longState m.parser.state = false)
    (hnext : m.parser.state = .startReq →
      startMethod ch (rest.headD behind) = startMethod ch (rest'.headD behind'))
    (hone : m.parser.state = .chunkSizeStart → (m.parser.nread = 1 ↔ m'.parser.nread = 1)) :
    L.Outcomes (switch behind m ch rest) (switch behind' m' ch rest') := by
  have hstate : m'.parser.state = m.parser.state := by
    obtain ⟨n,f,v,u,b,rfl,-⟩ := h.elim
    rfl
  unfold HttpParser.switch
  dsimp only
  rw [hstate]
  cases hs : m.parser.state with
  | dead => exact L.sDead m m' ch rest rest' h hd
  | startReq => exact L.sStartReq m m' ch rest rest' h hd behind behind' (hnext hs)
  | reqMethod => exact L.sReqMethod m m' ch rest rest' h hd
  | reqSpacesBeforeUrl => exact L.sReqSpacesBeforeUrl m m' ch rest rest' h hd
  | reqSchema | reqSchemaSlash | reqSchemaSlashSlash | reqServerStart =>
    exact L.sReqSchema m m' ch rest rest' h hd
  | reqServer | reqServerWithAt | reqPath | reqQueryStringStart | reqQueryString
  | reqFragmentStart | reqFragment => exact L.sReqServer m m' ch rest rest' h hd
  | reqHttpStart => exact L.sReqHttpStart m m' ch rest rest' h hd
  | reqHttpMajor => exact L.sReqHttpMajor m m' ch rest rest' h hd
  | reqHttpMinor => exact L.sReqHttpMinor m m' ch rest rest' h hd
  | reqHttpEnd => exact L.sReqHttpEnd m m' ch rest rest' h hd
  | reqHttpH | reqHttpHT | reqHttpHTT | reqHttpHTTP | reqHttpDot | reqLineAlmostDone
  | headerAlmostDone | headerValueDiscardWsAlmostDone =>
    exact L.expect m m' ch rest rest' h hd _ _ _
  | headerFieldStart => exact L.sHeaderFieldStart m m' ch rest rest' h hd
  | headerValueDiscardWs => exact L.sHeaderValueDiscardWs m m' ch rest rest' h hd
  | headerValueStart => exact L.sHeaderValueStart m m' ch rest rest' h hd
  | headerValueLws => exact L.sHeaderValueLws m m' ch rest rest' h hd
  | headerValueDiscardLws => exact L.sHeaderValueDiscardLws m m' ch rest rest' h hd
  | headersAlmostDone => exact L.sHeadersAlmostDone m m' ch rest rest' h hd
  | headersDone => exact L.sHeadersDone m m' ch rest rest' h hd
  | messageDone => exact L.sMessageDone m m' h _ _
  | chunkSizeStart => exact L.sChunkSizeStart m m' ch rest rest' h hd (hone hs)
  | chunkSize => exact L.sChunkSize m m' ch rest rest' h hd
  | chunkParameters =>
    obtain ⟨n,f,v,u,b,rfl,-⟩ := h.elim
    dsimp only
    unfold sChunkParameters
    split_ifs
    · exact True.intro
    · exact L.breakTo m _ h _
    · exact L.pass m _ h
  | chunkSizeAlmostDone => exact L.sChunkSizeAlmostDone m m' ch rest rest' h hd
  | chunkDataAlmostDone => exact L.sChunkDataAlmostDone m m' ch rest rest' h hd
  | chunkDataDone => exact L.sChunkDataDone m m' ch rest rest' h hd
  | headerField | headerValue | bodyIdentity | bodyIdentityEof | chunkData =>
    rw [hs] at hlong
    exact absurd hlong (by decide)

end Cclab.HttpParser
