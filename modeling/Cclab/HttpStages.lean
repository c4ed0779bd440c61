import Cclab.HttpLookahead

/-! The order in which the callbacks of one request are called. -/
namespace Cclab.HttpParser

/-- How far the callbacks have come with a request. `named` is behind the name of a header that has
no value yet, and `complete` is behind `on_headers_complete`. -/
inductive Stage where
  | idle
  | begun
  | fields (complete : Bool)
  | named (complete : Bool)
deriving DecidableEq

def Stage.next : Stage → Call → Option Stage
  | .idle, .messageBegin _ => some .begun
  | .begun, .url _ | .fields false, .url _ => some (.fields false)
  | .fields complete, .headerField _ | .named complete, .headerField _ => some (.named complete)
  -- a folded value, or one that comes in pieces, is called for without a name
  | .fields complete, .headerValue _ | .named complete, .headerValue _ => some (.fields complete)
  | .fields false, .headersComplete _ => some (.fields true)
  | .fields true, .body _ => some (.fields true)
  | .fields true, .messageComplete _ => some .idle
  | _, _ => none

def Stage.run (s : Stage) (calls : List Call) : Option Stage := calls.foldlM Stage.next s

/-- The stage is one in which the machine may be. -/
def Fits (s : Stage) (m : Machine) : Prop :=
  match m.parser.state with
  | .dead | .startReq => s = .idle
  | .reqMethod | .reqSpacesBeforeUrl => s = .begun ∧ m.parser.flags.trailing = false
  | .reqHttpStart | .reqHttpH | .reqHttpHT | .reqHttpHTT | .reqHttpHTTP | .reqHttpMajor
  | .reqHttpDot | .reqHttpMinor | .reqHttpEnd | .reqLineAlmostDone =>
    s = .fields false ∧ m.parser.flags.trailing = false
  | .headerFieldStart | .headerAlmostDone | .headerValueLws | .headersAlmostDone =>
    s = .fields m.parser.flags.trailing
  -- a piece of the name or of the value may have been reported by an earlier call
  | .headerField => (s = .fields m.parser.flags.trailing ∨ s = .named m.parser.flags.trailing) ∧
      m.headerFieldMark ≠ none
  | .headerValueDiscardWs | .headerValueDiscardWsAlmostDone | .headerValueDiscardLws
  | .headerValueStart => s = .named m.parser.flags.trailing
  | .headerValue => (s = .fields m.parser.flags.trailing ∨ s = .named m.parser.flags.trailing) ∧
      m.headerValueMark ≠ none
  | .headersDone | .chunkSizeStart | .chunkSize | .chunkParameters | .chunkSizeAlmostDone
  | .chunkData | .chunkDataAlmostDone | .chunkDataDone | .bodyIdentity | .bodyIdentityEof
  | .messageDone => s = .fields true
  -- the states of the target
  | _ => (s = .begun ∨ s = .fields false) ∧ m.urlMark ≠ none ∧ m.parser.flags.trailing = false

def Outcome.Staged (s : Stage) : Outcome → Prop
  | .next m _ calls => ∃ s', s.run calls = some s' ∧ Fits s' m
  | .leave m _ calls => ∃ s', s.run calls = some s' ∧ (m.parser.httpErrno = .ok → s' = .idle)
  | .abort => True

theorem staged_next (s s' : Stage) (m : Machine) (skip : ℕ) (calls : List Call)
    (hr : s.run calls = some s') (h : Fits s' m) : (Outcome.next m skip calls).Staged s := ⟨s',hr,h⟩

theorem staged_pass (s : Stage) (m : Machine) (skip : ℕ) (h : Fits s m) :
    (Outcome.next m skip []).Staged s := ⟨s,rfl,h⟩

theorem staged_fail (s : Stage) (m : Machine) (p : Bytes) (e : HttpErrno) (he : e ≠ .ok) :
    (m.fail p e).Staged s := ⟨s, rfl, fun h => absurd h he⟩

theorem staged_expect (s : Stage) (m : Machine) (p : Bytes) (good : Bool) (e : HttpErrno) (st : State)
    (he : e ≠ .ok) (h : Fits s (m.goto st)) : (m.expect p good e st).Staged s := by
  unfold Machine.expect
  split_ifs
  · exact staged_pass s _ 0 h
  · exact staged_fail s m p e he

theorem staged_count (s : Stage) (m : Machine) (v : ℕ) (p : Bytes) (k : Machine → Outcome)
    (h : (k { m with parser := { m.parser with nread := m.parser.nread+UInt32.ofNat v } }).Staged s) :
    (m.count v p k).Staged s := by
  unfold Machine.count
  dsimp only
  split_ifs
  · exact staged_fail s _ p _ (by decide)
  · exact h

theorem Stage.run_append (s : Stage) (calls calls' : List Call) :
    s.run (calls ++ calls') = (s.run calls).bind fun s' => s'.run calls' := List.foldlM_append

theorem Outcome.Staged.after (s s' : Stage) (o : Outcome) (calls : List Call) (h : o.Staged s')
    (hr : s.run calls = some s') : (o.after calls).Staged s := by
  have happend (calls' : List Call) (s'' : Stage) (h' : s'.run calls' = some s'') :
      s.run (calls ++ calls') = some s'' := by rw [Stage.run_append, hr, Option.bind_some, h']
  cases o with
  | next m skip calls' =>
    rcases h with ⟨s'',h',hf⟩
    exact ⟨s'', happend calls' s'' h', hf⟩
  | leave m p calls' =>
    rcases h with ⟨s'',h',hf⟩
    exact ⟨s'', happend calls' s'' h', hf⟩
  | abort => exact True.intro

theorem staged_complete (m : Machine) (skip : ℕ) :
    (Outcome.next m.complete.1 skip m.complete.2).Staged (.fields true) :=
  staged_next _ .idle _ skip _ rfl rfl

/-- In a state of the target. -/
theorem fits_url (s : Stage) (m : Machine) (hu : urlState m.parser.state = true) :
    Fits s m ↔ (s = .begun ∨ s = .fields false) ∧ m.urlMark ≠ none ∧
      m.parser.flags.trailing = false := by
  unfold Fits
  cases hs : m.parser.state <;> simp_all [urlState]

theorem next_url (s : Stage) (a : Bytes) (h : s = .begun ∨ s = .fields false) :
    s.next (.url a) = some (.fields false) := by
  rcases h with rfl | rfl <;> rfl

theorem next_headerField (s : Stage) (b : Bool) (a : Bytes) (h : s = .fields b ∨ s = .named b) :
    s.next (.headerField a) = some (.named b) := by
  rcases h with rfl | rfl <;> cases b <;> rfl

theorem next_headerValue (s : Stage) (b : Bool) (a : Bytes) (h : s = .fields b ∨ s = .named b) :
    s.next (.headerValue a) = some (.fields b) := by
  rcases h with rfl | rfl <;> cases b <;> rfl

theorem run_callbackData (s s' : Stage) (mark : Option Bytes) (on : Bytes → Call) (p : Bytes)
    (hm : mark ≠ none) (h : ∀ a, s.next (on a) = some s') :
    s.run (callbackData mark on p) = some s' := by
  cases mark with
  | none => exact absurd rfl hm
  | some a =>
    change (s.next (on (slice a p))).bind some = some s'
    rw [h]
    rfl

section handlers
variable (s : Stage) (m : Machine) (ch : UInt8) (rest : Bytes)

theorem staged_sDead (h : Fits s m) : (sDead m ch rest).Staged s := by
  unfold sDead
  split_ifs
  · exact staged_pass s m 0 h
  · exact staged_fail s m _ _ (by decide)

theorem staged_sStartReq (behind : UInt8) (hs : m.parser.state = .startReq) (h : Fits s m) :
    (sStartReq m ch rest behind).Staged s := by
  have hidle : s = .idle := by
    rw [Fits, hs] at h
    exact h
  unfold sStartReq
  dsimp only
  split_ifs
  · exact staged_pass s m 0 h
  · cases startMethod ch (rest.headD behind) with
    | none => exact staged_fail s _ _ _ (by decide)
    | some method =>
      subst hidle
      exact staged_next _ .begun _ 0 _ rfl ⟨rfl,rfl⟩
  · exact staged_fail s _ _ _ (by decide)

theorem staged_sReqMethod (hs : m.parser.state = .reqMethod) (h : Fits s m) :
    (sReqMethod m ch rest).Staged s := by
  rw [Fits, hs] at h
  have hpass (parser : Parser) (hp : parser.state = .reqMethod) (hf : parser.flags = m.parser.flags) :
      (Outcome.next { m with parser := parser } 0 []).Staged s := by
    apply staged_pass
    rw [Fits]
    dsimp only
    rw [hp, hf]
    exact h
  unfold sReqMethod
  dsimp only
  split_ifs
  · exact staged_fail s m _ _ (by decide)
  · exact staged_pass s _ 0 h
  · exact hpass _ hs rfl
  · cases refineMethod m.parser.method m.parser.index ch with
    | none => exact staged_fail s m _ _ (by decide)
    | some method => exact hpass _ hs rfl
  · exact staged_fail s m _ _ (by decide)

theorem staged_urlChar (hs : s = .begun ∨ s = .fields false) (hm : m.urlMark ≠ none)
    (ht : m.parser.flags.trailing = false) : (urlChar m ch rest).Staged s := by
  unfold urlChar
  dsimp only
  split_ifs with hdead
  · exact staged_fail s _ _ _ (by decide)
  · apply staged_pass
    have hurl : urlState (parseUrlChar m.parser.state ch) :=
      (parseUrlChar_state ch m.parser.state).resolve_left hdead
    exact (fits_url s _ hurl).mpr ⟨hs,hm,ht⟩

theorem staged_sReqSpacesBeforeUrl (hs : m.parser.state = .reqSpacesBeforeUrl) (h : Fits s m) :
    (sReqSpacesBeforeUrl m ch rest).Staged s := by
  have hf := h
  rw [Fits, hs] at hf
  unfold sReqSpacesBeforeUrl
  dsimp only
  split_ifs
  · exact staged_pass s m 0 h
  · exact staged_urlChar s _ ch rest (Or.inl hf.1) (by simp [Machine.goto]) hf.2
  · exact staged_urlChar s _ ch rest (Or.inl hf.1) (by simp) hf.2

theorem staged_sReqSchema (hu : urlState m.parser.state = true) (h : Fits s m) :
    (sReqSchema m ch rest).Staged s := by
  rcases (fits_url s m hu).mp h with ⟨hs,hm,ht⟩
  unfold sReqSchema
  split_ifs
  · exact staged_fail s m _ _ (by decide)
  · exact staged_urlChar s m ch rest hs hm ht

theorem staged_sReqServer (hu : urlState m.parser.state = true) (h : Fits s m) :
    (sReqServer m ch rest).Staged s := by
  rcases (fits_url s m hu).mp h with ⟨hs,hm,ht⟩
  have hcall : s.run (callbackData m.urlMark .url (ch :: rest)) = some (.fields false) :=
    run_callbackData _ _ _ _ _ hm fun a => next_url s a hs
  unfold sReqServer
  dsimp only
  split_ifs
  · exact staged_next _ _ _ 0 _ hcall ⟨rfl,ht⟩
  · exact staged_next _ _ _ 0 _ hcall ⟨rfl,ht⟩
  · exact staged_next _ _ _ 0 _ hcall (congrArg Stage.fields ht.symm)
  · exact staged_urlChar s m ch rest hs hm ht

theorem staged_sHeadersDone : (sHeadersDone m ch rest).Staged (.fields true) := by
  unfold sHeadersDone
  dsimp only
  split_ifs
  · exact staged_fail _ m _ _ (by decide)
  · exact ⟨.idle, rfl, fun _ => rfl⟩
  · exact staged_complete _ 0
  · exact staged_pass _ _ 0 rfl
  · exact staged_complete _ 0
  · exact staged_pass _ _ 0 rfl
  · exact staged_complete _ 0
  · exact staged_pass _ _ 0 rfl

theorem staged_sHeadersAlmostDone (h : s = .fields m.parser.flags.trailing) :
    (sHeadersAlmostDone m ch rest).Staged s := by
  unfold sHeadersAlmostDone
  dsimp only
  by_cases ht : m.parser.flags.trailing = true
  · rw [ht] at h
    split_ifs
    · exact staged_fail s m _ _ (by decide)
    · subst h
      exact staged_complete _ 0
  · have hs : s = .fields false := by rw [h, Bool.eq_false_iff.mpr ht]
    split_ifs
    · exact staged_fail s m _ _ (by decide)
    · exact staged_fail s m _ _ (by decide)
    · subst hs
      exact (staged_sHeadersDone _ ch rest).after _ _ _ _ rfl
    · subst hs
      exact (staged_sHeadersDone _ ch rest).after _ _ _ _ rfl

theorem staged_sHeaderFieldStart (h : s = .fields m.parser.flags.trailing) :
    (sHeaderFieldStart m ch rest).Staged s := by
  unfold sHeaderFieldStart
  split_ifs
  · exact staged_pass s _ 0 h
  · exact staged_sHeadersAlmostDone s _ ch rest h
  · exact staged_fail s m _ _ (by decide)
  · exact staged_pass s _ 0 ⟨Or.inl h, by simp⟩

theorem staged_sHeaderField (hs : m.parser.state = .headerField) (h : Fits s m) :
    (sHeaderField m ch rest).Staged s := by
  rw [Fits, hs] at h
  unfold sHeaderField
  dsimp only
  cases headerFieldLoop m.parser.headerState m.parser.index (ch :: rest) with
  | none => exact True.intro
  | some r =>
    apply staged_count
    dsimp only
    cases (ch :: rest).drop r.2.2 with
    | nil =>
      apply staged_pass
      rw [Fits]
      dsimp only
      rw [hs]
      exact h
    | cons c p =>
      dsimp only
      split_ifs
      · refine staged_next _ (.named m.parser.flags.trailing) _ _ _ ?_ rfl
        exact run_callbackData _ _ _ _ _ h.2 fun a => next_headerField s _ a h.1
      · exact staged_fail s _ _ _ (by decide)

theorem staged_sHeaderValueStart
    (h : s = .fields m.parser.flags.trailing ∨ s = .named m.parser.flags.trailing) :
    (sHeaderValueStart m ch rest).Staged s := by
  have hpass (parser : Parser) (mark : Bytes) (hp : parser.state = .headerValue)
      (ht : parser.flags.trailing = m.parser.flags.trailing) :
      (Outcome.next { m with headerValueMark := some mark, parser := parser } 0 []).Staged s := by
    apply staged_pass
    rw [Fits]
    dsimp only
    rw [hp, ht]
    exact ⟨h, by simp⟩
  unfold sHeaderValueStart
  dsimp only
  cases m.parser.headerState with
  | contentLength =>
    dsimp only
    split_ifs
    · exact staged_fail s _ _ _ (by decide)
    · exact hpass _ _ rfl rfl
    · exact staged_fail s _ _ _ (by decide)
  | _ => exact hpass _ _ rfl rfl

theorem staged_sHeaderValueDiscardWs (hs : m.parser.state = .headerValueDiscardWs) (h : Fits s m) :
    (sHeaderValueDiscardWs m ch rest).Staged s := by
  have hf := h
  rw [Fits, hs] at hf
  unfold sHeaderValueDiscardWs
  split_ifs
  · exact staged_pass s m 0 h
  · exact staged_pass s _ 0 hf
  · exact staged_pass s _ 0 hf
  · exact staged_sHeaderValueStart s m ch rest (Or.inr hf)

theorem finishValue_trailing (h : HeaderState) (flags : Flags) :
    (finishValue h flags).trailing = flags.trailing := by
  cases h <;> rfl

theorem staged_sHeaderValueLws (h : s = .fields m.parser.flags.trailing) :
    (sHeaderValueLws m ch rest).Staged s := by
  unfold sHeaderValueLws
  split_ifs
  · exact staged_sHeaderValueStart s _ ch rest (Or.inl h)
  · apply staged_sHeaderFieldStart
    rw [h]
    exact congrArg Stage.fields (finishValue_trailing _ _).symm

theorem staged_sHeaderValueDiscardLws (h : s = .named m.parser.flags.trailing) :
    (sHeaderValueDiscardLws m ch rest).Staged s := by
  unfold sHeaderValueDiscardLws
  dsimp only
  split_ifs
  · exact staged_pass s _ 0 h
  · apply Outcome.Staged.after s (.fields m.parser.flags.trailing)
    · apply staged_sHeaderFieldStart
      exact congrArg Stage.fields (finishValue_trailing _ _).symm
    · exact run_callbackData _ _ _ _ _ (by simp) fun a => next_headerValue s _ a (Or.inr h)

/-- The loop over a value does not touch the flag for the headers behind the last chunk. -/
def ValueEnd.KeepsTrailing (trailing : Bool) : ValueEnd → Prop
  | .line _ parser _ | .data _ parser _ => parser.flags.trailing = trailing
  | _ => True

theorem headerValueByte_trailing (h : HeaderState) (parser : Parser) (r : HeaderState × Parser)
    (hb : headerValueByte h parser ch = some (.ok r)) :
    r.2.flags.trailing = parser.flags.trailing := by
  have hflags : r.2.flags = parser.flags ∨ r.2.flags = finishValue h parser.flags := by
    unfold headerValueByte at hb
    dsimp only at hb
    cases h with
    | contentLength =>
      dsimp only at hb
      split_ifs at hb
      · exact Or.inl (by rw [← Except.ok.inj (Option.some.inj hb)])
      · cases hp : pushDigit 10 parser.contentLength (ch-byte '0').toUInt64 with
        | none =>
          rw [hp] at hb
          exact absurd (Option.some.inj hb) (by simp)
        | some t =>
          rw [hp] at hb
          exact Or.inl (by rw [← Except.ok.inj (Option.some.inj hb)])
      · exact absurd (Option.some.inj hb) (by simp)
    | connection | transferEncoding => exact absurd hb (by simp)
    | matchingConnectionToken =>
      dsimp only at hb
      have he := Except.ok.inj (Option.some.inj hb)
      left
      rw [← he]
      split_ifs <;> rfl
    | connectionKeepAlive | connectionClose | connectionUpgrade =>
      dsimp only at hb
      have he := Except.ok.inj (Option.some.inj hb)
      split_ifs at he
      · exact Or.inr (by rw [← he])
      · exact Or.inl (by rw [← he])
      · exact Or.inl (by rw [← he])
    | _ => exact Or.inl (by rw [← Except.ok.inj (Option.some.inj hb)])
  rcases hflags with hf | hf
  · rw [hf]
  · rw [hf, finishValue_trailing]

theorem headerValueLoop_trailing (h : HeaderState) (parser : Parser) (p : Bytes) :
    (headerValueLoop h parser p).KeepsTrailing parser.flags.trailing := by
  induction p generalizing h parser with
  | nil => exact rfl
  | cons ch p ih =>
    unfold headerValueLoop
    dsimp only
    split_ifs
    · exact rfl
    · exact True.intro
    · exact rfl
    · exact rfl
    · cases hb : headerValueByte h parser ch with
      | none => exact True.intro
      | some r =>
        cases r with
        | error e => exact True.intro
        | ok r =>
          have hrest := ih r.1 r.2
          rw [headerValueByte_trailing ch h parser r hb] at hrest
          change (headerValueLoop r.1 r.2 p).succ.KeepsTrailing _
          cases hr : headerValueLoop r.1 r.2 p <;> rw [hr] at hrest <;> exact hrest

theorem staged_sHeaderValue (hm : Valid m) (hs : m.parser.state = .headerValue) (h : Fits s m) :
    (sHeaderValue m ch rest).Staged s := by
  rw [Fits, hs] at h
  have ha := hm.asserted
  rw [Asserted, hs] at ha
  have hgood := headerValueLoop_good m.parser.headerState m.parser (ch :: rest) ha
  have ht := headerValueLoop_trailing m.parser.headerState m.parser (ch :: rest)
  have hcall (p : Bytes) : s.run (callbackData m.headerValueMark .headerValue p) =
      some (.fields m.parser.flags.trailing) :=
    run_callbackData _ _ _ _ _ h.2 fun a => next_headerValue s _ a h.1
  unfold sHeaderValue
  dsimp only
  cases hloop : headerValueLoop m.parser.headerState m.parser (ch :: rest) with
  | abort => exact True.intro
  | error parser n =>
    rw [hloop] at hgood
    exact ⟨s, rfl, fun hok => absurd hok hgood⟩
  | data h' parser n =>
    rw [hloop] at hgood ht
    apply staged_count
    apply staged_pass
    rw [Fits]
    dsimp only
    rw [hgood.2.2.2 hs, show parser.flags.trailing = _ from ht]
    exact h
  | line h' parser n =>
    rw [hloop] at ht
    have hfields : Stage.fields m.parser.flags.trailing = .fields parser.flags.trailing :=
      congrArg Stage.fields (Eq.symm ht)
    dsimp only
    split_ifs
    · refine Outcome.Staged.after s _ _ _ ?_ (hcall _)
      apply staged_count
      exact staged_pass _ _ n hfields
    · apply staged_count
      exact staged_next _ _ _ n _ (hcall _) hfields

theorem staged_sBodyIdentity (hs : m.parser.state = .bodyIdentity) :
    (sBodyIdentity m ch rest).Staged (.fields true) := by
  unfold sBodyIdentity
  dsimp only
  split_ifs
  · exact True.intro
  · refine Outcome.Staged.after _ (.fields true) _ _ (staged_complete _ _) ?_
    exact run_callbackData _ _ _ _ _ (by simp [takeBody]) (fun _ => rfl)
  · apply staged_pass
    rw [Fits]
    dsimp only [takeBody]
    rw [hs]

theorem staged_sChunkSizeStart : (sChunkSizeStart m ch rest).Staged (.fields true) := by
  unfold sChunkSizeStart
  split_ifs
  · exact True.intro
  · cases unhex ch with
    | none => exact staged_fail _ m _ _ (by decide)
    | some v => exact staged_pass _ _ 0 rfl

theorem staged_sChunkSize (hs : m.parser.state = .chunkSize) :
    (sChunkSize m ch rest).Staged (.fields true) := by
  unfold sChunkSize
  cases unhex ch with
  | none =>
    dsimp only
    split_ifs
    · exact True.intro
    · exact staged_pass _ _ 0 rfl
    · exact staged_pass _ _ 0 rfl
    · exact staged_fail _ m _ _ (by decide)
  | some v =>
    dsimp only
    split_ifs
    · exact True.intro
    · exact staged_pass _ _ 0 rfl
    · cases pushDigit 16 m.parser.contentLength v.toUInt64 with
      | none => exact staged_fail _ m _ _ (by decide)
      | some t =>
        apply staged_pass
        rw [Fits]
        dsimp only
        rw [hs]

theorem staged_sChunkParameters (hs : m.parser.state = .chunkParameters) :
    (sChunkParameters m ch).Staged (.fields true) := by
  unfold sChunkParameters
  split_ifs
  · exact True.intro
  · exact staged_pass _ _ 0 rfl
  · apply staged_pass
    rw [Fits, hs]

theorem staged_sChunkSizeAlmostDone : (sChunkSizeAlmostDone m ch rest).Staged (.fields true) := by
  unfold sChunkSizeAlmostDone
  dsimp only
  split_ifs
  · exact True.intro
  · exact staged_fail _ m _ _ (by decide)
  · exact staged_pass _ _ 0 rfl
  · exact staged_pass _ _ 0 rfl

theorem staged_sChunkData (hs : m.parser.state = .chunkData) :
    (sChunkData m ch rest).Staged (.fields true) := by
  unfold sChunkData
  dsimp only
  split_ifs
  · exact True.intro
  · exact staged_pass _ _ _ rfl
  · apply staged_pass
    rw [Fits]
    dsimp only [takeBody]
    rw [hs]

theorem staged_sChunkDataAlmostDone : (sChunkDataAlmostDone m ch rest).Staged (.fields true) := by
  unfold sChunkDataAlmostDone
  split_ifs
  · exact True.intro
  · exact staged_fail _ m _ _ (by decide)
  -- the body is called for if its mark was set in this call
  · refine staged_next _ (.fields true) _ 0 _ ?_ rfl
    cases m.bodyMark <;> rfl

theorem staged_sChunkDataDone : (sChunkDataDone m ch rest).Staged (.fields true) := by
  unfold sChunkDataDone
  split_ifs
  · exact True.intro
  · exact staged_fail _ m _ _ (by decide)
  · exact staged_pass _ _ 0 rfl

end handlers

theorem staged_switch (behind : UInt8) (s : Stage) (m : Machine) (ch : UInt8) (rest : Bytes)
    (hm : m.parser.state = .headerValue → Valid m) (h : Fits s m) :
    (switch behind m ch rest).Staged s := by
  have hf := h
  unfold switch
  dsimp only
  cases hs : m.parser.state with
  | dead => exact staged_sDead s m ch rest h
  | startReq => exact staged_sStartReq s m ch rest behind hs h
  | reqMethod => exact staged_sReqMethod s m ch rest hs h
  | reqSpacesBeforeUrl => exact staged_sReqSpacesBeforeUrl s m ch rest hs h
  | reqSchema | reqSchemaSlash | reqSchemaSlashSlash | reqServerStart =>
    exact staged_sReqSchema s m ch rest (by rw [hs]; rfl) h
  | reqServer | reqServerWithAt | reqPath | reqQueryStringStart | reqQueryString
  | reqFragmentStart | reqFragment => exact staged_sReqServer s m ch rest (by rw [hs]; rfl) h
  | reqHttpStart =>
    rw [Fits, hs] at hf
    dsimp only
    unfold sReqHttpStart
    split_ifs
    · exact staged_pass s _ 0 hf
    · exact staged_pass s m 0 h
    · exact staged_fail s m _ _ (by decide)
  | reqHttpMajor =>
    rw [Fits, hs] at hf
    dsimp only
    unfold sReqHttpMajor
    split_ifs
    · exact staged_pass s _ 0 hf
    · exact staged_fail s m _ _ (by decide)
  | reqHttpMinor =>
    rw [Fits, hs] at hf
    dsimp only
    unfold sReqHttpMinor
    split_ifs
    · exact staged_pass s _ 0 hf
    · exact staged_fail s m _ _ (by decide)
  | reqHttpEnd =>
    rw [Fits, hs] at hf
    have hfields : s = .fields m.parser.flags.trailing := hf.1.trans (congrArg _ hf.2.symm)
    dsimp only
    unfold sReqHttpEnd
    split_ifs
    · exact staged_pass s _ 0 hf
    · exact staged_pass s _ 0 hfields
    · exact staged_fail s m _ _ (by decide)
  | reqLineAlmostDone =>
    rw [Fits, hs] at hf
    exact staged_expect s m _ _ _ _ (by decide) (hf.1.trans (congrArg _ hf.2.symm))
  | reqHttpH | reqHttpHT | reqHttpHTT | reqHttpHTTP | reqHttpDot | headerAlmostDone
  | headerValueDiscardWsAlmostDone =>
    rw [Fits, hs] at hf
    exact staged_expect s m _ _ _ _ (by decide) hf
  | headerFieldStart =>
    rw [Fits, hs] at hf
    exact staged_sHeaderFieldStart s m ch rest hf
  | headerField => exact staged_sHeaderField s m ch rest hs h
  | headerValueDiscardWs => exact staged_sHeaderValueDiscardWs s m ch rest hs h
  | headerValueStart =>
    rw [Fits, hs] at hf
    exact staged_sHeaderValueStart s m ch rest (Or.inr hf)
  | headerValue => exact staged_sHeaderValue s m ch rest (hm hs) hs h
  | headerValueLws =>
    rw [Fits, hs] at hf
    exact staged_sHeaderValueLws s m ch rest hf
  | headerValueDiscardLws =>
    rw [Fits, hs] at hf
    exact staged_sHeaderValueDiscardLws s m ch rest hf
  | headersAlmostDone =>
    rw [Fits, hs] at hf
    exact staged_sHeadersAlmostDone s m ch rest hf
  -- everything behind the head is in one stage
  | headersDone =>
    obtain rfl : s = .fields true := by rwa [Fits, hs] at hf
    exact staged_sHeadersDone m ch rest
  | bodyIdentity =>
    obtain rfl : s = .fields true := by rwa [Fits, hs] at hf
    exact staged_sBodyIdentity m ch rest hs
  | bodyIdentityEof => exact staged_pass s _ _ h
  | messageDone =>
    obtain rfl : s = .fields true := by rwa [Fits, hs] at hf
    exact staged_complete m 0
  | chunkSizeStart =>
    obtain rfl : s = .fields true := by rwa [Fits, hs] at hf
    exact staged_sChunkSizeStart m ch rest
  | chunkSize =>
    obtain rfl : s = .fields true := by rwa [Fits, hs] at hf
    exact staged_sChunkSize m ch rest hs
  | chunkParameters =>
    obtain rfl : s = .fields true := by rwa [Fits, hs] at hf
    exact staged_sChunkParameters m ch hs
  | chunkSizeAlmostDone =>
    obtain rfl : s = .fields true := by rwa [Fits, hs] at hf
    exact staged_sChunkSizeAlmostDone m ch rest
  | chunkData =>
    obtain rfl : s = .fields true := by rwa [Fits, hs] at hf
    exact staged_sChunkData m ch rest hs
  | chunkDataAlmostDone =>
    obtain rfl : s = .fields true := by rwa [Fits, hs] at hf
    exact staged_sChunkDataAlmostDone m ch rest
  | chunkDataDone =>
    obtain rfl : s = .fields true := by rwa [Fits, hs] at hf
    exact staged_sChunkDataDone m ch rest

theorem staged_iteration (behind : UInt8) (s : Stage) (m : Machine) (ch : UInt8) (rest : Bytes)
    (hm : Valid m) (h : Fits s m) : (iteration behind m ch rest).Staged s := by
  unfold iteration
  by_cases hheader : parsingHeader m.parser.state = true
  · rw [if_pos hheader]
    apply staged_count
    have hcounted : Fits s { m with parser := { m.parser with
      nread := m.parser.nread+UInt32.ofNat 1 } } := h
    apply staged_switch behind s _ ch rest _ hcounted
    -- the count changes nothing that is asserted of a value
    intro hs
    have ha := hm.asserted
    have hstate : m.parser.state = .headerValue := hs
    rw [Asserted, hstate] at ha
    exact ⟨hm.ok, hm.field, hm.value, hm.url, hm.body, by rw [Asserted, hs]; exact ha⟩
  · rw [if_neg hheader]
    exact staged_switch behind s m ch rest (fun _ => hm) h

/-- Where the data end the rest of a string is called for, and the next call goes on with it. -/
theorem staged_flush (s : Stage) (m : Machine) (hm : Valid m) (h : Fits s m) (calls : List Call)
    (hc : m.flush = some calls) :
    ∃ s', s.run calls = some s' ∧ ∀ data, Fits s' (startMachine m.parser data) := by
  unfold Machine.flush at hc
  dsimp only at hc
  split_ifs at hc
  obtain rfl := Option.some.inj hc
  by_cases hf : m.parser.state = .headerField
  · rcases hm.field_only m hf with ⟨hv,hu,hb⟩
    rw [Fits, hf] at h
    refine ⟨.named m.parser.flags.trailing, ?_, ?_⟩
    · rw [hv, hu, hb]
      change s.run (callbackData m.headerFieldMark .headerField [] ++ [] ++ [] ++ []) = _
      rw [List.append_nil, List.append_nil, List.append_nil]
      exact run_callbackData _ _ _ _ _ h.2 fun a => next_headerField s _ a h.1
    · intro data
      rw [Fits, show (startMachine m.parser data).parser.state = .headerField from hf]
      exact ⟨Or.inr rfl, by simp [startMachine, hf]⟩
  by_cases hv : m.parser.state = .headerValue
  · rcases hm.value_only m hv with ⟨hf,hu,hb⟩
    rw [Fits, hv] at h
    refine ⟨.fields m.parser.flags.trailing, ?_, ?_⟩
    · rw [hf, hu, hb]
      change s.run ([] ++ callbackData m.headerValueMark .headerValue [] ++ [] ++ []) = _
      rw [List.nil_append, List.append_nil, List.append_nil]
      exact run_callbackData _ _ _ _ _ h.2 fun a => next_headerValue s _ a h.1
    · intro data
      rw [Fits, show (startMachine m.parser data).parser.state = .headerValue from hv]
      exact ⟨Or.inl rfl, by simp [startMachine, hv]⟩
  by_cases hu : urlState m.parser.state = true
  · rcases hm.url_only m hu with ⟨hf,hv,hb⟩
    rcases (fits_url s m hu).mp h with ⟨hs,hmark,ht⟩
    refine ⟨.fields false, ?_, ?_⟩
    · rw [hf, hv, hb]
      change s.run ([] ++ [] ++ callbackData m.urlMark .url [] ++ []) = _
      rw [List.nil_append, List.nil_append, List.append_nil]
      exact run_callbackData _ _ _ _ _ hmark fun a => next_url s a hs
    · intro data
      have hstart : (startMachine m.parser data).urlMark ≠ none := by simp [startMachine, hu]
      exact (fits_url _ (startMachine m.parser data) hu).mpr ⟨Or.inr rfl,hstart,ht⟩
  -- no other state looks at the marks
  have hstart (s' : Stage) (h' : Fits s' m) (data : Bytes) : Fits s' (startMachine m.parser data) := by
    unfold Fits at h' ⊢
    cases hs : m.parser.state <;> simp_all [urlState, startMachine]
  by_cases hb : bodyState m.parser.state = true
  · rcases hm.body_only m hb with ⟨hf,hv,hu⟩
    have hs : s = .fields true := by
      unfold Fits at h
      cases hs : m.parser.state <;> simp_all [bodyState]
    refine ⟨s, ?_, hstart s h⟩
    rw [hf, hv, hu, hs]
    cases m.bodyMark <;> rfl
  · have hp := hm.plain m hf hv (by simpa using hu) (by simpa using hb)
    refine ⟨s, ?_, hstart s h⟩
    rw [hp.field, hp.value, hp.url, hp.body]
    rfl

/-- Between two calls of the parser; where it has failed it makes no more calls. -/
def Between (s : Stage) (parser : Parser) : Prop :=
  parser.httpErrno = .ok → ∀ data, Fits s (startMachine parser data)

theorem between_init : Between .idle httpParserInit := fun _ _ => rfl

theorem staged_end (s : Stage) (m : Machine) (p : Bytes) (r : Parser × List (Call × Bytes) × Bytes)
    (hm : Valid m) (h : Fits s m)
    (hr : (m.flush.map fun calls => (m.parser, withUnread [] calls, p)) = some r) :
    ∃ s', s.run (r.2.1.map Prod.fst) = some s' ∧ Between s' r.1 := by
  rcases Option.map_eq_some_iff.mp hr with ⟨calls,hc,rfl⟩
  rcases staged_flush s m hm h calls hc with ⟨s',hrun,hfits⟩
  exact ⟨s', by rw [map_withUnread, hrun], fun _ => hfits⟩

theorem staged_loop (behind : UInt8) (n : ℕ) (s : Stage) (m : Machine) (p : Bytes)
    (r : Parser × List (Call × Bytes) × Bytes) (hm : Valid m) (h : Fits s m)
    (hr : loop behind n m p = some r) :
    ∃ s', s.run (r.2.1.map Prod.fst) = some s' ∧ Between s' r.1 := by
  induction n generalizing s m p r with
  | zero => exact staged_end s m p r hm h hr
  | succ n ih =>
    cases p with
    | nil => exact staged_end s m [] r hm h hr
    | cons ch rest =>
      have hstaged := staged_iteration behind s m ch rest hm h
      have hkeeps := keeps_iteration behind m ch rest hm
      rw [loop] at hr
      cases hi : iteration behind m ch rest with
      | next m' skip calls =>
        rw [hi] at hstaged hkeeps hr
        rcases hstaged with ⟨s1,hrun,hfits⟩
        rcases Option.map_eq_some_iff.mp hr with ⟨q,hq,rfl⟩
        rcases ih s1 m' (rest.drop skip) q hkeeps.1 hfits hq with ⟨s',hrest,hbetween⟩
        refine ⟨s', ?_, hbetween⟩
        rw [List.map_append, map_withUnread, Stage.run_append, hrun, Option.bind_some, hrest]
      -- the loop is left with an error or with a new parser
      | leave m' q calls =>
        rw [hi] at hstaged hkeeps hr
        rcases hstaged with ⟨s1,hrun,hidle⟩
        obtain rfl := Option.some.inj hr
        refine ⟨s1, by rw [map_withUnread, hrun], ?_⟩
        intro hok data
        dsimp only at hok ⊢
        rw [hidle hok, hkeeps.2.resolve_left (not_not_intro hok)]
        rfl
      | abort =>
        rw [hi] at hkeeps
        exact hkeeps.elim

theorem staged_execute (behind : UInt8) (s : Stage) (parser : Parser) (data : Bytes)
    (r : Parser × List (Call × Bytes) × ℕ) (hp : Sane parser) (h : Between s parser)
    (hr : httpParserExecute behind parser data = some r) :
    ∃ s', s.run (r.2.1.map Prod.fst) = some s' ∧ Between s' r.1 := by
  unfold httpParserExecute at hr
  split_ifs at hr with hok hdata
  · rw [← Option.some.inj hr]
    exact ⟨s, rfl, h⟩
  -- the input ends: a body that lasts until then is complete
  · have hfits := h (not_not.mp hok) []
    rw [Fits] at hfits
    cases hs : parser.state with
    | bodyIdentityEof =>
      rw [hs] at hr
      rw [show (startMachine parser []).parser.state = .bodyIdentityEof from hs] at hfits
      rw [← Option.some.inj hr, show s = .fields true from hfits]
      exact ⟨.idle, rfl, between_init⟩
    | dead | startReq =>
      rw [hs] at hr
      rw [← Option.some.inj hr]
      exact ⟨s, rfl, h⟩
    | _ =>
      rw [hs] at hr
      rw [← Option.some.inj hr]
      exact ⟨s, rfl, fun hbad => absurd hbad (by simp)⟩
  · rcases Option.map_eq_some_iff.mp hr with ⟨q,hq,rfl⟩
    have hok' := not_not.mp hok
    exact staged_loop behind data.length s _ data q (valid_start parser data hok' hp) (h hok' data) hq

/-- The callbacks of a connection come in the order of the stages. -/
theorem staged_reports (s : Stage) (parser parser' : Parser) (input : Input)
    (tr : List (Call × Input)) (hp : Sane parser) (h : Between s parser)
    (hr : reports parser input = some (parser',tr)) :
    ∃ s', s.run (tr.map Prod.fst) = some s' ∧ Between s' parser' := by
  induction input generalizing s parser tr with
  | nil =>
    obtain ⟨rfl,rfl⟩ := Prod.mk.inj (Option.some.inj hr)
    exact ⟨s, rfl, h⟩
  | cons call later ih =>
    rcases Option.bind_eq_some_iff.mp hr with ⟨r,hcall,hrest⟩
    rcases Option.map_eq_some_iff.mp hrest with ⟨q,hq,he⟩
    obtain ⟨rfl,rfl⟩ := Prod.mk.inj he
    rcases execute_total call.2 parser call.1 hp with ⟨r',hr',hsane⟩
    obtain rfl := Option.some.inj (hcall.symm.trans hr')
    rcases staged_execute call.2 s parser call.1 r hp h hcall with ⟨s1,hrun,hbetween⟩
    rcases ih s1 r.1 q.2 hsane hbetween hq with ⟨s',hlater,hlast⟩
    refine ⟨s', ?_, hlast⟩
    rw [List.map_append, List.map_map, Stage.run_append]
    change (s.run (r.2.1.map Prod.fst)).bind _ = _
    rw [hrun, Option.bind_some, hlater]

/-- Only the completion of a request leads back to where no request has begun. -/
theorem next_idle (s : Stage) (c : Call) (h : s.next c = some .idle) : c.isComplete = true := by
  cases s with
  | idle => cases c <;> simp [Stage.next] at h
  | begun => cases c <;> simp [Stage.next] at h
  | fields complete =>
    cases c with
    | messageComplete q => rfl
    | _ => cases complete <;> simp [Stage.next] at h
  | named complete => cases complete <;> cases c <;> simp [Stage.next] at h

theorem Stage.run_concat (s s' : Stage) (front : List Call) (c : Call) (h : s.run (front ++ [c]) = some s') :
    ∃ s1, s.run front = some s1 ∧ s1.next c = some s' := by
  rw [Stage.run_append] at h
  rcases Option.bind_eq_some_iff.mp h with ⟨s1,hfront,hc⟩
  refine ⟨s1, hfront, ?_⟩
  rcases Option.bind_eq_some_iff.mp hc with ⟨s2,hnext,hnil⟩
  rw [hnext, show s2 = s' from Option.some.inj hnil]

theorem next_complete (s s' : Stage) (q : Parser) (h : s.next (.messageComplete q) = some s') :
    s' = .idle := by
  cases s with
  | fields complete =>
    cases complete with
    | true => exact (Option.some.inj h).symm
    | false => exact absurd h (by simp [Stage.next])
  | _ => exact absurd h (by simp [Stage.next])

/-- A request begins where none has begun. -/
theorem next_begin (s s' : Stage) (q : Parser) (h : s.next (.messageBegin q) = some s') : s = .idle := by
  cases s with
  | idle => rfl
  | begun => exact absurd h (by simp [Stage.next])
  | fields complete => cases complete <;> exact absurd h (by simp [Stage.next])
  | named complete => cases complete <;> exact absurd h (by simp [Stage.next])

def Call.isHead : Call → Bool
  | .headersComplete _ => true
  | _ => false

/-- In the head of a request, and behind it. -/
def Stage.Early (s : Stage) : Prop := s = .begun ∨ s = .fields false ∨ s = .named false

def Stage.Late (s : Stage) : Prop := s = .fields true ∨ s = .named true

/-- The head of a request ends with the call for its end, and none begins or ends before. -/
theorem next_early (s s' : Stage) (c : Call) (hs : s.Early) (h : s.next c = some s') :
    (∃ p, c = .headersComplete p ∧ s = .fields false ∧ s' = .fields true) ∨
      (c.isHead = false ∧ s'.Early ∧ ∀ p, c ≠ .messageBegin p) := by
  have hstay (c : Call) (s1 : Stage) (h1 : s1.Early) (he : some s1 = some s') (hc : c.isHead = false)
      (hb : ∀ p, c ≠ .messageBegin p) : c.isHead = false ∧ s'.Early ∧ ∀ p, c ≠ .messageBegin p :=
    ⟨hc, Option.some.inj he ▸ h1, hb⟩
  rcases hs with rfl | rfl | rfl
  · cases c with
    | url u => exact Or.inr (hstay _ (.fields false) (by simp [Stage.Early]) h rfl (by simp))
    | _ => exact absurd h (by simp [Stage.next])
  · cases c with
    | url u => exact Or.inr (hstay _ (.fields false) (by simp [Stage.Early]) h rfl (by simp))
    | headerField u => exact Or.inr (hstay _ (.named false) (by simp [Stage.Early]) h rfl (by simp))
    | headerValue u => exact Or.inr (hstay _ (.fields false) (by simp [Stage.Early]) h rfl (by simp))
    | headersComplete p => exact Or.inl ⟨p, rfl, rfl, (Option.some.inj h).symm⟩
    | _ => exact absurd h (by simp [Stage.next])
  · cases c with
    | headerField u => exact Or.inr (hstay _ (.named false) (by simp [Stage.Early]) h rfl (by simp))
    | headerValue u => exact Or.inr (hstay _ (.fields false) (by simp [Stage.Early]) h rfl (by simp))
    | _ => exact absurd h (by simp [Stage.next])

/-- Behind its head a request has no other one. -/
theorem next_late (s s' : Stage) (c : Call) (hs : s.Late) (h : s.next c = some s') :
    c.isHead = false ∧ (s'.Late ∨ c.isComplete = true) := by
  have hstay (c : Call) (s1 : Stage) (h1 : s1.Late) (he : some s1 = some s') (hc : c.isHead = false) :
      c.isHead = false ∧ (s'.Late ∨ c.isComplete = true) := ⟨hc, Or.inl (Option.some.inj he ▸ h1)⟩
  rcases hs with rfl | rfl
  · cases c with
    | headerField u => exact hstay _ (.named true) (by simp [Stage.Late]) h rfl
    | headerValue u => exact hstay _ (.fields true) (by simp [Stage.Late]) h rfl
    | body u => exact hstay _ (.fields true) (by simp [Stage.Late]) h rfl
    | messageComplete p => exact ⟨rfl, Or.inr rfl⟩
    | _ => exact absurd h (by simp [Stage.next])
  · cases c with
    | headerField u => exact hstay _ (.named true) (by simp [Stage.Late]) h rfl
    | headerValue u => exact hstay _ (.fields true) (by simp [Stage.Late]) h rfl
    | _ => exact absurd h (by simp [Stage.next])

theorem Stage.run_cons (s s' : Stage) (c : Call) (calls : List Call) :
    s.run (c :: calls) = some s' ↔ ∃ s1, s.next c = some s1 ∧ s1.run calls = some s' :=
  Option.bind_eq_some_iff

/-- In the head the next end of a head is the one of this request. -/
theorem run_early (s : Stage) (calls : List Call) (hs : s.Early) (h : s.run calls = some .idle) :
    ∃ p tail, calls = calls.takeWhile (fun c => !c.isHead) ++ .headersComplete p :: tail ∧
      s.run (calls.takeWhile fun c => !c.isHead) = some (.fields false) ∧
      Stage.run (.fields true) tail = some .idle := by
  induction calls generalizing s with
  | nil =>
    obtain rfl : s = .idle := Option.some.inj h
    exact absurd hs (by simp [Stage.Early])
  | cons c calls ih =>
    rcases (Stage.run_cons s .idle c calls).mp h with ⟨s1,hnext,hrest⟩
    rcases next_early s s1 c hs hnext with ⟨p,rfl,rfl,rfl⟩ | ⟨hc,hs1,-⟩
    · exact ⟨p, calls, rfl, rfl, hrest⟩
    · rcases ih s1 hs1 hrest with ⟨p,tail,hcalls,hhead,htail⟩
      have htake : (c :: calls).takeWhile (fun c => !c.isHead) =
          c :: calls.takeWhile (fun c => !c.isHead) := by rw [List.takeWhile_cons, hc]; rfl
      refine ⟨p, tail, ?_, ?_, htail⟩
      · rw [htake, List.cons_append, ← hcalls]
      · rw [htake]
        exact (Stage.run_cons s _ c _).mpr ⟨s1, hnext, hhead⟩

/-- Behind the head there is no other one up to the completion. -/
theorem run_late (s : Stage) (calls : List Call) (q : Parser) (hs : s.Late)
    (hquiet : ∀ c ∈ calls, c.isComplete = false)
    (h : s.run (calls ++ [.messageComplete q]) = some .idle) :
    ∀ c ∈ calls ++ [.messageComplete q], c.isHead = false := by
  induction calls generalizing s with
  | nil =>
    intro c hc
    rw [List.mem_singleton.mp hc]
    rfl
  | cons d calls ih =>
    rcases (Stage.run_cons s .idle d _).mp h with ⟨s1,hnext,hrest⟩
    rcases next_late s s1 d hs hnext with ⟨hd,hs1⟩
    have hlate := hs1.resolve_right (by rw [hquiet d List.mem_cons_self]; decide)
    intro c hc
    rcases List.mem_cons.mp hc with rfl | hc
    · exact hd
    · exact ih s1 hlate (fun e he => hquiet e (List.mem_cons_of_mem d he)) hrest c hc

end Cclab.HttpParser
