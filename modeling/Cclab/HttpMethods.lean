import Cclab.HttpTotal

/-! `http_method_` is copied when a request begins, and the parser may change its mind on the
method until the request line goes on. -/
namespace Cclab.HttpParser

/-- The call is one of a request that has begun and has this method. -/
def Call.Within (method : HttpMethod) : Call → Prop
  | .messageBegin _ => False
  | .headersComplete parser => parser.method = method
  | _ => True

/-- A request with this method goes on or is completed. -/
def Outcome.Follows (method : HttpMethod) : Outcome → Prop
  | .next m _ calls =>
    (∀ c ∈ calls, c.Within method) ∧ (m.parser.state = .startReq ∨ m.parser.method = method)
  | .leave _ _ calls => ∀ c ∈ calls, c.Within method
  | .abort => True

theorem follows_next (m : Machine) (skip : ℕ) (calls : List Call) (method : HttpMethod)
    (hm : m.parser.method = method) (h : ∀ c ∈ calls, c.Within method) :
    (Outcome.next m skip calls).Follows method := ⟨h,Or.inr hm⟩

theorem follows_pass (m : Machine) (skip : ℕ) (method : HttpMethod) (hm : m.parser.method = method) :
    (Outcome.next m skip []).Follows method :=
  follows_next m skip [] method hm (by simp)

theorem follows_fail (m : Machine) (p : Bytes) (e : HttpErrno) (method : HttpMethod) :
    (m.fail p e).Follows method := by
  intro c hc
  exact absurd hc List.not_mem_nil

theorem follows_breakTo (m : Machine) (s : State) (method : HttpMethod)
    (hm : m.parser.method = method) : (m.breakTo s).Follows method :=
  follows_pass (m.goto s) 0 method hm

theorem follows_expect (m : Machine) (p : Bytes) (good : Bool) (e : HttpErrno) (s : State) :
    (m.expect p good e s).Follows m.parser.method := by
  unfold Machine.expect
  split_ifs
  · exact follows_breakTo m s _ rfl
  · exact follows_fail m p e _

theorem follows_count (m : Machine) (v : ℕ) (p : Bytes) (k : Machine → Outcome) (method : HttpMethod)
    (h : (k { m with parser := { m.parser with nread := m.parser.nread+UInt32.ofNat v } }).Follows
      method) : (m.count v p k).Follows method := by
  unfold Machine.count
  dsimp only
  split_ifs
  · exact follows_fail _ p _ method
  · exact h

theorem follows_complete (m : Machine) (skip : ℕ) (method : HttpMethod) :
    (Outcome.next m.complete.1 skip m.complete.2).Follows method := by
  refine ⟨?_, Or.inl rfl⟩
  intro c hc
  obtain rfl := List.mem_singleton.mp hc
  exact True.intro

theorem Outcome.Follows.after (o : Outcome) (calls : List Call) (method : HttpMethod)
    (h : o.Follows method) (hc : ∀ c ∈ calls, c.Within method) : (o.after calls).Follows method := by
  have happend (calls' : List Call) (h' : ∀ c ∈ calls', c.Within method) :
      ∀ c ∈ calls ++ calls', c.Within method :=
    fun c hmem => (List.mem_append.mp hmem).elim (hc c) (h' c)
  cases o with
  | next m skip calls' => exact ⟨happend calls' h.1, h.2⟩
  | leave m p calls' => exact happend calls' h
  | abort => exact h

theorem callbackData_within (mark : Option Bytes) (on : Bytes → Call) (p : Bytes) (method : HttpMethod)
    (h : ∀ s, (on s).Within method) : ∀ c ∈ callbackData mark on p, c.Within method := by
  cases mark with
  | none => simp [callbackData]
  | some s => simpa [callbackData] using h _

section handlers
variable (m : Machine) (ch : UInt8) (rest : Bytes)

theorem follows_urlChar : (urlChar m ch rest).Follows m.parser.method := by
  unfold urlChar
  dsimp only
  split_ifs
  · exact follows_fail _ _ _ _
  · exact follows_pass _ 0 _ rfl

theorem follows_sReqSpacesBeforeUrl : (sReqSpacesBeforeUrl m ch rest).Follows m.parser.method := by
  unfold sReqSpacesBeforeUrl
  dsimp only
  split_ifs
  · exact follows_pass m 0 _ rfl
  · exact follows_urlChar _ ch rest
  · exact follows_urlChar _ ch rest

theorem follows_sReqSchema : (sReqSchema m ch rest).Follows m.parser.method := by
  unfold sReqSchema
  split_ifs
  · exact follows_fail _ _ _ _
  · exact follows_urlChar m ch rest

theorem follows_sReqServer : (sReqServer m ch rest).Follows m.parser.method := by
  have hurl := callbackData_within m.urlMark .url (ch :: rest) m.parser.method (fun _ => True.intro)
  unfold sReqServer
  dsimp only
  split_ifs
  · exact follows_next _ 0 _ _ rfl hurl
  · exact follows_next _ 0 _ _ rfl hurl
  · exact follows_next _ 0 _ _ rfl hurl
  · exact follows_urlChar m ch rest

theorem follows_sMessageDone (skip : ℕ) (p : Bytes) (method : HttpMethod) :
    (sMessageDone m skip p).Follows method := follows_complete m skip method

theorem follows_sHeadersDone : (sHeadersDone m ch rest).Follows m.parser.method := by
  unfold sHeadersDone
  dsimp only
  split_ifs
  · exact follows_fail _ _ _ _
  · intro c hc
    obtain rfl := List.mem_singleton.mp hc
    exact True.intro
  · exact follows_complete _ 0 _
  · exact follows_breakTo _ _ _ rfl
  · exact follows_complete _ 0 _
  · exact follows_breakTo _ _ _ rfl
  · exact follows_complete _ 0 _
  · exact follows_breakTo _ _ _ rfl

theorem follows_sHeadersAlmostDone : (sHeadersAlmostDone m ch rest).Follows m.parser.method := by
  unfold sHeadersAlmostDone
  dsimp only
  split_ifs
  · exact follows_fail _ _ _ _
  · exact follows_sMessageDone _ 0 rest _
  · exact follows_fail _ _ _ _
  · apply Outcome.Follows.after
    · exact follows_sHeadersDone _ ch rest
    · simp [Call.Within]
  · apply Outcome.Follows.after
    · exact follows_sHeadersDone _ ch rest
    · simp [Call.Within]

theorem follows_sHeaderFieldStart : (sHeaderFieldStart m ch rest).Follows m.parser.method := by
  unfold sHeaderFieldStart
  split_ifs
  · exact follows_breakTo m _ _ rfl
  · exact follows_sHeadersAlmostDone (m.goto .headersAlmostDone) ch rest
  · exact follows_fail _ _ _ _
  · exact follows_pass _ 0 _ rfl

theorem follows_sHeaderField : (sHeaderField m ch rest).Follows m.parser.method := by
  unfold sHeaderField
  dsimp only
  cases headerFieldLoop m.parser.headerState m.parser.index (ch :: rest) with
  | none => exact True.intro
  | some r =>
    apply follows_count
    dsimp only
    cases (ch :: rest).drop r.2.2 with
    | nil => exact follows_pass _ _ _ rfl
    | cons c p =>
      dsimp only
      split_ifs
      · exact follows_next _ _ _ _ rfl (callbackData_within _ _ _ _ (fun _ => True.intro))
      · exact follows_fail _ _ _ _

theorem follows_sHeaderValueStart : (sHeaderValueStart m ch rest).Follows m.parser.method := by
  unfold sHeaderValueStart
  dsimp only
  cases m.parser.headerState with
  | contentLength =>
    dsimp only
    split_ifs
    · exact follows_fail _ _ _ _
    · exact follows_pass _ 0 _ rfl
    · exact follows_fail _ _ _ _
  | _ => exact follows_pass _ 0 _ rfl

theorem follows_sHeaderValueDiscardWs : (sHeaderValueDiscardWs m ch rest).Follows m.parser.method := by
  unfold sHeaderValueDiscardWs
  split_ifs
  · exact follows_pass m 0 _ rfl
  · exact follows_breakTo m _ _ rfl
  · exact follows_breakTo m _ _ rfl
  · exact follows_sHeaderValueStart m ch rest

theorem follows_sHeaderValueLws : (sHeaderValueLws m ch rest).Follows m.parser.method := by
  unfold sHeaderValueLws
  split_ifs
  · exact follows_sHeaderValueStart (m.goto .headerValueStart) ch rest
  · exact follows_sHeaderFieldStart _ ch rest

theorem follows_sHeaderValueDiscardLws :
    (sHeaderValueDiscardLws m ch rest).Follows m.parser.method := by
  unfold sHeaderValueDiscardLws
  dsimp only
  split_ifs
  · exact follows_breakTo m _ _ rfl
  · apply Outcome.Follows.after
    · exact follows_sHeaderFieldStart _ ch rest
    · exact callbackData_within _ _ _ _ (fun _ => True.intro)

/-- The loop over a value keeps the method. -/
theorem follows_sHeaderValue (hv : valueState m.parser.headerState) :
    (sHeaderValue m ch rest).Follows m.parser.method := by
  have hgood := headerValueLoop_good m.parser.headerState m.parser (ch :: rest) hv
  unfold sHeaderValue
  dsimp only
  cases hloop : headerValueLoop m.parser.headerState m.parser (ch :: rest) with
  | abort => exact True.intro
  | error parser n => simp [Outcome.Follows]
  -- the data end inside the value, or its line does
  | data h' parser n =>
    rw [hloop] at hgood
    rw [← hgood.2.2.1]
    apply follows_count
    exact follows_pass _ n _ rfl
  | line h' parser n =>
    rw [hloop] at hgood
    have hcall := callbackData_within m.headerValueMark .headerValue ((ch :: rest).drop n)
      parser.method (fun _ => True.intro)
    rw [← hgood.2.2.1]
    dsimp only
    split_ifs
    · apply Outcome.Follows.after
      · apply follows_count
        exact follows_pass _ n _ rfl
      · exact hcall
    · apply follows_count
      exact follows_next _ n _ _ rfl hcall

theorem follows_sBodyIdentity : (sBodyIdentity m ch rest).Follows m.parser.method := by
  unfold sBodyIdentity
  dsimp only
  split_ifs
  · exact True.intro
  · apply Outcome.Follows.after
    · exact follows_sMessageDone _ _ _ _
    · exact callbackData_within _ _ _ _ (fun _ => True.intro)
  · exact follows_pass _ _ _ rfl

theorem follows_sBodyIdentityEof : (sBodyIdentityEof m ch rest).Follows m.parser.method :=
  follows_pass _ _ _ rfl

theorem follows_sChunkData : (sChunkData m ch rest).Follows m.parser.method := by
  unfold sChunkData
  dsimp only
  split_ifs
  · exact True.intro
  · exact follows_pass _ _ _ rfl
  · exact follows_pass _ _ _ rfl

theorem follows_sChunkSizeStart : (sChunkSizeStart m ch rest).Follows m.parser.method := by
  unfold sChunkSizeStart
  by_cases hassert : m.parser.nread ≠ 1 ∨ (!m.parser.flags.chunked) = true
  · rw [if_pos hassert]
    exact True.intro
  · rw [if_neg hassert]
    cases unhex ch with
    | none => exact follows_fail _ _ _ _
    | some v => exact follows_pass _ 0 _ rfl

theorem follows_sChunkSize : (sChunkSize m ch rest).Follows m.parser.method := by
  unfold sChunkSize
  by_cases hassert : (!m.parser.flags.chunked) = true
  · rw [if_pos hassert]
    exact True.intro
  · rw [if_neg hassert]
    by_cases hcr : ch = CR
    · rw [if_pos hcr]
      exact follows_breakTo m _ _ rfl
    · rw [if_neg hcr]
      cases unhex ch with
      | none =>
        dsimp only
        split_ifs
        · exact follows_breakTo m _ _ rfl
        · exact follows_fail _ _ _ _
      | some v =>
        dsimp only
        cases pushDigit 16 m.parser.contentLength v.toUInt64 with
        | none => exact follows_fail _ _ _ _
        | some t => exact follows_pass _ 0 _ rfl

theorem follows_sChunkParameters : (sChunkParameters m ch).Follows m.parser.method := by
  unfold sChunkParameters
  split_ifs
  · exact True.intro
  · exact follows_breakTo m _ _ rfl
  · exact follows_pass m 0 _ rfl

theorem follows_sChunkSizeAlmostDone : (sChunkSizeAlmostDone m ch rest).Follows m.parser.method := by
  unfold sChunkSizeAlmostDone
  dsimp only
  split_ifs
  · exact True.intro
  · exact follows_fail _ _ _ _
  · exact follows_pass _ 0 _ rfl
  · exact follows_breakTo _ _ _ rfl

theorem follows_sChunkDataAlmostDone : (sChunkDataAlmostDone m ch rest).Follows m.parser.method := by
  unfold sChunkDataAlmostDone
  split_ifs
  · exact True.intro
  · exact follows_fail _ _ _ _
  · exact follows_next _ 0 _ _ rfl (callbackData_within _ _ _ _ (fun _ => True.intro))

theorem follows_sChunkDataDone : (sChunkDataDone m ch rest).Follows m.parser.method := by
  unfold sChunkDataDone
  split_ifs
  · exact True.intro
  · exact follows_fail _ _ _ _
  · exact follows_breakTo _ _ _ rfl

end handlers

/-- Behind the method of its request line the parser keeps the method. -/
theorem follows_switch (behind : UInt8) (m : Machine) (ch : UInt8) (rest : Bytes)
    (hv : m.parser.state = .headerValue → valueState m.parser.headerState)
    (hstart : m.parser.state ≠ .startReq) (hmethod : m.parser.state ≠ .reqMethod) :
    (switch behind m ch rest).Follows m.parser.method := by
  unfold switch
  dsimp only
  cases hs : m.parser.state with
  | startReq => exact absurd hs hstart
  | reqMethod => exact absurd hs hmethod
  -- no handler from here on assigns the method
  | dead =>
    unfold sDead
    split_ifs
    · exact follows_pass m 0 _ rfl
    · exact follows_fail _ _ _ _
  | reqSpacesBeforeUrl => exact follows_sReqSpacesBeforeUrl m ch rest
  | reqSchema | reqSchemaSlash | reqSchemaSlashSlash | reqServerStart =>
    exact follows_sReqSchema m ch rest
  | reqServer | reqServerWithAt | reqPath | reqQueryStringStart | reqQueryString
  | reqFragmentStart | reqFragment => exact follows_sReqServer m ch rest
  | reqHttpStart =>
    unfold sReqHttpStart
    split_ifs
    · exact follows_breakTo m _ _ rfl
    · exact follows_pass m 0 _ rfl
    · exact follows_fail _ _ _ _
  | reqHttpMajor =>
    unfold sReqHttpMajor
    split_ifs
    · exact follows_breakTo _ _ _ rfl
    · exact follows_fail _ _ _ _
  | reqHttpMinor =>
    unfold sReqHttpMinor
    split_ifs
    · exact follows_breakTo _ _ _ rfl
    · exact follows_fail _ _ _ _
  | reqHttpEnd =>
    unfold sReqHttpEnd
    split_ifs
    · exact follows_breakTo m _ _ rfl
    · exact follows_breakTo m _ _ rfl
    · exact follows_fail _ _ _ _
  | reqHttpH | reqHttpHT | reqHttpHTT | reqHttpHTTP | reqHttpDot | reqLineAlmostDone
  | headerAlmostDone | headerValueDiscardWsAlmostDone => exact follows_expect m _ _ _ _
  | headerFieldStart => exact follows_sHeaderFieldStart m ch rest
  | headerField => exact follows_sHeaderField m ch rest
  | headerValueDiscardWs => exact follows_sHeaderValueDiscardWs m ch rest
  | headerValueStart => exact follows_sHeaderValueStart m ch rest
  | headerValue => exact follows_sHeaderValue m ch rest (hv hs)
  | headerValueLws => exact follows_sHeaderValueLws m ch rest
  | headerValueDiscardLws => exact follows_sHeaderValueDiscardLws m ch rest
  | headersAlmostDone => exact follows_sHeadersAlmostDone m ch rest
  | headersDone => exact follows_sHeadersDone m ch rest
  | bodyIdentity => exact follows_sBodyIdentity m ch rest
  | bodyIdentityEof => exact follows_sBodyIdentityEof m ch rest
  | messageDone => exact follows_sMessageDone m 0 rest _
  | chunkSizeStart => exact follows_sChunkSizeStart m ch rest
  | chunkSize => exact follows_sChunkSize m ch rest
  | chunkParameters => exact follows_sChunkParameters m ch
  | chunkSizeAlmostDone => exact follows_sChunkSizeAlmostDone m ch rest
  | chunkData => exact follows_sChunkData m ch rest
  | chunkDataAlmostDone => exact follows_sChunkDataAlmostDone m ch rest
  | chunkDataDone => exact follows_sChunkDataDone m ch rest

end Cclab.HttpParser
