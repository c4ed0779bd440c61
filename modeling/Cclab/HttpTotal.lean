import Cclab.HttpValidStrings

/-! No assertion of `http_parser_execute` fails, on any sequence of calls. -/
namespace Cclab.HttpParser

/-- One handler for each state. The byte is counted already, so the first state of a chunk size is
left to `keeps_iteration`. -/
theorem keeps_switch (behind : UInt8) (m : Machine) (ch : UInt8) (rest : Bytes) (h : Valid m)
    (hstart : m.parser.state ≠ .chunkSizeStart) : (switch behind m ch rest).Keeps := by
  have hplain (hf : m.parser.state ≠ .headerField ∧ m.parser.state ≠ .headerValue ∧
      urlState m.parser.state = false ∧ bodyState m.parser.state = false) : Plain m :=
    h.plain m hf.1 hf.2.1 hf.2.2.1 hf.2.2.2
  have ha := h.asserted
  unfold switch
  dsimp only
  cases hs : m.parser.state with
  | dead => exact keeps_sDead m ch rest (hplain (by rw [hs]; decide)) ha
  | startReq => exact keeps_sStartReq m ch rest (hplain (by rw [hs]; decide)) behind ha
  | reqMethod => exact keeps_sReqMethod m ch rest (hplain (by rw [hs]; decide)) hs
  | reqSpacesBeforeUrl => exact keeps_sReqSpacesBeforeUrl m ch rest (hplain (by rw [hs]; decide)) ha
  | reqSchema | reqSchemaSlash | reqSchemaSlashSlash | reqServerStart =>
    exact keeps_sReqSchema m ch rest h (by rw [hs]; rfl)
  | reqServer | reqServerWithAt | reqPath | reqQueryStringStart | reqQueryString
  | reqFragmentStart | reqFragment => exact keeps_sReqServer m ch rest h (by rw [hs]; rfl)
  | reqHttpStart => exact keeps_sReqHttpStart m ch rest (hplain (by rw [hs]; decide)) hs
  | reqHttpMajor => exact keeps_sReqHttpMajor m ch rest (hplain (by rw [hs]; decide))
  | reqHttpMinor => exact keeps_sReqHttpMinor m ch rest (hplain (by rw [hs]; decide))
  | reqHttpEnd => exact keeps_sReqHttpEnd m ch rest (hplain (by rw [hs]; decide))
  | reqHttpH | reqHttpHT | reqHttpHTT | reqHttpHTTP | reqHttpDot | reqLineAlmostDone
  | headerAlmostDone | headerValueDiscardWsAlmostDone =>
    exact keeps_expect m _ _ _ _ (hplain (by rw [hs]; decide)) (by decide) True.intro
  | headerFieldStart => exact keeps_sHeaderFieldStart m ch rest (hplain (by rw [hs]; decide))
  | headerField => exact keeps_sHeaderField m ch rest h hs
  | headerValueDiscardWs =>
    exact keeps_sHeaderValueDiscardWs m ch rest (hplain (by rw [hs]; decide)) ha
  | headerValueStart => exact keeps_sHeaderValueStart m ch rest (hplain (by rw [hs]; decide))
  | headerValue => exact keeps_sHeaderValue m ch rest h hs
  | headerValueLws => exact keeps_sHeaderValueLws m ch rest (hplain (by rw [hs]; decide))
  | headerValueDiscardLws =>
    exact keeps_sHeaderValueDiscardLws m ch rest (hplain (by rw [hs]; decide))
  | headersAlmostDone => exact keeps_sHeadersAlmostDone m ch rest (hplain (by rw [hs]; decide))
  | headersDone => exact keeps_sHeadersDone m ch rest (hplain (by rw [hs]; decide))
  | bodyIdentity => exact keeps_sBodyIdentity m ch rest h hs
  | bodyIdentityEof => exact keeps_sBodyIdentityEof m ch rest h hs
  | messageDone => exact keeps_sMessageDone m (hplain (by rw [hs]; decide)) 0 rest
  | chunkSizeStart => exact absurd hs hstart
  -- the chunk states assert that the body is chunked, which `Asserted` remembers
  | chunkSize =>
    rw [Asserted, hs] at ha
    exact keeps_sChunkSize m ch rest (hplain (by rw [hs]; decide)) hs ha.1 ha.2
  | chunkParameters =>
    have hc := ha
    rw [Asserted, hs] at hc
    exact keeps_sChunkParameters m ch (hplain (by rw [hs]; decide)) ha hc.1 hc.2
  | chunkSizeAlmostDone =>
    rw [Asserted, hs] at ha
    exact keeps_sChunkSizeAlmostDone m ch rest (hplain (by rw [hs]; decide)) ha.1 ha.2
  | chunkData => exact keeps_sChunkData m ch rest h hs
  | chunkDataAlmostDone => exact keeps_sChunkDataAlmostDone m ch rest h hs
  | chunkDataDone =>
    rw [Asserted, hs] at ha
    exact keeps_sChunkDataDone m ch rest (hplain (by rw [hs]; decide)) ha

theorem keeps_iteration (behind : UInt8) (m : Machine) (ch : UInt8) (rest : Bytes) (h : Valid m) :
    (iteration behind m ch rest).Keeps := by
  unfold iteration
  by_cases hheader : parsingHeader m.parser.state = true
  · rw [if_pos hheader]
    apply keeps_count
    by_cases hs : m.parser.state = .chunkSizeStart
    -- it asserts that the byte which has just been counted is the first one
    · have ha := h.asserted
      rw [Asserted, hs] at ha
      have hplain : Plain m := h.plain m (by rw [hs]; decide) (by rw [hs]; decide)
        (by rw [hs]; rfl) (by rw [hs]; rfl)
      have hgo : ∀ k : Machine, k.parser.state = .chunkSizeStart →
          switch behind k ch rest = sChunkSizeStart k ch rest := by
        intro k hk
        unfold switch
        rw [hk]
      rw [hgo { m with parser := { m.parser with nread := m.parser.nread+UInt32.ofNat 1 } } hs]
      refine keeps_sChunkSizeStart _ ch rest (hplain.of_parser m _ h.ok) ha.1 ?_
      dsimp only
      rw [ha.2]
      rfl
    · refine keeps_switch behind _ ch rest ?_ hs
      refine ⟨h.ok, h.field, h.value, h.url, h.body, ?_⟩
      have ha := h.asserted
      rw [Asserted] at ha ⊢
      cases hstate : m.parser.state <;> simp_all
  · rw [if_neg hheader]
    apply keeps_switch behind m ch rest h
    intro hs
    rw [hs] at hheader
    exact hheader rfl

/-- At most one mark is left over. -/
theorem Valid.flush (m : Machine) (h : Valid m) :
    ∃ calls, m.flush = some calls ∧ ∀ c ∈ calls, c.isComplete = false := by
  refine ⟨_, if_pos ?_, ?_⟩
  -- every mark belongs to states of its own, so a state allows one of them
  · have hone (mark : Option Bytes) (on : Bytes → Call) : (callbackData mark on []).length ≤ 1 := by
      cases mark <;> simp [callbackData]
    by_cases hf : m.parser.state = .headerField
    · rcases h.field_only m hf with ⟨hv,hu,hb⟩
      rw [hv, hu, hb]
      simpa [callbackData] using hone m.headerFieldMark .headerField
    by_cases hv : m.parser.state = .headerValue
    · rcases h.value_only m hv with ⟨hf,hu,hb⟩
      rw [hf, hu, hb]
      simpa [callbackData] using hone m.headerValueMark .headerValue
    by_cases hu : urlState m.parser.state
    · rcases h.url_only m hu with ⟨hf,hv,hb⟩
      rw [hf, hv, hb]
      simpa [callbackData] using hone m.urlMark .url
    by_cases hb : bodyState m.parser.state
    · rcases h.body_only m hb with ⟨hf,hv,hu⟩
      rw [hf, hv, hu]
      simpa [callbackData] using hone m.bodyMark .body
    have hp := h.plain m hf hv (by simpa using hu) (by simpa using hb)
    rw [hp.field, hp.value, hp.url, hp.body]
    simp [callbackData]
  · simp only [List.mem_append]
    rintro c (((hc | hc) | hc) | hc)
    · exact callbackData_quiet _ _ _ (fun _ => rfl) c hc
    · exact callbackData_quiet _ _ _ (fun _ => rfl) c hc
    · exact callbackData_quiet _ _ _ (fun _ => rfl) c hc
    · exact callbackData_quiet _ _ _ (fun _ => rfl) c hc

/-- A parser that a call of `http_parser_execute` may meet. -/
def Sane (parser : Parser) : Prop := parser.httpErrno = .ok → Asserted parser

/-- The parser waits for a request or has failed. -/
def Idle (parser : Parser) : Prop := parser.httpErrno ≠ .ok ∨ parser.state = .startReq

theorem sane_init : Sane httpParserInit := fun _ => True.intro

theorem valid_start (parser : Parser) (data : Bytes) (hok : parser.httpErrno = .ok) (h : Sane parser) :
    Valid (startMachine parser data) := by
  refine ⟨hok, ?_, ?_, ?_, fun hn => absurd rfl hn, h hok⟩
  · intro hn
    by_contra hs
    exact hn (if_neg hs)
  · intro hn
    by_contra hs
    exact hn (if_neg hs)
  · intro hn
    by_contra hs
    exact hn (if_neg hs)

/-- The fuel does not run out. -/
theorem loop_fuel (behind : UInt8) (n k : ℕ) (m : Machine) (p : Bytes) (hn : p.length ≤ n)
    (hk : p.length ≤ k) : loop behind n m p = loop behind k m p := by
  induction n generalizing k m p with
  | zero =>
    obtain rfl : p = [] := List.length_eq_zero_iff.mp (Nat.le_zero.mp hn)
    cases k <;> rfl
  | succ n ih =>
    cases p with
    | nil => cases k <;> rfl
    | cons ch rest =>
      cases k with
      | zero => exact absurd hk (by simp)
      | succ k =>
        rw [List.length_cons] at hn hk
        unfold loop
        cases iteration behind m ch rest with
        | next m' skip calls =>
          -- every iteration uses up at least the byte that it is given
          have hlen : (rest.drop skip).length ≤ rest.length := by
            rw [List.length_drop]
            omega
          dsimp only
          rw [ih k m' (rest.drop skip) (by omega) (by omega)]
        | leave m' p calls => rfl
        | abort => rfl

/-- The loop returns, whatever it is given: no assertion fails. -/
theorem loop_total (behind : UInt8) (n : ℕ) (m : Machine) (p : Bytes) (h : Valid m) :
    ∃ r, loop behind n m p = some r ∧ Sane r.1 := by
  -- where the data end, at most one mark is left to report
  have hflush : ∃ r, (m.flush.map fun calls => (m.parser, withUnread [] calls, p)) = some r ∧
      Sane r.1 := by
    rcases h.flush m with ⟨calls,hc,-⟩
    rw [hc]
    exact ⟨_, rfl, fun _ => h.asserted⟩
  induction n generalizing m p with
  | zero => exact hflush
  | succ n ih =>
    cases p with
    | nil => exact hflush
    | cons ch rest =>
      have hkeeps := keeps_iteration behind m ch rest h
      unfold loop
      cases hi : iteration behind m ch rest with
      | next m' skip calls =>
        rw [hi] at hkeeps
        rcases hkeeps.1.flush m' with ⟨quiet,hc,-⟩
        rcases ih m' (rest.drop skip) hkeeps.1
          ⟨_, by rw [hc]; rfl, fun _ => hkeeps.1.asserted⟩ with ⟨r,hr,hs⟩
        dsimp only
        rw [hr]
        exact ⟨_, rfl, hs⟩
      -- the function is left with an error or with a new parser
      | leave m' p calls =>
        rw [hi] at hkeeps
        refine ⟨_, rfl, ?_⟩
        intro hok
        dsimp only at hok ⊢
        rw [hkeeps.2.resolve_left (not_not_intro hok)]
        exact True.intro
      | abort =>
        rw [hi] at hkeeps
        exact hkeeps.elim

/-- A call reports nothing and leaves the parser as it is or with an error, or it ends a body that
lasts until the input ends, or it runs the loop. -/
theorem execute_cases (behind : UInt8) (parser : Parser) (data : Bytes)
    (r : Parser × List (Call × Bytes) × ℕ) (h : httpParserExecute behind parser data = some r) :
    (r.2.1 = [] ∧ (r.1 = parser ∨ r.1.httpErrno ≠ .ok) ∧ (data ≠ [] → r.2.2 = 0)) ∨
    (data = [] ∧ r = (httpParserInit,[(.messageComplete parser,[])],0)) ∨
    (parser.httpErrno = .ok ∧
      ∃ s, loop behind data.length (startMachine parser data) data = some s ∧
        r = (s.1,s.2.1,data.length-s.2.2.length)) := by
  unfold httpParserExecute at h
  by_cases hok : parser.httpErrno = .ok
  · rw [if_neg (not_not_intro hok)] at h
    by_cases hdata : data = []
    · rw [if_pos hdata] at h
      cases hs : parser.state with
      | bodyIdentityEof =>
        rw [hs] at h
        exact Or.inr (Or.inl ⟨hdata, (Option.some.inj h).symm⟩)
      | dead | startReq =>
        rw [hs] at h
        rw [← Option.some.inj h]
        exact Or.inl ⟨rfl, Or.inl rfl, fun _ => rfl⟩
      -- the input ended inside a request
      | _ =>
        rw [hs] at h
        rw [← Option.some.inj h]
        exact Or.inl ⟨rfl, Or.inr (by simp), fun hne => absurd hdata hne⟩
    · rw [if_neg hdata] at h
      rcases Option.map_eq_some_iff.mp h with ⟨s,hs,he⟩
      exact Or.inr (Or.inr ⟨hok, s, hs, he.symm⟩)
  · rw [if_pos hok] at h
    rw [← Option.some.inj h]
    exact Or.inl ⟨rfl, Or.inl rfl, fun _ => rfl⟩

theorem execute_total (behind : UInt8) (parser : Parser) (data : Bytes) (h : Sane parser) :
    ∃ r, httpParserExecute behind parser data = some r ∧ Sane r.1 := by
  unfold httpParserExecute
  by_cases hok : parser.httpErrno = .ok
  · rw [if_neg (not_not_intro hok)]
    by_cases hdata : data = []
    · rw [if_pos hdata]
      cases parser.state with
      | bodyIdentityEof => exact ⟨_, rfl, sane_init⟩
      | dead | startReq => exact ⟨_, rfl, h⟩
      | _ => exact ⟨_, rfl, fun he => absurd he (by simp)⟩
    · rw [if_neg hdata]
      rcases loop_total behind data.length _ data (valid_start parser data hok h) with ⟨r,hr,hs⟩
      rw [hr]
      exact ⟨_, rfl, hs⟩
  · rw [if_pos hok]
    exact ⟨_, rfl, h⟩

/-- Every sequence of calls of the parser returns. -/
theorem reports_total (parser : Parser) (input : Input) (h : Sane parser) :
    ∃ r, reports parser input = some r ∧ Sane r.1 := by
  induction input generalizing parser with
  | nil => exact ⟨_, rfl, h⟩
  | cons call later ih =>
    rcases execute_total call.2 parser call.1 h with ⟨r,hr,hs⟩
    rcases ih r.1 hs with ⟨q,hq,hs'⟩
    refine ⟨(q.1, r.2.1.map (fun c => (c.1,(c.2,call.2) :: later)) ++ q.2), ?_, hs'⟩
    rw [reports, hr, Option.bind_some, hq]
    rfl

end Cclab.HttpParser
