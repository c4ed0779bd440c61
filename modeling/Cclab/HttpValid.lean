import Cclab.HttpExecute

/-! What holds between two bytes of the parser's loop: which marks may be set in which state,
and what the assertions of the code rely on. -/
namespace Cclab.HttpParser

def bodyState : State → Bool
  | .chunkData | .chunkDataAlmostDone | .bodyIdentity | .bodyIdentityEof => true
  | _ => false

/-- The header states in which the loop of `s_header_field` goes on. -/
def fieldState : HeaderState → Bool
  | .general | .c | .co | .con | .matchingConnection | .matchingProxyConnection
  | .matchingContentLength | .matchingTransferEncoding | .matchingUpgrade | .connection
  | .contentLength | .transferEncoding | .upgrade => true
  | _ => false

/-- What the assertions of the state need. -/
def Asserted (parser : Parser) : Prop :=
  match parser.state with
  | .headerField => fieldState parser.headerState
  | .headerValue => parser.headerState ≠ .connection ∧ parser.headerState ≠ .transferEncoding
  | .chunkSizeStart => parser.flags.chunked ∧ parser.nread = 0
  | .chunkSize | .chunkParameters | .chunkSizeAlmostDone =>
    parser.flags.chunked ∧ parser.contentLength ≠ ullongMax
  | .chunkData =>
    parser.flags.chunked ∧ parser.contentLength ≠ 0 ∧ parser.contentLength ≠ ullongMax
  | .chunkDataAlmostDone => parser.flags.chunked ∧ parser.contentLength = 0
  | .chunkDataDone => parser.flags.chunked
  | .bodyIdentity => parser.contentLength ≠ 0 ∧ parser.contentLength ≠ ullongMax
  | _ => True

structure Valid (m : Machine) : Prop where
  ok : m.parser.httpErrno = .ok
  field : m.headerFieldMark ≠ none → m.parser.state = .headerField
  value : m.headerValueMark ≠ none → m.parser.state = .headerValue
  url : m.urlMark ≠ none → urlState m.parser.state
  body : m.bodyMark ≠ none → bodyState m.parser.state
  asserted : Asserted m.parser

/-- No mark is set and there is no error. -/
structure Plain (m : Machine) : Prop where
  ok : m.parser.httpErrno = .ok
  field : m.headerFieldMark = none
  value : m.headerValueMark = none
  url : m.urlMark = none
  body : m.bodyMark = none

/-- A new parser, as `message_complete_cb` leaves it. -/
def fresh : Machine := ⟨httpParserInit,none,none,none,none⟩

/-- Behind a call of `OnComplete` nothing more is called, and then `P` holds. -/
def Ends (calls : List Call) (P : Prop) : Prop :=
  ∀ before q after, calls = before ++ .messageComplete q :: after → after = [] ∧ P

def Call.isComplete : Call → Bool
  | .messageComplete _ => true
  | _ => false

def Outcome.Keeps : Outcome → Prop
  | .next m _ calls => Valid m ∧ Ends calls (m = fresh)
  | .leave m _ calls =>
    Ends calls (m.parser = httpParserInit) ∧
      (m.parser.httpErrno ≠ .ok ∨ m.parser = httpParserInit)
  | .abort => False

theorem Plain.valid (m : Machine) (h : Plain m) (ha : Asserted m.parser) : Valid m :=
  ⟨h.ok, fun hn => absurd h.field hn, fun hn => absurd h.value hn, fun hn => absurd h.url hn,
    fun hn => absurd h.body hn, ha⟩

/-- Only the parser matters, and of the parser only its error. -/
theorem Plain.of_parser (m : Machine) (h : Plain m) (parser : Parser) (hp : parser.httpErrno = .ok) :
    Plain { m with parser := parser } :=
  ⟨hp, h.field, h.value, h.url, h.body⟩

theorem Plain.validOf (m : Machine) (h : Plain m) (parser : Parser) (hp : parser.httpErrno = .ok)
    (ha : Asserted parser) : Valid { m with parser := parser } :=
  (h.of_parser m parser hp).valid _ ha

theorem Valid.plain (m : Machine) (h : Valid m) (hf : m.parser.state ≠ .headerField)
    (hv : m.parser.state ≠ .headerValue) (hu : urlState m.parser.state = false)
    (hb : bodyState m.parser.state = false) : Plain m := by
  refine ⟨h.ok, ?_, ?_, ?_, ?_⟩
  · by_contra hn
    exact hf (h.field hn)
  · by_contra hn
    exact hv (h.value hn)
  · by_contra hn
    exact absurd (h.url hn) (by rw [hu]; decide)
  · by_contra hn
    exact absurd (h.body hn) (by rw [hb]; decide)

theorem plain_fresh : Plain fresh := ⟨rfl,rfl,rfl,rfl,rfl⟩

theorem valid_fresh : Valid fresh := plain_fresh.valid fresh True.intro

theorem ends_of_quiet (calls : List Call) (P : Prop) (h : ∀ c ∈ calls, c.isComplete = false) :
    Ends calls P := by
  intro before q after he
  have hq := h (.messageComplete q) (by rw [he]; simp)
  exact absurd hq (by simp [Call.isComplete])

theorem ends_nil (P : Prop) : Ends [] P := ends_of_quiet [] P (by simp)

theorem Ends.after (quiet calls : List Call) (P : Prop) (hq : ∀ c ∈ quiet, c.isComplete = false)
    (h : Ends calls P) : Ends (quiet ++ calls) P := by
  intro before q after he
  rcases List.append_eq_append_iff.mp he with ⟨a,hb,hc⟩ | ⟨a,hq',ha⟩
  · exact h a q after hc
  · cases a with
    | nil => exact h [] q after (by rw [List.nil_append] at ha; exact ha.symm)
    | cons c a =>
      obtain ⟨rfl,-⟩ := List.cons.inj ha
      have hc := hq (.messageComplete q) (by rw [hq']; simp)
      exact absurd hc (by simp [Call.isComplete])

theorem ends_complete (q : Parser) (P : Prop) (h : P) : Ends [.messageComplete q] P := by
  intro before q' after he
  rcases List.append_eq_singleton_iff.mp he.symm with ⟨-,hs⟩ | ⟨-,hs⟩
  · exact ⟨(List.cons.inj hs).2,h⟩
  · exact absurd hs (by simp)

theorem keeps_next (m : Machine) (skip : ℕ) (calls : List Call) (h : Valid m)
    (hq : ∀ c ∈ calls, c.isComplete = false) : (Outcome.next m skip calls).Keeps :=
  ⟨h, ends_of_quiet calls _ hq⟩

theorem keeps_pass (m : Machine) (skip : ℕ) (h : Valid m) : (Outcome.next m skip []).Keeps :=
  keeps_next m skip [] h (by simp)

theorem keeps_fail (m : Machine) (p : Bytes) (e : HttpErrno) (he : e ≠ .ok) : (m.fail p e).Keeps :=
  ⟨ends_nil _, Or.inl he⟩

theorem keeps_breakTo (m : Machine) (s : State) (h : Plain m) (ha : Asserted (m.goto s).parser) :
    (m.breakTo s).Keeps :=
  keeps_pass _ 0 (h.validOf m _ h.ok ha)

theorem keeps_expect (m : Machine) (p : Bytes) (good : Bool) (e : HttpErrno) (s : State) (h : Plain m)
    (he : e ≠ .ok) (ha : Asserted (m.goto s).parser) : (m.expect p good e s).Keeps := by
  unfold Machine.expect
  cases good with
  | true => exact keeps_breakTo m s h ha
  | false => exact keeps_fail m p e he

theorem keeps_count (m : Machine) (v : ℕ) (p : Bytes) (k : Machine → Outcome)
    (h : (k { m with parser := { m.parser with nread := m.parser.nread+UInt32.ofNat v } }).Keeps) :
    (m.count v p k).Keeps := by
  unfold Machine.count
  dsimp only
  split_ifs
  · exact keeps_fail _ p _ (by decide)
  · exact h

theorem Outcome.Keeps.after (o : Outcome) (quiet : List Call) (h : o.Keeps)
    (hq : ∀ c ∈ quiet, c.isComplete = false) : (o.after quiet).Keeps := by
  cases o with
  | next m skip calls => exact ⟨h.1, h.2.after quiet calls _ hq⟩
  | leave m p calls => exact ⟨h.1.after quiet calls _ hq, h.2⟩
  | abort => exact h

theorem callbackData_quiet (mark : Option Bytes) (on : Bytes → Call) (p : Bytes)
    (h : ∀ s, (on s).isComplete = false) : ∀ c ∈ callbackData mark on p, c.isComplete = false := by
  cases mark with
  | none => simp [callbackData]
  | some s => simpa [callbackData] using h _

/-- With no mark set, `message_complete_cb` leaves the loop as a new parser starts it. -/
theorem complete_eq (m : Machine) (h : Plain m) : m.complete.1 = fresh := by
  rw [Machine.complete, h.field, h.value, h.url, h.body]
  rfl

theorem keeps_complete (m : Machine) (skip : ℕ) (h : Plain m) :
    (Outcome.next m.complete.1 skip m.complete.2).Keeps :=
  ⟨complete_eq m h ▸ valid_fresh, ends_complete _ _ (complete_eq m h)⟩

section plain
variable (m : Machine) (ch : UInt8) (rest : Bytes) (h : Plain m)
include h

theorem keeps_sDead (ha : Asserted m.parser) : (sDead m ch rest).Keeps := by
  unfold sDead
  split_ifs
  · exact keeps_pass m 0 (h.valid m ha)
  · exact keeps_fail m _ _ (by decide)

theorem keeps_sStartReq (behind : UInt8) (ha : Asserted m.parser) :
    (sStartReq m ch rest behind).Keeps := by
  unfold sStartReq
  dsimp only
  split_ifs
  · exact keeps_pass m 0 (h.valid m ha)
  · cases startMethod ch (rest.headD behind) with
    | none => exact keeps_fail _ _ _ (by decide)
    | some method =>
      exact keeps_next _ 0 _ (h.validOf m _ h.ok True.intro) (by simp [Call.isComplete])
  · exact keeps_fail _ _ _ (by decide)

theorem keeps_sReqMethod (hs : m.parser.state = .reqMethod) : (sReqMethod m ch rest).Keeps := by
  have hpass (parser : Parser) (hp : parser.httpErrno = .ok) (hs : parser.state = .reqMethod) :
      (Outcome.next { m with parser := parser } 0 []).Keeps := by
    apply keeps_pass
    apply h.validOf m parser hp
    simp [Asserted, hs]
  unfold sReqMethod
  dsimp only
  split_ifs
  · exact keeps_fail m _ _ (by decide)
  · exact keeps_breakTo _ _ (h.of_parser m _ h.ok) True.intro
  · exact hpass _ h.ok hs
  · cases refineMethod m.parser.method m.parser.index ch with
    | none => exact keeps_fail m _ _ (by decide)
    | some method => exact hpass _ h.ok hs
  · exact keeps_fail m _ _ (by decide)

theorem keeps_sReqHttpStart (hs : m.parser.state = .reqHttpStart) : (sReqHttpStart m ch rest).Keeps := by
  unfold sReqHttpStart
  split_ifs
  · exact keeps_breakTo m _ h True.intro
  · exact keeps_pass m 0 (h.valid m (by simp [Asserted, hs]))
  · exact keeps_fail m _ _ (by decide)

theorem keeps_sReqHttpMajor : (sReqHttpMajor m ch rest).Keeps := by
  unfold sReqHttpMajor
  split_ifs
  · exact keeps_breakTo _ _ (h.of_parser m _ h.ok) True.intro
  · exact keeps_fail m _ _ (by decide)

theorem keeps_sReqHttpMinor : (sReqHttpMinor m ch rest).Keeps := by
  unfold sReqHttpMinor
  split_ifs
  · exact keeps_breakTo _ _ (h.of_parser m _ h.ok) True.intro
  · exact keeps_fail m _ _ (by decide)

theorem keeps_sReqHttpEnd : (sReqHttpEnd m ch rest).Keeps := by
  unfold sReqHttpEnd
  split_ifs
  · exact keeps_breakTo m _ h True.intro
  · exact keeps_breakTo m _ h True.intro
  · exact keeps_fail m _ _ (by decide)

theorem keeps_sMessageDone (skip : ℕ) (p : Bytes) : (sMessageDone m skip p).Keeps := by
  have hgo : sMessageDone m skip p = .next m.complete.1 skip m.complete.2 := rfl
  rw [hgo]
  exact keeps_complete m skip h

theorem keeps_sHeadersDone : (sHeadersDone m ch rest).Keeps := by
  have hnew : Plain { m with parser := { m.parser with nread := 0 } } := h.of_parser m _ h.ok
  have hbody : ∀ s, s = .chunkSizeStart ∧ m.parser.flags.chunked = true ∨
      s = .bodyIdentity ∧ m.parser.contentLength ≠ 0 ∧ m.parser.contentLength ≠ ullongMax →
      ({ m with parser := { m.parser with nread := 0 } }.breakTo s).Keeps := by
    rintro s (⟨rfl,hc⟩ | ⟨rfl,hc⟩)
    · exact keeps_breakTo _ _ hnew ⟨hc,rfl⟩
    · exact keeps_breakTo _ _ hnew hc
  unfold sHeadersDone
  dsimp only
  split_ifs with hlf hup hskip hchunked hzero hmax heof
  · exact keeps_fail m _ _ (by decide)
  · exact ⟨ends_complete _ _ rfl, Or.inr rfl⟩
  · exact keeps_complete _ 0 hnew
  · exact hbody _ (Or.inl ⟨rfl,hchunked⟩)
  · exact keeps_complete _ 0 hnew
  · exact hbody _ (Or.inr ⟨rfl,hzero,hmax⟩)
  · exact keeps_complete _ 0 hnew
  · exact absurd rfl heof

theorem keeps_sHeadersAlmostDone : (sHeadersAlmostDone m ch rest).Keeps := by
  unfold sHeadersAlmostDone
  dsimp only
  split_ifs
  · exact keeps_fail m _ _ (by decide)
  · exact keeps_sMessageDone _ (h.of_parser m _ h.ok) 0 rest
  · exact keeps_fail m _ _ (by decide)
  · apply Outcome.Keeps.after
    · exact keeps_sHeadersDone _ ch rest (h.of_parser m _ h.ok)
    · simp [Call.isComplete]
  · apply Outcome.Keeps.after
    · exact keeps_sHeadersDone _ ch rest (h.of_parser m _ h.ok)
    · simp [Call.isComplete]

theorem keeps_sHeaderFieldStart : (sHeaderFieldStart m ch rest).Keeps := by
  have hfield : fieldState (headerStateOf (token ch)) := by
    unfold headerStateOf
    split_ifs <;> rfl
  unfold sHeaderFieldStart
  split_ifs
  · exact keeps_breakTo m _ h True.intro
  · exact keeps_sHeadersAlmostDone _ ch rest (h.of_parser m _ h.ok)
  · exact keeps_fail m _ _ (by decide)
  · apply keeps_pass
    exact ⟨h.ok, fun _ => rfl, fun hn => absurd h.value hn, fun hn => absurd h.url hn,
      fun hn => absurd h.body hn, hfield⟩

theorem keeps_sHeaderValueStart : (sHeaderValueStart m ch rest).Keeps := by
  have hpass (parser : Parser) (mark : Option Bytes) (hp : parser.httpErrno = .ok)
      (hs : parser.state = .headerValue)
      (hh : parser.headerState ≠ .connection ∧ parser.headerState ≠ .transferEncoding) :
      (Outcome.next { m with headerValueMark := mark, parser := parser } 0 []).Keeps := by
    apply keeps_pass
    refine ⟨hp, fun hn => absurd h.field hn, fun _ => hs, fun hn => absurd h.url hn,
      fun hn => absurd h.body hn, ?_⟩
    simpa [Asserted, hs] using hh
  unfold sHeaderValueStart
  dsimp only
  cases hh : m.parser.headerState with
  | contentLength =>
    dsimp only
    split_ifs
    · exact keeps_fail _ _ _ (by decide)
    · exact hpass _ _ h.ok rfl (by simp)
    · exact keeps_fail _ _ _ (by decide)
  | transferEncoding =>
    dsimp only
    refine hpass _ _ h.ok rfl ?_
    dsimp only
    split_ifs <;> decide
  | connection =>
    dsimp only
    refine hpass _ _ h.ok rfl ?_
    dsimp only
    unfold connectionToken
    split_ifs <;> decide
  | _ => exact hpass _ _ h.ok rfl (by simp)

theorem keeps_sHeaderValueDiscardWs (ha : Asserted m.parser) :
    (sHeaderValueDiscardWs m ch rest).Keeps := by
  unfold sHeaderValueDiscardWs
  split_ifs
  · exact keeps_pass m 0 (h.valid m ha)
  · exact keeps_breakTo m _ h True.intro
  · exact keeps_breakTo m _ h True.intro
  · exact keeps_sHeaderValueStart m ch rest h

theorem keeps_sHeaderValueLws : (sHeaderValueLws m ch rest).Keeps := by
  unfold sHeaderValueLws
  split_ifs
  · exact keeps_sHeaderValueStart _ ch rest (h.of_parser m _ h.ok)
  · exact keeps_sHeaderFieldStart _ ch rest (h.of_parser m _ h.ok)

theorem keeps_sHeaderValueDiscardLws : (sHeaderValueDiscardLws m ch rest).Keeps := by
  unfold sHeaderValueDiscardLws
  dsimp only
  split_ifs
  · exact keeps_breakTo m _ h True.intro
  · apply Outcome.Keeps.after
    · exact keeps_sHeaderFieldStart _ ch rest ⟨h.ok,h.field,rfl,h.url,h.body⟩
    · exact callbackData_quiet _ _ _ (fun _ => rfl)

end plain

section url
variable (m : Machine) (ch : UInt8) (rest : Bytes)

theorem parseUrlChar_state (s : State) : parseUrlChar s ch = .dead ∨ urlState (parseUrlChar s ch) := by
  have hserver : parseUrlChar.server ch = .dead ∨ urlState (parseUrlChar.server ch) := by
    unfold parseUrlChar.server
    split_ifs <;> simp [urlState]
  unfold parseUrlChar
  by_cases hspace : ch = space ∨ ch = CR ∨ ch = LF ∨ ch = tab ∨ ch = 12
  · exact Or.inl (if_pos hspace)
  · rw [if_neg hspace]
    cases s <;> dsimp only <;> try split_ifs
    all_goals first
      | exact hserver
      | simp [urlState]

theorem asserted_of_url (parser : Parser) (h : urlState parser.state) : Asserted parser := by
  unfold Asserted
  cases hs : parser.state <;> simp_all [urlState]

/-- Only `url_mark` may be set. -/
theorem keeps_urlChar (hok : m.parser.httpErrno = .ok) (hf : m.headerFieldMark = none)
    (hv : m.headerValueMark = none) (hb : m.bodyMark = none) : (urlChar m ch rest).Keeps := by
  unfold urlChar
  dsimp only
  split_ifs with hdead
  · exact keeps_fail _ _ _ (by decide)
  · have hurl : urlState (parseUrlChar m.parser.state ch) :=
      (parseUrlChar_state ch m.parser.state).resolve_left hdead
    apply keeps_pass
    exact ⟨hok, fun hn => absurd hf hn, fun hn => absurd hv hn, fun _ => hurl,
      fun hn => absurd hb hn, asserted_of_url _ hurl⟩

theorem keeps_sReqSpacesBeforeUrl (h : Plain m) (ha : Asserted m.parser) :
    (sReqSpacesBeforeUrl m ch rest).Keeps := by
  unfold sReqSpacesBeforeUrl
  dsimp only
  split_ifs
  · exact keeps_pass m 0 (h.valid m ha)
  · exact keeps_urlChar _ ch rest h.ok h.field h.value h.body
  · exact keeps_urlChar _ ch rest h.ok h.field h.value h.body

variable (h : Valid m) (hu : urlState m.parser.state)
include h hu

theorem Valid.url_only : m.headerFieldMark = none ∧ m.headerValueMark = none ∧ m.bodyMark = none := by
  refine ⟨?_, ?_, ?_⟩
  · by_contra hn
    rw [h.field hn] at hu
    exact absurd hu (by decide)
  · by_contra hn
    rw [h.value hn] at hu
    exact absurd hu (by decide)
  · by_contra hn
    have hb := h.body hn
    cases hs : m.parser.state <;> simp_all [urlState, bodyState]

theorem keeps_sReqSchema : (sReqSchema m ch rest).Keeps := by
  rcases h.url_only m hu with ⟨hf,hv,hb⟩
  unfold sReqSchema
  split_ifs
  · exact keeps_fail m _ _ (by decide)
  · exact keeps_urlChar m ch rest h.ok hf hv hb

theorem keeps_sReqServer : (sReqServer m ch rest).Keeps := by
  rcases h.url_only m hu with ⟨hf,hv,hb⟩
  have hquiet := callbackData_quiet m.urlMark .url (ch :: rest) (fun _ => rfl)
  have hplain : Plain { m with urlMark := none } := ⟨h.ok,hf,hv,rfl,hb⟩
  unfold sReqServer
  dsimp only
  split_ifs
  · exact keeps_next _ 0 _ (hplain.validOf _ _ h.ok True.intro) hquiet
  · exact keeps_next _ 0 _ (hplain.validOf _ _ h.ok True.intro) hquiet
  · exact keeps_next _ 0 _ (hplain.validOf _ _ h.ok True.intro) hquiet
  · exact keeps_urlChar m ch rest h.ok hf hv hb

end url

end Cclab.HttpParser
