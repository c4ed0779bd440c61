import Cclab.HttpMethods
import Cclab.HttpRequests

/-! Whether `http_method_` is the method of the request when `OnRequest` is called. -/
namespace Cclab.HttpParser
open HttpServer

/-- The byte in memory behind the one that the parser has just read. -/
def nextByte : Input → UInt8
  | [] => 0
  | (data,behind) :: _ => data.headD behind

def firstByte (method : HttpMethod) : UInt8 := (methodString method).headD 0

/-- The method that the parser assumes from the first byte of this one's name. -/
def assumed (method : HttpMethod) (next : UInt8) : Option HttpMethod :=
  startMethod (firstByte method) next

/-- The method and the next byte when the last request began. -/
def lastBegin (g : Option (HttpMethod × UInt8)) : List (Call × UInt8) → Option (HttpMethod × UInt8)
  | [] => g
  | (.messageBegin parser,next) :: calls => lastBegin (some (parser.method,next)) calls
  | _ :: calls => lastBegin g calls

/-- The parser now has a method that begins as the one that it assumed. -/
def Guessed (g : Option (HttpMethod × UInt8)) (method : HttpMethod) : Prop :=
  ∃ begun next, g = some (begun,next) ∧ assumed method next = some begun

/-- Every request with a complete head was assumed from the first byte of its method. -/
def Traced (g : Option (HttpMethod × UInt8)) : List (Call × UInt8) → Prop
  | [] => True
  | (.headersComplete parser,_) :: calls => Guessed g parser.method ∧ Traced g calls
  | (.messageBegin parser,next) :: calls => Traced (some (parser.method,next)) calls
  | _ :: calls => Traced g calls

/-- A request has begun unless the parser waits for one or has failed. -/
def Began (g : Option (HttpMethod × UInt8)) (parser : Parser) : Prop :=
  Idle parser ∨ Guessed g parser.method

theorem firstByte_of_start (ch next : UInt8) (method : HttpMethod)
    (h : startMethod ch next = some method) : firstByte method = ch := by
  have hrows : ∀ row ∈ startRows, firstByte row.2 = row.1 := by decide
  unfold startMethod at h
  split_ifs at h with hput
  · rw [← Option.some.inj h, hput.1]
    rfl
  · rcases List.lookup_eq_some_iff.mp h with ⟨before,after,he,-⟩
    exact hrows (ch,method) (by rw [he]; simp)

theorem firstByte_of_refine (method method' : HttpMethod) (index : ℕ) (ch : UInt8)
    (h : refineMethod method index ch = some method') : firstByte method' = firstByte method := by
  have hrows : ∀ row ∈ methodRows, firstByte row.2 = firstByte row.1.1 := by decide
  rcases List.lookup_eq_some_iff.mp h with ⟨before,after,he,-⟩
  exact hrows ((method,index,ch),method') (by rw [he]; simp)

theorem lastBegin_append (g : Option (HttpMethod × UInt8)) (xs ys : List (Call × UInt8)) :
    lastBegin g (xs ++ ys) = lastBegin (lastBegin g xs) ys := by
  induction xs generalizing g with
  | nil => rfl
  | cons x xs ih =>
    rcases x with ⟨c,next⟩
    cases c <;> exact ih _

theorem traced_append (g : Option (HttpMethod × UInt8)) (xs ys : List (Call × UInt8)) :
    Traced g (xs ++ ys) ↔ Traced g xs ∧ Traced (lastBegin g xs) ys := by
  induction xs generalizing g with
  | nil => exact ⟨fun h => ⟨True.intro,h⟩, And.right⟩
  | cons x xs ih =>
    rcases x with ⟨c,next⟩
    cases c with
    | headersComplete parser => exact (and_congr_right' (ih g)).trans and_assoc.symm
    | _ => exact ih _

/-- The calls of one iteration, with the byte behind it. -/
def beside (next : UInt8) (calls : List Call) : List (Call × UInt8) := calls.map fun c => (c,next)

theorem traced_within (g : Option (HttpMethod × UInt8)) (method : HttpMethod) (next : UInt8)
    (calls : List Call) (hg : Guessed g method) (h : ∀ c ∈ calls, c.Within method) :
    Traced g (beside next calls) ∧ lastBegin g (beside next calls) = g := by
  induction calls with
  | nil => exact ⟨True.intro,rfl⟩
  | cons c calls ih =>
    have hc := h c List.mem_cons_self
    have hrest := ih (fun d hd => h d (List.mem_cons_of_mem c hd))
    cases c with
    | messageBegin parser => exact hc.elim
    | headersComplete parser =>
      refine ⟨⟨?_,hrest.1⟩, hrest.2⟩
      rw [show parser.method = method from hc]
      exact hg
    | _ => exact hrest

/-- The strings that are left over belong to no request in particular. -/
theorem traced_strings (g : Option (HttpMethod × UInt8)) (next : UInt8) (calls : List Call)
    (h : ∀ c ∈ calls, ∀ method, c.Within method) :
    Traced g (beside next calls) ∧ lastBegin g (beside next calls) = g := by
  induction calls with
  | nil => exact ⟨True.intro,rfl⟩
  | cons c calls ih =>
    have hc := h c List.mem_cons_self
    have hrest := ih (fun d hd => h d (List.mem_cons_of_mem c hd))
    cases c with
    | messageBegin parser => exact (hc .get).elim
    | headersComplete parser =>
      have hget : parser.method = .get := hc .get
      have hput : parser.method = .put := hc .put
      exact absurd (hget.symm.trans hput) (by decide)
    | _ => exact hrest

theorem flush_strings (m : Machine) (calls : List Call) (h : m.flush = some calls) :
    ∀ c ∈ calls, ∀ method, c.Within method := by
  unfold Machine.flush at h
  dsimp only at h
  split_ifs at h
  obtain rfl := Option.some.inj h
  intro c hc method
  simp only [List.mem_append] at hc
  rcases hc with ((hc | hc) | hc) | hc
  · exact callbackData_within _ .headerField [] method (fun _ => True.intro) c hc
  · exact callbackData_within _ .headerValue [] method (fun _ => True.intro) c hc
  · exact callbackData_within _ .url [] method (fun _ => True.intro) c hc
  · exact callbackData_within _ .body [] method (fun _ => True.intro) c hc

/-- What an iteration calls is traced, and leaves a request begun. -/
def Outcome.Tracks (g : Option (HttpMethod × UInt8)) (behind : UInt8) (rest : Bytes) : Outcome → Prop
  | .next m skip calls =>
    Traced g (beside ((rest.drop skip).headD behind) calls) ∧
      Began (lastBegin g (beside ((rest.drop skip).headD behind) calls)) m.parser
  | .leave m _ calls =>
    Traced g (beside behind calls) ∧ Began (lastBegin g (beside behind calls)) m.parser
  | .abort => True

section tracks
variable (g : Option (HttpMethod × UInt8)) (behind : UInt8) (rest : Bytes)

theorem tracks_fail (m : Machine) (p : Bytes) (e : HttpErrno) (he : e ≠ .ok) :
    (m.fail p e).Tracks g behind rest := ⟨True.intro, Or.inl (Or.inl he)⟩

theorem tracks_follows (o : Outcome) (method : HttpMethod) (hg : Guessed g method)
    (hf : o.Follows method) (hk : o.Keeps) : o.Tracks g behind rest := by
  cases o with
  | next m skip calls =>
    rcases traced_within g method ((rest.drop skip).headD behind) calls hg hf.1 with ⟨htraced,hlast⟩
    refine ⟨htraced, ?_⟩
    rw [hlast]
    rcases hf.2 with hs | hm
    · exact Or.inl (Or.inr hs)
    · right
      rw [hm]
      exact hg
  | leave m p calls =>
    rcases traced_within g method behind calls hg hf with ⟨htraced,-⟩
    refine ⟨htraced, Or.inl ?_⟩
    rcases hk.2 with he | hinit
    · exact Or.inl he
    · rw [hinit]
      exact Or.inr rfl
  | abort => exact True.intro

theorem tracks_count (m : Machine) (v : ℕ) (p : Bytes) (k : Machine → Outcome)
    (h : (k { m with parser := { m.parser with nread := m.parser.nread+UInt32.ofNat v } }).Tracks
      g behind rest) : (m.count v p k).Tracks g behind rest := by
  unfold Machine.count
  dsimp only
  split_ifs
  · exact tracks_fail g behind rest _ p _ (by decide)
  · exact h

theorem tracks_sStartReq (m : Machine) (ch : UInt8) (hs : m.parser.state = .startReq) :
    (sStartReq m ch rest behind).Tracks g behind rest := by
  unfold sStartReq
  dsimp only
  split_ifs
  · exact ⟨True.intro, Or.inl (Or.inr hs)⟩
  · cases hstart : startMethod ch (rest.headD behind) with
    | none => exact tracks_fail g behind rest _ _ _ (by decide)
    | some method =>
      refine ⟨True.intro, Or.inr ⟨method, rest.headD behind, rfl, ?_⟩⟩
      dsimp only
      rw [assumed, firstByte_of_start ch _ method hstart]
      exact hstart
  · exact tracks_fail g behind rest _ _ _ (by decide)

theorem tracks_sReqMethod (m : Machine) (ch : UInt8) (hg : Guessed g m.parser.method) :
    (sReqMethod m ch rest).Tracks g behind rest := by
  have hkeep (m' : Machine) (hm : firstByte m'.parser.method = firstByte m.parser.method) :
      (Outcome.next m' 0 []).Tracks g behind rest := by
    rcases hg with ⟨begun,next,he,ha⟩
    refine ⟨True.intro, Or.inr ⟨begun, next, he, ?_⟩⟩
    rw [assumed, hm]
    exact ha
  unfold sReqMethod
  dsimp only
  split_ifs
  · exact tracks_fail g behind rest _ _ _ (by decide)
  · exact hkeep _ rfl
  · exact hkeep _ rfl
  · cases hrefine : refineMethod m.parser.method m.parser.index ch with
    | none => exact tracks_fail g behind rest _ _ _ (by decide)
    | some method => exact hkeep _ (firstByte_of_refine _ method _ ch hrefine)
  · exact tracks_fail g behind rest _ _ _ (by decide)

theorem tracks_iteration (m : Machine) (ch : UInt8) (h : Valid m) (hg : Began g m.parser) :
    (iteration behind m ch rest).Tracks g behind rest := by
  -- the two states that assign the method, and all others
  by_cases hstart : m.parser.state = .startReq
  · have hheader : parsingHeader m.parser.state = true := by
      rw [hstart]
      rfl
    unfold iteration
    rw [if_pos hheader]
    apply tracks_count
    unfold switch
    dsimp only
    rw [hstart]
    exact tracks_sStartReq g behind rest _ ch rfl
  have hguess : Guessed g m.parser.method :=
    hg.resolve_left (fun hi => hi.elim (fun he => he h.ok) hstart)
  by_cases hmethod : m.parser.state = .reqMethod
  · have hheader : parsingHeader m.parser.state = true := by
      rw [hmethod]
      rfl
    unfold iteration
    rw [if_pos hheader]
    apply tracks_count
    unfold switch
    dsimp only
    rw [hmethod]
    exact tracks_sReqMethod g behind rest _ ch hguess
  · apply tracks_follows g behind rest _ m.parser.method hguess _ (keeps_iteration behind m ch rest h)
    have hvalue (hs : m.parser.state = .headerValue) : valueState m.parser.headerState := by
      have ha := h.asserted
      rw [Asserted, hs] at ha
      exact ha
    unfold iteration
    split_ifs
    · apply follows_count
      exact follows_switch behind _ ch rest hvalue hstart hmethod
    · exact follows_switch behind m ch rest hvalue hstart hmethod

end tracks

theorem loop_tracks (behind : UInt8) (n : ℕ) (m : Machine) (p : Bytes) (g : Option (HttpMethod × UInt8))
    (r : Parser × List (Call × Bytes) × Bytes) (hm : Valid m) (hg : Began g m.parser)
    (h : loop behind n m p = some r) :
    Traced g (r.2.1.map fun c => (c.1,c.2.headD behind)) ∧
      Began (lastBegin g (r.2.1.map fun c => (c.1,c.2.headD behind))) r.1 := by
  have hbeside (unread : Bytes) (calls : List Call) :
      ((withUnread unread calls).map fun c => (c.1,c.2.headD behind)) =
        beside (unread.headD behind) calls := by
    rw [withUnread, List.map_map]
    rfl
  induction n generalizing m p g r with
  | zero =>
    rcases Option.map_eq_some_iff.mp h with ⟨calls,hc,rfl⟩
    have hstrings := traced_strings g behind calls (flush_strings m calls hc)
    dsimp only
    rw [hbeside]
    exact ⟨hstrings.1, hstrings.2.symm ▸ hg⟩
  | succ n ih =>
    cases p with
    | nil =>
      rcases Option.map_eq_some_iff.mp h with ⟨calls,hc,rfl⟩
      have hstrings := traced_strings g behind calls (flush_strings m calls hc)
      dsimp only
      rw [hbeside]
      exact ⟨hstrings.1, hstrings.2.symm ▸ hg⟩
    | cons ch rest =>
      -- one iteration, then the rest of the data with what it left as the last request
      have hkeeps := keeps_iteration behind m ch rest hm
      have htracks := tracks_iteration g behind rest m ch hm hg
      unfold loop at h
      cases hi : iteration behind m ch rest with
      | next m' skip calls =>
        rw [hi] at hkeeps htracks h
        rcases Option.map_eq_some_iff.mp h with ⟨s,hs,rfl⟩
        have hrest := ih m' (rest.drop skip) _ s hkeeps.1 htracks.2 hs
        dsimp only
        rw [List.map_append, hbeside, traced_append, lastBegin_append]
        exact ⟨⟨htracks.1,hrest.1⟩,hrest.2⟩
      | leave m' p calls =>
        rw [hi] at htracks h
        obtain rfl := Option.some.inj h
        dsimp only
        rw [hbeside]
        exact htracks
      | abort =>
        rw [hi] at hkeeps
        exact hkeeps.elim

theorem execute_tracks (behind : UInt8) (parser : Parser) (data : Bytes)
    (g : Option (HttpMethod × UInt8)) (r : Parser × List (Call × Bytes) × ℕ) (hp : Sane parser)
    (hg : Began g parser) (h : httpParserExecute behind parser data = some r) :
    Traced g (r.2.1.map fun c => (c.1,c.2.headD behind)) ∧
      Began (lastBegin g (r.2.1.map fun c => (c.1,c.2.headD behind))) r.1 := by
  rcases execute_cases behind parser data r h with ⟨hnil,hkept,-⟩ | ⟨-,rfl⟩ | ⟨hok,s,hs,rfl⟩
  · rw [hnil]
    refine ⟨True.intro, ?_⟩
    rcases hkept with hsame | herror
    · rw [hsame]
      exact hg
    · exact Or.inl (Or.inl herror)
  · exact ⟨True.intro, Or.inl (Or.inr rfl)⟩
  · exact loop_tracks behind data.length _ data g s (valid_start parser data hok hp) hg hs

/-- Every call with the byte in memory behind it. -/
def nextBytes (tr : List (Call × Input)) : List (Call × UInt8) := tr.map fun c => (c.1,nextByte c.2)

theorem reports_traced (parser parser' : Parser) (input : Input) (g : Option (HttpMethod × UInt8))
    (tr : List (Call × Input)) (hp : Sane parser) (hg : Began g parser)
    (h : reports parser input = some (parser',tr)) : Traced g (nextBytes tr) := by
  induction input generalizing parser g tr with
  | nil =>
    obtain ⟨-,rfl⟩ := Prod.mk.inj (Option.some.inj h)
    exact True.intro
  | cons call later ih =>
    rcases Option.bind_eq_some_iff.mp h with ⟨r,hr,hrest⟩
    rcases Option.map_eq_some_iff.mp hrest with ⟨s,hs,hst⟩
    obtain ⟨rfl,rfl⟩ := Prod.mk.inj hst
    rcases execute_total call.2 parser call.1 hp with ⟨r',hr',hsane⟩
    obtain rfl := Option.some.inj (hr.symm.trans hr')
    rcases execute_tracks call.2 parser call.1 g r hp hg hr with ⟨htraced,hbegan⟩
    -- the unread data begin with the byte that the call was made with
    have hmap : nextBytes (r.2.1.map fun c => (c.1,(c.2,call.2) :: later)) =
        r.2.1.map fun c => (c.1,c.2.headD call.2) := by
      rw [nextBytes, List.map_map]
      rfl
    rw [nextBytes, List.map_append, ← nextBytes, hmap, traced_append]
    exact ⟨htraced, ih r.1 _ s.2 hsane hbegan hs⟩

/-- Whenever `OnRequest` is called, `http_method_` is the method of the parser. -/
def MethodsAgree (ctx : HttpContext) (calls : List Call) : Prop :=
  ∀ before parser after seen, calls = before ++ .headersComplete parser :: after →
    ((ctx.run (before.map Call.callback)).step (Call.headersComplete parser).callback).2 = some seen →
    seen.httpMethod = parser.seen.method

/-- Every request with a complete head has the method that its first byte and the byte in memory
behind that one stand for. -/
def FirstByteDecides (tr : List (Call × Input)) : Prop :=
  ∀ before begun unread head parser input after,
    tr = before ++ (.messageBegin begun,unread) :: (head ++ (.headersComplete parser,input) :: after) →
    (∀ c ∈ head, ∀ p, c.1 ≠ .messageBegin p) →
    assumed parser.method (nextByte unread) = some parser.method

/-- The methods that only their first byte stands for. -/
def firstByteMethods : List HttpMethod :=
  [.acl,.bind,.connect,.delete,.get,.head,.lock,.mkcol,.notify,.options,.report,.subscribe,.trace,
    .unlock]

/-- The methods that the first byte and the one behind it stand for: not PATCH, PROPFIND and the
others that an `XX` row leads to, and PUT and POST by the byte behind the 'P'. -/
theorem assumed_iff (method : HttpMethod) (next : UInt8) : assumed method next = some method ↔
    method ∈ firstByteMethods ∨ method = .put ∧ next = byte 'U' ∨
      method = .post ∧ next ≠ byte 'U' := by
  by_cases hnext : next = byte 'U'
  · rw [hnext]
    cases method <;> decide
  · have hrows : assumed method next = startRows.lookup (firstByte method) :=
      if_neg fun h => hnext h.2
    rw [hrows]
    simp only [hnext, and_false, false_or, ne_eq, not_false_eq_true, and_true]
    cases method <;> decide

theorem method_number_inj (m m' : HttpMethod) (h : UInt8.ofNat m.ctorIdx = UInt8.ofNat m'.ctorIdx) :
    m = m' := by
  have hlt (k : HttpMethod) : k.ctorIdx < 256 := by
    cases k <;> decide
  have hnat := congrArg UInt8.toNat h
  rw [UInt8.toNat_ofNat_of_lt' (hlt m), UInt8.toNat_ofNat_of_lt' (hlt m')] at hnat
  rw [← HttpMethod.ofNat_ctorIdx m, ← HttpMethod.ofNat_ctorIdx m', hnat]

theorem Traced.head (g : Option (HttpMethod × UInt8)) (before after : List (Call × UInt8))
    (parser : Parser) (next : UInt8) (h : Traced g (before ++ (.headersComplete parser,next) :: after)) :
    Guessed (lastBegin g before) parser.method :=
  ((traced_append g before _).mp h).2.1

theorem nextBytes_append (xs ys : List (Call × Input)) :
    nextBytes (xs ++ ys) = nextBytes xs ++ nextBytes ys := List.map_append

theorem nextBytes_cons (c : Call × Input) (xs : List (Call × Input)) :
    nextBytes (c :: xs) = (c.1,nextByte c.2) :: nextBytes xs := rfl

theorem lastBegin_of_head (g : Option (HttpMethod × UInt8)) (head : List (Call × Input))
    (h : ∀ c ∈ head, ∀ p, c.1 ≠ .messageBegin p) : lastBegin g (nextBytes head) = g := by
  induction head with
  | nil => rfl
  | cons c head ih =>
    have hrest := ih (fun d hd => h d (List.mem_cons_of_mem c hd))
    have hc := h c List.mem_cons_self
    rw [nextBytes_cons]
    cases hcall : c.1 with
    | messageBegin p => exact absurd hcall (hc p)
    | _ => exact hrest

theorem lastBegin_split (before : List (Call × Input)) (method : HttpMethod) (next : UInt8)
    (h : lastBegin none (nextBytes before) = some (method,next)) :
    ∃ front begun unread head, before = front ++ (.messageBegin begun,unread) :: head ∧
      (∀ c ∈ head, ∀ p, c.1 ≠ .messageBegin p) ∧ begun.method = method ∧ nextByte unread = next := by
  -- from the back, as the last request is the one that counts
  induction before using List.reverseRecOn with
  | nil => exact absurd h (by simp [nextBytes, lastBegin])
  | append_singleton before c ih =>
    rcases c with ⟨c,unread⟩
    rw [nextBytes_append, lastBegin_append] at h
    have hkeep (hlast : lastBegin none (nextBytes before) = some (method,next))
        (hc : ∀ p, c ≠ .messageBegin p) :
        ∃ front begun unread' head, before ++ [(c,unread)] =
            front ++ (.messageBegin begun,unread') :: head ∧
          (∀ c ∈ head, ∀ p, c.1 ≠ .messageBegin p) ∧ begun.method = method ∧
          nextByte unread' = next := by
      rcases ih hlast with ⟨front,begun,unread',head,rfl,hhead,hm,hn⟩
      refine ⟨front, begun, unread', head ++ [(c,unread)], by simp, ?_, hm, hn⟩
      intro d hd
      rcases List.mem_append.mp hd with hd | hd
      · exact hhead d hd
      · rw [List.mem_singleton.mp hd]
        exact hc
    cases c with
    | messageBegin begun =>
      obtain ⟨hm,hn⟩ := Prod.mk.inj (Option.some.inj h)
      exact ⟨before, begun, unread, [], rfl, by simp, hm, hn⟩
    | _ => exact hkeep h (by simp)

/-- `http_method_` is the method with which the last request began. -/
theorem run_httpMethod (ctx : HttpContext) (g : Option (HttpMethod × UInt8)) (tr : List (Call × Input))
    (hg : ∀ m next, g = some (m,next) → ctx.fields.httpMethod = UInt8.ofNat m.ctorIdx)
    (m : HttpMethod) (next : UInt8) (h : lastBegin g (nextBytes tr) = some (m,next)) :
    (ctx.run ((tr.map Prod.fst).map Call.callback)).fields.httpMethod = UInt8.ofNat m.ctorIdx := by
  induction tr generalizing ctx g with
  | nil => exact hg m next h
  | cons c tr ih =>
    rcases c with ⟨c,unread⟩
    rw [List.map_cons, List.map_cons, run_cons]
    cases c with
    | messageBegin parser =>
      refine ih _ (some (parser.method,nextByte unread)) ?_ h
      intro m' next' he
      obtain ⟨rfl,-⟩ := Prod.mk.inj (Option.some.inj he)
      rfl
    | _ => exact ih _ g hg h

/-- `OnRequest` sees the method of the parser exactly if every method is the one that the parser
assumes from its first byte: the method is none of those that a row of `methodRows` leads to, or
it is PUT and the first byte was followed by 'U' in memory. -/
theorem methods_agree_iff (ctx : HttpContext) (input : Input) (parser : Parser)
    (tr : List (Call × Input)) (h : reports httpParserInit input = some (parser,tr)) :
    MethodsAgree ctx (tr.map Prod.fst) ↔ FirstByteDecides tr := by
  have htraced := reports_traced httpParserInit parser input none tr sane_init
    (Or.inl (Or.inr rfl)) h
  -- at every complete head, the method is one that a first byte was refined to
  have hguess (before after : List (Call × Input)) (p : Parser) (u : Input)
      (he : tr = before ++ (.headersComplete p,u) :: after) :
      Guessed (lastBegin none (nextBytes before)) p.method := by
    rw [he, nextBytes_append] at htraced
    exact htraced.head none (nextBytes before) (nextBytes after) p (nextByte u)
  constructor
  · intro hagree before begun unread head p u after he hhead
    have hsplit : tr = (before ++ (.messageBegin begun,unread) :: head) ++
        (.headersComplete p,u) :: after := by
      rw [he, List.append_assoc, List.cons_append]
    -- `http_method_` was set by the begin, and nothing has begun since
    have hlast : lastBegin none (nextBytes (before ++ (.messageBegin begun,unread) :: head)) =
        some (begun.method,nextByte unread) := by
      rw [nextBytes_append, lastBegin_append, nextBytes_cons]
      exact lastBegin_of_head _ head hhead
    have hrun := run_httpMethod ctx none _ (by simp) begun.method (nextByte unread) hlast
    have hsame := hagree ((before ++ (.messageBegin begun,unread) :: head).map Prod.fst) p
      (after.map Prod.fst) _ (by rw [hsplit, List.map_append]; rfl) rfl
    have hmethod : begun.method = p.method := method_number_inj _ _ (hrun.symm.trans hsame)
    rcases hguess _ after p u hsplit with ⟨begun',next,hlast',hassumed⟩
    obtain ⟨rfl,rfl⟩ := Prod.mk.inj (Option.some.inj (hlast.symm.trans hlast'))
    rw [hassumed, hmethod]
  · intro hdecides before p after seen he hseen
    rcases List.map_eq_append_iff.mp he with ⟨front,tail,rfl,rfl,htail⟩
    rcases List.map_eq_cons_iff.mp htail with ⟨⟨c,u⟩,back,rfl,hc,-⟩
    obtain rfl : c = .headersComplete p := hc
    rcases hguess front back p u rfl with ⟨begun',next,hlast,hassumed⟩
    rcases lastBegin_split front begun' next hlast with ⟨x,begun,unread,head,rfl,hhead,rfl,rfl⟩
    -- the request that is complete is the one that began last
    have hfirst := hdecides x begun unread head p u back
      (by rw [List.append_assoc, List.cons_append]) hhead
    have hmethod : begun.method = p.method := Option.some.inj (hassumed.symm.trans hfirst)
    have hrun := run_httpMethod ctx none _ (by simp) begun.method (nextByte unread) hlast
    obtain rfl := Option.some.inj hseen
    exact hrun.trans (by rw [hmethod]; rfl)

/-- A request without a header, with the parser at its callbacks. -/
def requestParser (state : State) (index : ℕ) (nread : UInt32) (version : ℕ) (method : HttpMethod) :
    Parser :=
  { httpParserInit with
    state := state, index := index, nread := nread, contentLength := ullongMax,
    httpMajor := version, httpMinor := version, method := method }

def getReports : List (Call × Input) :=
  [(.messageBegin (requestParser .reqMethod 1 1 0 .get), [(ascii "ET / HTTP/1.1\r\n\r\n",0)]),
   (.url (ascii "/"), [(ascii "HTTP/1.1\r\n\r\n",0)]),
   (.headersComplete (requestParser .headersDone 4 18 1 .get), [([],0)]),
   (.messageComplete (requestParser .startReq 4 0 1 .get), [([],0)])]

theorem methods_agree_iff_get :
    MethodsAgree (.create 0 0) (getReports.map Prod.fst) ↔ FirstByteDecides getReports :=
  methods_agree_iff (.create 0 0) [(ascii "GET / HTTP/1.1\r\n\r\n",0)] httpParserInit getReports rfl

/-- `OnRequest` of a PATCH request sees the method POST. -/
theorem patch_seen_as_post : ¬ ∀ (ctx : HttpContext) (input : Input) (parser : Parser)
    (tr : List (Call × Input)), reports httpParserInit input = some (parser,tr) →
    MethodsAgree ctx (tr.map Prod.fst) := by
  intro h
  have hcalls : (reports httpParserInit [(ascii "PATCH / HTTP/1.1\r\n\r\n",0)]).map
      (fun r => r.2.map Prod.fst) =
        some [.messageBegin (requestParser .reqMethod 1 1 0 .post), .url (ascii "/"),
          .headersComplete (requestParser .headersDone 6 20 1 .patch),
          .messageComplete (requestParser .startReq 6 0 1 .patch)] := by
    decide +kernel
  rcases Option.map_eq_some_iff.mp hcalls with ⟨r,hr,hc⟩
  have hsame := h (.create 0 0) _ r.1 r.2 hr [.messageBegin (requestParser .reqMethod 1 1 0 .post),
    .url (ascii "/")] (requestParser .headersDone 6 20 1 .patch) _ _ hc rfl
  exact absurd hsame (by decide)

end Cclab.HttpParser
