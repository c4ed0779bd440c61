import Cclab.HttpServed
import Mathlib.Data.List.Chain

/-! When the requests of one connection leave no trace in each other. -/
namespace Cclab.HttpParser
open HttpServer KeepFirstMap

/-- The callbacks of `HttpContext` that the calls lead to. -/
def callbacks (calls : List Call) : List Callback := calls.map Call.callback

/-- What an `HttpContext` goes through in these calls, and what its `OnRequest` sees in them. -/
def after (ctx : HttpContext) (calls : List Call) : HttpContext := ctx.run (callbacks calls)

def seen (ctx : HttpContext) (calls : List Call) : List Fields := ctx.onRequests (callbacks calls)

/-- The parameters in a target, over the pieces of it. -/
def params : List Call → List (Bytes × Bytes)
  | [] => []
  | .url s :: calls => queryPairs s ++ params calls
  | _ :: calls => params calls

/-- The headers, each value under the name that was called for since the last one. -/
def headers (key : Bytes) : List Call → List (Bytes × Bytes)
  | [] => []
  | .headerField s :: calls => headers (key ++ s) calls
  | .headerValue v :: calls => (key.map HttpServer.tolower,v) :: headers [] calls
  | _ :: calls => headers key calls

/-- The calls before `on_headers_complete`. -/
def Served.head (r : Served) : List Call := r.calls.takeWhile fun c => !c.isHead

/-- The parameters and the headers of a request, with those of its trailers, are parameters and
headers of the next one: then keeping the older value of a key makes no difference. -/
def Covered (r r' : Served) : Prop :=
  Sub (first (params r.calls)) (first (params r'.head)) ∧
    Sub (first (headers [] r.calls)) (first (headers [] r'.head))

instance : DecidableRel Covered := fun _ _ => inferInstanceAs (Decidable (_ ∧ _))

/-- A new `HttpContext` that is given the data alone sees these fields, whatever stands in memory
behind them. -/
def SeenAlone (datas : List Bytes) (f : Fields) : Prop :=
  ∀ (m : UInt8) (n : UInt64) (behinds : List UInt8), behinds.length = datas.length →
    (reports httpParserInit (datas.zip behinds)).map
      (fun q => seen (HttpContext.create m n) (q.2.map Prod.fst)) = some [f]

theorem after_cons (ctx : HttpContext) (c : Call) (calls : List Call) :
    after ctx (c :: calls) = after (ctx.step c.callback).1 calls := rfl

theorem seen_cons (ctx : HttpContext) (c : Call) (calls : List Call) :
    seen ctx (c :: calls) = (ctx.step c.callback).2.toList ++ seen (ctx.step c.callback).1 calls := by
  cases c <;> rfl

theorem seen_append (ctx : HttpContext) (calls calls' : List Call) :
    seen ctx (calls ++ calls') = seen ctx calls ++ seen (after ctx calls) calls' := by
  induction calls generalizing ctx with
  | nil => rfl
  | cons c calls ih =>
    rw [List.cons_append, seen_cons, seen_cons, ih, List.append_assoc]
    rfl

/-- Only at the end of a head `OnRequest` is called. -/
theorem seen_quiet (ctx : HttpContext) (calls : List Call) (h : ∀ c ∈ calls, c.isHead = false) :
    seen ctx calls = [] := by
  induction calls generalizing ctx with
  | nil => rfl
  | cons c calls ih =>
    have hc := h c List.mem_cons_self
    rw [seen_cons, ih _ fun d hd => h d (List.mem_cons_of_mem c hd)]
    cases c with
    | headersComplete p => exact absurd hc (by simp [Call.isHead])
    | _ => rfl

theorem after_queryParams (ctx : HttpContext) (calls : List Call) :
    (after ctx calls).fields.queryParams = insertAll ctx.fields.queryParams (params calls) := by
  induction calls generalizing ctx with
  | nil => rfl
  | cons c calls ih =>
    rw [after_cons, ih]
    cases c with
    | url s => exact (insertAll_append _ _ _).symm
    | _ => rfl

theorem after_requestHeaders (ctx : HttpContext) (calls : List Call) :
    (after ctx calls).fields.requestHeaders =
      insertAll ctx.fields.requestHeaders (headers ctx.tmpHeaderKey calls) := by
  induction calls generalizing ctx with
  | nil => rfl
  | cons c calls ih =>
    rw [after_cons, ih]
    cases c <;> rfl

theorem params_append (calls calls' : List Call) :
    params (calls ++ calls') = params calls ++ params calls' := by
  induction calls with
  | nil => rfl
  | cons c calls ih =>
    cases c with
    | url s =>
      change queryPairs s ++ params (calls ++ calls') = _
      rw [ih, ← List.append_assoc]
      rfl
    | _ => exact ih

theorem headers_append (key : Bytes) (calls calls' : List Call) :
    ∃ key', headers key (calls ++ calls') = headers key calls ++ headers key' calls' := by
  induction calls generalizing key with
  | nil => exact ⟨key, rfl⟩
  | cons c calls ih =>
    cases c with
    | headerField s => exact ih (key ++ s)
    | headerValue v =>
      rcases ih [] with ⟨key',h⟩
      exact ⟨key', congrArg (List.cons _) h⟩
    | _ => exact ih key

/-- Two contexts that were given the same calls of a request. Between two requests only the name
of a header is the same. -/
structure Agree (s : Stage) (ctx ctx' : HttpContext) : Prop where
  key : ctx.tmpHeaderKey = ctx'.tmpHeaderKey
  method : s ≠ .idle → ctx.fields.httpMethod = ctx'.fields.httpMethod
  target : s ≠ .idle → s ≠ .begun →
    ctx.fields.requestUrl = ctx'.fields.requestUrl ∧ ctx.fields.path = ctx'.fields.path

theorem next_not_idle (s s' : Stage) (c : Call) (h : s.next c = some s')
    (hc : ∀ p, c ≠ .messageBegin p) : s ≠ .idle := by
  rintro rfl
  cases c with
  | messageBegin p => exact hc p rfl
  | _ => exact absurd h (by simp [Stage.next])

theorem next_not_begun (s s' : Stage) (c : Call) (h : s.next c = some s')
    (hc : ∀ p, c ≠ .messageBegin p) (hu : ∀ u, c ≠ .url u) : s ≠ .begun := by
  rintro rfl
  cases c with
  | messageBegin p => exact hc p rfl
  | url u => exact hu u rfl
  | _ => exact absurd h (by simp [Stage.next])

theorem Agree.step (s s' : Stage) (c : Call) (ctx ctx' : HttpContext) (h : Agree s ctx ctx')
    (hc : s.next c = some s') : Agree s' (ctx.step c.callback).1 (ctx'.step c.callback).1 := by
  have hidle := next_not_idle s s' c hc
  have hbegun := next_not_begun s s' c hc
  cases c with
  | messageBegin p =>
    obtain rfl := next_begin s s' p hc
    obtain rfl := Option.some.inj hc
    exact ⟨h.key, fun _ => rfl, fun _ hb => absurd rfl hb⟩
  | url u => exact ⟨h.key, fun _ => h.method (hidle (by simp)), fun _ _ => ⟨rfl,rfl⟩⟩
  | headerField u =>
    refine ⟨?_, fun _ => h.method (hidle (by simp)),
      fun _ _ => h.target (hidle (by simp)) (hbegun (by simp) (by simp))⟩
    exact congrArg (· ++ u) h.key
  | headerValue v =>
    rcases h.target (hidle (by simp)) (hbegun (by simp) (by simp)) with ⟨hurl,hpath⟩
    refine ⟨rfl, fun _ => h.method (hidle (by simp)), fun _ _ => ⟨hurl,?_⟩⟩
    change hostPath ctx.fields.path (ctx.tmpHeaderKey.map HttpServer.tolower,v) =
      hostPath ctx'.fields.path (ctx'.tmpHeaderKey.map HttpServer.tolower,v)
    rw [hpath, h.key]
  | headersComplete p | body u | messageComplete p =>
    exact ⟨h.key, fun _ => h.method (hidle (by simp)),
      fun _ _ => h.target (hidle (by simp)) (hbegun (by simp) (by simp))⟩

theorem Agree.run (s s' : Stage) (calls : List Call) (ctx ctx' : HttpContext) (h : Agree s ctx ctx')
    (hc : s.run calls = some s') : Agree s' (after ctx calls) (after ctx' calls) := by
  induction calls generalizing s ctx ctx' with
  | nil =>
    obtain rfl := Option.some.inj hc
    exact h
  | cons c calls ih =>
    rcases (Stage.run_cons s s' c calls).mp hc with ⟨s1,hnext,hrest⟩
    exact ih s1 _ _ (h.step s s1 c ctx ctx' hnext) hrest

/-- A name is left over only where one has been called for. -/
def NoName (s : Stage) (ctx : HttpContext) : Prop := (∀ b, s ≠ .named b) → ctx.tmpHeaderKey = []

theorem NoName.step (s s' : Stage) (c : Call) (ctx : HttpContext) (h : NoName s ctx)
    (hc : s.next c = some s') : NoName s' (ctx.step c.callback).1 := by
  intro hs'
  cases c with
  | headerField u =>
    exfalso
    cases s with
    | fields b => cases b <;> exact hs' _ (Option.some.inj hc).symm
    | named b => cases b <;> exact hs' _ (Option.some.inj hc).symm
    | _ => exact absurd hc (by simp [Stage.next])
  | headerValue v => rfl
  | _ =>
    apply h
    rintro b rfl
    cases b <;> exact absurd hc (by simp [Stage.next])

theorem NoName.run (s s' : Stage) (calls : List Call) (ctx : HttpContext) (h : NoName s ctx)
    (hc : s.run calls = some s') : NoName s' (after ctx calls) := by
  induction calls generalizing s ctx with
  | nil =>
    obtain rfl := Option.some.inj hc
    exact h
  | cons c calls ih =>
    rcases (Stage.run_cons s s' c calls).mp hc with ⟨s1,hnext,hrest⟩
    exact ih s1 _ (h.step s s1 c ctx hnext) hrest

/-- A complete request has one head, and it begins with the call for its beginning. -/
theorem Served.Complete.parts (r : Served) (h : r.Complete) : ∃ start later p tail,
    r.head = .messageBegin start :: later ∧ r.calls = r.head ++ .headersComplete p :: tail ∧
      Stage.run .idle r.head = some (.fields false) ∧ ∀ c ∈ tail, c.isHead = false := by
  have hrun := h.staged
  rcases h.last with ⟨front,q,hlast,hquiet⟩
  cases hcalls : r.calls with
  | nil =>
    rw [hcalls] at hlast
    exact absurd hlast (by simp)
  | cons c calls =>
    rw [hcalls] at hrun
    rcases (Stage.run_cons _ _ c calls).mp hrun with ⟨s1,hnext,hrest⟩
    -- only the call for the beginning is possible
    have hbegin : ∃ start, c = .messageBegin start ∧ s1 = .begun := by
      cases c with
      | messageBegin start => exact ⟨start, rfl, (Option.some.inj hnext).symm⟩
      | _ => exact absurd hnext (by simp [Stage.next])
    rcases hbegin with ⟨start,rfl,rfl⟩
    rcases run_early .begun calls (Or.inl rfl) hrest with ⟨p,tail,hsplit,hhead,htail⟩
    have htake : r.head = .messageBegin start :: calls.takeWhile fun c => !c.isHead := by
      rw [Served.head, hcalls]
      rfl
    refine ⟨start, _, p, tail, htake, ?_, ?_, ?_⟩
    · rw [htake, List.cons_append, ← hsplit]
    · rw [htake]
      exact (Stage.run_cons _ _ _ _).mpr ⟨_, hnext, hhead⟩
    · -- the completion is the last call, so there is no other one behind the head
      have hsame : front ++ [.messageComplete q] =
          (.messageBegin start :: calls.takeWhile fun c => !c.isHead) ++ .headersComplete p :: tail := by
        rw [← hlast, hcalls, List.cons_append, ← hsplit]
      rcases List.eq_nil_or_concat tail with rfl | ⟨tail',d,rfl⟩
      · simp
      · rw [List.concat_eq_append] at hsame htail ⊢
        have hends : front ++ [.messageComplete q] = ((.messageBegin start ::
            calls.takeWhile fun c => !c.isHead) ++ .headersComplete p :: tail') ++ [d] := by
          rw [hsame, List.append_assoc]
          rfl
        obtain ⟨rfl,hd⟩ := List.append_singleton_inj.mp hends
        rw [← hd] at htail ⊢
        exact run_late _ tail' q (Or.inl rfl) (fun c hc => hquiet c (by simp [hc])) htail

/-- What `OnRequest` sees of a request: the fields behind its last header, with the length. -/
theorem Served.Complete.seen (r : Served) (h : r.Complete) : ∃ p : Parser, ∀ ctx : HttpContext,
    seen ctx r.calls = [{ (after ctx r.head).fields with contentLength := p.contentLength }] := by
  rcases h.parts with ⟨start,later,p,tail,-,hcalls,-,htail⟩
  refine ⟨p, ?_⟩
  intro ctx
  have hhead : ∀ c ∈ r.head, c.isHead = false := by
    intro c hc
    have hnot := List.all_eq_true.mp List.all_takeWhile c hc
    simpa using hnot
  rw [hcalls, seen_append, seen_quiet ctx r.head hhead, seen_cons, seen_quiet _ tail htail,
    List.append_nil, List.nil_append]
  rfl

/-- Two contexts between requests see the same of a request exactly if they come to the same
parameters and headers. -/
theorem Served.Complete.seen_eq_iff (r : Served) (h : r.Complete) (ctx ctx' : HttpContext)
    (hk : ctx.tmpHeaderKey = []) (hk' : ctx'.tmpHeaderKey = [])
    (hq : ctx'.fields.queryParams = fun _ => none) (hh : ctx'.fields.requestHeaders = fun _ => none) :
    HttpParser.seen ctx r.calls = HttpParser.seen ctx' r.calls ↔
      Sub ctx.fields.queryParams (first (params r.head)) ∧
        Sub ctx.fields.requestHeaders (first (headers [] r.head)) := by
  rcases h.seen with ⟨p,hseen⟩
  rcases h.parts with ⟨-,-,-,-,-,-,hrun,-⟩
  have hagree : Agree .idle ctx ctx' := ⟨hk.trans hk'.symm, fun hi => absurd rfl hi, fun hi => absurd rfl hi⟩
  have hend := hagree.run .idle _ r.head ctx ctx' hrun
  rcases hend.target (by simp) (by simp) with ⟨hurl,hpath⟩
  rw [hseen ctx, hseen ctx', List.singleton_inj, Fields.mk.injEq]
  simp only [hend.method (by simp), hurl, hpath, true_and]
  rw [after_queryParams, after_queryParams, after_requestHeaders, after_requestHeaders, hk, hk', hq, hh,
    insertAll_empty, insertAll_empty, insertAll_eq_first_iff, insertAll_eq_first_iff]

theorem left_queryParams (r : Served) (h : r.Complete) (ctx : HttpContext)
    (hsub : Sub ctx.fields.queryParams (first (params r.head))) :
    (after ctx r.calls).fields.queryParams = first (params r.calls) := by
  rcases h.parts with ⟨-,-,p,tail,-,hcalls,-⟩
  rw [after_queryParams, insertAll_eq_first_iff, hcalls, params_append]
  exact hsub.append _ _ _

theorem left_requestHeaders (r : Served) (h : r.Complete) (ctx : HttpContext)
    (hk : ctx.tmpHeaderKey = []) (hsub : Sub ctx.fields.requestHeaders (first (headers [] r.head))) :
    (after ctx r.calls).fields.requestHeaders = first (headers [] r.calls) := by
  rcases h.parts with ⟨-,-,p,tail,-,hcalls,-⟩
  rcases headers_append [] r.head (.headersComplete p :: tail) with ⟨key,hheaders⟩
  rw [after_requestHeaders, hk, insertAll_eq_first_iff, hcalls, hheaders]
  exact hsub.append _ _ _

theorem left_key (r : Served) (h : r.Complete) (ctx : HttpContext) (hk : ctx.tmpHeaderKey = []) :
    (after ctx r.calls).tmpHeaderKey = [] := by
  have hno : NoName .idle ctx := fun _ => hk
  exact hno.run .idle .idle r.calls ctx h.staged (by simp)

/-- Unless the request is cut behind the 'P' that begins it, a new context sees what it would see in
the calls that were made for it. -/
theorem seenAlone_iff (r : Served) (h : r.Complete) (hp : NoCallEndsInP httpParserInit r.datas)
    (f : Fields) : SeenAlone r.datas f ↔ ∀ m n, seen (HttpContext.create m n) r.calls = [f] := by
  have hcalls (m : UInt8) (n : UInt64) (behinds : List UInt8) (hlength : behinds.length = r.datas.length) :
      (reports httpParserInit (r.datas.zip behinds)).map
          (fun q => seen (HttpContext.create m n) (q.2.map Prod.fst)) =
        some (seen (HttpContext.create m n) r.calls) := by
    have hsame := congrArg (Option.map (seen (HttpContext.create m n))) (h.calls r hp behinds hlength)
    rwa [Option.map_map, Option.map_some] at hsame
  constructor
  · intro hs m n
    have hone := hs m n (List.replicate r.datas.length 0) List.length_replicate
    rw [hcalls m n _ List.length_replicate] at hone
    exact Option.some.inj hone
  · intro hs m n behinds hlength
    rw [hcalls m n behinds hlength, hs m n]

/-- In the head of a request the method stays the one it began with. -/
theorem seen_method (s : Stage) (calls : List Call) (ctx : HttpContext) (f : Fields) (fs : List Fields)
    (s' : Stage) (hs : s.Early) (hrun : s.run calls = some s') (h : seen ctx calls = f :: fs) :
    f.httpMethod = ctx.fields.httpMethod := by
  induction calls generalizing s ctx with
  | nil => exact absurd h (by simp [seen, callbacks, HttpContext.onRequests, OperationRuns.specRun])
  | cons c calls ih =>
    rcases (Stage.run_cons s s' c calls).mp hrun with ⟨s1,hnext,hrest⟩
    rw [seen_cons] at h
    rcases next_early s s1 c hs hnext with ⟨p,rfl,-,-⟩ | ⟨hc,hs1,hb⟩
    · rw [← (List.cons.inj h).1]
      rfl
    · have hquiet : (ctx.step c.callback).2 = none := by
        cases c with
        | headersComplete p => exact absurd hc (by simp [Call.isHead])
        | _ => rfl
      have hsame : (ctx.step c.callback).1.fields.httpMethod = ctx.fields.httpMethod := by
        cases c with
        | messageBegin p => exact absurd rfl (hb p)
        | _ => rfl
      rw [hquiet] at h
      rw [← hsame]
      exact ih s1 _ hs1 hrest h

/-- A request that is cut behind its 'P' is a PUT or a POST for a new context, as the byte in memory
behind the cut has it. -/
theorem not_seenAlone (r : Served) (h : r.Complete) (hp : ¬ NoCallEndsInP httpParserInit r.datas)
    (f : Fields) : ¬ SeenAlone r.datas f := by
  intro hs
  have hmethod (b : UInt8) : ∃ method, startMethod (byte 'P') b = some method ∧
      f.httpMethod = UInt8.ofNat method.ctorIdx := by
    rcases h.begins r hp b with ⟨q,tr,start,later,htr,hstart,hcalls⟩
    refine ⟨start.method, hstart, ?_⟩
    have hone := hs 0 0 (List.replicate r.datas.length b) List.length_replicate
    rw [htr, Option.map_some, hcalls] at hone
    rcases staged_reports .idle _ _ _ tr sane_init between_init htr with ⟨s,hrun,-⟩
    rw [hcalls] at hrun
    rcases (Stage.run_cons _ _ _ _).mp hrun with ⟨s1,hnext,hrest⟩
    obtain rfl := Option.some.inj hnext
    exact seen_method .begun later _ f [] s (Or.inl rfl) hrest (Option.some.inj hone)
  rcases hmethod 0 with ⟨method,hpost,hf⟩
  rcases hmethod (byte 'U') with ⟨method',hput,hf'⟩
  have hstart : startMethod (byte 'P') 0 = some .post := by decide
  have hstart' : startMethod (byte 'P') (byte 'U') = some .put := by decide
  rw [← Option.some.inj (hstart.symm.trans hpost)] at hf
  rw [← Option.some.inj (hstart'.symm.trans hput)] at hf'
  exact absurd (hf.symm.trans hf') (by decide)

/-- In these calls the `OnRequest` of every request sees what it would see in a new context that is
given the data of this request alone. -/
def Isolated (ctx : HttpContext) (rs : List Served) (calls : List Call) : Prop :=
  ∀ (i : ℕ) (r : Served), rs[i]? = some r → ∃ f, (seen ctx calls)[i]? = some f ∧ SeenAlone r.datas f

theorem isolated_cons (ctx : HttpContext) (r : Served) (rs : List Served) (calls : List Call)
    (h : r.Complete) : Isolated ctx (r :: rs) (r.calls ++ calls) ↔
      (∃ f, seen ctx r.calls = [f] ∧ SeenAlone r.datas f) ∧ Isolated (after ctx r.calls) rs calls := by
  rcases h.seen with ⟨p,hseen⟩
  have hone (f : Fields) : seen ctx r.calls = [f] ↔
      { (after ctx r.head).fields with contentLength := p.contentLength } = f := by
    rw [hseen ctx, List.singleton_inj]
  unfold Isolated
  rw [seen_append, hseen ctx, List.singleton_append]
  constructor
  · intro hall
    rcases hall 0 r rfl with ⟨f,hf,halone⟩
    refine ⟨⟨f, ?_, halone⟩, fun i r' hr' => hall (i+1) r' hr'⟩
    rw [Option.some.inj hf]
  · rintro ⟨⟨f,hf,halone⟩,hrest⟩ i r' hr'
    cases i with
    | zero =>
      obtain rfl := Option.some.inj hr'
      exact ⟨f, congrArg some (List.singleton_inj.mp hf), halone⟩
    | succ i => exact hrest i r' hr'

theorem isolated_one_iff (r : Served) (h : r.Complete) (ctx : HttpContext)
    (hk : ctx.tmpHeaderKey = []) : (∃ f, seen ctx r.calls = [f] ∧ SeenAlone r.datas f) ↔
      (Sub ctx.fields.queryParams (first (params r.head)) ∧
        Sub ctx.fields.requestHeaders (first (headers [] r.head))) ∧
      NoCallEndsInP httpParserInit r.datas := by
  have heq (m : UInt8) (n : UInt64) := h.seen_eq_iff r ctx (HttpContext.create m n) hk rfl rfl rfl
  constructor
  · rintro ⟨f,hf,halone⟩
    have hp : NoCallEndsInP httpParserInit r.datas := by
      by_contra hno
      exact not_seenAlone r h hno f halone
    refine ⟨(heq 0 0).mp ?_, hp⟩
    rw [hf, (seenAlone_iff r h hp f).mp halone 0 0]
  · rintro ⟨hsub,hp⟩
    rcases h.seen with ⟨p,hseen⟩
    refine ⟨_, hseen ctx, (seenAlone_iff r h hp _).mpr ?_⟩
    intro m n
    rw [← hseen ctx, (heq m n).mpr hsub]

theorem isolated_from_iff (rs : List Served) (hrs : ∀ r ∈ rs, r.Complete) (ctx : HttpContext)
    (hk : ctx.tmpHeaderKey = []) (rest : List Call) :
    Isolated ctx rs (rs.flatMap Served.calls ++ rest) ↔
      ((∀ r ∈ rs.head?, Sub ctx.fields.queryParams (first (params r.head)) ∧
          Sub ctx.fields.requestHeaders (first (headers [] r.head))) ∧ rs.IsChain Covered) ∧
        ∀ r ∈ rs, NoCallEndsInP httpParserInit r.datas := by
  induction rs generalizing ctx with
  | nil => simp [Isolated]
  | cons r rs ih =>
    have hr := hrs r List.mem_cons_self
    have hrest := ih (fun q hq => hrs q (List.mem_cons_of_mem r hq)) (after ctx r.calls)
      (left_key r hr ctx hk)
    rw [List.flatMap_cons, List.append_assoc, isolated_cons ctx r rs _ hr, hrest,
      isolated_one_iff r hr ctx hk]
    simp only [List.head?_cons, Option.mem_def, Option.some.injEq, forall_eq', List.forall_mem_cons]
    constructor
    · rintro ⟨⟨hsub,hp⟩,⟨hnext,hchain⟩,hps⟩
      refine ⟨⟨hsub, ?_⟩, hp, hps⟩
      cases rs with
      | nil => exact List.isChain_singleton r
      | cons r' rs =>
        have hn := hnext r' rfl
        rw [left_queryParams r hr ctx hsub.1, left_requestHeaders r hr ctx hk hsub.2] at hn
        exact List.isChain_cons_cons.mpr ⟨hn,hchain⟩
    · rintro ⟨⟨hsub,hchain⟩,hp,hps⟩
      refine ⟨⟨hsub,hp⟩, ⟨?_, hchain.tail⟩, hps⟩
      intro r' hr'
      rw [left_queryParams r hr ctx hsub.1, left_requestHeaders r hr ctx hk hsub.2]
      cases rs with
      | nil => exact absurd hr' (by simp)
      | cons r'' rs =>
        obtain rfl := Option.some.inj hr'
        exact (List.isChain_cons_cons.mp hchain).1

/-- The calls of a connection are those of its complete requests, and those of one that is not
complete yet. -/
theorem served_calls (input : Input) (calls : List Call) (tr : List (Call × Input)) :
    ∃ rest, calls ++ tr.map Prod.fst = (served input calls tr).flatMap Served.calls ++ rest := by
  induction tr generalizing input calls with
  | nil => exact ⟨calls, by simp [served]⟩
  | cons call tr ih =>
    unfold served
    split_ifs
    · rcases ih (remaining call.2) [] with ⟨rest,hrest⟩
      refine ⟨rest, ?_⟩
      rw [List.flatMap_cons, List.append_assoc, ← hrest, List.map_cons, List.nil_append, List.append_assoc,
        List.singleton_append]
    · rcases ih input (calls ++ [call.1]) with ⟨rest,hrest⟩
      refine ⟨rest, ?_⟩
      rw [← hrest, List.map_cons, List.append_assoc, List.singleton_append]

/-- Two requests, the second cut inside the name of its header. It has the parameter and the header
of the first one, and another parameter. -/
def coveredInput : Input :=
  [(ascii "GET /?a=1 HTTP/1.1\r\nX: y\r\n\r\nGET /?a=1&b=2 HTTP/1.1\r\nX",0), (ascii ": y\r\n\r\n",0)]

/-- `GET /?a=1` and then `GET /?a=2`. -/
def leakingInput : Input :=
  [(ascii "GET /?a=1 HTTP/1.1\r\n\r\n",0), (ascii "GET /?a=2 HTTP/1.1\r\n\r\n",0)]

end Cclab.HttpParser
