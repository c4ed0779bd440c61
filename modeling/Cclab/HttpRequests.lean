import Cclab.HttpContext

/-! What the callbacks of one request do to an `HttpContext`, in terms of the pieces in which
the request was delivered. -/
namespace Cclab.HttpServer
open KeepFirstMap OperationRuns

theorem run_append (ctx : HttpContext) (cs ds : List Callback) :
    ctx.run (cs ++ ds) = (ctx.run cs).run ds := by
  simp only [HttpContext.run, specRun_append]

theorem onRequests_append (ctx : HttpContext) (cs ds : List Callback) :
    ctx.onRequests (cs ++ ds) = ctx.onRequests cs ++ (ctx.run cs).onRequests ds := by
  simp only [HttpContext.onRequests, HttpContext.run, specRun_append, List.reduceOption_append]

theorem run_cons (ctx : HttpContext) (c : Callback) (cs : List Callback) :
    ctx.run (c :: cs) = (ctx.step c).1.run cs := rfl

/-- Only `headers_complete_cb` calls `OnRequest`. -/
def Quiet (c : Callback) : Prop := ∀ ctx : HttpContext, (ctx.step c).2 = none

theorem onRequests_quiet (ctx : HttpContext) (cs : List Callback) (h : ∀ c ∈ cs, Quiet c) :
    ctx.onRequests cs = [] := by
  induction cs generalizing ctx with
  | nil => rfl
  | cons c cs ih =>
    have hc := h c List.mem_cons_self ctx
    have hrest := ih (ctx.step c).1 (fun d hd => h d (List.mem_cons_of_mem c hd))
    simp only [HttpContext.onRequests, specRun, hc, List.reduceOption_cons_of_none]
    exact hrest

theorem quiet_map (f : Bytes → Callback) (hf : ∀ s, Quiet (f s)) (ss : List Bytes) :
    ∀ c ∈ ss.map f, Quiet c := by
  intro c hc
  obtain ⟨s,-,rfl⟩ := List.mem_map.mp hc
  exact hf s

theorem quiet_headers (hs : List (List Bytes × List Bytes)) :
    ∀ c ∈ hs.flatMap headerCallbacks, Quiet c := by
  intro c hc
  obtain ⟨h,-,hc⟩ := List.mem_flatMap.mp hc
  rcases List.mem_append.mp hc with hc | hc
  · exact quiet_map _ (fun _ _ => rfl) h.1 c hc
  · exact quiet_map _ (fun _ _ => rfl) h.2 c hc

/-- The keys under which the pieces of one header are stored: the first piece of the value
under the name, the others under the empty key that is left. -/
def headerPairs (h : List Bytes × List Bytes) : List (Bytes × Bytes) :=
  match h.2 with
  | [] => []
  | v :: vs => (h.1.flatten.map tolower, v) :: vs.map (fun w => ([],w))

def Fields.put (f : Fields) (ps : List (Bytes × Bytes)) : Fields :=
  { f with
    path := ps.foldl hostPath f.path
    requestHeaders := insertAll f.requestHeaders ps }

theorem put_append (f : Fields) (ps qs : List (Bytes × Bytes)) :
    f.put (ps ++ qs) = (f.put ps).put qs := by
  simp only [Fields.put, List.foldl_append, insertAll_append]

theorem run_names (ctx : HttpContext) (names : List Bytes) :
    ctx.run (names.map .headerField) =
      { ctx with tmpHeaderKey := ctx.tmpHeaderKey ++ names.flatten } := by
  induction names generalizing ctx with
  | nil => simp [HttpContext.run, specRun]
  | cons s names ih =>
    rw [List.map_cons, run_cons, ih, List.flatten_cons, ← List.append_assoc]
    rfl

theorem run_value (ctx : HttpContext) (v : Bytes) :
    (ctx.step (.headerValue v)).1 = ⟨ctx.fields.put [(ctx.tmpHeaderKey.map tolower,v)],[]⟩ := rfl

theorem run_more_values (f : Fields) (values : List Bytes) :
    HttpContext.run ⟨f,[]⟩ (values.map .headerValue) = ⟨f.put (values.map (fun w => ([],w))),[]⟩ := by
  induction values generalizing f with
  | nil => rfl
  | cons v values ih =>
    rw [List.map_cons, run_cons, run_value, ih, ← put_append]
    rfl

theorem run_header (f : Fields) (h : List Bytes × List Bytes) (hv : h.2 ≠ []) :
    HttpContext.run ⟨f,[]⟩ (headerCallbacks h) = ⟨f.put (headerPairs h),[]⟩ := by
  obtain ⟨names,values⟩ := h
  cases values with
  | nil => exact absurd rfl hv
  | cons v values =>
    rw [headerCallbacks, run_append, run_names, List.map_cons, run_cons, run_value,
      run_more_values, ← put_append]
    rfl

theorem run_headers (f : Fields) (hs : List (List Bytes × List Bytes)) (hv : ∀ h ∈ hs, h.2 ≠ []) :
    HttpContext.run ⟨f,[]⟩ (hs.flatMap headerCallbacks) = ⟨f.put (hs.flatMap headerPairs),[]⟩ := by
  induction hs generalizing f with
  | nil => rfl
  | cons h hs ih =>
    rw [List.flatMap_cons, run_append, run_header f h (hv h List.mem_cons_self),
      ih _ (fun g hg => hv g (List.mem_cons_of_mem h hg)), List.flatMap_cons, put_append]

/-- The target leaves its last piece, and the parameters of all its pieces. -/
theorem run_target (ctx : HttpContext) (target : List Bytes) (ht : target ≠ []) :
    ctx.run (target.map .url) = { ctx with fields := { ctx.fields with
      requestUrl := target.getLast ht
      path := urlPath (target.getLast ht)
      queryParams := insertAll ctx.fields.queryParams (target.flatMap queryPairs) } } := by
  induction target generalizing ctx with
  | nil => exact absurd rfl ht
  | cons s target ih =>
    rw [List.map_cons, run_cons]
    cases target with
    | nil => simp only [List.map_nil, List.getLast_singleton, List.flatMap_singleton]; rfl
    | cons s' target =>
      rw [ih _ (List.cons_ne_nil s' target), List.getLast_cons (List.cons_ne_nil s' target),
        show (s :: s' :: target).flatMap queryPairs =
          queryPairs s ++ (s' :: target).flatMap queryPairs from rfl, insertAll_append]
      rfl

structure Request.WellFormed (r : Request) : Prop where
  target : r.target ≠ []
  headers : ∀ h ∈ r.headers, h.2 ≠ []
  trailers : ∀ h ∈ r.trailers, h.2 ≠ []

def Request.params (r : Request) : List (Bytes × Bytes) := r.target.flatMap queryPairs

def Request.headPairs (r : Request) : List (Bytes × Bytes) := r.headers.flatMap headerPairs

/-- The fields behind the last header of a request, over those before it. -/
def Request.after (r : Request) (ht : r.target ≠ []) (f : Fields) : Fields where
  httpMethod := r.parser.method
  requestUrl := r.target.getLast ht
  path := r.headPairs.foldl hostPath (urlPath (r.target.getLast ht))
  contentLength := f.contentLength
  queryParams := insertAll f.queryParams r.params
  requestHeaders := insertAll f.requestHeaders r.headPairs

theorem run_head (r : Request) (hr : r.WellFormed) (f : Fields) :
    HttpContext.run ⟨f,[]⟩ r.head = ⟨r.after hr.target f,[]⟩ := by
  rw [Request.head, run_cons, run_append, run_target _ r.target hr.target]
  exact run_headers _ r.headers hr.headers

/-- What `OnRequest` sees of a request. -/
def Request.seen (r : Request) (ht : r.target ≠ []) (f : Fields) : Fields :=
  { r.after ht f with contentLength := r.parser.contentLength }

theorem onRequests_request (r : Request) (hr : r.WellFormed) (f : Fields) :
    HttpContext.onRequests ⟨f,[]⟩ r.callbacks = [r.seen hr.target f] := by
  have hhead : ∀ c ∈ r.head, Quiet c := by
    intro c hc
    rcases List.mem_cons.mp hc with rfl | hc
    · exact fun _ => rfl
    · rcases List.mem_append.mp hc with hc | hc
      · exact quiet_map _ (fun _ _ => rfl) r.target c hc
      · exact quiet_headers r.headers c hc
  have hrest : ∀ c ∈ r.body.map .body ++ r.trailers.flatMap headerCallbacks ++
      [.messageComplete r.parser], Quiet c := by
    intro c hc
    rcases List.mem_append.mp hc with hc | hc
    · rcases List.mem_append.mp hc with hc | hc
      · exact quiet_map _ (fun _ _ => rfl) r.body c hc
      · exact quiet_headers r.trailers c hc
    · rw [List.mem_singleton.mp hc]
      exact fun _ => rfl
  rw [Request.callbacks, onRequests_append, onRequests_quiet _ _ hhead, run_head r hr,
    List.nil_append, ← List.singleton_append, onRequests_append, onRequests_quiet _ _ hrest]
  rfl

end Cclab.HttpServer
