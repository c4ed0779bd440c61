import Cclab.HttpRequests

/-! Requests in pieces: `header_field_cb` appends its pieces, but `request_url_cb` and
`header_value_cb` take each piece for the whole string. -/
namespace Cclab.HttpServer
open KeepFirstMap

/-- The request with each of its strings delivered at once. -/
def Request.whole (r : Request) : Request :=
  { r with
    target := [r.target.flatten]
    headers := r.headers.map (fun h => ([h.1.flatten],[h.2.flatten])) }

/-- The pieces are not empty; only an empty value is delivered as one empty piece. -/
structure Request.Divided (r : Request) : Prop where
  target : r.target ≠ [] ∧ [] ∉ r.target
  names : ∀ h ∈ r.headers, h.1 ≠ [] ∧ [] ∉ h.1
  values : ∀ h ∈ r.headers, h.2 ≠ [] ∧ ([] ∉ h.2 ∨ h.2 = [[]])
  trailers : ∀ h ∈ r.trailers, h.2 ≠ []

theorem flatten_ne_nil (ss : List Bytes) (h : ss ≠ [] ∧ [] ∉ ss) : ss.flatten ≠ [] := by
  cases ss with
  | nil => exact absurd rfl h.1
  | cons s ss =>
    rw [List.flatten_cons]
    intro hn
    exact h.2 (by rw [(List.append_eq_nil_iff.mp hn).1]; exact List.mem_cons_self)

/-- A string in several pieces is not its last piece. -/
theorem one_piece_of_last (ss : List Bytes) (h : ss ≠ []) (hne : [] ∉ ss)
    (hlast : ss.getLast h = ss.flatten) : ss.length = 1 := by
  have hsplit := List.dropLast_append_getLast h
  have hflat : ss.dropLast.flatten = [] := by
    have hcongr := congrArg List.flatten hsplit
    rw [List.flatten_append, List.flatten_singleton, ← hlast] at hcongr
    exact List.append_left_eq_self.mp hcongr
  have hdrop : ss.dropLast = [] := by
    by_contra hn
    exact flatten_ne_nil _ ⟨hn, fun hm => hne (List.dropLast_subset ss hm)⟩ hflat
  rw [← hsplit, hdrop]
  rfl

theorem headerPairs_whole (names values : List Bytes) (h : values.length = 1) :
    headerPairs (names,values) = headerPairs ([names.flatten],[values.flatten]) := by
  obtain ⟨v,rfl⟩ := List.length_eq_one_iff.mp h
  simp only [headerPairs, List.flatten_singleton]

section divided
variable (r : Request) (hd : r.Divided)
include hd

theorem Request.Divided.wellFormed : r.WellFormed :=
  ⟨hd.target.1, fun h hh => (hd.values h hh).1, hd.trailers⟩

theorem Request.Divided.whole_wellFormed : r.whole.WellFormed := by
  refine ⟨List.cons_ne_nil _ _, ?_, hd.trailers⟩
  intro h hh
  obtain ⟨g,-,rfl⟩ := List.mem_map.mp hh
  exact List.cons_ne_nil _ _

/-- Of a request delivered whole no header is stored under the empty key. -/
theorem whole_headPairs_keys (p : Bytes × Bytes) (hp : p ∈ r.whole.headPairs) : p.1 ≠ [] := by
  obtain ⟨h,hh,hp⟩ := List.mem_flatMap.mp hp
  obtain ⟨g,hg,rfl⟩ := List.mem_map.mp hh
  rw [List.mem_singleton.mp hp]
  have hname := flatten_ne_nil g.1 (hd.names g hg)
  simpa using hname

/-- A second piece of a value is stored under the empty key. -/
theorem empty_key_of_pieces (h : List Bytes × List Bytes) (hh : h ∈ r.headers)
    (hlen : h.2.length ≠ 1) : first r.headPairs [] ≠ none := by
  obtain ⟨names,values⟩ := h
  cases values with
  | nil => exact absurd rfl (hd.values _ hh).1
  | cons v values =>
    cases values with
    | nil => exact absurd rfl hlen
    | cons w values =>
      apply first_ne_none r.headPairs ([],w)
      apply List.mem_flatMap.mpr
      refine ⟨_, hh, ?_⟩
      simp only [headerPairs, List.map_cons, List.mem_cons, true_or, or_true]

end divided

/-- The pieces of a request make no difference to `OnRequest` exactly when its target and
each header value come in one piece; names may be cut anywhere. -/
theorem fragments_invisible_iff (r : Request) (hd : r.Divided) (f : Fields)
    (hf : f.requestHeaders [] = none) :
    HttpContext.onRequests ⟨f,[]⟩ r.callbacks = HttpContext.onRequests ⟨f,[]⟩ r.whole.callbacks ↔
      r.target.length = 1 ∧ ∀ h ∈ r.headers, h.2.length = 1 := by
  rw [onRequests_request r hd.wellFormed, onRequests_request r.whole hd.whole_wellFormed,
    List.cons.injEq, and_iff_left rfl]
  constructor
  · intro h
    refine ⟨one_piece_of_last r.target hd.target.1 hd.target.2 (congrArg Fields.requestUrl h), ?_⟩
    intro g hg
    by_contra hlen
    have hkey := congrFun (congrArg Fields.requestHeaders h) []
    simp only [Request.seen, Request.after, insertAll_apply, hf, Option.none_or] at hkey
    rw [first_eq_none r.whole.headPairs [] (whole_headPairs_keys r hd)] at hkey
    exact empty_key_of_pieces r hd g hg hlen hkey
  · rintro ⟨ht,hh⟩
    obtain ⟨s,hs⟩ := List.length_eq_one_iff.mp ht
    have htarget : r.whole.target = r.target := by
      simp only [Request.whole, hs, List.flatten_singleton]
    have hpairs : r.whole.headPairs = r.headPairs := by
      simp only [Request.headPairs, Request.whole, List.flatMap_map]
      apply List.flatMap_congr
      intro g hg
      exact (headerPairs_whole g.1 g.2 (hh g hg)).symm
    simp only [Request.seen, Request.after, Request.params, htarget, hpairs]
    rfl

/-- `GET /a` in one piece with the name of its header in two. -/
theorem fragments_invisible_iff_name :
    (HttpContext.create 0 0).onRequests
        (Request.mk ⟨1,0⟩ [[47,97]] [([[97],[98]],[[99]])] [] []).callbacks =
      (HttpContext.create 0 0).onRequests
        (Request.mk ⟨1,0⟩ [[47,97]] [([[97],[98]],[[99]])] [] []).whole.callbacks :=
  (fragments_invisible_iff ⟨⟨1,0⟩,[[47,97]],[([[97],[98]],[[99]])],[],[]⟩
    ⟨by decide, by decide, by decide, by decide⟩ (HttpContext.create 0 0).fields rfl).mpr
    (by decide)

/-- The target `/a` in two pieces leaves `request_url_` with its second one. -/
theorem cut_target_visible : ¬ ∀ r : Request, r.Divided →
    (HttpContext.create 0 0).onRequests r.callbacks =
      (HttpContext.create 0 0).onRequests r.whole.callbacks := by
  intro h
  have hlist := h ⟨⟨1,0⟩,[[47],[97]],[],[],[]⟩ ⟨by decide, by decide, by decide, by decide⟩
  have hurl := congrArg (fun l => l.map Fields.requestUrl) hlist
  exact absurd hurl (by decide)

end Cclab.HttpServer
