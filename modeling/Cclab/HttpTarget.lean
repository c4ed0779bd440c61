import Cclab.HttpRequests
import Mathlib.Data.List.TakeWhile

/-! What an `HttpContext` makes of the request target: the path and the query parameters
that `request_url_cb` cuts out of it, and what the Host header does to the path. -/
namespace Cclab.HttpServer
open KeepFirstMap OperationRuns

/-! The cut at the first occurrence of a byte. -/

theorem findIdx?_absent (c : UInt8) (p : Bytes) (hp : c ∉ p) :
    p.findIdx? (· = c) = none := by
  apply List.findIdx?_eq_none_iff.mpr
  intro x hx
  exact decide_eq_false (fun h => hp (h ▸ hx))

theorem findIdx?_cut (c : UInt8) (p q : Bytes) (hp : c ∉ p) :
    (p ++ c :: q).findIdx? (· = c) = some p.length := by
  rw [List.findIdx?_append, findIdx?_absent c p hp, List.findIdx?_cons]
  simp

/-- A string either holds a byte or is cut by it. -/
theorem cut_cases (c : UInt8) (s : Bytes) : c ∉ s ∨ ∃ p q, s = p ++ c :: q ∧ c ∉ p := by
  by_cases hc : c ∈ s
  · right
    obtain ⟨p,q,hs,hp⟩ := List.eq_append_cons_of_mem hc
    exact ⟨p,q,hs,hp⟩
  · exact Or.inl hc

theorem urlPath_cut (p q : Bytes) (hp : 63 ∉ p) : urlPath (p ++ 63 :: q) = p := by
  simp only [urlPath, findIdx?_cut 63 p q hp, List.take_left]

theorem urlPath_absent (p : Bytes) (hp : 63 ∉ p) : urlPath p = p := by
  simp only [urlPath, findIdx?_absent 63 p hp]

theorem queryPair_cut (k v : Bytes) (hk : 61 ∉ k) : queryPair (k ++ 61 :: v) = (k,v) := by
  simp only [queryPair, findIdx?_cut 61 k v hk, List.take_left]
  rw [← List.drop_drop, List.drop_left, List.drop_one, List.tail_cons]

theorem queryPairs_cut (p q : Bytes) (hp : 63 ∉ p) :
    queryPairs (p ++ 63 :: q) = ((q.splitOn 38).filter (· ≠ [])).map queryPair := by
  simp only [queryPairs, findIdx?_cut 63 p q hp]
  rw [← List.drop_drop, List.drop_left, List.drop_one, List.tail_cons]

/-! The query string of a list of pairs. -/

/-- One item of the query, `k=v`; an extra item is empty. -/
def queryItem : Option (Bytes × Bytes) → Bytes
  | none => []
  | some (k,v) => k ++ 61 :: v

/-- The items joined by '&'. -/
def queryString (items : List (Option (Bytes × Bytes))) : Bytes :=
  [38].intercalate (items.map queryItem)

theorem queryItem_ne_nil (kv : Bytes × Bytes) : queryItem (some kv) ≠ [] := by
  intro h
  exact absurd (congrArg List.length h) (by simp [queryItem])

/-- `getline` gives the items back. -/
theorem splitOn_queryString (items : List (Option (Bytes × Bytes)))
    (h : ∀ kv, some kv ∈ items → 38 ∉ kv.1 ∧ 38 ∉ kv.2) :
    ((queryString items).splitOn 38).filter (· ≠ []) = (items.map queryItem).filter (· ≠ []) := by
  by_cases hne : items = []
  · subst hne
    rfl
  · rw [queryString, List.splitOn_intercalate]
    · intro l hl
      obtain ⟨i,hi,rfl⟩ := List.mem_map.mp hl
      cases i with
      | none => exact List.not_mem_nil
      | some kv =>
        simp only [queryItem, List.mem_append, List.mem_cons, not_or]
        exact ⟨(h kv hi).1, by decide, (h kv hi).2⟩
    · exact fun hm => hne (List.map_eq_nil_iff.mp hm)

theorem pairs_of_items (items : List (Option (Bytes × Bytes)))
    (h : ∀ kv, some kv ∈ items → 61 ∉ kv.1) :
    ((items.map queryItem).filter (· ≠ [])).map queryPair = items.reduceOption := by
  induction items with
  | nil => rfl
  | cons i items ih =>
    have ih := ih (fun kv hkv => h kv (List.mem_cons_of_mem i hkv))
    cases i with
    | none =>
      rw [List.map_cons, List.filter_cons_of_neg (by simp [queryItem]),
        List.reduceOption_cons_of_none]
      exact ih
    | some kv =>
      have hk := h kv List.mem_cons_self
      have hitem : queryPair (queryItem (some kv)) = kv := queryPair_cut kv.1 kv.2 hk
      rw [List.map_cons, List.filter_cons_of_pos (by simpa using queryItem_ne_nil kv),
        List.map_cons, hitem, ih, List.reduceOption_cons_of_some]

/-- Query parsing undoes query encoding. -/
theorem requestUrlCb_queryString (httpMethod : UInt8) (contentLength : UInt64) (p : Bytes)
    (items : List (Option (Bytes × Bytes))) (hp : 63 ∉ p)
    (h : ∀ kv, some kv ∈ items → 61 ∉ kv.1 ∧ 38 ∉ kv.1 ∧ 38 ∉ kv.2) :
    let ctx := requestUrlCb (HttpContext.create httpMethod contentLength)
      (p ++ 63 :: queryString items)
    ctx.fields.path = p ∧ ctx.fields.queryParams = first items.reduceOption := by
  have hpairs : queryPairs (p ++ 63 :: queryString items) = items.reduceOption := by
    rw [queryPairs_cut p _ hp, splitOn_queryString items (fun kv hkv => (h kv hkv).2),
      pairs_of_items items (fun kv hkv => (h kv hkv).1)]
  refine ⟨urlPath_cut p _ hp, ?_⟩
  calc
    _ = insertAll (fun _ => none) (queryPairs (p ++ 63 :: queryString items)) := rfl
    _ = first items.reduceOption := by rw [hpairs, insertAll_empty]

theorem requestUrlCb_queryString_repeated :
    let items := [none, some ([97],[49,61]), some ([97],[50]), none, some ([],[])]
    let ctx := requestUrlCb (HttpContext.create 0 0) ([47] ++ 63 :: queryString items)
    ctx.fields.path = [47] ∧ ctx.fields.queryParams = first items.reduceOption := by
  apply requestUrlCb_queryString 0 0 [47] _ (by decide)
  intro kv hkv
  simp only [List.mem_cons, reduceCtorEq, Option.some.injEq, List.not_mem_nil, or_false,
    false_or] at hkv
  rcases hkv with rfl | rfl | rfl <;> decide

/-! The path at `OnRequest`, for a request whose strings arrive in one piece each. -/

def onePiece (parser : HttpParser) (target : Bytes) (headers : List (Bytes × Bytes))
    (body : List Bytes) (trailers : List (Bytes × Bytes)) : Request :=
  ⟨parser, [target], headers.map (fun h => ([h.1],[h.2])), body,
    trailers.map (fun h => ([h.1],[h.2]))⟩

def isHost (h : Bytes × Bytes) : Bool := h.1.map tolower = hostKey

/-- "http://" -/
def httpScheme : Bytes := [104,116,116,112,58,47,47]

/-- `path` is the path of the request target `target` under the host `host`. -/
def PathOf (target host path : Bytes) : Prop :=
  (target.head? = some 47 → path = target.takeWhile (· ≠ 63)) ∧
  ∀ rest, target = httpScheme ++ host ++ rest → rest.head? = some 47 →
    path = rest.takeWhile (· ≠ 63)

/-- The target is a path that contains the host and is longer than "http://" and the
host, or an absolute one whose host contains a '?'. -/
def Misread (target host : Bytes) : Prop :=
  (target.head? = some 47 ∧ host <:+: target.takeWhile (· ≠ 63) ∧
    7+host.length < (target.takeWhile (· ≠ 63)).length) ∨
  (63 ∈ host ∧ ∃ rest, target = httpScheme ++ host ++ rest ∧ rest.head? = some 47)

theorem no_question (p : Bytes) (hp : 63 ∉ p) : ∀ x ∈ p, decide (x ≠ 63) = true := by
  intro x hx
  exact decide_eq_true (fun h => hp (h ▸ hx))

theorem takeWhile_cut (p q : Bytes) (hp : 63 ∉ p) :
    (p ++ 63 :: q).takeWhile (· ≠ 63) = p := by
  rw [List.takeWhile_append_of_pos (no_question p hp)]
  simp

theorem takeWhile_absent (p : Bytes) (hp : 63 ∉ p) : p.takeWhile (· ≠ 63) = p :=
  List.takeWhile_eq_self_iff.mpr (no_question p hp)

theorem urlPath_eq (url : Bytes) : urlPath url = url.takeWhile (· ≠ 63) := by
  rcases cut_cases 63 url with h | ⟨p,q,rfl,hp⟩
  · rw [urlPath_absent url h, takeWhile_absent url h]
  · rw [urlPath_cut p q hp, takeWhile_cut p q hp]

theorem hostPath_other (path : Bytes) (kv : Bytes × Bytes) (h : kv.1 ≠ hostKey) :
    hostPath path kv = path := by
  apply if_neg
  exact fun hk => h hk.1

/-- Only the Host headers touch the path. -/
theorem foldl_hostPath (path : Bytes) (hs : List (Bytes × Bytes)) :
    (hs.flatMap (fun h => headerPairs ([h.1],[h.2]))).foldl hostPath path =
      ((hs.filter isHost).map Prod.snd).foldl (fun p v => hostPath p (hostKey,v)) path := by
  induction hs generalizing path with
  | nil => rfl
  | cons h hs ih =>
    have hpairs : headerPairs ([h.1],[h.2]) = [(h.1.map tolower,h.2)] := by
      simp only [headerPairs, List.flatten_singleton, List.map_nil]
    rw [List.flatMap_cons, hpairs, List.singleton_append, List.foldl_cons, ih]
    by_cases hk : h.1.map tolower = hostKey
    · rw [List.filter_cons_of_pos (by simpa [isHost] using hk), hk]
      rfl
    · rw [List.filter_cons_of_neg (by simpa [isHost] using hk), hostPath_other _ _ hk]

theorem takeWhile_slash (rest : Bytes) (h : rest.head? = some 47) :
    (rest.takeWhile (· ≠ 63)).head? = some 47 := by
  cases rest with
  | nil => exact absurd h (by simp)
  | cons c rest =>
    obtain rfl : c = 47 := Option.some.inj h
    rfl

theorem scheme_question (p : Bytes) (hp : 63 ∉ p) : 63 ∉ httpScheme ++ p := by
  rw [List.mem_append, not_or]
  exact ⟨by decide, hp⟩

/-- An absolute target whose host has no '?' keeps its host in the path. -/
theorem takeWhile_absolute (host rest : Bytes) (hh : 63 ∉ host) :
    (httpScheme ++ host ++ rest).takeWhile (· ≠ 63) =
      httpScheme ++ host ++ rest.takeWhile (· ≠ 63) := by
  apply List.takeWhile_append_of_pos
  exact no_question _ (scheme_question host hh)

theorem hostPath_absolute (host rest : Bytes) (hh : 63 ∉ host) (hr : rest.head? = some 47) :
    hostPath ((httpScheme ++ host ++ rest).takeWhile (· ≠ 63)) (hostKey,host) =
      rest.takeWhile (· ≠ 63) := by
  have hpos : 0 < (rest.takeWhile (· ≠ 63)).length := by
    apply List.length_pos_iff.mpr
    intro h
    have hhead := takeWhile_slash rest hr
    rw [h] at hhead
    exact absurd hhead (by simp)
  have hlen : (httpScheme ++ host).length = 7 + host.length := by
    rw [List.length_append]
    rfl
  rw [takeWhile_absolute host rest hh, hostPath, if_pos]
  · rw [← hlen, List.drop_left]
  · refine ⟨rfl, ⟨httpScheme, rest.takeWhile (· ≠ 63), rfl⟩, ?_⟩
    show 7 + host.length < _
    rw [List.length_append, hlen]
    omega

/-- With a '?' in the host the path ends within the host. -/
theorem hostPath_question (host rest : Bytes) (hh : 63 ∈ host) :
    (hostPath ((httpScheme ++ host ++ rest).takeWhile (· ≠ 63)) (hostKey,host)).head? =
      some 104 := by
  obtain ⟨p,q,rfl,hp⟩ := List.eq_append_cons_of_mem hh
  have hcut : (httpScheme ++ (p ++ 63 :: q) ++ rest).takeWhile (· ≠ 63) = httpScheme ++ p := by
    calc
      _ = ((httpScheme ++ p) ++ 63 :: (q ++ rest)).takeWhile (· ≠ 63) := by
        simp only [List.append_assoc, List.cons_append]
      _ = _ := takeWhile_cut _ _ (scheme_question p hp)
  rw [hcut, hostPath, if_neg]
  · rfl
  · rintro ⟨-,-,hlen⟩
    have hseven : httpScheme.length = 7 := rfl
    simp only [List.length_append, List.length_cons, hseven] at hlen
    omega

theorem pathOf_iff (target host : Bytes) :
    PathOf target host (hostPath (urlPath target) (hostKey,host)) ↔ ¬ Misread target host := by
  rw [urlPath_eq]
  constructor
  · rintro ⟨horigin,habsolute⟩ (⟨hslash,hin,hlen⟩ | ⟨hq,rest,htarget,hrest⟩)
    -- the Host callback cuts a path that was right
    · have hcut := horigin hslash
      rw [hostPath, if_pos ⟨rfl,hin,hlen⟩] at hcut
      have hlength := congrArg List.length hcut
      rw [List.length_drop] at hlength
      omega
    -- what is left begins with the 'h' of the scheme, and not with '/'
    · have hpath := habsolute rest htarget hrest
      rw [htarget] at hpath
      have hhead := hostPath_question host rest hq
      rw [hpath, takeWhile_slash rest hrest] at hhead
      exact absurd hhead (by decide)
  · intro hm
    constructor
    -- the path does not contain the host, or is too short for the cut
    · intro hslash
      apply if_neg
      exact fun h => hm (Or.inl ⟨hslash,h.2⟩)
    · intro rest htarget hrest
      have hq : 63 ∉ host := fun hq => hm (Or.inr ⟨hq,rest,htarget,hrest⟩)
      rw [htarget]
      exact hostPath_absolute host rest hq hrest

/-- `path_` at `OnRequest` is the path of the target, for a request with one Host header,
if and only if the target is not one that the callbacks misread. -/
theorem path_of_target_iff (httpMethod : UInt8) (contentLength : UInt64) (parser : HttpParser)
    (target host : Bytes) (headers : List (Bytes × Bytes)) (body : List Bytes)
    (trailers : List (Bytes × Bytes))
    (hhost : (headers.filter isHost).map Prod.snd = [host]) :
    ∃ f, (HttpContext.create httpMethod contentLength).onRequests
        (onePiece parser target headers body trailers).callbacks = [f] ∧
      (PathOf target host f.path ↔ ¬ Misread target host) := by
  have hpieces (hs : List (Bytes × Bytes)) :
      ∀ h ∈ hs.map (fun h => (([h.1],[h.2]) : List Bytes × List Bytes)), h.2 ≠ [] := by
    intro h hh
    obtain ⟨g,-,rfl⟩ := List.mem_map.mp hh
    exact List.cons_ne_nil _ _
  have hr : (onePiece parser target headers body trailers).WellFormed :=
    ⟨List.cons_ne_nil _ _, hpieces headers, hpieces trailers⟩
  refine ⟨_, onRequests_request _ hr _, ?_⟩
  have hpath (f : Fields) : ((onePiece parser target headers body trailers).seen hr.target f).path =
      hostPath (urlPath target) (hostKey,host) := by
    show ((headers.map (fun h => ([h.1],[h.2]))).flatMap headerPairs).foldl hostPath
      (urlPath target) = _
    rw [List.flatMap_map, foldl_hostPath, hhost]
    rfl
  rw [hpath]
  exact pathOf_iff target host

theorem path_of_target_iff_index :
    ∃ f, (HttpContext.create 0 0).onRequests
        (onePiece ⟨1,0⟩ [47,120,63,121] [([72,111,115,116],[97])] [] []).callbacks = [f] ∧
      (PathOf [47,120,63,121] [97] f.path ↔ ¬ Misread [47,120,63,121] [97]) :=
  path_of_target_iff 0 0 ⟨1,0⟩ [47,120,63,121] [97] [([72,111,115,116],[97])] [] [] (by decide)

/-- "GET /aaaaaaaaaa" with "Host: a" is handled as a request for "aaa". -/
theorem path_loses_its_start : ∃ f, (HttpContext.create 0 0).onRequests
      (onePiece ⟨1,0⟩ (47 :: List.replicate 10 97) [([72,111,115,116],[97])] [] []).callbacks = [f] ∧
    f.path = [97,97,97] ∧ ¬ PathOf (47 :: List.replicate 10 97) [97] f.path := by
  refine ⟨_, rfl, by decide, ?_⟩
  rintro ⟨horigin,-⟩
  exact absurd (horigin rfl) (by decide)

end Cclab.HttpServer
