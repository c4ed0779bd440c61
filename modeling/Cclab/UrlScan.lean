import Cclab.UrlHost
import Cclab.UrlPass

/-! The pass of `http_parser_parse_url` over a whole URL: where the good bytes lead, and what it
writes into the table. -/
namespace Cclab.HttpUrl
open FieldSlices HttpParser

section found

theorem not_blank_of_class (good : UInt8 → Bool) (c : UInt8) (hc : good c = true)
    (h : good space = false ∧ good CR = false ∧ good LF = false ∧ good tab = false ∧
      good 12 = false) : ¬ blank c := by
  obtain ⟨h1,h2,h3,h4,h5⟩ := h
  have hne (d : UInt8) (hd : good d = false) : c ≠ d := ne_of_class good c d hc hd
  rintro (h | h | h | h | h)
  · exact hne _ h1 h
  · exact hne _ h2 h
  · exact hne _ h3 h
  · exact hne _ h4 h
  · exact hne _ h5 h

/-! Where the good bytes lead. -/

theorem char_schema (s : State) (hs : s = .reqSpacesBeforeUrl ∨ s = .reqSchema) (c : UInt8)
    (hc : isAlpha c = true) : parseUrlChar s c = .reqSchema := by
  have hb : ¬ blank c := not_blank_of_class isAlpha c hc (by decide)
  have hslash : ¬ (c = byte '/' ∨ c = byte '*') := by
    rintro (rfl | rfl) <;> exact absurd hc (by decide)
  obtain rfl | rfl := hs
  · exact (if_neg hb).trans ((if_neg hslash).trans (if_pos hc))
  · exact (if_neg hb).trans (if_pos hc)

theorem char_path (c : UInt8) (hc : isUrlChar c = true) : parseUrlChar .reqPath c = .reqPath :=
  (if_neg (not_blank_of_class isUrlChar c hc (by decide))).trans (if_pos hc)

theorem char_query (s : State) (hs : s = .reqQueryStringStart ∨ s = .reqQueryString) (c : UInt8)
    (hc : isQueryChar c = true) : parseUrlChar s c = .reqQueryString := by
  have hb : ¬ blank c := not_blank_of_class isQueryChar c hc (by decide)
  have hq : isUrlChar c = true ∨ c = byte '?' := by simpa [isQueryChar] using hc
  obtain rfl | rfl := hs
  · exact (if_neg hb).trans (if_pos hq)
  · exact (if_neg hb).trans (if_pos hq)

theorem char_fragment (c : UInt8) (hc : isFragmentChar c = true) :
    parseUrlChar .reqFragment c = .reqFragment := by
  have hb : ¬ blank c := not_blank_of_class isFragmentChar c hc (by decide)
  have hf : isUrlChar c = true ∨ c = byte '?' ∨ c = byte '#' := by
    simpa [isFragmentChar, isQueryChar, or_assoc] using hc
  exact (if_neg hb).trans (if_pos hf)

theorem char_fragmentStart (c : UInt8) (hc : isFragmentChar c = true) (hne : c ≠ byte '#') :
    parseUrlChar .reqFragmentStart c = .reqFragment := by
  have hb : ¬ blank c := not_blank_of_class isFragmentChar c hc (by decide)
  have hq : isUrlChar c = true ∨ c = byte '?' := by
    simpa [isFragmentChar, isQueryChar, hne] using hc
  exact (if_neg hb).trans (if_pos hq)

theorem char_plain (s : State) (hs : atServer s) (c : UInt8) (hc : isPlainChar c = true) :
    parseUrlChar s c = .reqServer := by
  have hb : ¬ blank c := not_blank_of_class isPlainChar c hc (by decide)
  have hne (d : UInt8) (hd : isPlainChar d = false) : c ≠ d := ne_of_class isPlainChar c d hc hd
  have hplain : isUserinfoChar c = true ∨ c = byte '[' ∨ c = byte ']' := by
    simpa [isPlainChar, or_assoc] using hc
  have hserver : parseUrlChar.server c = .reqServer := by
    rw [parseUrlChar.server, if_neg (hne _ (by decide)), if_neg (hne _ (by decide)),
      if_neg (hne _ (by decide)), if_pos hplain]
  obtain rfl | rfl | rfl := hs
  · exact (if_neg hb).trans hserver
  · exact (if_neg hb).trans hserver
  · exact (if_neg hb).trans ((if_neg (hne _ (by decide))).trans hserver)

/-! What the pass does to the table. -/

/-- The field a state belongs to; the host has two states. -/
def fieldOf : State → Option UrlField
  | .reqSchema => some .schema
  | .reqPath => some .path
  | .reqQueryString => some .query
  | .reqFragment => some .fragment
  | _ => none

theorem step_field (l : UrlLoop) (f : UrlField) (s : State) (c : UInt8)
    (hs : parseUrlChar l.s c = s) (hf : fieldOf s = some f) : urlStep l c =
      some (⟨s,some f,l.foundAt⟩, if l.oldUf = some f then .extend f else .start f) := by
  unfold urlStep
  rw [hs]
  cases s <;> cases hf <;> rfl

theorem step_server (s : State) (hs : atServer s) (old : Option UrlField) (foundAt : Bool)
    (c : UInt8) (h : parseUrlChar s c = .reqServer ∨ parseUrlChar s c = .reqServerWithAt) :
    urlStep ⟨s,old,foundAt⟩ c =
      some (⟨parseUrlChar s c, some .host, foundAt || decide (c = byte '@')⟩,
        if old = some .host then .extend .host else .start .host) := by
  have hp : passes (parseUrlChar s c) = true := by
    obtain h | h := h
    · rw [h]; rfl
    · rw [h]; rfl
  unfold urlStep
  obtain ⟨hc,he⟩ | ⟨hc,he⟩ | ⟨-,he⟩ | ⟨-,he⟩ := server_cases s hs c hp
  · rw [he, decide_eq_true hc, Bool.or_true]
    rfl
  · rw [he, decide_eq_false (ne_of_class isPlainChar c _ hc (by decide)), Bool.or_false]
    rfl
  · rw [he] at h
    exact absurd h (by decide)
  · rw [he] at h
    exact absurd h (by decide)

variable (i : ℕ) (u : Slices UrlField)

/-- A whole field, but for the host. -/
theorem scan_field (l : UrlLoop) (f : UrlField) (s : State) (good : UInt8 → Bool) (c : UInt8)
    (cs rest : List UInt8) (hf : fieldOf s = some f) (hold : l.oldUf ≠ some f)
    (hc : parseUrlChar l.s c = s) (hcs : ∀ d ∈ cs, good d = true)
    (hstay : ∀ d, good d = true → parseUrlChar s d = s) :
    scan urlStep i (c :: cs ++ rest) l u =
      scan urlStep (i+(c :: cs).length) rest ⟨s,some f,l.foundAt⟩ (u.put f i (c :: cs).length) := by
  have hfirst : urlStep l c = some (⟨s,some f,l.foundAt⟩,.start f) := by
    rw [step_field l f s c hc hf, if_neg hold]
  have hext : Extends urlStep f ⟨s,some f,l.foundAt⟩ cs ⟨s,some f,l.foundAt⟩ := by
    refine extends_stay f good _ cs hcs fun d hd => ?_
    rw [step_field _ f s d (hstay d hd) hf, if_pos rfl]
  exact hext.scan_first f i c cs rest l _ _ _ u hfirst rfl

theorem mem_at (c : UInt8) (l : List UInt8) :
    decide (byte '@' ∈ c :: l) = (decide (c = byte '@') || decide (byte '@' ∈ l)) := by
  have hiff : byte '@' ∈ c :: l ↔ c = byte '@' ∨ byte '@' ∈ l :=
    List.mem_cons.trans (or_congr_left eq_comm)
  rw [decide_eq_decide.mpr hiff, Bool.decide_or]

theorem extends_server (s : State) (hs : atServer s) (l : List UInt8) (h : Serves s l)
    (foundAt : Bool) : ∃ t, atServer t ∧ Extends urlStep .host ⟨s,some .host,foundAt⟩ l
      ⟨t, some .host, foundAt || decide (byte '@' ∈ l)⟩ := by
  induction l generalizing s foundAt with
  | nil =>
    refine ⟨s, hs, ?_⟩
    show UrlLoop.mk _ _ _ = _
    simp
  | cons c l ih =>
    obtain ⟨hc,hl⟩ := h
    obtain ⟨t,ht,hext⟩ := ih _ (Or.inr hc) hl (foundAt || decide (c = byte '@'))
    refine ⟨t, ht, ⟨parseUrlChar s c, some .host, foundAt || decide (c = byte '@')⟩, ?_, ?_⟩
    · rw [step_server s hs _ foundAt c hc, if_pos rfl]
    · rw [mem_at, ← Bool.or_assoc]
      exact hext

theorem scan_server (s : State) (hs : atServer s) (a rest : List UInt8) (hne : a ≠ [])
    (h : Serves s a) (old : Option UrlField) (hold : old ≠ some .host) :
    ∃ t, atServer t ∧ scan urlStep i (a ++ rest) ⟨s,old,false⟩ u =
      scan urlStep (i+a.length) rest ⟨t, some .host, decide (byte '@' ∈ a)⟩
        (u.put .host i a.length) := by
  obtain ⟨c,cs,rfl⟩ := List.exists_cons_of_ne_nil hne
  obtain ⟨hc,hcs⟩ := h
  obtain ⟨t,ht,hext⟩ := extends_server _ (Or.inr hc) cs hcs (false || decide (c = byte '@'))
  rw [Bool.false_or, ← mem_at] at hext
  refine ⟨t, ht, ?_⟩
  have hfirst := step_server s hs old false c hc
  rw [if_neg hold] at hfirst
  exact hext.scan_first .host i c cs rest _ _ _ _ u hfirst rfl

theorem scan_fragment (f : List UInt8) (hf : ∀ c ∈ f, isFragmentChar c = true)
    (hfirst : f.head? ≠ some (byte '#')) (old : Option UrlField) (foundAt : Bool)
    (hold : old ≠ some .fragment) :
    ∃ s o, scan urlStep i f ⟨.reqFragmentStart,old,foundAt⟩ u =
      some (⟨s,o,foundAt⟩, u.putPart .fragment i f) := by
  cases f with
  | nil => exact ⟨.reqFragmentStart, old, rfl⟩
  | cons c cs =>
    obtain ⟨hc,hcs⟩ := List.forall_mem_cons.mp hf
    have hhash : c ≠ byte '#' := fun he => hfirst (congrArg some he)
    refine ⟨.reqFragment, some .fragment, ?_⟩
    have hscan := scan_field i u ⟨.reqFragmentStart,old,foundAt⟩ .fragment .reqFragment
      isFragmentChar c cs [] rfl hold (char_fragmentStart c hc hhash) hcs char_fragment
    rw [List.append_nil] at hscan
    exact hscan

/-- Any number of '#', and a fragment if there is one. -/
theorem scan_hash (r : Rest) (hr : r.Valid) (s : State)
    (hs : s = .reqPath ∨ s = .reqQueryStringStart ∨ s = .reqQueryString) (old : Option UrlField)
    (foundAt : Bool) (hold : old ≠ some .fragment) :
    ∃ t o, scan urlStep i (List.replicate r.hashes (byte '#') ++ r.fragment) ⟨s,old,foundAt⟩ u =
      some (⟨t,o,foundAt⟩, u.putPart .fragment (i+r.hashes) r.fragment) := by
  have hhashes (k j : ℕ) : scan urlStep j (List.replicate k (byte '#') ++ r.fragment)
      ⟨.reqFragmentStart,old,foundAt⟩ u =
        scan urlStep (j+k) r.fragment ⟨.reqFragmentStart,old,foundAt⟩ u := by
    induction k generalizing j with
    | zero => rfl
    | succ k ih =>
      have hstep : urlStep ⟨.reqFragmentStart,old,foundAt⟩ (byte '#') =
          some (⟨.reqFragmentStart,old,foundAt⟩,.skip) := rfl
      rw [List.replicate_succ, List.cons_append, scan_cons j _ _ _ _ _ u hstep]
      refine (ih (j+1)).trans ?_
      rw [show j+1+k = j+(k+1) by omega]
  cases hk : r.hashes with
  | zero =>
    rw [hr.hashes hk]
    exact ⟨s, old, rfl⟩
  | succ k =>
    have hstep : urlStep ⟨s,old,foundAt⟩ (byte '#') =
        some (⟨.reqFragmentStart,old,foundAt⟩,.skip) := by
      obtain rfl | rfl | rfl := hs <;> rfl
    obtain ⟨t,o,hscan⟩ := scan_fragment (i+1+k) u r.fragment hr.fragment hr.first old foundAt hold
    refine ⟨t, o, ?_⟩
    rw [List.replicate_succ, List.cons_append, scan_cons i _ _ _ _ _ u hstep]
    refine (hhashes k (i+1)).trans ?_
    rw [hscan, show i+1+k = i+(k+1) by omega]

/-- The table behind the rest. -/
def Rest.put (r : Rest) (i : ℕ) (u : Slices UrlField) : Slices UrlField :=
  (u.putPart .query (i+1) (r.query.getD [])).putPart .fragment (i+r.queryPart.length+r.hashes)
    r.fragment

theorem scan_rest (r : Rest) (hr : r.Valid) (s : State) (old : Option UrlField) (foundAt : Bool)
    (hs : s = .reqPath ∨ atServer s ∧ (r.query = none → r.hashes = 0))
    (hquery : old ≠ some .query) (hfragment : old ≠ some .fragment) :
    ∃ t o, scan urlStep i r.render ⟨s,old,foundAt⟩ u = some (⟨t,o,foundAt⟩, r.put i u) := by
  unfold Rest.render Rest.put Rest.queryPart
  cases hq : r.query with
  | none =>
    obtain rfl | ⟨-,hnone⟩ := hs
    · exact scan_hash i u r hr _ (Or.inl rfl) old foundAt hfragment
    · rw [hnone hq, hr.hashes (hnone hq)]
      exact ⟨s, old, rfl⟩
  | some q =>
    have hstep : urlStep ⟨s,old,foundAt⟩ (byte '?') =
        some (⟨.reqQueryStringStart,old,foundAt⟩,.skip) := by
      obtain rfl | ⟨rfl | rfl | rfl,-⟩ := hs <;> rfl
    show ∃ t o, scan urlStep i (byte '?' :: (q ++ _)) _ u = some (_, _)
    rw [scan_cons i _ _ _ _ _ u hstep]
    have hchars := hr.query q hq
    cases q with
    | nil =>
      exact scan_hash (i+1) u r hr _ (Or.inr (Or.inl rfl)) old foundAt hfragment
    | cons c cs =>
      obtain ⟨hc,hcs⟩ := List.forall_mem_cons.mp hchars
      obtain ⟨t,o,hscan⟩ := scan_hash (i+1+(c :: cs).length)
        (u.put .query (i+1) (c :: cs).length) r hr .reqQueryString (Or.inr (Or.inr rfl))
        (some .query) foundAt (by decide)
      refine ⟨t, o, ?_⟩
      have hfield := scan_field (i+1) u ⟨.reqQueryStringStart,old,foundAt⟩ .query .reqQueryString
        isQueryChar c cs (List.replicate r.hashes (byte '#') ++ r.fragment) rfl hquery
        (char_query _ (Or.inl rfl) c hc) hcs fun d hd => char_query _ (Or.inr rfl) d hd
      refine hfield.trans (hscan.trans ?_)
      have hpos : i+1+(c :: cs).length = i+(byte '?' :: (c :: cs)).length := by
        simp only [List.length_cons]
        omega
      rw [hpos]
      rfl

/-- The table behind a path and what follows it. -/
def putTail (p : List UInt8) (r : Rest) (i : ℕ) (u : Slices UrlField) : Slices UrlField :=
  r.put (i+p.length) (u.putPart .path i p)

/-- The path with the rest, at the beginning of a URL or behind its host. -/
theorem scan_tail (p : List UInt8) (r : Rest) (hr : r.Valid) (s : State) (old : Option UrlField)
    (foundAt : Bool) (hold : old = none ∨ old = some .schema ∨ old = some .host)
    (hp : p = [] ∧ atServer s ∧ (r.query = none → r.hashes = 0) ∨
      ∃ c cs, p = c :: cs ∧ parseUrlChar s c = .reqPath ∧ ∀ d ∈ cs, isUrlChar d = true) :
    ∃ t o, scan urlStep i (p ++ r.render) ⟨s,old,foundAt⟩ u =
      some (⟨t,o,foundAt⟩, putTail p r i u) := by
  have hne (f : UrlField) (hf : f ≠ .schema ∧ f ≠ .host) : old ≠ some f := by
    obtain rfl | rfl | rfl := hold
    · exact (Option.some_ne_none f).symm
    · exact fun he => hf.1 (Option.some.inj he).symm
    · exact fun he => hf.2 (Option.some.inj he).symm
  obtain ⟨rfl,hs⟩ | ⟨c,cs,rfl,hc,hcs⟩ := hp
  · exact scan_rest i u r hr s old foundAt (Or.inr hs) (hne _ (by decide)) (hne _ (by decide))
  · obtain ⟨t,o,hscan⟩ := scan_rest (i+(c :: cs).length) (u.put .path i (c :: cs).length) r hr
      .reqPath (some .path) foundAt (Or.inl rfl) (by decide) (by decide)
    refine ⟨t, o, Eq.trans ?_ hscan⟩
    exact scan_field i u ⟨s,old,foundAt⟩ .path .reqPath isUrlChar c cs r.render rfl
      (hne _ (by decide)) hc hcs char_path

/-- The part with the host, which may be empty here, and what follows it. -/
theorem scan_afterHost (a p : List UInt8) (r : Rest) (ha : Serves .reqServerStart a)
    (hp : AfterHost p r) (old : Option UrlField) (hold : old = none ∨ old = some .schema) :
    ∃ t o, scan urlStep i (a ++ (p ++ r.render)) ⟨.reqServerStart,old,false⟩ u =
      some (⟨t, o, decide (byte '@' ∈ a)⟩, putTail p r (i+a.length) (u.putPart .host i a)) := by
  have htail (s : State) (hs : atServer s) : p = [] ∧ atServer s ∧ (r.query = none → r.hashes = 0) ∨
      ∃ c cs, p = c :: cs ∧ parseUrlChar s c = .reqPath ∧ ∀ d ∈ cs, isUrlChar d = true := by
    obtain rfl | ⟨cs,rfl,hcs⟩ := hp.path
    · exact Or.inl ⟨rfl, hs, hp.hashes rfl⟩
    · refine Or.inr ⟨byte '/', cs, rfl, ?_, hcs⟩
      obtain rfl | rfl | rfl := hs <;> rfl
  cases a with
  | nil =>
    have hold' : old = none ∨ old = some .schema ∨ old = some .host :=
      hold.imp id fun h => Or.inl h
    exact scan_tail i u p r hp.rest _ old false hold' (htail _ (Or.inl rfl))
  | cons c cs =>
    have hne : old ≠ some .host := by
      obtain rfl | rfl := hold <;> decide
    obtain ⟨s,hs,hserver⟩ := scan_server i u .reqServerStart (Or.inl rfl) (c :: cs) (p ++ r.render)
      (List.cons_ne_nil c cs) ha old hne
    obtain ⟨t,o,hscan⟩ := scan_tail (i+(c :: cs).length) (u.put .host i (c :: cs).length) p r
      hp.rest s (some .host) (decide (byte '@' ∈ c :: cs)) (Or.inr (Or.inr rfl)) (htail s hs)
    exact ⟨t, o, hserver.trans hscan⟩

theorem scan_schema (q t : List UInt8) (hne : q ≠ []) (hq : ∀ c ∈ q, isAlpha c = true) :
    scan urlStep i (q ++ t) ⟨.reqSpacesBeforeUrl,none,false⟩ u =
      scan urlStep (i+q.length) t ⟨.reqSchema,some .schema,false⟩ (u.put .schema i q.length) := by
  obtain ⟨c,cs,rfl⟩ := List.exists_cons_of_ne_nil hne
  obtain ⟨hc,hcs⟩ := List.forall_mem_cons.mp hq
  exact scan_field i u ⟨.reqSpacesBeforeUrl,none,false⟩ .schema .reqSchema isAlpha c cs t rfl
    (by decide) (char_schema _ (Or.inl rfl) c hc) hcs fun d hd => char_schema _ (Or.inr rfl) d hd

end found

end Cclab.HttpUrl
