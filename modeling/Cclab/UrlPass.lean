import Cclab.UrlModel

/-! The pass of `http_parser_parse_url` over a whole URL: where each state may go, and which parts
there are in a string it takes. -/
namespace Cclab.HttpUrl
open FieldSlices HttpParser

def isQueryChar (c : UInt8) : Bool := isUrlChar c || c = byte '?'

def isFragmentChar (c : UInt8) : Bool := isQueryChar c || c = byte '#'

/-- A byte that may stand before the path, but for '@'. -/
def isPlainChar (c : UInt8) : Bool := isUserinfoChar c || c = byte '[' || c = byte ']'

/-- What follows the path: a query that may be empty, and a fragment behind any number of '#'. -/
structure Rest where
  query : Option (List UInt8)
  hashes : ℕ
  fragment : List UInt8

namespace Rest
variable (r : Rest)

def queryPart : List UInt8 := r.query.elim [] fun q => byte '?' :: q

def render : List UInt8 := r.queryPart ++ (List.replicate r.hashes (byte '#') ++ r.fragment)

structure Valid : Prop where
  query : ∀ q, r.query = some q → ∀ c ∈ q, isQueryChar c = true
  fragment : ∀ c ∈ r.fragment, isFragmentChar c = true
  first : r.fragment.head? ≠ some (byte '#')
  hashes : r.hashes = 0 → r.fragment = []

end Rest

section accepted

/-- The states of the pass. -/
def passes : State → Bool
  | .reqSchema | .reqSchemaSlash | .reqSchemaSlashSlash | .reqServerStart | .reqServer
  | .reqServerWithAt | .reqPath | .reqQueryStringStart | .reqQueryString | .reqFragmentStart
  | .reqFragment => true
  | _ => false

def Runs : State → List UInt8 → Prop
  | _, [] => True
  | s, c :: l => passes (parseUrlChar s c) = true ∧ Runs (parseUrlChar s c) l

theorem runs_states (l : List UInt8) (x y : UrlLoop) (h : states urlStep x l = some y) :
    Runs x.s l := by
  induction l generalizing x with
  | nil => trivial
  | cons c l ih =>
    rw [states_cons] at h
    obtain ⟨⟨z,act⟩,hstep,hrest⟩ := Option.bind_eq_some_iff.mp h
    have hz : passes (parseUrlChar x.s c) = true ∧ z.s = parseUrlChar x.s c := by
      unfold urlStep at hstep
      generalize parseUrlChar x.s c = n at hstep ⊢
      cases n <;> simp [urlStep.enter] at hstep <;> obtain ⟨rfl,-⟩ := hstep <;> exact ⟨rfl,rfl⟩
    exact ⟨hz.1, hz.2 ▸ ih z hrest⟩

/-! Where each state may go. -/

def blank (c : UInt8) : Prop := c = space ∨ c = CR ∨ c = LF ∨ c = tab ∨ c = 12

theorem not_blank (s : State) (c : UInt8) (h : passes (parseUrlChar s c) = true) : ¬ blank c := by
  intro hb
  have hdead : parseUrlChar s c = .dead := if_pos hb
  rw [hdead] at h
  exact absurd h (by decide)

theorem fragment_cases (c : UInt8) (h : passes (parseUrlChar .reqFragment c) = true) :
    isFragmentChar c = true ∧ parseUrlChar .reqFragment c = .reqFragment := by
  have he : parseUrlChar .reqFragment c =
      if isUrlChar c ∨ c = byte '?' ∨ c = byte '#' then .reqFragment else .dead :=
    if_neg (not_blank _ c h)
  rw [he] at h ⊢
  split_ifs at h ⊢ with hc
  · refine ⟨?_, rfl⟩
    rw [isFragmentChar, isQueryChar]
    simpa [or_assoc] using hc
  · exact absurd h (by decide)

theorem fragmentStart_cases (c : UInt8) (h : passes (parseUrlChar .reqFragmentStart c) = true) :
    isQueryChar c = true ∧ parseUrlChar .reqFragmentStart c = .reqFragment ∨
      c = byte '#' ∧ parseUrlChar .reqFragmentStart c = .reqFragmentStart := by
  have he : parseUrlChar .reqFragmentStart c = if isUrlChar c ∨ c = byte '?' then .reqFragment
      else if c = byte '#' then .reqFragmentStart else .dead := if_neg (not_blank _ c h)
  rw [he] at h ⊢
  split_ifs at h ⊢ with hc hhash
  · refine Or.inl ⟨?_, rfl⟩
    rw [isQueryChar]
    simpa using hc
  · exact Or.inr ⟨hhash,rfl⟩
  · exact absurd h (by decide)

theorem query_cases (s : State) (hs : s = .reqQueryStringStart ∨ s = .reqQueryString) (c : UInt8)
    (h : passes (parseUrlChar s c) = true) :
    isQueryChar c = true ∧ parseUrlChar s c = .reqQueryString ∨
      c = byte '#' ∧ parseUrlChar s c = .reqFragmentStart := by
  have he : parseUrlChar s c = if isUrlChar c ∨ c = byte '?' then .reqQueryString
      else if c = byte '#' then .reqFragmentStart else .dead := by
    obtain rfl | rfl := hs
    · exact if_neg (not_blank _ c h)
    · exact if_neg (not_blank _ c h)
  rw [he] at h ⊢
  split_ifs at h ⊢ with hc hhash
  · refine Or.inl ⟨?_, rfl⟩
    rw [isQueryChar]
    simpa using hc
  · exact Or.inr ⟨hhash,rfl⟩
  · exact absurd h (by decide)

theorem path_cases (c : UInt8) (h : passes (parseUrlChar .reqPath c) = true) :
    isUrlChar c = true ∧ parseUrlChar .reqPath c = .reqPath ∨
      c = byte '?' ∧ parseUrlChar .reqPath c = .reqQueryStringStart ∨
      c = byte '#' ∧ parseUrlChar .reqPath c = .reqFragmentStart := by
  have he : parseUrlChar .reqPath c = if isUrlChar c then .reqPath
      else if c = byte '?' then .reqQueryStringStart
      else if c = byte '#' then .reqFragmentStart else .dead := if_neg (not_blank _ c h)
  rw [he] at h ⊢
  split_ifs at h ⊢ with hc hquery hhash
  · exact Or.inl ⟨hc,rfl⟩
  · exact Or.inr (Or.inl ⟨hquery,rfl⟩)
  · exact Or.inr (Or.inr ⟨hhash,rfl⟩)
  · exact absurd h (by decide)

/-- The three states of the part with the host. -/
def atServer (s : State) : Prop := s = .reqServerStart ∨ s = .reqServer ∨ s = .reqServerWithAt

/-- The pass does not count the '@', but it rejects one right behind another. -/
theorem server_cases (s : State) (hs : atServer s) (c : UInt8)
    (h : passes (parseUrlChar s c) = true) :
    c = byte '@' ∧ parseUrlChar s c = .reqServerWithAt ∨
      isPlainChar c = true ∧ parseUrlChar s c = .reqServer ∨
      c = byte '/' ∧ parseUrlChar s c = .reqPath ∨
      c = byte '?' ∧ parseUrlChar s c = .reqQueryStringStart := by
  have he : parseUrlChar s c = .dead ∨ parseUrlChar s c = parseUrlChar.server c := by
    obtain rfl | rfl | rfl := hs
    · exact Or.inr (if_neg (not_blank _ c h))
    · exact Or.inr (if_neg (not_blank _ c h))
    · by_cases hat : c = byte '@'
      · exact Or.inl ((if_neg (not_blank _ c h)).trans (if_pos hat))
      · exact Or.inr ((if_neg (not_blank _ c h)).trans (if_neg hat))
  obtain hdead | he := he
  · rw [hdead] at h
    exact absurd h (by decide)
  rw [he] at h ⊢
  unfold parseUrlChar.server at h ⊢
  split_ifs at h ⊢ with hslash hquery hat hc
  · exact Or.inr (Or.inr (Or.inl ⟨hslash,rfl⟩))
  · exact Or.inr (Or.inr (Or.inr ⟨hquery,rfl⟩))
  · exact Or.inl ⟨hat,rfl⟩
  · refine Or.inr (Or.inl ⟨?_, rfl⟩)
    rw [isPlainChar]
    simpa [or_assoc] using hc
  · exact absurd h (by decide)

theorem schema_cases (c : UInt8) (h : passes (parseUrlChar .reqSchema c) = true) :
    isAlpha c = true ∧ parseUrlChar .reqSchema c = .reqSchema ∨
      c = byte ':' ∧ parseUrlChar .reqSchema c = .reqSchemaSlash := by
  have he : parseUrlChar .reqSchema c = if isAlpha c then .reqSchema
      else if c = byte ':' then .reqSchemaSlash else .dead := if_neg (not_blank _ c h)
  rw [he] at h ⊢
  split_ifs at h ⊢ with hc hcolon
  · exact Or.inl ⟨hc,rfl⟩
  · exact Or.inr ⟨hcolon,rfl⟩
  · exact absurd h (by decide)

theorem schemaSlash_cases (c : UInt8) (h : passes (parseUrlChar .reqSchemaSlash c) = true) :
    c = byte '/' ∧ parseUrlChar .reqSchemaSlash c = .reqSchemaSlashSlash := by
  have he : parseUrlChar .reqSchemaSlash c =
      if c = byte '/' then .reqSchemaSlashSlash else .dead := if_neg (not_blank _ c h)
  rw [he] at h ⊢
  split_ifs at h ⊢ with hslash
  · exact ⟨hslash,rfl⟩
  · exact absurd h (by decide)

theorem schemaSlashSlash_cases (c : UInt8)
    (h : passes (parseUrlChar .reqSchemaSlashSlash c) = true) :
    c = byte '/' ∧ parseUrlChar .reqSchemaSlashSlash c = .reqServerStart := by
  have he : parseUrlChar .reqSchemaSlashSlash c =
      if c = byte '/' then .reqServerStart else .dead := if_neg (not_blank _ c h)
  rw [he] at h ⊢
  split_ifs at h ⊢ with hslash
  · exact ⟨hslash,rfl⟩
  · exact absurd h (by decide)

theorem start_cases (c : UInt8) (h : passes (parseUrlChar .reqSpacesBeforeUrl c) = true) :
    (c = byte '/' ∨ c = byte '*') ∧ parseUrlChar .reqSpacesBeforeUrl c = .reqPath ∨
      isAlpha c = true ∧ parseUrlChar .reqSpacesBeforeUrl c = .reqSchema := by
  have he : parseUrlChar .reqSpacesBeforeUrl c = if c = byte '/' ∨ c = byte '*' then .reqPath
      else if isAlpha c then .reqSchema else .dead := if_neg (not_blank _ c h)
  rw [he] at h ⊢
  split_ifs at h ⊢ with hc halpha
  · exact Or.inl ⟨hc,rfl⟩
  · exact Or.inr ⟨halpha,rfl⟩
  · exact absurd h (by decide)

/-! And what it accepts. -/

theorem runs_fragment (l : List UInt8) (h : Runs .reqFragment l) :
    ∀ c ∈ l, isFragmentChar c = true := by
  induction l with
  | nil => simp
  | cons c l ih =>
    obtain ⟨hp,hrest⟩ := h
    obtain ⟨hc,hs⟩ := fragment_cases c hp
    exact List.forall_mem_cons.mpr ⟨hc, ih (hs ▸ hrest)⟩

theorem runs_fragmentStart (l : List UInt8) (h : Runs .reqFragmentStart l) :
    ∃ k f, l = List.replicate k (byte '#') ++ f ∧ (∀ c ∈ f, isFragmentChar c = true) ∧
      f.head? ≠ some (byte '#') := by
  induction l with
  | nil => exact ⟨0, [], rfl, by simp, by simp⟩
  | cons c l ih =>
    obtain ⟨hp,hrest⟩ := h
    rcases fragmentStart_cases c hp with ⟨hc,hs⟩ | ⟨rfl,hs⟩
    · have hf := runs_fragment l (hs ▸ hrest)
      have hc' : isFragmentChar c = true := by rw [isFragmentChar, hc, Bool.true_or]
      refine ⟨0, c :: l, rfl, List.forall_mem_cons.mpr ⟨hc',hf⟩, ?_⟩
      intro he
      rw [Option.some.inj he] at hc
      exact absurd hc (by decide)
    · obtain ⟨k,f,rfl,hf,hhead⟩ := ih (hs ▸ hrest)
      exact ⟨k+1, f, rfl, hf, hhead⟩

/-- Behind a '#'. -/
theorem runs_hash (q : Option (List UInt8)) (l : List UInt8)
    (hq : ∀ p, q = some p → ∀ c ∈ p, isQueryChar c = true) (h : Runs .reqFragmentStart l) :
    ∃ r : Rest, r.Valid ∧ r.query = q ∧
      r.render = q.elim [] (fun p => byte '?' :: p) ++ byte '#' :: l := by
  obtain ⟨k,f,rfl,hf,hhead⟩ := runs_fragmentStart l h
  exact ⟨⟨q,k+1,f⟩, ⟨hq, hf, hhead, fun hz => absurd hz (Nat.succ_ne_zero k)⟩, rfl, rfl⟩

theorem runs_query (s : State) (hs : s = .reqQueryStringStart ∨ s = .reqQueryString)
    (l : List UInt8) (h : Runs s l) : ∃ r : Rest, r.Valid ∧ r.query ≠ none ∧
      r.render = byte '?' :: l := by
  have hsplit : ∃ q t, l = q ++ t ∧ (∀ c ∈ q, isQueryChar c = true) ∧
      (t = [] ∨ ∃ t', t = byte '#' :: t' ∧ Runs .reqFragmentStart t') := by
    induction l generalizing s with
    | nil => exact ⟨[], [], rfl, by simp, Or.inl rfl⟩
    | cons c l ih =>
      obtain ⟨hp,hrest⟩ := h
      rcases query_cases s hs c hp with ⟨hc,hn⟩ | ⟨rfl,hn⟩
      · obtain ⟨q,t,rfl,hq,ht⟩ := ih _ (Or.inr rfl) (hn ▸ hrest)
        exact ⟨c :: q, t, rfl, List.forall_mem_cons.mpr ⟨hc,hq⟩, ht⟩
      · exact ⟨[], _, rfl, by simp, Or.inr ⟨l, rfl, hn ▸ hrest⟩⟩
  obtain ⟨q,t,rfl,hq,rfl | ⟨t',rfl,ht⟩⟩ := hsplit
  · refine ⟨⟨some q,0,[]⟩, ⟨?_, by simp, by simp, fun _ => rfl⟩, by simp, ?_⟩
    · rintro p ⟨⟩
      exact hq
    · rw [Rest.render, Rest.queryPart]
      simp
  · obtain ⟨r,hr,hrq,hrender⟩ := runs_hash (some q) t' (by rintro p ⟨⟩; exact hq) ht
    refine ⟨r, hr, ?_, hrender⟩
    rw [hrq]
    exact Option.some_ne_none q

theorem runs_path (l : List UInt8) (h : Runs .reqPath l) :
    ∃ p r, l = p ++ Rest.render r ∧ (∀ c ∈ p, isUrlChar c = true) ∧ r.Valid := by
  induction l with
  | nil =>
    refine ⟨[], ⟨none,0,[]⟩, rfl, by simp, ?_⟩
    exact ⟨by simp, by simp, by simp, fun _ => rfl⟩
  | cons c l ih =>
    obtain ⟨hp,hrest⟩ := h
    rcases path_cases c hp with ⟨hc,hs⟩ | ⟨rfl,hs⟩ | ⟨rfl,hs⟩
    · obtain ⟨p,r,rfl,hpath,hr⟩ := ih (hs ▸ hrest)
      exact ⟨c :: p, r, rfl, List.forall_mem_cons.mpr ⟨hc,hpath⟩, hr⟩
    · obtain ⟨r,hr,-,hrender⟩ := runs_query _ (Or.inl rfl) l (hs ▸ hrest)
      exact ⟨[], r, hrender.symm, by simp, hr⟩
    · obtain ⟨r,hr,-,hrender⟩ := runs_hash none l (by simp) (hs ▸ hrest)
      exact ⟨[], r, hrender.symm, by simp, hr⟩

/-- The pass stays in the part with the host. -/
def Serves : State → List UInt8 → Prop
  | _, [] => True
  | s, c :: l => (parseUrlChar s c = .reqServer ∨ parseUrlChar s c = .reqServerWithAt) ∧
      Serves (parseUrlChar s c) l

/-- The path of a URL that has a host, and what follows it. -/
structure AfterHost (p : List UInt8) (r : Rest) : Prop where
  path : p = [] ∨ ∃ p', p = byte '/' :: p' ∧ ∀ c ∈ p', isUrlChar c = true
  rest : r.Valid
  hashes : p = [] → r.query = none → r.hashes = 0

theorem runs_server (s : State) (hs : atServer s) (l : List UInt8) (h : Runs s l) :
    ∃ a p r, l = a ++ (p ++ Rest.render r) ∧ Serves s a ∧ AfterHost p r := by
  induction l generalizing s with
  | nil =>
    refine ⟨[], [], ⟨none,0,[]⟩, rfl, trivial, Or.inl rfl, ?_, fun _ _ => rfl⟩
    exact ⟨by simp, by simp, by simp, fun _ => rfl⟩
  | cons c l ih =>
    obtain ⟨hp,hrest⟩ := h
    -- another byte of the same part
    have hmore (hn : parseUrlChar s c = .reqServer ∨ parseUrlChar s c = .reqServerWithAt) :
        ∃ a p r, c :: l = a ++ (p ++ Rest.render r) ∧ Serves s a ∧ AfterHost p r := by
      obtain ⟨a,p,r,rfl,ha,hpr⟩ := ih _ (Or.inr hn) hrest
      exact ⟨c :: a, p, r, rfl, ⟨hn,ha⟩, hpr⟩
    obtain ⟨-,hn⟩ | ⟨-,hn⟩ | ⟨rfl,hn⟩ | ⟨rfl,hn⟩ := server_cases s hs c hp
    · exact hmore (Or.inr hn)
    · exact hmore (Or.inl hn)
    · obtain ⟨p,r,rfl,hpath,hr⟩ := runs_path l (hn ▸ hrest)
      refine ⟨[], byte '/' :: p, r, rfl, trivial, Or.inr ⟨p,rfl,hpath⟩, hr, ?_⟩
      exact fun he => absurd he (List.cons_ne_nil _ p)
    · obtain ⟨r,hr,hq,hrender⟩ := runs_query _ (Or.inl rfl) l (hn ▸ hrest)
      exact ⟨[], [], r, hrender.symm, trivial, Or.inl rfl, hr, fun _ hz => absurd hz hq⟩

/-- Behind the schema there is "://" and a server, unless the string ends before. -/
theorem runs_schema (l : List UInt8) (h : Runs .reqSchema l) :
    ∃ q t, l = q ++ t ∧ (∀ c ∈ q, isAlpha c = true) ∧
      (t = [] ∨ t = [byte ':'] ∨ t = [byte ':', byte '/'] ∨
        ∃ r, t = byte ':' :: byte '/' :: byte '/' :: r ∧ Runs .reqServerStart r) := by
  induction l with
  | nil => exact ⟨[], [], rfl, by simp, Or.inl rfl⟩
  | cons c l ih =>
    obtain ⟨hp,hrest⟩ := h
    obtain ⟨hc,hs⟩ | ⟨rfl,hs⟩ := schema_cases c hp
    · obtain ⟨q,t,rfl,hq,ht⟩ := ih (hs ▸ hrest)
      exact ⟨c :: q, t, rfl, List.forall_mem_cons.mpr ⟨hc,hq⟩, ht⟩
    · refine ⟨[], byte ':' :: l, rfl, by simp, Or.inr ?_⟩
      rw [hs] at hrest
      cases l with
      | nil => exact Or.inl rfl
      | cons d l =>
        obtain ⟨hp',hrest'⟩ := hrest
        obtain ⟨rfl,hs'⟩ := schemaSlash_cases d hp'
        rw [hs'] at hrest'
        cases l with
        | nil => exact Or.inr (Or.inl rfl)
        | cons e l =>
          obtain ⟨hp'',hrest''⟩ := hrest'
          obtain ⟨rfl,hs''⟩ := schemaSlashSlash_cases e hp''
          exact Or.inr (Or.inr ⟨l, rfl, hs'' ▸ hrest''⟩)

end accepted

end Cclab.HttpUrl
