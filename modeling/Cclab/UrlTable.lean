import Cclab.UrlScan

/-! The parts of a URL, and what both passes of `http_parser_parse_url` write into the table for
them. -/
namespace Cclab.HttpUrl
open FieldSlices HttpParser

/-- The parts of a URL; without an authority it is a path only. -/
structure Url where
  schema : List UInt8
  authority : Option Authority
  path : List UInt8
  rest : Rest

/-- The number that some digits make when they follow `n`. -/
def numberFrom (n : ℕ) (p : List UInt8) : ℕ := p.foldl (fun n c => n*10+(c.toNat-48)) n

/-- A schema with what follows it. -/
def slashed (q : List UInt8) : List UInt8 :=
  if q = [] then [] else q ++ [byte ':', byte '/', byte '/']

/-- What is in front of the host. -/
def Authority.beforeHost (a : Authority) : List UInt8 :=
  a.userinfoPart ++ if a.v6 then [byte '['] else []

/-- What is in front of the port. -/
def Authority.beforePort (a : Authority) : List UInt8 :=
  a.userinfoPart ++ a.hostPart ++ [byte ':']

namespace Url
variable (url : Url)

def schemaPart : List UInt8 := slashed url.schema

def authorityPart : List UInt8 := url.authority.elim [] Authority.render

def render : List UInt8 :=
  url.schemaPart ++ (url.authorityPart ++ (url.path ++ url.rest.render))

/-- The part that a field of the table is about; a part that is missing is empty. -/
def part : UrlField → List UInt8
  | .schema => url.schema
  | .host => url.authority.elim [] Authority.host
  | .port => (url.authority.bind Authority.port).getD []
  | .path => url.path
  | .query => url.rest.query.getD []
  | .fragment => url.rest.fragment
  | .userinfo => (url.authority.bind Authority.userinfo).getD []

/-- What is in front of it. -/
def before : UrlField → List UInt8
  | .schema => []
  | .userinfo => url.schemaPart
  | .host => url.schemaPart ++ url.authority.elim [] Authority.beforeHost
  | .port => url.schemaPart ++ url.authority.elim [] Authority.beforePort
  | .path => url.schemaPart ++ url.authorityPart
  | .query => url.schemaPart ++ url.authorityPart ++ url.path ++ [byte '?']
  | .fragment => url.schemaPart ++ url.authorityPart ++ url.path ++ url.rest.queryPart ++
      List.replicate url.rest.hashes (byte '#')

/-- A path without a host, which may be missing, and then nothing follows. -/
structure Bare : Prop where
  path : url.path = [] ∧ url.rest = ⟨none,0,[]⟩ ∨ ∃ c cs, url.path = c :: cs ∧
    (c = byte '/' ∨ c = byte '*') ∧ ∀ d ∈ cs, isUrlChar d = true
  rest : url.rest.Valid

/-- The form of a URL. A request target of CONNECT has no schema. -/
structure Form (isConnect : Bool) : Prop where
  letters : ∀ c ∈ url.schema, isAlpha c = true
  both : if isConnect then url.schema = [] ∧ url.authority ≠ none
    else url.schema = [] ↔ url.authority = none
  bare : url.authority = none → url.Bare
  host : ∀ a, url.authority = some a → a.Valid ∧ AfterHost url.path url.rest

/-- It also has a port that fits, and for CONNECT there is nothing but a host and a port. -/
structure Valid (isConnect : Bool) : Prop where
  form : url.Form isConnect
  port : numberFrom 0 (url.part .port) ≤ 0xffff
  only : isConnect = true → ∀ f, url.part f ≠ [] ↔ f = .host ∨ f = .port

end Url

section port

theorem numberFrom_cons (n : ℕ) (c : UInt8) (p : List UInt8) :
    numberFrom n (c :: p) = numberFrom (n*10+(c.toNat-48)) p :=
  List.foldl_cons ..

theorem le_numberFrom (n : ℕ) (p : List UInt8) : n ≤ numberFrom n p := by
  induction p generalizing n with
  | nil => exact le_rfl
  | cons c p ih =>
    rw [numberFrom_cons]
    exact le_trans (by omega) (ih _)

theorem toNat_digit (c : UInt8) (hc : isNum c = true) :
    (ofChar c-ofChar (byte '0')).toNat = c.toNat-48 := by
  have hle : byte '0' ≤ c ∧ c ≤ byte '9' := by simpa [isNum] using hc
  have h0 : 48 ≤ c.toNat := UInt8.le_iff_toNat_le.mp hle.1
  have h9 : c.toNat ≤ 57 := UInt8.le_iff_toNat_le.mp hle.2
  have hlt : c < 128 := UInt8.lt_iff_toNat_lt.mpr (lt_of_le_of_lt h9 (by decide))
  have hzero : ofChar (byte '0') = 48 := by decide
  rw [hzero, ofChar, if_pos hlt, UInt64.toNat_sub_of_le]
  · rfl
  · exact UInt64.le_iff_toNat_le.mpr h0

/-- The loop stops at the first number that does not fit, and there it would stay too large. -/
theorem portLoop_eq (p : List UInt8) (hp : ∀ c ∈ p, isNum c = true) (v : UInt64)
    (hv : v.toNat ≤ 0xffff) : portLoop p v =
      if numberFrom v.toNat p ≤ 0xffff then some (UInt64.ofNat (numberFrom v.toNat p)) else none := by
  induction p generalizing v with
  | nil =>
    have hsame : UInt64.ofNat v.toNat = v := UInt64.ofNat_toNat
    show some v = if v.toNat ≤ 0xffff then some (UInt64.ofNat v.toNat) else none
    rw [if_pos hv, hsame]
  | cons c p ih =>
    obtain ⟨hc,hp⟩ := List.forall_mem_cons.mp hp
    have hdigit := toNat_digit c hc
    have hsmall : c.toNat < 256 := UInt8.toNat_lt c
    have hnext : (v*10+(ofChar c-ofChar (byte '0'))).toNat = v.toNat*10+(c.toNat-48) := by
      have h10 : (10 : UInt64).toNat = 10 := rfl
      rw [UInt64.toNat_add, UInt64.toNat_mul, hdigit, h10]
      omega
    have hloop : portLoop (c :: p) v = if v*10+(ofChar c-ofChar (byte '0')) > 0xffff then none
        else portLoop p (v*10+(ofChar c-ofChar (byte '0'))) := rfl
    rw [hloop, numberFrom_cons, ← hnext]
    generalize v*10+(ofChar c-ofChar (byte '0')) = w
    split_ifs with hlarge hfits hfits
    · have hw : 0xffff < w.toNat := UInt64.lt_iff_toNat_lt.mp hlarge
      have hle := le_numberFrom w.toNat p
      omega
    · rfl
    · rw [ih hp w (UInt64.le_iff_toNat_le.mp (UInt64.not_lt.mp hlarge)), if_pos hfits]
    · rw [ih hp w (UInt64.le_iff_toNat_le.mp (UInt64.not_lt.mp hlarge)), if_neg hfits]

end port

section authority
variable (a : Authority) (ha : a.Valid)

theorem userinfoChar_of_alphanum (c : UInt8) (h : isAlphanum c = true) : isUserinfoChar c = true := by
  rw [isUserinfoChar, h, Bool.true_or, Bool.true_or]

theorem userinfoChar_of_host (c : UInt8) (h : isHostChar c = true) : isUserinfoChar c = true := by
  have hc : isAlphanum c = true ∨ c = byte '.' ∨ c = byte '-' := by
    simpa [isHostChar, or_assoc] using h
  obtain hc | rfl | rfl := hc
  · exact userinfoChar_of_alphanum c hc
  · decide
  · decide

theorem userinfoChar_of_v6 (c : UInt8) (h : isV6Char c = true) : isUserinfoChar c = true := by
  have hc : (isNum c = true ∨ byte 'a' ≤ lower c ∧ lower c ≤ byte 'f') ∨ c = byte ':' ∨
      c = byte '.' := by
    simpa [isV6Char, isHex, or_assoc] using h
  obtain (hc | ⟨h1,h2⟩) | rfl | rfl := hc
  · exact userinfoChar_of_alphanum c (by rw [isAlphanum, hc, Bool.or_true])
  · have h3 : lower c ≤ byte 'z' := UInt8.le_trans h2 (by decide)
    have halpha : isAlpha c = true := by simp [isAlpha, h1, h3]
    exact userinfoChar_of_alphanum c (by rw [isAlphanum, halpha, Bool.true_or])
  · decide
  · decide

theorem userinfoChar_of_zone (c : UInt8) (h : isZoneChar c = true) : isUserinfoChar c = true := by
  have hc : isAlphanum c = true ∨ c = byte '%' ∨ c = byte '.' ∨ c = byte '-' ∨ c = byte '_' ∨
      c = byte '~' := by
    simpa [isZoneChar, or_assoc] using h
  obtain hc | rfl | rfl | rfl | rfl | rfl := hc
  · exact userinfoChar_of_alphanum c hc
  all_goals decide

theorem plain_of_userinfo (c : UInt8) (h : isUserinfoChar c = true) : isPlainChar c = true := by
  rw [isPlainChar, h, Bool.true_or, Bool.true_or]

include ha

theorem Authority.Valid.plain : ∀ c ∈ a.hostPart ++ a.portPart, isPlainChar c = true := by
  have hport : ∀ c ∈ a.portPart, isPlainChar c = true := by
    unfold Authority.portPart
    cases hp : a.port with
    | none => simp
    | some p =>
      obtain ⟨-,hnum⟩ := ha.port p hp
      refine List.forall_mem_cons.mpr ⟨by decide, fun c hc => ?_⟩
      apply plain_of_userinfo
      apply userinfoChar_of_alphanum
      rw [isAlphanum, hnum c hc, Bool.or_true]
  have hhost : ∀ c ∈ a.hostPart, isPlainChar c = true := by
    have hvalid := ha.host
    unfold Authority.hostPart
    split_ifs at hvalid ⊢
    · obtain ⟨addr,zone,he,-,haddr,hzone⟩ := hvalid
      have hin : ∀ c ∈ a.host, isPlainChar c = true := by
        rw [he]
        refine List.forall_mem_append.mpr ⟨fun c hc => ?_, ?_⟩
        · exact plain_of_userinfo c (userinfoChar_of_v6 c (haddr c hc))
        · obtain rfl | ⟨z,rfl,-,hz⟩ := hzone
          · simp
          · refine List.forall_mem_cons.mpr ⟨by decide, fun c hc => ?_⟩
            exact plain_of_userinfo c (userinfoChar_of_zone c (hz c hc))
      refine List.forall_mem_cons.mpr ⟨by decide, List.forall_mem_append.mpr ⟨hin, ?_⟩⟩
      exact List.forall_mem_singleton.mpr (by decide)
    · exact fun c hc => plain_of_userinfo c (userinfoChar_of_host c (hvalid.2 c hc))
  exact List.forall_mem_append.mpr ⟨hhost,hport⟩

theorem Authority.Valid.hostPart_ne : a.hostPart ≠ [] := by
  have hvalid := ha.host
  unfold Authority.hostPart
  split_ifs at hvalid ⊢
  · exact List.cons_ne_nil _ _
  · exact hvalid.1

omit ha

theorem not_at_of_plain (l : List UInt8) (h : ∀ c ∈ l, isPlainChar c = true) : byte '@' ∉ l := by
  intro hm
  exact absurd (h _ hm) (by decide)

theorem serves_append (s : State) (hs : atServer s) (l r : List UInt8)
    (h : ∀ c ∈ l, isPlainChar c = true) (hr : ∀ t, t = s ∨ t = .reqServer → Serves t r) :
    Serves s (l ++ r) := by
  induction l generalizing s with
  | nil => exact hr s (Or.inl rfl)
  | cons c l ih =>
    obtain ⟨hc,hl⟩ := List.forall_mem_cons.mp h
    have hnext := char_plain s hs c hc
    refine ⟨Or.inl hnext, ?_⟩
    rw [hnext]
    exact ih .reqServer (Or.inr (Or.inl rfl)) hl fun t ht => hr t (Or.inr (ht.elim id id))

include ha

/-- The first pass takes every authority as it is, and an '@' in it ends a userinfo. -/
theorem Authority.Valid.serves : Serves .reqServerStart a.render ∧
    decide (byte '@' ∈ a.render) = a.userinfo.isSome ∧ a.render ≠ [] := by
  have hplain := ha.plain
  have hserves (s : State) (hs : atServer s) : Serves s (a.hostPart ++ a.portPart) := by
    rw [← List.append_nil (a.hostPart ++ a.portPart)]
    exact serves_append s hs _ [] hplain fun _ _ => trivial
  have hne : a.render ≠ [] := by
    unfold Authority.render
    simp [ha.hostPart_ne]
  refine ⟨?_, ?_, hne⟩
  · unfold Authority.render Authority.userinfoPart
    cases hui : a.userinfo with
    | none => exact hserves _ (Or.inl rfl)
    | some ui =>
      show Serves _ ((ui ++ [byte '@']) ++ _)
      rw [List.append_assoc, List.singleton_append]
      refine serves_append _ (Or.inl rfl) ui _
        (fun c hc => plain_of_userinfo c (ha.userinfo ui hui c hc)) ?_
      rintro t (rfl | rfl)
      · exact ⟨Or.inr rfl, hserves _ (Or.inr (Or.inr rfl))⟩
      · exact ⟨Or.inr rfl, hserves _ (Or.inr (Or.inr rfl))⟩
  · unfold Authority.render Authority.userinfoPart
    cases a.userinfo with
    | none => exact decide_eq_false (not_at_of_plain _ hplain)
    | some ui => exact decide_eq_true (by simp)

end authority

section pass
variable (isConnect : Bool) (u : Slices UrlField)

/-- The table behind the first pass. -/
def putParts (q a p : List UInt8) (r : Rest) : Slices UrlField :=
  putTail p r ((slashed q).length+a.length)
    ((u.putPart .schema 0 q).putPart .host (slashed q).length a)

def Url.put (url : Url) : Slices UrlField :=
  putParts u url.schema url.authorityPart url.path url.rest

def urlStart : UrlLoop := ⟨if isConnect then .reqServerStart else .reqSpacesBeforeUrl, none, false⟩

/-- Behind a schema. -/
theorem scan_slashes (i : ℕ) (r : List UInt8) (old : Option UrlField) :
    scan urlStep i (byte ':' :: byte '/' :: byte '/' :: r) ⟨.reqSchema,old,false⟩ u =
      scan urlStep (i+3) r ⟨.reqServerStart,old,false⟩ u := rfl

/-- The first pass over a string with a schema or for CONNECT; the part with the host may be
anything, or missing. -/
theorem scan_parts (q a p : List UInt8) (r : Rest) (hq : ∀ c ∈ q, isAlpha c = true)
    (hconnect : if isConnect then q = [] else q ≠ []) (ha : Serves .reqServerStart a)
    (hp : AfterHost p r) :
    ∃ l, scan urlStep 0 (slashed q ++ (a ++ (p ++ r.render))) (urlStart isConnect) u =
      some (l,putParts u q a p r) ∧ l.foundAt = decide (byte '@' ∈ a) := by
  unfold putParts slashed
  cases isConnect with
  | true =>
    obtain rfl : q = [] := hconnect
    obtain ⟨t,o,hscan⟩ := scan_afterHost 0 u a p r ha hp none (Or.inl rfl)
    rw [Nat.zero_add] at hscan
    rw [if_pos rfl, List.length_nil, Nat.zero_add]
    exact ⟨_, hscan, rfl⟩
  | false =>
    have hne : q ≠ [] := hconnect
    obtain ⟨c,cs,rfl⟩ := List.exists_cons_of_ne_nil hne
    obtain ⟨t,o,hscan⟩ := scan_afterHost ((c :: cs).length+3)
      (u.put .schema 0 (c :: cs).length) a p r ha hp (some .schema) (Or.inr rfl)
    have hschema := scan_schema 0 u (c :: cs)
      (byte ':' :: byte '/' :: byte '/' :: (a ++ (p ++ r.render))) hne hq
    rw [Nat.zero_add, scan_slashes, hscan] at hschema
    rw [if_neg hne, List.append_assoc, List.length_append]
    exact ⟨_, hschema, rfl⟩

theorem scan_url (url : Url) (h : url.Form isConnect) :
    ∃ l, scan urlStep 0 url.render (urlStart isConnect) u = some (l,url.put u) ∧
      l.foundAt = (url.authority.bind Authority.userinfo).isSome := by
  have hboth := h.both
  unfold Url.render Url.put Url.authorityPart Url.schemaPart
  cases hau : url.authority with
  | none =>
    rw [hau] at hboth
    cases isConnect with
    | true => exact absurd rfl hboth.2
    | false =>
      have hq : url.schema = [] := hboth.mpr rfl
      rw [hq]
      obtain ⟨hpath | ⟨c,cs,hpath,hc,hcs⟩,hr⟩ := h.bare hau
      · rw [hpath.1, hpath.2]
        exact ⟨_, rfl, rfl⟩
      · have hstart : parseUrlChar .reqSpacesBeforeUrl c = .reqPath := by
          obtain rfl | rfl := hc <;> rfl
        obtain ⟨t,o,hscan⟩ := scan_tail 0 u (c :: cs) url.rest hr .reqSpacesBeforeUrl none false
          (Or.inl rfl) (Or.inr ⟨c,cs,rfl,hstart,hcs⟩)
        rw [hpath]
        exact ⟨_, hscan, rfl⟩
  | some a =>
    obtain ⟨ha,hafter⟩ := h.host a hau
    obtain ⟨hserves,hat,-⟩ := ha.serves
    rw [hau] at hboth
    have hconnect : if isConnect then url.schema = [] else url.schema ≠ [] := by
      split_ifs at hboth ⊢
      · exact hboth.1
      · exact fun hq => hboth.mp hq
    obtain ⟨l,hscan,hfound⟩ := scan_parts isConnect u url.schema a.render url.path url.rest
      h.letters hconnect hserves hafter
    exact ⟨l, hscan, hfound.trans hat⟩

end pass

section fields
variable (url : Url) (u : Slices UrlField)

theorem putTail_of_ne (p : List UInt8) (r : Rest) (i : ℕ) (f : UrlField)
    (h : f ≠ .path ∧ f ≠ .query ∧ f ≠ .fragment) : (putTail p r i u).set f = u.set f ∧
      (putTail p r i u).off f = u.off f ∧ (putTail p r i u).len f = u.len f := by
  obtain ⟨hpath,hquery,hfragment⟩ := h
  obtain ⟨s1,o1,l1⟩ := putPart_of_ne u f .path i p hpath
  obtain ⟨s2,o2,l2⟩ := putPart_of_ne (u.putPart .path i p) f .query (i+p.length+1)
    (r.query.getD []) hquery
  obtain ⟨s3,o3,l3⟩ := putPart_of_ne ((u.putPart .path i p).putPart .query (i+p.length+1)
    (r.query.getD [])) f .fragment (i+p.length+r.queryPart.length+r.hashes) r.fragment hfragment
  exact ⟨s3.trans (s2.trans s1), o3.trans (o2.trans o1), l3.trans (l2.trans l1)⟩

/-- Only five fields are found by the first pass. -/
theorem set_putParts (q a p : List UInt8) (r : Rest) (f : UrlField)
    (h : f ≠ .schema ∧ f ≠ .path ∧ f ≠ .query ∧ f ≠ .fragment) (hhost : f ≠ .host ∨ a = []) :
    (putParts u q a p r).set f = u.set f := by
  obtain ⟨hschema,htail⟩ := h
  rw [putParts, (putTail_of_ne _ _ _ _ f htail).1]
  refine Eq.trans ?_ (putPart_of_ne u f .schema 0 q hschema).1
  obtain hne | hnil := hhost
  · exact (putPart_of_ne _ f .host _ _ hne).1
  · rw [hnil]
    rfl

theorem schema_putParts (q a p : List UInt8) (r : Rest) (hne : q ≠ []) :
    (putParts u q a p r).set .schema = true := by
  obtain ⟨c,cs,rfl⟩ := List.exists_cons_of_ne_nil hne
  rw [putParts, (putTail_of_ne _ _ _ _ .schema (by decide)).1]
  refine ((putPart_of_ne _ UrlField.schema .host _ _ (by decide)).1).trans ?_
  exact set_put_self _ _ _ _

/-- Where the part with the host is after the first pass. -/
theorem host_putParts (q a p : List UInt8) (r : Rest) (hne : a ≠ [])
    (hlen : (slashed q ++ (a ++ (p ++ r.render))).length < 2^16) :
    (putParts u q a p r).set .host = true ∧
      (putParts u q a p r).off .host = UInt16.ofNat (slashed q).length ∧
      textOf (slashed q ++ (a ++ (p ++ r.render))) (putParts u q a p r) .host = a := by
  obtain ⟨c,cs,rfl⟩ := List.exists_cons_of_ne_nil hne
  obtain ⟨hset,hoff,hl⟩ := putTail_of_ne ((u.putPart .schema 0 q).put .host (slashed q).length
    (c :: cs).length) p r ((slashed q).length+(c :: cs).length) .host (by decide)
  refine ⟨?_, ?_, ?_⟩
  · exact hset.trans (set_put_self _ _ _ _)
  · exact hoff.trans (off_put_self _ _ _ _)
  · have hshows : Shows (putParts u q (c :: cs) p r) .host (slashed q) (c :: cs) := by
      apply (shows_put (List.cons_ne_nil c cs) _).congr _ hset hoff hl
      rw [← List.append_assoc, List.length_append] at hlen
      exact (Nat.le_add_right _ _).trans_lt hlen
    apply hshows.textOf _ (List.cons_ne_nil c cs)
    rw [← List.append_assoc]
    exact List.prefix_append _ _

/-- A part is in its place. -/
theorem Url.before_part (f : UrlField) (hne : url.part f ≠ []) :
    url.before f ++ url.part f <+: url.render := by
  unfold Url.render
  cases f with
  | schema =>
    have hschema : url.schemaPart = url.schema ++ [byte ':', byte '/', byte '/'] := if_neg hne
    rw [hschema, List.append_assoc]
    exact List.prefix_append _ _
  | path =>
    rw [← List.append_assoc, ← List.append_assoc]
    exact List.prefix_append _ _
  | query =>
    cases hq : url.rest.query with
    | none => exact absurd (by rw [Url.part, hq]; rfl) hne
    | some q =>
      refine ⟨List.replicate url.rest.hashes (byte '#') ++ url.rest.fragment, ?_⟩
      rw [Url.before, Url.part, hq, Rest.render, Rest.queryPart, hq]
      simp
  | fragment =>
    refine ⟨[], ?_⟩
    rw [Url.before, Url.part, Rest.render]
    simp
  | userinfo =>
    cases hau : url.authority with
    | none => exact absurd (by rw [Url.part, hau]; rfl) hne
    | some a =>
      cases hui : a.userinfo with
      | none => exact absurd (by rw [Url.part, hau, Option.bind_some, hui]; rfl) hne
      | some ui =>
        refine ⟨byte '@' :: (a.hostPart ++ (a.portPart ++ (url.path ++ url.rest.render))), ?_⟩
        rw [Url.before, Url.part, Url.authorityPart, hau, Option.bind_some, hui]
        simp [Authority.render, Authority.userinfoPart, hui]
  | host =>
    cases hau : url.authority with
    | none => exact absurd (by rw [Url.part, hau]; rfl) hne
    | some a =>
      refine ⟨(if a.v6 then [byte ']'] else []) ++ (a.portPart ++ (url.path ++ url.rest.render)), ?_⟩
      rw [Url.before, Url.part, Url.authorityPart, hau]
      cases hv6 : a.v6 with
      | false => simp [Authority.render, Authority.hostPart, Authority.beforeHost, hv6]
      | true => simp [Authority.render, Authority.hostPart, Authority.beforeHost, hv6]
  | port =>
    cases hau : url.authority with
    | none => exact absurd (by rw [Url.part, hau]; rfl) hne
    | some a =>
      cases hp : a.port with
      | none => exact absurd (by rw [Url.part, hau, Option.bind_some, hp]; rfl) hne
      | some p =>
        refine ⟨url.path ++ url.rest.render, ?_⟩
        rw [Url.before, Url.part, Url.authorityPart, hau, Option.bind_some, hp]
        simp [Authority.render, Authority.portPart, Authority.beforePort, hp]

/-- The place of a part fits in 16 bits. -/
theorem Url.before_lt (f : UrlField) (hlen : url.render.length < 2^16) (hne : url.part f ≠ []) :
    (url.before f ++ url.part f).length < 2^16 :=
  (url.before_part f hne).length_le.trans_lt hlen

/-- What a pass puts into the table for a part. -/
theorem Url.shows_putPart (v : Slices UrlField) (f : UrlField) (hlen : url.render.length < 2^16)
    (hv : v.set f = false) :
    Shows (v.putPart f (url.before f).length (url.part f)) f (url.before f) (url.part f) := by
  by_cases hne : url.part f = []
  · rw [hne]
    exact shows_nil _ hv
  · exact FieldSlices.shows_putPart hv (url.before_lt f hlen hne)

variable (hlen : url.render.length < 2^16)
include hlen

theorem shows_schema (hu : u.set .schema = false) :
    Shows (url.put u) .schema (url.before .schema) (url.part .schema) := by
  have h := url.shows_putPart u .schema hlen hu
  apply Shows.putPart
  · apply Shows.putPart
    · apply Shows.putPart
      · exact Shows.putPart _ _ _ h (by decide)
      · decide
    · decide
  · decide

theorem shows_path (hu : u.set .path = false) :
    Shows (url.put u) .path (url.before .path) (url.part .path) := by
  have hset : ((u.putPart .schema 0 url.schema).putPart .host url.schemaPart.length
      url.authorityPart).set .path = false := by
    rw [(putPart_of_ne _ _ _ _ _ (by decide)).1, (putPart_of_ne _ _ _ _ _ (by decide)).1, hu]
  have h := url.shows_putPart _ .path hlen hset
  have hat : (url.before .path).length = url.schemaPart.length+url.authorityPart.length :=
    List.length_append
  rw [hat] at h
  apply Shows.putPart
  · exact Shows.putPart _ _ _ h (by decide)
  · decide

theorem shows_query (hu : u.set .query = false) :
    Shows (url.put u) .query (url.before .query) (url.part .query) := by
  have hset : (((u.putPart .schema 0 url.schema).putPart .host url.schemaPart.length
      url.authorityPart).putPart .path (url.schemaPart.length+url.authorityPart.length)
      url.path).set .query = false := by
    rw [(putPart_of_ne _ _ _ _ _ (by decide)).1, (putPart_of_ne _ _ _ _ _ (by decide)).1,
      (putPart_of_ne _ _ _ _ _ (by decide)).1, hu]
  have h := url.shows_putPart _ .query hlen hset
  have hat : (url.before .query).length =
      url.schemaPart.length+url.authorityPart.length+url.path.length+1 := by
    rw [Url.before, List.length_append, List.length_append, List.length_append]
    rfl
  rw [hat] at h
  exact Shows.putPart _ _ _ h (by decide)

theorem shows_fragment (hu : u.set .fragment = false) :
    Shows (url.put u) .fragment (url.before .fragment) (url.part .fragment) := by
  have hset : ((((u.putPart .schema 0 url.schema).putPart .host url.schemaPart.length
      url.authorityPart).putPart .path (url.schemaPart.length+url.authorityPart.length)
      url.path).putPart .query (url.schemaPart.length+url.authorityPart.length+url.path.length+1)
      (url.rest.query.getD [])).set .fragment = false := by
    rw [(putPart_of_ne _ _ _ _ _ (by decide)).1, (putPart_of_ne _ _ _ _ _ (by decide)).1,
      (putPart_of_ne _ _ _ _ _ (by decide)).1, (putPart_of_ne _ _ _ _ _ (by decide)).1, hu]
  have h := url.shows_putPart _ .fragment hlen hset
  have hat : (url.before .fragment).length = url.schemaPart.length+url.authorityPart.length+
      url.path.length+url.rest.queryPart.length+url.rest.hashes := by
    rw [Url.before, List.length_append, List.length_append, List.length_append, List.length_append,
      List.length_replicate]
  rw [hat] at h
  exact h

end fields

section host
variable (a : Authority) (buf : List UInt8) (v : Slices UrlField)

section part
variable (f : UrlField) (before part : List UInt8)

/-- The port comes last. -/
theorem shows_beforePort (i n : ℕ) (w : Slices UrlField)
    (hs : Shows (w.put .host i n) f before part) (hport : f ≠ .port) (j : ℕ) :
    Shows (match a.port with
      | some p => (w.put .host i n).put .port j p.length
      | none => w.put .host i n) f before part := by
  cases a.port with
  | none => exact hs
  | some p => exact Shows.put .port j p.length hs hport

theorem shows_other (i : ℕ) (hf : f ≠ .userinfo ∧ f ≠ .host ∧ f ≠ .port)
    (hs : Shows v f before part) : Shows (a.put i v) f before part := by
  obtain ⟨hui,hhost,hport⟩ := hf
  apply shows_beforePort
  · apply Shows.put
    · exact Shows.putPart _ _ _ hs hui
    · exact hhost
  · exact hport

end part

variable (pre : List UInt8)

theorem shows_userinfo (hu : v.set .userinfo = false)
    (hlen : a.userinfo.getD [] ≠ [] → (pre ++ a.userinfo.getD []).length < 2^16) :
    Shows (a.put pre.length v) .userinfo pre (a.userinfo.getD []) := by
  apply shows_beforePort
  · apply Shows.put
    · unfold Authority.putUserinfo
      by_cases hne : a.userinfo.getD [] = []
      · rw [hne]
        exact shows_nil pre hu
      · exact FieldSlices.shows_putPart hu (hlen hne)
    · decide
  · decide

variable (ha : a.Valid)
include ha

/-- The second pass, over the part that the first one has found. -/
theorem httpParseHost_authority (hpre : pre.length < 2^16) (hset : v.set .host = true)
    (hoff : v.off .host = UInt16.ofNat pre.length) (hslice : textOf buf v .host = a.render) :
    httpParseHost buf v a.userinfo.isSome = some (a.put pre.length (v.setLen .host 0)) := by
  have hl : (v.setLen .host 0).len .host = 0 := len_setLen_self v .host 0
  obtain ⟨t,ht,hend⟩ := scan_authority a pre.length (v.setLen .host 0) ha hl hset
  unfold httpParseHost
  rw [hslice, hoff, UInt16.toNat_ofNat_of_lt' hpre]
  show (scan hostStep pre.length a.render _ _).bind _ = _
  rw [ht]
  exact if_pos hend

theorem Authority.Valid.host_ne : a.host ≠ [] := by
  have hvalid := ha.host
  split_ifs at hvalid
  · obtain ⟨addr,zone,he,hne,-⟩ := hvalid
    rw [he]
    exact List.append_ne_nil_of_left_ne_nil hne zone
  · exact hvalid.1

theorem shows_host (hlen : (pre ++ a.beforeHost ++ a.host).length < 2^16) :
    Shows (a.put pre.length v) .host (pre ++ a.beforeHost) a.host := by
  have hat : a.hostAt pre.length = (pre ++ a.beforeHost).length := by
    rw [Authority.hostAt, Authority.beforeHost, List.length_append, List.length_append,
      ← Nat.add_assoc]
    cases a.v6 <;> rfl
  apply shows_beforePort
  · rw [hat]
    exact shows_put ha.host_ne hlen
  · decide

theorem shows_port (hp : v.set .port = false)
    (hlen : a.port.getD [] ≠ [] → (pre ++ a.beforePort ++ a.port.getD []).length < 2^16) :
    Shows (a.put pre.length v) .port (pre ++ a.beforePort) (a.port.getD []) := by
  have hset : ((a.putUserinfo pre.length v).put .host (a.hostAt pre.length) a.host.length).set .port
      = false := by
    rw [set_put_of_ne _ UrlField.port .host _ _ (by decide), Authority.putUserinfo,
      (putPart_of_ne _ UrlField.port .userinfo _ _ (by decide)).1, hp]
  unfold Authority.put
  cases hopt : a.port with
  | none => exact shows_nil _ hset
  | some p =>
    have hne := (ha.port p hopt).1
    have hat : pre.length+a.userinfoPart.length+a.hostPart.length+1 =
        (pre ++ a.beforePort).length := by
      rw [Authority.beforePort, List.length_append, List.length_append, List.length_append,
        ← Nat.add_assoc, ← Nat.add_assoc]
      rfl
    rw [hopt] at hlen
    rw [hat]
    exact shows_put hne (hlen hne)

end host

end Cclab.HttpUrl
