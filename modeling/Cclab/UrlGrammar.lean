import Cclab.UrlTable

/-! What `http_parser_parse_url` accepts, in terms of the parts of a URL, and where it finds them. -/
namespace Cclab.HttpUrl
open FieldSlices HttpParser

section parse
variable (buf : List UInt8) (isConnect : Bool) (u : HttpParserUrl)

/-- The table as the parse begins. -/
def cleared : Slices UrlField := { u.fields with set := fun _ => false }

/-- The end of the function, when the two passes have made the table `w`. -/
theorem httpParserParseUrl_passed (l : UrlLoop) (v w : Slices UrlField)
    (hscan : scan urlStep 0 buf (urlStart isConnect) (cleared u) = some (l,v))
    (hschema : v.set .schema = true → v.set .host = true)
    (hhost : (if v.set .host then httpParseHost buf v l.foundAt else some v) = some w) :
    httpParserParseUrl buf isConnect u =
      if isConnect ∧ ¬ (w.set .host ∧ w.set .port ∧ ¬ w.set .schema ∧ ¬ w.set .path ∧
        ¬ w.set .query ∧ ¬ w.set .fragment ∧ ¬ w.set .userinfo) then none
      else if w.set .port then
        (portLoop (textOf buf w .port) 0).bind fun n => some ⟨w,n.toUInt16⟩
      else some ⟨w,0⟩ := by
  have hok : ¬ (v.set .schema ∧ ¬ v.set .host) := fun h => h.2 (hschema h.1)
  show (scan urlStep 0 buf (urlStart isConnect) (cleared u)).bind _ = _
  rw [hscan, Option.bind_some]
  refine (if_neg hok).trans ?_
  by_cases hset : v.set .host = true
  · rw [if_pos hset] at hhost
    refine (if_pos hset).trans ?_
    show (httpParseHost buf v l.foundAt).bind _ = _
    rw [hhost]
    rfl
  · rw [if_neg hset] at hhost
    obtain rfl := Option.some.inj hhost
    exact if_neg hset

/-- A string that is accepted has a host if it has a schema or belongs to CONNECT, and the second
pass accepts it. -/
theorem host_of_accepted (l : UrlLoop) (v : Slices UrlField) (r : HttpParserUrl)
    (hscan : scan urlStep 0 buf (urlStart isConnect) (cleared u) = some (l,v))
    (hr : httpParserParseUrl buf isConnect u = some r)
    (h : v.set .schema = true ∨ isConnect = true) : v.set .host = true ∧
      Ends (if l.foundAt then .userinfoStart else .hostStart) (textOf buf v .host) := by
  change (scan urlStep 0 buf (urlStart isConnect) (cleared u)).bind _ = _ at hr
  rw [hscan, Option.bind_some] at hr
  by_cases hset : v.set .host = true
  · refine ⟨hset, ?_⟩
    have hok : ¬ (v.set .schema ∧ ¬ v.set .host) := fun h => h.2 hset
    replace hr := (if_neg hok).symm.trans hr
    replace hr := (if_pos hset).symm.trans hr
    obtain ⟨w,hw,-⟩ := Option.bind_eq_some_iff.mp hr
    obtain ⟨⟨t,w'⟩,ht,hend⟩ := Option.bind_eq_some_iff.mp hw
    have hstates := scan_states hostStep (v.off .host).toNat (textOf buf v .host)
      (if l.foundAt then .userinfoStart else .hostStart) (v.setLen .host 0)
    rw [ht] at hstates
    refine ⟨t, hstates.symm, ?_⟩
    by_contra hbad
    exact absurd ((if_neg hbad).symm.trans hend) (by simp)
  · by_cases hschema : v.set .schema = true
    · exact absurd ((if_pos ⟨hschema,hset⟩).symm.trans hr) (by simp)
    · have hconnect : isConnect = true := h.resolve_left hschema
      have hok : ¬ (v.set .schema ∧ ¬ v.set .host) := fun h => hschema h.1
      replace hr := (if_neg hok).symm.trans hr
      replace hr := (if_neg hset).symm.trans hr
      have hmissing : isConnect = true ∧ ¬ (v.set .host ∧ v.set .port ∧ ¬ v.set .schema ∧
          ¬ v.set .path ∧ ¬ v.set .query ∧ ¬ v.set .fragment ∧ ¬ v.set .userinfo) :=
        ⟨hconnect, fun hall => hset hall.1⟩
      exact absurd ((if_pos hmissing).symm.trans hr) (by simp)

/-- Both passes succeed on a URL, and the table shows its parts. -/
theorem passes_url (url : Url) (h : url.Form isConnect) (hlen : url.render.length < 2^16) :
    ∃ l v w, scan urlStep 0 url.render (urlStart isConnect) (cleared u) = some (l,v) ∧
      (v.set .schema = true → v.set .host = true) ∧
      (if v.set .host then httpParseHost url.render v l.foundAt else some v) = some w ∧
      ∀ f, Shows w f (url.before f) (url.part f) := by
  obtain ⟨l,hscan,hfound⟩ := scan_url isConnect (cleared u) url h
  have hschema := shows_schema url (cleared u) hlen rfl
  have hpath := shows_path url (cleared u) hlen rfl
  have hquery := shows_query url (cleared u) hlen rfl
  have hfragment := shows_fragment url (cleared u) hlen rfl
  have hui : (url.put (cleared u)).set .userinfo = false :=
    set_putParts (cleared u) _ _ _ _ .userinfo (by decide) (Or.inl (by decide))
  have hport : (url.put (cleared u)).set .port = false :=
    set_putParts (cleared u) _ _ _ _ .port (by decide) (Or.inl (by decide))
  refine ⟨l, url.put (cleared u), ?_⟩
  cases hau : url.authority with
  | none =>
    have hpart : url.authorityPart = [] := by
      rw [Url.authorityPart, hau]
      rfl
    have hhost : (url.put (cleared u)).set .host = false :=
      set_putParts (cleared u) _ _ _ _ .host (by decide) (Or.inr hpart)
    have hq : url.schema = [] := by
      have hboth := h.both
      split_ifs at hboth
      · exact hboth.1
      · exact hboth.mpr hau
    have hnone : (url.put (cleared u)).set .schema = false := by
      rw [hschema.set, Url.part, hq]
      rfl
    refine ⟨url.put (cleared u), hscan, ?_, ?_, ?_⟩
    · intro hs
      exact absurd (hnone.symm.trans hs) Bool.false_ne_true
    · rw [if_neg (by rw [hhost]; exact Bool.false_ne_true)]
    · have hmissing (f : UrlField) (hf : (url.put (cleared u)).set f = false)
          (hp : url.part f = []) : Shows (url.put (cleared u)) f (url.before f) (url.part f) := by
        rw [hp]
        exact shows_nil _ hf
      intro f
      cases f with
      | schema => exact hschema
      | host => exact hmissing _ hhost (by rw [Url.part, hau]; rfl)
      | port => exact hmissing _ hport (by rw [Url.part, hau]; rfl)
      | path => exact hpath
      | query => exact hquery
      | fragment => exact hfragment
      | userinfo => exact hmissing _ hui (by rw [Url.part, hau]; rfl)
  | some a =>
    obtain ⟨ha,-⟩ := h.host a hau
    have hpart : url.authorityPart = a.render := by
      rw [Url.authorityPart, hau]
      rfl
    have hne : url.authorityPart ≠ [] := hpart ▸ ha.serves.2.2
    obtain ⟨hput,hoff,hslice⟩ := host_putParts (cleared u) url.schema url.authorityPart url.path
      url.rest hne hlen
    have hset : (url.put (cleared u)).set .host = true := hput
    replace hslice := hslice.trans hpart
    have hpre : url.schemaPart.length < 2^16 := by
      rw [Url.render, List.length_append] at hlen
      omega
    refine ⟨a.put url.schemaPart.length ((url.put (cleared u)).setLen .host 0), hscan,
      fun _ => hset, ?_, ?_⟩
    · rw [if_pos hset, hfound, hau]
      exact httpParseHost_authority a _ _ _ ha hpre hset hoff hslice
    · intro f
      have hfits := url.before_lt f hlen
      cases f with
      | schema => exact shows_other _ _ _ _ _ _ (by decide) (hschema.setLen _ 0 (by decide))
      | host =>
        rw [Url.part, Url.before, hau] at hfits ⊢
        exact shows_host a _ _ ha (hfits ha.host_ne)
      | port =>
        rw [Url.part, Url.before, hau, Option.bind_some] at hfits ⊢
        exact shows_port a _ _ ha hport hfits
      | path => exact shows_other _ _ _ _ _ _ (by decide) (hpath.setLen _ 0 (by decide))
      | query => exact shows_other _ _ _ _ _ _ (by decide) (hquery.setLen _ 0 (by decide))
      | fragment => exact shows_other _ _ _ _ _ _ (by decide) (hfragment.setLen _ 0 (by decide))
      | userinfo =>
        rw [Url.part, Url.before, hau, Option.bind_some] at hfits ⊢
        exact shows_userinfo a _ _ hui hfits

theorem Url.port_digits (url : Url) (h : url.Form isConnect) :
    ∀ c ∈ url.part .port, isNum c = true := by
  unfold Url.part
  cases hau : url.authority with
  | none => simp
  | some a =>
    cases hp : a.port with
    | none => simp [hp]
    | some p =>
      have hnum := ((h.host a hau).1.port p hp).2
      simpa [hp] using hnum

/-- The check on a CONNECT. -/
theorem only_iff (w : Slices UrlField) (part : UrlField → List UInt8)
    (hw : ∀ f, w.set f = decide (part f ≠ [])) :
    (w.set .host ∧ w.set .port ∧ ¬ w.set .schema ∧ ¬ w.set .path ∧ ¬ w.set .query ∧
      ¬ w.set .fragment ∧ ¬ w.set .userinfo) ↔ ∀ f, part f ≠ [] ↔ f = .host ∨ f = .port := by
  have hset (f : UrlField) : w.set f = true ↔ part f ≠ [] := by
    rw [hw f, decide_eq_true_eq]
  constructor
  · rintro ⟨h1,h2,h3,h4,h5,h6,h7⟩ f
    rw [← hset f]
    cases f <;> simp [h1, h2, h3, h4, h5, h6, h7]
  · intro h
    have hiff (f : UrlField) : w.set f = true ↔ f = .host ∨ f = .port := (hset f).trans (h f)
    simp [hiff]

/-- A string of the form of a URL is accepted unless its port is too large or, for CONNECT, there
is more than a host and a port. -/
theorem httpParserParseUrl_form (url : Url) (h : url.Form isConnect)
    (hlen : url.render.length < 2^16) : ∃ w : Slices UrlField,
      (∀ f, Shows w f (url.before f) (url.part f)) ∧
      ∀ r, httpParserParseUrl url.render isConnect u = some r ↔
        url.Valid isConnect ∧ r = ⟨w, UInt16.ofNat (numberFrom 0 (url.part .port))⟩ := by
  obtain ⟨l,v,w,hscan,hschema,hhost,hw⟩ := passes_url isConnect u url h hlen
  refine ⟨w, hw, fun r => ?_⟩
  rw [httpParserParseUrl_passed _ _ _ l v w hscan hschema hhost]
  by_cases honly : isConnect = true → ∀ f, url.part f ≠ [] ↔ f = .host ∨ f = .port
  · have hpass : ¬ (isConnect = true ∧ ¬ (w.set .host ∧ w.set .port ∧ ¬ w.set .schema ∧
        ¬ w.set .path ∧ ¬ w.set .query ∧ ¬ w.set .fragment ∧ ¬ w.set .userinfo)) := by
      rw [only_iff w url.part fun f => (hw f).set]
      exact fun hboth => hboth.2 (honly hboth.1)
    rw [if_neg hpass]
    by_cases hport : url.part .port = []
    · have hset : w.set .port = false := by
        rw [(hw .port).set, hport]
        rfl
      rw [hset, if_neg Bool.false_ne_true, hport]
      have hzero : numberFrom 0 [] = 0 := rfl
      have hvalid : url.Valid isConnect := ⟨h, by rw [hport, hzero]; exact Nat.zero_le _, honly⟩
      constructor
      · intro hr
        exact ⟨hvalid, (Option.some.inj hr).symm⟩
      · rintro ⟨-,rfl⟩
        rfl
    · have hset : w.set .port = true := by
        rw [(hw .port).set, decide_eq_true hport]
      have hnum := url.port_digits isConnect h
      have hzero : (0 : UInt64).toNat = 0 := rfl
      have htext := (hw .port).textOf _ hport (url.before_part .port hport)
      rw [if_pos hset, htext, portLoop_eq _ hnum 0 (Nat.zero_le _), hzero]
      by_cases hfits : numberFrom 0 (url.part .port) ≤ 0xffff
      · rw [if_pos hfits, Option.bind_some, UInt64.toUInt16_ofNat']
        constructor
        · intro hr
          exact ⟨⟨h,hfits,honly⟩, (Option.some.inj hr).symm⟩
        · rintro ⟨-,rfl⟩
          rfl
      · rw [if_neg hfits, Option.bind_none]
        constructor
        · intro hr
          exact absurd hr (Option.some_ne_none r).symm
        · rintro ⟨hvalid,-⟩
          exact absurd hvalid.port hfits
  · have hfail : isConnect = true ∧ ¬ (w.set .host ∧ w.set .port ∧ ¬ w.set .schema ∧
        ¬ w.set .path ∧ ¬ w.set .query ∧ ¬ w.set .fragment ∧ ¬ w.set .userinfo) := by
      rw [only_iff w url.part fun f => (hw f).set]
      exact Classical.not_imp.mp honly
    rw [if_pos hfail]
    constructor
    · intro hr
      exact absurd hr (Option.some_ne_none r).symm
    · rintro ⟨hvalid,-⟩
      exact absurd hvalid.only honly

/-- What is accepted has the form of a URL. -/
theorem form_of_accepted (r : HttpParserUrl) (hlen : buf.length < 2^16)
    (hr : httpParserParseUrl buf isConnect u = some r) :
    ∃ url : Url, url.Form isConnect ∧ url.render = buf := by
  have hscan : ∃ l v, scan urlStep 0 buf (urlStart isConnect) (cleared u) = some (l,v) := by
    obtain ⟨⟨l,v⟩,h,-⟩ := Option.bind_eq_some_iff.mp hr
    exact ⟨l,v,h⟩
  have hruns : Runs (urlStart isConnect).s buf := by
    obtain ⟨l,v,hscan⟩ := hscan
    have hstates := scan_states urlStep 0 buf (urlStart isConnect) (cleared u)
    rw [hscan] at hstates
    exact runs_states buf _ l hstates.symm
  -- a part with the host makes a URL with what is before and behind it
  have hurl (q a p : List UInt8) (rest : Rest) (hq : ∀ c ∈ q, isAlpha c = true)
      (hconnect : if isConnect then q = [] else q ≠ []) (ha : Serves .reqServerStart a)
      (hafter : AfterHost p rest)
      (hbuf : buf = slashed q ++ (a ++ (p ++ rest.render))) :
      ∃ url : Url, url.Form isConnect ∧ url.render = buf := by
    obtain ⟨l,hscan,hfound⟩ := scan_parts isConnect (cleared u) q a p rest hq hconnect ha hafter
    rw [← hbuf] at hscan
    have hmust : (putParts (cleared u) q a p rest).set .schema = true ∨ isConnect = true := by
      cases isConnect with
      | true => exact Or.inr rfl
      | false => exact Or.inl (schema_putParts _ q a p rest hconnect)
    obtain ⟨hset,hends⟩ := host_of_accepted buf isConnect u l _ r hscan hr hmust
    have hne : a ≠ [] := by
      intro hnil
      have hclear := set_putParts (cleared u) q a p rest .host (by decide) (Or.inr hnil)
      exact Bool.false_ne_true (hclear.symm.trans hset)
    obtain ⟨-,-,hslice⟩ := host_putParts (cleared u) q a p rest hne (hbuf ▸ hlen)
    rw [hbuf, hslice, hfound] at hends
    obtain ⟨au,hau,hrender,-⟩ := ends_authority _ a hends
    refine ⟨⟨q,some au,p,rest⟩, ⟨hq, ?_, by simp, ?_⟩, ?_⟩
    · cases isConnect with
      | true => exact ⟨hconnect, Option.some_ne_none au⟩
      | false => exact ⟨fun hnil => absurd hnil hconnect, fun hnone => absurd hnone (by simp)⟩
    · rintro b ⟨⟩
      exact ⟨hau,hafter⟩
    · rw [hbuf, ← hrender]
      rfl
  cases isConnect with
  | true =>
    obtain ⟨a,p,rest,rfl,ha,hafter⟩ := runs_server _ (Or.inl rfl) buf hruns
    exact hurl [] a p rest (by simp) rfl ha hafter rfl
  | false =>
    cases buf with
    | nil =>
      refine ⟨⟨[],none,[],⟨none,0,[]⟩⟩, ⟨by simp, ⟨fun _ => rfl, fun _ => rfl⟩, ?_, by simp⟩, rfl⟩
      exact fun _ => ⟨Or.inl ⟨rfl,rfl⟩, by simp, by simp, by simp, fun _ => rfl⟩
    | cons c l =>
      obtain ⟨hp,hrest⟩ := hruns
      obtain ⟨hc,hs⟩ | ⟨hc,hs⟩ := start_cases c hp
      · obtain ⟨p,rest,rfl,hpath,hvalid⟩ := runs_path l (hs ▸ hrest)
        refine ⟨⟨[],none,c :: p,rest⟩, ⟨by simp, ⟨fun _ => rfl, fun _ => rfl⟩, ?_, by simp⟩, rfl⟩
        exact fun _ => ⟨Or.inr ⟨c,p,rfl,hc,hpath⟩, hvalid⟩
      · obtain ⟨q,t,rfl,hq,ht⟩ := runs_schema l (hs ▸ hrest)
        have hletters : ∀ d ∈ c :: q, isAlpha d = true := List.forall_mem_cons.mpr ⟨hc,hq⟩
        -- without a server there is a schema and no host
        have hpass := scan_schema 0 (cleared u) (c :: q) t (List.cons_ne_nil c q) hletters
        have hnone (x : UrlLoop) (ht : scan urlStep (0+(c :: q).length) t
            ⟨.reqSchema,some .schema,false⟩ ((cleared u).put .schema 0 (c :: q).length) =
              some (x,(cleared u).put .schema 0 (c :: q).length)) : False := by
          have hset := (host_of_accepted _ false u x _ r (hpass.trans ht) hr
            (Or.inl (set_put_self _ _ _ _))).1
          rw [set_put_of_ne _ UrlField.host .schema _ _ (by decide)] at hset
          exact Bool.false_ne_true hset
        obtain rfl | rfl | rfl | ⟨t,rfl,hserver⟩ := ht
        · exact (hnone _ rfl).elim
        · exact (hnone _ rfl).elim
        · exact (hnone _ rfl).elim
        · obtain ⟨a,p,rest,rfl,ha,hafter⟩ := runs_server _ (Or.inl rfl) t hserver
          refine hurl (c :: q) a p rest hletters (List.cons_ne_nil c q) ha hafter ?_
          rw [slashed, if_neg (List.cons_ne_nil c q), List.append_assoc]
          rfl

/-- "http://u@h:80/p?q#f". -/
def plainUrl : Url :=
  ⟨ascii "http", some ⟨some (ascii "u"),false,ascii "h",some (ascii "80")⟩, ascii "/p",
    ⟨some (ascii "q"),1,ascii "f"⟩⟩

theorem plainUrl_valid : plainUrl.Valid false := by
  refine ⟨⟨List.all_eq_true.mp rfl, by simp [plainUrl, ascii], by simp [plainUrl], ?_⟩,
    by decide, by simp⟩
  rintro a ⟨⟩
  refine ⟨⟨?_, ⟨by decide, List.all_eq_true.mp rfl⟩, ?_⟩,
    Or.inr ⟨ascii "p", rfl, List.all_eq_true.mp rfl⟩, ?_, by decide⟩
  · rintro ui ⟨⟩
    exact List.all_eq_true.mp rfl
  · rintro p ⟨⟩
    exact ⟨by decide, List.all_eq_true.mp rfl⟩
  · refine ⟨?_, List.all_eq_true.mp rfl, by decide, by decide⟩
    rintro q ⟨⟩
    exact List.all_eq_true.mp rfl

/-- In less than 64 kB, the URLs are what is accepted. -/
theorem httpParserParseUrl_iff (hlen : buf.length < 2^16) :
    (∃ r, httpParserParseUrl buf isConnect u = some r) ↔
      ∃ url : Url, url.Valid isConnect ∧ url.render = buf := by
  constructor
  · rintro ⟨r,hr⟩
    obtain ⟨url,h,rfl⟩ := form_of_accepted buf isConnect u r hlen hr
    obtain ⟨w,-,hw⟩ := httpParserParseUrl_form isConnect u url h hlen
    exact ⟨url, ((hw r).mp hr).1, rfl⟩
  · rintro ⟨url,hurl,rfl⟩
    obtain ⟨w,-,hw⟩ := httpParserParseUrl_form isConnect u url hurl.form hlen
    exact ⟨_, (hw _).mpr ⟨hurl,rfl⟩⟩

theorem iff_plainUrl : (∃ r, httpParserParseUrl plainUrl.render false httpParserUrlInit = some r) ↔
    ∃ url : Url, url.Valid false ∧ url.render = plainUrl.render :=
  httpParserParseUrl_iff plainUrl.render false httpParserUrlInit (by decide)

/-- Whatever URL the string is, the fields that are set are those of its parts, each with the place
and the length of the part, and the number is that of its port. -/
theorem httpParserParseUrl_fields (url : Url) (hurl : url.Valid isConnect)
    (hlen : url.render.length < 2^16) : ∃ r, httpParserParseUrl url.render isConnect u = some r ∧
      (∀ f, r.fields.set f = decide (url.part f ≠ [])) ∧
      (∀ f, url.part f ≠ [] → (r.fields.off f).toNat = (url.before f).length ∧
        (r.fields.len f).toNat = (url.part f).length ∧
        url.before f ++ url.part f <+: url.render) ∧
      r.port.toNat = numberFrom 0 (url.part .port) := by
  obtain ⟨w,hw,hr⟩ := httpParserParseUrl_form isConnect u url hurl.form hlen
  refine ⟨_, (hr _).mpr ⟨hurl,rfl⟩, fun f => (hw f).set, ?_, ?_⟩
  · exact fun f hne => ⟨(hw f).off hne, (hw f).len hne, url.before_part f hne⟩
  exact UInt16.toNat_ofNat_of_lt' (lt_of_le_of_lt hurl.port (by decide))

theorem fields_plainUrl : ∃ r, httpParserParseUrl plainUrl.render false httpParserUrlInit = some r ∧
    (∀ f, r.fields.set f = decide (plainUrl.part f ≠ [])) ∧
    (∀ f, plainUrl.part f ≠ [] → (r.fields.off f).toNat = (plainUrl.before f).length ∧
      (r.fields.len f).toNat = (plainUrl.part f).length ∧
      plainUrl.before f ++ plainUrl.part f <+: plainUrl.render) ∧ r.port.toNat = 80 :=
  httpParserParseUrl_fields false httpParserUrlInit plainUrl plainUrl_valid (by decide)

/-- The host is "h" behind "http://u@", and the port "80" behind "http://u@h:". -/
example : plainUrl.before .host = ascii "http://u@" ∧ plainUrl.before .port = ascii "http://u@h:" :=
  ⟨rfl,rfl⟩

/-- A string is a URL in one way only. -/
theorem parts_unique (url url' : Url) (h : url.Valid isConnect) (h' : url'.Valid isConnect)
    (hsame : url.render = url'.render) (hlen : url.render.length < 2^16) : url.part = url'.part := by
  obtain ⟨w,hw,hr⟩ := httpParserParseUrl_form isConnect httpParserUrlInit url h.form hlen
  obtain ⟨w',hw',hr'⟩ := httpParserParseUrl_form isConnect httpParserUrlInit url' h'.form (hsame ▸ hlen)
  have hparsed := (hr _).mpr ⟨h,rfl⟩
  rw [hsame] at hparsed
  obtain rfl : w = w' := congrArg HttpParserUrl.fields ((hr' _).mp hparsed).2
  ext1 f
  have hempty : url.part f ≠ [] ↔ url'.part f ≠ [] :=
    decide_eq_decide.mp ((hw f).set.symm.trans (hw' f).set)
  by_cases hne : url.part f = []
  · rw [hne]
    by_contra hother
    exact hempty.mpr (fun he => hother he.symm) hne
  · have htext := (hw f).textOf _ hne (url.before_part f hne)
    have htext' := (hw' f).textOf _ (hempty.mp hne) (url'.before_part f (hempty.mp hne))
    rw [← htext, ← htext', hsame]

end parse

end Cclab.HttpUrl
