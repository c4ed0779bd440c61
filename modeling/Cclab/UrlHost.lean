import Cclab.UrlModel

/-! The part of a URL with the host: what `http_parse_host` accepts and where it finds the user
information, the host and the port. -/
namespace Cclab.HttpUrl
open FieldSlices HttpParser

/-- The parts of an authority. A userinfo may be empty; a host in brackets may have a zone id. -/
structure Authority where
  userinfo : Option (List UInt8)
  v6 : Bool
  host : List UInt8
  port : Option (List UInt8)

/-- What stands in brackets: an address, and behind it '%' and a zone id if there is one. -/
def Literal (h : List UInt8) : Prop :=
  ∃ addr zone, h = addr ++ zone ∧ addr ≠ [] ∧ (∀ c ∈ addr, isV6Char c = true) ∧
    (zone = [] ∨ ∃ z, zone = byte '%' :: z ∧ z ≠ [] ∧ ∀ c ∈ z, isZoneChar c = true)

namespace Authority
variable (a : Authority)

def userinfoPart : List UInt8 := a.userinfo.elim [] fun ui => ui ++ [byte '@']

def hostPart : List UInt8 := if a.v6 then byte '[' :: (a.host ++ [byte ']']) else a.host

def portPart : List UInt8 := a.port.elim [] fun p => byte ':' :: p

def render : List UInt8 := a.userinfoPart ++ (a.hostPart ++ a.portPart)

structure Valid : Prop where
  userinfo : ∀ ui, a.userinfo = some ui → ∀ c ∈ ui, isUserinfoChar c = true
  host : if a.v6 then Literal a.host else a.host ≠ [] ∧ ∀ c ∈ a.host, isHostChar c = true
  port : ∀ p, a.port = some p → p ≠ [] ∧ ∀ c ∈ p, isNum c = true

end Authority

section accepted

/-- From this state on, the bytes are accepted. -/
def Ends (s : HostState) (l : List UInt8) : Prop :=
  ∃ t, states hostStep s l = some t ∧ hostEnds t = true

theorem ends_cons (s : HostState) (c : UInt8) (l : List UInt8) (h : Ends s (c :: l)) :
    Ends (httpParseHostChar s c) l := by
  obtain ⟨t,ht,he⟩ := h
  rw [states_cons] at ht
  obtain ⟨r,hr,hrest⟩ := Option.bind_eq_some_iff.mp ht
  have hs : r.1 = httpParseHostChar s c := by
    unfold hostStep at hr
    generalize httpParseHostChar s c = n at hr ⊢
    cases n <;> simp at hr <;> rw [← hr]
  exact ⟨t, hs ▸ hrest, he⟩

theorem not_ends_dead (l : List UInt8) : ¬ Ends .dead l := by
  rintro ⟨t,ht,he⟩
  cases l with
  | nil =>
    obtain rfl := Option.some.inj ht
    exact absurd he (by decide)
  | cons c l =>
    rw [states_cons] at ht
    exact absurd ht (by simp [hostStep, httpParseHostChar])

theorem ends_port (l : List UInt8) (h : Ends .hostPort l) : ∀ c ∈ l, isNum c = true := by
  induction l with
  | nil => simp
  | cons c l ih =>
    have hnext := ends_cons _ c l h
    rw [httpParseHostChar] at hnext
    split_ifs at hnext with hc
    · exact List.forall_mem_cons.mpr ⟨hc,ih hnext⟩
    · exact absurd hnext (not_ends_dead l)

/-- What may follow a host. -/
def PortPart (l : List UInt8) : Prop :=
  l = [] ∨ ∃ p, l = byte ':' :: p ∧ p ≠ [] ∧ ∀ c ∈ p, isNum c = true

theorem ends_portStart (l : List UInt8) (h : Ends .hostPortStart l) : PortPart (byte ':' :: l) := by
  cases l with
  | nil =>
    obtain ⟨t,ht,he⟩ := h
    obtain rfl := Option.some.inj ht
    exact absurd he (by decide)
  | cons c l =>
    have hnext := ends_cons _ c l h
    rw [httpParseHostChar] at hnext
    split_ifs at hnext with hc
    · exact Or.inr ⟨c :: l, rfl, List.cons_ne_nil c l, List.forall_mem_cons.mpr ⟨hc,ends_port l hnext⟩⟩
    · exact absurd hnext (not_ends_dead l)

theorem ends_v6End (l : List UInt8) (h : Ends .hostV6End l) : PortPart l := by
  cases l with
  | nil => exact Or.inl rfl
  | cons c l =>
    have hnext := ends_cons _ c l h
    rw [httpParseHostChar] at hnext
    split_ifs at hnext with hc
    · rw [hc]
      exact ends_portStart l hnext
    · exact absurd hnext (not_ends_dead l)

theorem ends_host (l : List UInt8) (h : Ends .host l) :
    ∃ p r, l = p ++ r ∧ (∀ c ∈ p, isHostChar c = true) ∧ PortPart r := by
  induction l with
  | nil => exact ⟨[], [], rfl, by simp, Or.inl rfl⟩
  | cons c l ih =>
    have hnext := ends_cons _ c l h
    rw [httpParseHostChar] at hnext
    split_ifs at hnext with hc hcolon
    · obtain ⟨p,r,rfl,hp,hr⟩ := ih hnext
      exact ⟨c :: p, r, rfl, List.forall_mem_cons.mpr ⟨hc,hp⟩, hr⟩
    · exact ⟨[], c :: l, rfl, by simp, hcolon ▸ ends_portStart l hnext⟩
    · exact absurd hnext (not_ends_dead l)

theorem ends_zone (l : List UInt8) (h : Ends .hostV6Zone l) :
    ∃ z r, l = z ++ byte ']' :: r ∧ (∀ c ∈ z, isZoneChar c = true) ∧ PortPart r := by
  induction l with
  | nil =>
    obtain ⟨t,ht,he⟩ := h
    obtain rfl := Option.some.inj ht
    exact absurd he (by decide)
  | cons c l ih =>
    have hnext := ends_cons _ c l h
    rw [httpParseHostChar] at hnext
    split_ifs at hnext with hend hc
    · exact ⟨[], l, by rw [hend]; rfl, by simp, ends_v6End l hnext⟩
    · obtain ⟨z,r,rfl,hz,hr⟩ := ih hnext
      exact ⟨c :: z, r, rfl, List.forall_mem_cons.mpr ⟨hc,hz⟩, hr⟩
    · exact absurd hnext (not_ends_dead l)

theorem ends_zoneStart (l : List UInt8) (h : Ends .hostV6ZoneStart l) :
    ∃ z r, l = z ++ byte ']' :: r ∧ z ≠ [] ∧ (∀ c ∈ z, isZoneChar c = true) ∧ PortPart r := by
  cases l with
  | nil =>
    obtain ⟨t,ht,he⟩ := h
    obtain rfl := Option.some.inj ht
    exact absurd he (by decide)
  | cons c l =>
    have hnext := ends_cons _ c l h
    rw [httpParseHostChar] at hnext
    split_ifs at hnext with hc
    · obtain ⟨z,r,rfl,hz,hr⟩ := ends_zone l hnext
      exact ⟨c :: z, r, rfl, List.cons_ne_nil c z, List.forall_mem_cons.mpr ⟨hc,hz⟩, hr⟩
    · exact absurd hnext (not_ends_dead l)

theorem ends_v6 (l : List UInt8) (h : Ends .hostV6 l) :
    ∃ addr zone r, l = addr ++ zone ++ byte ']' :: r ∧ (∀ c ∈ addr, isV6Char c = true) ∧
      (zone = [] ∨ ∃ z, zone = byte '%' :: z ∧ z ≠ [] ∧ ∀ c ∈ z, isZoneChar c = true) ∧
      PortPart r := by
  induction l with
  | nil =>
    obtain ⟨t,ht,he⟩ := h
    obtain rfl := Option.some.inj ht
    exact absurd he (by decide)
  | cons c l ih =>
    have hnext := ends_cons _ c l h
    rw [httpParseHostChar] at hnext
    split_ifs at hnext with hend hc hpercent
    · exact ⟨[], [], l, by rw [hend]; rfl, by simp, Or.inl rfl, ends_v6End l hnext⟩
    · obtain ⟨addr,zone,r,rfl,haddr,hzone,hr⟩ := ih hnext
      exact ⟨c :: addr, zone, r, rfl, List.forall_mem_cons.mpr ⟨hc,haddr⟩, hzone, hr⟩
    · obtain ⟨z,r,rfl,hne,hz,hr⟩ := ends_zoneStart l hnext
      refine ⟨[], c :: z, r, rfl, by simp, Or.inr ⟨z, by rw [hpercent], hne, hz⟩, hr⟩
    · exact absurd hnext (not_ends_dead l)

theorem ends_hostStart (l : List UInt8) (h : Ends .hostStart l) :
    ∃ (v6 : Bool) (host r : List UInt8), l = (if v6 then byte '[' :: (host ++ [byte ']']) else host) ++ r ∧
      (if v6 then Literal host else host ≠ [] ∧ ∀ c ∈ host, isHostChar c = true) ∧ PortPart r := by
  cases l with
  | nil =>
    obtain ⟨t,ht,he⟩ := h
    obtain rfl := Option.some.inj ht
    exact absurd he (by decide)
  | cons c l =>
    have hnext := ends_cons _ c l h
    rw [httpParseHostChar] at hnext
    split_ifs at hnext with hbracket hc
    · cases l with
      | nil =>
        obtain ⟨t,ht,he⟩ := hnext
        obtain rfl := Option.some.inj ht
        exact absurd he (by decide)
      | cons d l =>
        have hv6 := ends_cons _ d l hnext
        rw [httpParseHostChar] at hv6
        split_ifs at hv6 with hd
        · obtain ⟨addr,zone,r,rfl,haddr,hzone,hr⟩ := ends_v6 l hv6
          refine ⟨true, d :: addr ++ zone, r, ?_, ?_, hr⟩
          · rw [hbracket, if_pos rfl]
            simp
          · rw [if_pos rfl]
            exact ⟨d :: addr, zone, rfl, List.cons_ne_nil d addr,
              List.forall_mem_cons.mpr ⟨hd,haddr⟩, hzone⟩
        · exact absurd hv6 (not_ends_dead l)
    · obtain ⟨p,r,rfl,hp,hr⟩ := ends_host l hnext
      refine ⟨false, c :: p, r, rfl, ?_, hr⟩
      rw [if_neg Bool.false_ne_true]
      exact ⟨List.cons_ne_nil c p, List.forall_mem_cons.mpr ⟨hc,hp⟩⟩
    · exact absurd hnext (not_ends_dead l)

theorem ends_userinfo (s : HostState) (hs : s = .userinfoStart ∨ s = .userinfo) (l : List UInt8)
    (h : Ends s l) :
    ∃ ui r, l = ui ++ byte '@' :: r ∧ (∀ c ∈ ui, isUserinfoChar c = true) ∧ Ends .hostStart r := by
  induction l generalizing s with
  | nil =>
    obtain ⟨t,ht,he⟩ := h
    obtain rfl := Option.some.inj ht
    rcases hs with rfl | rfl
    · exact absurd he (by decide)
    · exact absurd he (by decide)
  | cons c l ih =>
    have hnext := ends_cons _ c l h
    have hchar : httpParseHostChar s c = if c = byte '@' then .hostStart
        else if isUserinfoChar c then .userinfo else .dead := by
      rcases hs with rfl | rfl <;> rfl
    rw [hchar] at hnext
    split_ifs at hnext with hat hc
    · exact ⟨[], l, by rw [hat]; rfl, by simp, hnext⟩
    · obtain ⟨ui,r,rfl,hui,hr⟩ := ih _ (Or.inr rfl) hnext
      exact ⟨c :: ui, r, rfl, List.forall_mem_cons.mpr ⟨hc,hui⟩, hr⟩
    · exact absurd hnext (not_ends_dead l)

/-- What is accepted is an authority; it has a userinfo exactly if an '@' has been found. -/
theorem ends_authority (foundAt : Bool) (l : List UInt8)
    (h : Ends (if foundAt then .userinfoStart else .hostStart) l) :
    ∃ a : Authority, a.Valid ∧ a.render = l ∧ a.userinfo.isSome = foundAt := by
  have hport (r : List UInt8) (hr : PortPart r) : ∃ port : Option (List UInt8),
      r = port.elim [] (fun p => byte ':' :: p) ∧
        ∀ p, port = some p → p ≠ [] ∧ ∀ c ∈ p, isNum c = true := by
    rcases hr with rfl | ⟨p,rfl,hne,hp⟩
    · exact ⟨none, rfl, by simp⟩
    · refine ⟨some p, rfl, ?_⟩
      rintro q ⟨⟩
      exact ⟨hne,hp⟩
  cases foundAt with
  | false =>
    obtain ⟨v6,host,r,rfl,hhost,hr⟩ := ends_hostStart l h
    obtain ⟨port,rfl,hp⟩ := hport r hr
    exact ⟨⟨none,v6,host,port⟩, ⟨by simp, hhost, hp⟩, rfl, rfl⟩
  | true =>
    obtain ⟨ui,r,rfl,hui,hrest⟩ := ends_userinfo _ (Or.inl rfl) l h
    obtain ⟨v6,host,r,rfl,hhost,hr⟩ := ends_hostStart r hrest
    obtain ⟨port,rfl,hp⟩ := hport r hr
    refine ⟨⟨some ui,v6,host,port⟩, ⟨?_, hhost, hp⟩, ?_, rfl⟩
    · rintro ui' ⟨⟩
      exact hui
    · show (ui ++ [byte '@']) ++ _ = ui ++ _
      rw [List.append_assoc, List.singleton_append]
      rfl

end accepted

section found

/-- A byte of one class is not a byte outside of it. -/
theorem ne_of_class (good : UInt8 → Bool) (c d : UInt8) (hc : good c = true) (hd : good d = false) :
    c ≠ d := by
  rintro rfl
  exact Bool.false_ne_true (hd.symm.trans hc)

theorem step_userinfo (s : HostState) (hs : s = .userinfoStart ∨ s = .userinfo) (c : UInt8)
    (hc : isUserinfoChar c = true) : hostStep s c =
      some (.userinfo, if s ≠ .userinfo then .start .userinfo else .extend .userinfo) := by
  have hne : c ≠ byte '@' := ne_of_class isUserinfoChar c _ hc (by decide)
  have hchar : httpParseHostChar s c = .userinfo := by
    rcases hs with rfl | rfl
    · exact (if_neg hne).trans (if_pos hc)
    · exact (if_neg hne).trans (if_pos hc)
  rw [hostStep, hchar]

theorem step_host (s : HostState) (hs : s = .hostStart ∨ s = .host) (c : UInt8)
    (hc : isHostChar c = true) : hostStep s c =
      some (.host, if s ≠ .host then .move .host else .extend .host) := by
  have hne : c ≠ byte '[' := ne_of_class isHostChar c _ hc (by decide)
  have hchar : httpParseHostChar s c = .host := by
    rcases hs with rfl | rfl
    · exact (if_neg hne).trans (if_pos hc)
    · exact if_pos hc
  rw [hostStep, hchar]

theorem step_v6 (s : HostState) (hs : s = .hostV6Start ∨ s = .hostV6) (c : UInt8)
    (hc : isV6Char c = true) : hostStep s c =
      some (.hostV6, if s ≠ .hostV6 then .move .host else .extend .host) := by
  have hne : c ≠ byte ']' := ne_of_class isV6Char c _ hc (by decide)
  have hchar : httpParseHostChar s c = .hostV6 := by
    rcases hs with rfl | rfl
    · exact if_pos hc
    · exact (if_neg hne).trans (if_pos hc)
  rw [hostStep, hchar]

theorem step_zone (s : HostState) (hs : s = .hostV6ZoneStart ∨ s = .hostV6Zone) (c : UInt8)
    (hc : isZoneChar c = true) : hostStep s c = some (.hostV6Zone,.extend .host) := by
  have hne : c ≠ byte ']' := ne_of_class isZoneChar c _ hc (by decide)
  have hchar : httpParseHostChar s c = .hostV6Zone := by
    rcases hs with rfl | rfl
    · exact if_pos hc
    · exact (if_neg hne).trans (if_pos hc)
  rw [hostStep, hchar]

theorem step_port (s : HostState) (hs : s = .hostPortStart ∨ s = .hostPort) (c : UInt8)
    (hc : isNum c = true) : hostStep s c =
      some (.hostPort, if s ≠ .hostPort then .start .port else .extend .port) := by
  have hchar : httpParseHostChar s c = .hostPort := by
    rcases hs with rfl | rfl
    · exact if_pos hc
    · exact if_pos hc
  rw [hostStep, hchar]

variable (a : Authority) (i : ℕ) (u : Slices UrlField)

/-- The table behind the user information. -/
def Authority.putUserinfo : Slices UrlField := u.putPart .userinfo i (a.userinfo.getD [])

/-- Where the host begins. -/
def Authority.hostAt : ℕ := i+a.userinfoPart.length+(if a.v6 then 1 else 0)

/-- The table behind an authority that begins at the `i`-th byte. -/
def Authority.put : Slices UrlField :=
  let u := (a.putUserinfo i u).put .host (a.hostAt i) a.host.length
  match a.port with
  | some p => u.put .port (i+a.userinfoPart.length+a.hostPart.length+1) p.length
  | none => u

theorem scan_userinfo (ui rest : List UInt8) (hui : ∀ c ∈ ui, isUserinfoChar c = true) :
    scan hostStep i (ui ++ byte '@' :: rest) .userinfoStart u =
      scan hostStep (i+(ui ++ [byte '@']).length) rest .hostStart (u.putPart .userinfo i ui) := by
  have hat (s : HostState) (hs : s = .userinfoStart ∨ s = .userinfo) :
      hostStep s (byte '@') = some (.hostStart,.skip) := by
    rcases hs with rfl | rfl <;> rfl
  cases ui with
  | nil =>
    rw [List.nil_append, scan_cons i _ rest _ _ _ u (hat _ (Or.inl rfl))]
    rfl
  | cons c cs =>
    obtain ⟨hc,hcs⟩ := List.forall_mem_cons.mp hui
    have hext : Extends hostStep .userinfo .userinfo cs .userinfo :=
      extends_stay _ isUserinfoChar _ cs hcs fun d hd => step_userinfo _ (Or.inr rfl) d hd
    rw [hext.scan_first .userinfo i c cs _ .userinfoStart _ _ _ u (step_userinfo _ (Or.inl rfl) c hc)
      rfl, scan_cons _ _ rest _ _ _ _ (hat _ (Or.inr rfl)), List.length_append]
    rfl

/-- A host, in brackets or not; it has been set, and its length cleared. -/
theorem scan_host (v6 : Bool) (host rest : List UInt8)
    (hhost : if v6 then Literal host else host ≠ [] ∧ ∀ c ∈ host, isHostChar c = true)
    (hlen : u.len .host = 0) (hset : u.set .host = true) :
    scan hostStep i ((if v6 then byte '[' :: (host ++ [byte ']']) else host) ++ rest) .hostStart u =
      scan hostStep (i+(if v6 then byte '[' :: (host ++ [byte ']']) else host).length) rest
        (if v6 then .hostV6End else .host) (u.put .host (i+(if v6 then 1 else 0)) host.length) := by
  cases v6 with
  | false =>
    obtain ⟨hne,hchars⟩ := hhost
    obtain ⟨c,cs,rfl⟩ := List.exists_cons_of_ne_nil hne
    obtain ⟨hc,hcs⟩ := List.forall_mem_cons.mp hchars
    have hext : Extends hostStep .host .host cs .host :=
      extends_stay _ isHostChar _ cs hcs fun d hd => step_host _ (Or.inr rfl) d hd
    exact hext.scan_first .host i c cs rest .hostStart _ _ _ u (step_host _ (Or.inl rfl) c hc)
      (apply_move .host i u hlen hset)
  | true =>
    obtain ⟨addr,zone,rfl,hne,haddr,hzone⟩ := hhost
    obtain ⟨c,cs,rfl⟩ := List.exists_cons_of_ne_nil hne
    obtain ⟨hc,hcs⟩ := List.forall_mem_cons.mp haddr
    have hext : Extends hostStep .host .hostV6 cs .hostV6 :=
      extends_stay _ isV6Char _ cs hcs fun d hd => step_v6 _ (Or.inr rfl) d hd
    -- the zone id is a part of the host
    have hall : ∃ t, Extends hostStep .host .hostV6 (cs ++ zone) t ∧
        hostStep t (byte ']') = some (.hostV6End,.skip) := by
      rcases hzone with rfl | ⟨z,rfl,hz,hzchars⟩
      · rw [List.append_nil]
        exact ⟨.hostV6, hext, rfl⟩
      · obtain ⟨d,ds,rfl⟩ := List.exists_cons_of_ne_nil hz
        obtain ⟨hd,hds⟩ := List.forall_mem_cons.mp hzchars
        have hzext : Extends hostStep .host .hostV6Zone ds .hostV6Zone :=
          extends_stay _ isZoneChar _ ds hds fun e he => step_zone _ (Or.inr rfl) e he
        refine ⟨.hostV6Zone, Extends.append UrlField.host _ _ _ cs _ hext ?_, rfl⟩
        exact ⟨.hostV6ZoneStart, rfl, .hostV6Zone, step_zone _ (Or.inl rfl) d hd, hzext⟩
    obtain ⟨t,hall,hend⟩ := hall
    have hsplit : (if true then byte '[' :: (c :: cs ++ zone ++ [byte ']']) else c :: cs ++ zone) ++
        rest = byte '[' :: (c :: (cs ++ zone) ++ byte ']' :: rest) := by
      rw [if_pos rfl]
      simp
    have hopen : hostStep .hostStart (byte '[') = some (.hostV6Start,.skip) := rfl
    rw [hsplit, scan_cons i _ _ _ _ _ u hopen]
    refine (hall.scan_first .host (i+1) c (cs ++ zone) _ .hostV6Start _ _ _ u
      (step_v6 _ (Or.inl rfl) c hc) (apply_move .host (i+1) u hlen hset)).trans ?_
    rw [scan_cons _ _ rest _ _ _ _ hend]
    have hpos : i+1+(c :: (cs ++ zone)).length+1 =
        i+(byte '[' :: (c :: cs ++ zone ++ [byte ']'])).length := by
      simp only [List.length_cons, List.length_append, List.length_nil]
      omega
    rw [hpos]
    rfl

/-- The pass over an authority finds its parts. -/
theorem scan_authority (ha : a.Valid) (hlen : u.len .host = 0) (hset : u.set .host = true) :
    ∃ t, scan hostStep i a.render (if a.userinfo.isSome then .userinfoStart else .hostStart) u =
      some (t,a.put i u) ∧ hostEnds t = true := by
  have hport (s : HostState) (hs : s = .host ∨ s = .hostV6End) (j : ℕ) (v : Slices UrlField) :
      ∃ t, scan hostStep j a.portPart s v = some (t, match a.port with
        | some p => v.put .port (j+1) p.length
        | none => v) ∧ hostEnds t = true := by
    unfold Authority.portPart
    cases hp : a.port with
    | none =>
      refine ⟨s, rfl, ?_⟩
      rcases hs with rfl | rfl <;> rfl
    | some p =>
      obtain ⟨hne,hnum⟩ := ha.port p hp
      obtain ⟨c,cs,rfl⟩ := List.exists_cons_of_ne_nil hne
      obtain ⟨hc,hcs⟩ := List.forall_mem_cons.mp hnum
      have hcolon : hostStep s (byte ':') = some (.hostPortStart,.skip) := by
        rcases hs with rfl | rfl <;> rfl
      have hext : Extends hostStep .port .hostPort cs .hostPort :=
        extends_stay _ isNum _ cs hcs fun d hd => step_port _ (Or.inr rfl) d hd
      refine ⟨.hostPort, ?_, rfl⟩
      have hfirst := hext.scan_first .port (j+1) c cs [] .hostPortStart _ _ _ v
        (step_port _ (Or.inl rfl) c hc) rfl
      rw [List.append_nil] at hfirst
      show scan hostStep j (byte ':' :: (c :: cs)) s v = _
      rw [scan_cons j _ _ _ _ _ v hcolon]
      exact hfirst
  have hends (v6 : Bool) : (if v6 then HostState.hostV6End else .host) = .host ∨
      (if v6 then HostState.hostV6End else .host) = .hostV6End := by
    cases v6
    · exact Or.inl rfl
    · exact Or.inr rfl
  have hhost (j : ℕ) (v : Slices UrlField) (hl : v.len .host = 0) (hs : v.set .host = true) :=
    scan_host j v a.v6 a.host a.portPart ha.host hl hs
  obtain ⟨t,ht,hend⟩ := hport _ (hends a.v6) (i+a.userinfoPart.length+a.hostPart.length)
    ((a.putUserinfo i u).put .host (a.hostAt i) a.host.length)
  refine ⟨t, ?_, hend⟩
  refine Eq.trans ?_ ht
  cases hui : a.userinfo with
  | none =>
    have hpart : a.userinfoPart = [] := by
      rw [Authority.userinfoPart, hui]
      rfl
    have hput : a.putUserinfo i u = u := by
      rw [Authority.putUserinfo, hui]
      rfl
    rw [Authority.render, Authority.hostAt, hpart, hput]
    exact hhost i u hlen hset
  | some ui =>
    have hpart : a.userinfoPart = ui ++ [byte '@'] := by
      rw [Authority.userinfoPart, hui]
      rfl
    have hput : a.putUserinfo i u = u.putPart .userinfo i ui := by
      rw [Authority.putUserinfo, hui]
      rfl
    obtain ⟨hsetPut,-,hlenPut⟩ := putPart_of_ne u .host .userinfo i ui (by decide)
    have hrender : a.render = ui ++ byte '@' :: (a.hostPart ++ a.portPart) := by
      rw [Authority.render, hpart, List.append_assoc, List.singleton_append]
    rw [hrender, Authority.hostAt, hpart, hput]
    apply (scan_userinfo i u ui _ (ha.userinfo ui hui)).trans
    exact hhost _ _ (hlenPut.trans hlen) (hsetPut.trans hset)

end found

end Cclab.HttpUrl
