import Cclab.HttpAlone

/-! The complete requests of a connection, each with the calls that were made for it and with the
data that it was given in. -/
namespace Cclab.HttpParser

/-- The data up to the place where `unread` begins. -/
def upTo : Input → Input → List Bytes
  | (data,_) :: later, (rest,behind) :: unread =>
    if unread.length = later.length then [data.take (data.length-rest.length)]
    else data :: upTo later ((rest,behind) :: unread)
  | _, _ => []

/-- What is left of the input inside one of its calls. -/
def UnreadOf (input unread : Input) : Prop :=
  ∃ front data behind rest later, input = front ++ (data,behind) :: later ∧
    unread = (rest,behind) :: later ∧ rest <:+ data

theorem execute_unread (behind : UInt8) (parser : Parser) (data : Bytes)
    (r : Parser × List (Call × Bytes) × ℕ) (h : httpParserExecute behind parser data = some r) :
    ∀ c ∈ r.2.1, c.2 <:+ data := by
  intro c hc
  rcases execute_cases behind parser data r h with ⟨hnil,-⟩ | ⟨-,rfl⟩ | ⟨-,s,hs,rfl⟩
  · rw [hnil] at hc
    exact absurd hc List.not_mem_nil
  · rw [List.mem_singleton.mp hc]
    exact List.nil_suffix
  · exact (loop_unread behind _ _ data s hs c hc).1

theorem reports_unread (parser parser' : Parser) (input : Input) (tr : List (Call × Input))
    (h : reports parser input = some (parser',tr)) : ∀ c ∈ tr, UnreadOf input c.2 := by
  induction input generalizing parser tr with
  | nil =>
    obtain ⟨-,rfl⟩ := Prod.mk.inj (Option.some.inj h)
    simp
  | cons call later ih =>
    rcases Option.bind_eq_some_iff.mp h with ⟨r,hr,hrest⟩
    rcases Option.map_eq_some_iff.mp hrest with ⟨s,hs,hst⟩
    obtain ⟨rfl,rfl⟩ := Prod.mk.inj hst
    intro c hc
    rcases List.mem_append.mp hc with hc | hc
    · rcases List.mem_map.mp hc with ⟨d,hd,rfl⟩
      exact ⟨[], call.1, call.2, d.2, later, rfl, rfl, execute_unread call.2 parser call.1 r hr d hd⟩
    · rcases ih r.1 s.2 hs c hc with ⟨front,data,behind,rest,last,rfl,hunread,hsuffix⟩
      exact ⟨call :: front, data, behind, rest, last, rfl, hunread, hsuffix⟩

theorem UnreadOf.bound (input unread : Input) (n : ℕ) (h : UnreadOf input unread)
    (hlen : ∀ call ∈ input, call.1.length < n) : ∀ call ∈ unread, call.1.length < n := by
  rcases h with ⟨front,data,behind,rest,later,rfl,rfl,hsuffix⟩
  have hdata : data.length < n := hlen (data,behind) (by simp)
  intro call hc
  rcases List.mem_cons.mp hc with rfl | hc
  · exact lt_of_le_of_lt hsuffix.length_le hdata
  · exact hlen call (by simp [hc])

theorem longer_start (parser : Parser) (p y : Bytes) :
    startMachine parser (p ++ y) = (startMachine parser p).longer y := by
  unfold startMachine Machine.longer
  dsimp only
  congr 1 <;> split_ifs <;> rfl

/-- One call whose data end with a request. -/
theorem execute_alone (behind : UInt8) (parser : Parser) (data : Bytes)
    (r : Parser × List (Call × Bytes) × ℕ) (hp : Sane parser) (hlen : data.length < 2^64)
    (h : httpParserExecute behind parser data = some r) (before after : List (Call × Bytes))
    (q : Parser) (unread : Bytes) (he : r.2.1 = before ++ (.messageComplete q,unread) :: after) :
    ∃ behind' calls parsed, httpParserExecute behind' parser (data.take (data.length-unread.length)) =
        some (httpParserInit,calls,parsed) ∧
      calls.map Prod.fst = before.map Prod.fst ++ [.messageComplete q] := by
  have hcall : (Call.messageComplete q,unread) ∈ r.2.1 := by
    rw [he]
    simp
  by_cases hu : unread = []
  · -- the request ends with the data of the call
    subst hu
    rcases execute_resume behind parser data r hp h before after q [] he with ⟨parsed,hexec⟩
    have hidle : httpParserExecute behind httpParserInit [] = some (httpParserInit,[],0) := rfl
    obtain ⟨hinit,hrest⟩ := Prod.mk.inj (Option.some.inj (hexec.symm.trans hidle))
    obtain ⟨rfl,-⟩ := Prod.mk.inj hrest
    refine ⟨behind, r.2.1, r.2.2, ?_, by rw [he, List.map_append]; rfl⟩
    rw [List.length_nil, Nat.sub_zero, List.take_length, h, ← hinit]
  · rcases execute_cases behind parser data r h with ⟨hnil,-⟩ | ⟨-,rfl⟩ | ⟨hok,s,hs,rfl⟩
    · rw [hnil] at hcall
      exact absurd hcall List.not_mem_nil
    · exact absurd (Prod.mk.inj (List.mem_singleton.mp hcall)).2 hu
    · rcases loop_unread behind _ _ data s hs _ hcall with ⟨⟨p,rfl⟩,hless⟩
      have hless' := hless.resolve_right hu
      have hall : (p ++ unread).length = p.length+unread.length := List.length_append
      have hle : p.length ≤ (p ++ unread).length := by
        rw [hall]
        exact Nat.le_add_right _ _
      have hpne : p ≠ [] := by
        rintro rfl
        exact absurd hless' (Nat.lt_irrefl _)
      rw [longer_start] at hs
      rcases alone_loop behind _ _ p unread (valid_start parser p hok hp) hu hlen s hs before after q he
        with ⟨tr,left,hloop,htr⟩
      rw [loop_fuel _ _ p.length _ p hle (Nat.le_refl _)] at hloop
      refine ⟨unread.headD behind, tr, p.length-left.length, ?_, htr⟩
      have htake : (p ++ unread).take ((p ++ unread).length-unread.length) = p := by
        rw [hall, Nat.add_sub_cancel, List.take_left]
      rw [htake]
      unfold httpParserExecute
      rw [if_neg (not_not_intro hok), if_neg hpne, hloop]
      rfl

/-- A parser that is given the data of a request alone makes the same calls for it. The byte behind
the data of its last call is then one that follows the request. -/
theorem reports_alone (parser parser' : Parser) (input : Input) (tr : List (Call × Input))
    (hp : Sane parser) (hlen : ∀ call ∈ input, call.1.length < 2^64)
    (h : reports parser input = some (parser',tr)) (before after : List (Call × Input)) (q : Parser)
    (unread : Input) (he : tr = before ++ (.messageComplete q,unread) :: after) :
    ∃ behinds tr', behinds.length = (upTo input unread).length ∧
      reports parser ((upTo input unread).zip behinds) = some (httpParserInit,tr') ∧
      tr'.map Prod.fst = before.map Prod.fst ++ [.messageComplete q] := by
  induction input generalizing parser tr before with
  | nil =>
    obtain ⟨-,rfl⟩ := Prod.mk.inj (Option.some.inj h)
    exact absurd he (by simp)
  | cons call later ih =>
    rcases Option.bind_eq_some_iff.mp h with ⟨r,hr,hrest⟩
    rcases Option.map_eq_some_iff.mp hrest with ⟨s,hs,hst⟩
    obtain ⟨rfl,rfl⟩ := Prod.mk.inj hst
    rcases execute_total call.2 parser call.1 hp with ⟨r',hr',hsane⟩
    obtain rfl := Option.some.inj (hr.symm.trans hr')
    have hfirst : call.1.length < 2^64 := hlen call List.mem_cons_self
    -- the request completes in a later call
    have htail (front : List (Call × Input))
        (hfront : before = r.2.1.map (fun c => (c.1,(c.2,call.2) :: later)) ++ front)
        (hback : s.2 = front ++ (.messageComplete q,unread) :: after) :
        ∃ behinds tr', behinds.length = (upTo (call :: later) unread).length ∧
          reports parser ((upTo (call :: later) unread).zip behinds) = some (httpParserInit,tr') ∧
          tr'.map Prod.fst = before.map Prod.fst ++ [.messageComplete q] := by
      have hunread := reports_unread r.1 s.1 later s.2 hs (.messageComplete q,unread) (by rw [hback]; simp)
      rcases ih r.1 s.2 hsane (fun c hc => hlen c (List.mem_cons_of_mem call hc)) hs front hback with
        ⟨behinds,tr',hlength,hreports,htr⟩
      have hup : upTo (call :: later) unread = call.1 :: upTo later unread := by
        rcases hunread with ⟨x,data,behind,rest,last,rfl,hu,-⟩
        dsimp only at hu
        rw [hu]
        apply if_neg
        rw [List.length_append, List.length_cons]
        omega
      refine ⟨call.2 :: behinds, r.2.1.map (fun c => (c.1,(c.2,call.2) ::
        (upTo later unread).zip behinds)) ++ tr', by rw [hup, List.length_cons, List.length_cons, hlength],
        ?_, ?_⟩
      · rw [hup, List.zip_cons_cons, reports, hr, Option.bind_some, hreports]
        rfl
      · rw [hfront, List.map_append, List.map_append, htr, List.map_map, List.map_map, List.append_assoc]
        rfl
    rcases List.append_eq_append_iff.mp he with ⟨front,hfront,hback⟩ | ⟨front,hfront,hback⟩
    · exact htail front hfront hback
    · cases front with
      | nil => exact htail [] (by rw [hfront, List.append_nil, List.append_nil]) hback.symm
      | cons c front =>
        obtain ⟨rfl,-⟩ := List.cons.inj hback
        rcases List.map_eq_append_iff.mp hfront with ⟨x,tail,hcalls,hx,htail'⟩
        rcases List.map_eq_cons_iff.mp htail' with ⟨d,y,rfl,hd,-⟩
        obtain ⟨hc,rfl⟩ := Prod.mk.inj hd
        have hcall : d = (.messageComplete q,d.2) := Prod.ext hc rfl
        rw [hcall] at hcalls
        rcases execute_alone call.2 parser call.1 r hp hfirst hr x y q d.2 hcalls with
          ⟨behind',calls,parsed,hexec,hmap⟩
        have hup : upTo (call :: later) ((d.2,call.2) :: later) =
            [call.1.take (call.1.length-d.2.length)] := if_pos rfl
        refine ⟨[behind'], calls.map fun c => (c.1,[(c.2,behind')]), by rw [hup]; rfl, ?_, ?_⟩
        · rw [hup, List.zip_cons_cons, List.zip_nil_left, reports, hexec, Option.bind_some]
          change some (httpParserInit, _ ++ []) = _
          rw [List.append_nil]
        · rw [← hx, List.map_map, List.map_map]
          exact hmap

/-- A complete request: the calls that were made for it, and its data in the pieces in which they
were given. -/
structure Served where
  calls : List Call
  datas : List Bytes

/-- A call of which nothing is left is over. -/
def remaining : Input → Input
  | ([],_) :: later => later
  | input => input

/-- The complete requests of a connection, with the calls before `tr` that belong to the first. -/
def served (input : Input) (calls : List Call) : List (Call × Input) → List Served
  | [] => []
  | (c,unread) :: tr =>
    if c.isComplete then ⟨calls ++ [c], upTo input unread⟩ :: served (remaining unread) [] tr
    else served input (calls ++ [c]) tr

/-- A parser that is given the data of the request alone makes the same calls, if such a byte as
follows them is behind its last data. -/
structure Served.Complete (r : Served) : Prop where
  last : ∃ front q, r.calls = front ++ [.messageComplete q] ∧ ∀ c ∈ front, c.isComplete = false
  alone : ∃ behinds tr, behinds.length = r.datas.length ∧
    reports httpParserInit (r.datas.zip behinds) = some (httpParserInit,tr) ∧
    tr.map Prod.fst = r.calls

theorem reports_remaining (unread : Input) :
    reports httpParserInit (remaining unread) = reports httpParserInit unread := by
  unfold remaining
  split
  · rename_i behind later
    change _ = (some (httpParserInit,[],0)).bind _
    rw [Option.bind_some]
    exact Option.map_id'.symm
  · rfl

theorem remaining_bound (unread : Input) (n : ℕ) (h : ∀ call ∈ unread, call.1.length < n) :
    ∀ call ∈ remaining unread, call.1.length < n := by
  unfold remaining
  split
  · exact fun call hc => h call (List.mem_cons_of_mem _ hc)
  · exact h

theorem served_complete (input : Input) (parser : Parser) (before tr : List (Call × Input))
    (hlen : ∀ call ∈ input, call.1.length < 2^64)
    (h : reports httpParserInit input = some (parser, before ++ tr))
    (hquiet : ∀ c ∈ before, c.1.isComplete = false) :
    ∀ r ∈ served input (before.map Prod.fst) tr, r.Complete := by
  induction tr generalizing input before with
  | nil => exact fun r hr => absurd hr List.not_mem_nil
  | cons call tr ih =>
    intro r hr
    unfold served at hr
    by_cases hc : call.1.isComplete = true
    · rw [if_pos hc] at hr
      have hq : ∃ q, call = (.messageComplete q,call.2) := by
        cases hcall : call.1 with
        | messageComplete q => exact ⟨q, Prod.ext hcall rfl⟩
        | _ =>
          rw [hcall] at hc
          exact absurd hc (by simp [Call.isComplete])
      rcases hq with ⟨q,hq⟩
      have he : before ++ call :: tr = before ++ (.messageComplete q,call.2) :: tr := by rw [← hq]
      rcases List.mem_cons.mp hr with rfl | hr
      · rcases reports_alone _ parser input _ sane_init hlen h before tr q call.2 he with
          ⟨behinds,tr',hlength,hreports,htr⟩
        have hcall : call.1 = .messageComplete q := congrArg Prod.fst hq
        refine ⟨⟨before.map Prod.fst, q, by rw [hcall], ?_⟩, behinds, tr', hlength, hreports, ?_⟩
        · intro c hc
          rcases List.mem_map.mp hc with ⟨d,hd,rfl⟩
          exact hquiet d hd
        · rw [htr, hcall]
      · have hunread := reports_unread _ parser input _ h call (by simp)
        have hresume := reports_resume _ parser input _ sane_init h before tr q call.2 he
        rw [← reports_remaining] at hresume
        exact ih (remaining call.2) [] (remaining_bound _ _ (hunread.bound input call.2 _ hlen))
          hresume (by simp) r hr
    · rw [if_neg hc] at hr
      apply ih input (before ++ [call]) hlen (by rw [h, List.append_assoc]; rfl) ?_ r
      · rw [List.map_append]
        exact hr
      · intro c hmem
        rcases List.mem_append.mp hmem with hmem | hmem
        · exact hquiet c hmem
        · rw [List.mem_singleton.mp hmem]
          exact Bool.eq_false_iff.mpr hc

theorem Served.Complete.staged (r : Served) (h : r.Complete) : Stage.run .idle r.calls = some .idle := by
  rcases h.alone with ⟨behinds,tr,-,hreports,hcalls⟩
  rcases staged_reports .idle _ _ _ tr sane_init between_init hreports with ⟨s,hrun,-⟩
  rcases h.last with ⟨front,q,hlast,-⟩
  rw [hcalls] at hrun
  have hend := hrun
  rw [hlast] at hend
  rcases Stage.run_concat _ s front _ hend with ⟨s1,-,hnext⟩
  rw [hrun, next_complete s1 s q hnext]

/-- What can be observed of the calls of the parser has the calls of the callbacks in it. -/
theorem reports_observed (parser : Parser) (datas : List Bytes) (behinds : List UInt8)
    (hp : Sane parser) : (reports parser (datas.zip behinds)).map (fun r => r.2.map Prod.fst) =
      (observed parser datas behinds).map fun seen => seen.flatMap fun o => o.2.2 := by
  induction datas generalizing parser behinds with
  | nil => rfl
  | cons data later ih =>
    cases behinds with
    | nil => rfl
    | cons behind behinds =>
      rcases execute_total behind parser data hp with ⟨r,hr,hsane⟩
      have hrest := ih r.1 behinds hsane
      rw [observed_cons parser data later behind behinds r hr, List.zip_cons_cons, reports, hr,
        Option.bind_some, Option.map_map, Option.map_map]
      cases hlater : reports r.1 (later.zip behinds) with
      | none =>
        rw [hlater] at hrest
        rw [Option.map_none, Option.map_eq_none_iff.mp hrest.symm]
        rfl
      | some q =>
        rw [hlater] at hrest
        rcases Option.map_eq_some_iff.mp hrest.symm with ⟨seen,hseen,hcalls⟩
        rw [hseen]
        dsimp only [Option.map_some, Function.comp_apply] at hcalls ⊢
        rw [List.map_append, List.map_map, List.flatMap_cons, hcalls]
        rfl

/-- The calls for a request do not depend on the bytes behind its data, unless it is cut behind the
'P' that begins it. -/
theorem Served.Complete.calls (r : Served) (h : r.Complete)
    (hp : NoCallEndsInP httpParserInit r.datas) (behinds : List UInt8)
    (hlength : behinds.length = r.datas.length) :
    (reports httpParserInit (r.datas.zip behinds)).map (fun q => q.2.map Prod.fst) = some r.calls := by
  rcases h.alone with ⟨behinds',tr,hlength',hreports,hcalls⟩
  rw [reports_observed _ _ behinds sane_init,
    (dependsOnData_init r.datas).mpr hp behinds behinds' hlength hlength',
    ← reports_observed _ _ behinds' sane_init, hreports]
  exact congrArg some hcalls

/-- Where some call ends in a 'P' that begins a request, a byte behind the data of that call decides
which method it begins with. -/
theorem reports_looks (parser : Parser) (datas : List Bytes) (hp : Sane parser)
    (h : ¬ NoCallEndsInP parser datas) : ∃ before, ∀ behinds : List UInt8,
      behinds.length = datas.length → ∃ q tr start later, ∃ b ∈ behinds,
        reports parser (datas.zip behinds) = some (q,tr) ∧
        startMethod (byte 'P') b = some start.method ∧
        tr.map Prod.fst = before ++ .messageBegin start :: later := by
  induction datas generalizing parser with
  | nil => exact absurd True.intro h
  | cons data later ih =>
    by_cases hends : EndsInP parser data
    · rcases execute_looks parser data hp hends with ⟨before,hlooked⟩
      refine ⟨before, ?_⟩
      intro behinds hlength
      rcases List.exists_cons_of_length_eq_add_one hlength with ⟨b,behinds,rfl⟩
      rcases hlooked b with ⟨r,hr,hlook⟩
      rcases execute_total b parser data hp with ⟨r',hr',hsane⟩
      obtain rfl := Option.some.inj (hr.symm.trans hr')
      rcases reports_total r.1 (later.zip behinds) hsane with ⟨s,hs,-⟩
      refine ⟨s.1, r.2.1.map (fun c => (c.1,(c.2,b) :: later.zip behinds)) ++ s.2, r.1,
        s.2.map Prod.fst, b, List.mem_cons_self, ?_, hlook.method, ?_⟩
      · rw [List.zip_cons_cons, reports, hr, Option.bind_some, hs]
        rfl
      · rw [List.map_append, List.map_map]
        change r.2.1.map Prod.fst ++ _ = _
        rw [hlook.calls, List.append_assoc]
        rfl
    -- the byte behind this call does not matter
    · rcases execute_total 0 parser data hp with ⟨r,hr,hsane⟩
      have hlater : ¬ NoCallEndsInP r.1 later := by
        intro hno
        refine h ⟨hends, ?_⟩
        intro r' hr'
        rwa [← Option.some.inj (hr.symm.trans hr')]
      rcases ih r.1 hsane hlater with ⟨before,hbefore⟩
      refine ⟨r.2.1.map Prod.fst ++ before, ?_⟩
      intro behinds hlength
      rcases List.exists_cons_of_length_eq_add_one hlength with ⟨b,behinds,rfl⟩
      rcases hbefore behinds (Nat.succ.inj hlength) with ⟨q,tr,start,last,c,hc,htr,hmethod,hcalls⟩
      refine ⟨q, r.2.1.map (fun d => (d.1,(d.2,b) :: later.zip behinds)) ++ tr, start, last, c,
        List.mem_cons_of_mem b hc, ?_, hmethod, ?_⟩
      · rw [List.zip_cons_cons, reports, execute_behind b parser data hends, hr, Option.bind_some, htr]
        rfl
      · rw [List.map_append, List.map_map, hcalls, List.append_assoc]
        rfl

/-- The method that a complete request begins with, if it is cut behind its 'P'. -/
theorem Served.Complete.begins (r : Served) (h : r.Complete)
    (hp : ¬ NoCallEndsInP httpParserInit r.datas) (b : UInt8) :
    ∃ q tr start later, reports httpParserInit
        (r.datas.zip (List.replicate r.datas.length b)) = some (q,tr) ∧
      startMethod (byte 'P') b = some start.method ∧
      tr.map Prod.fst = .messageBegin start :: later := by
  rcases reports_looks httpParserInit r.datas sane_init hp with ⟨before,hbefore⟩
  -- no other request comes before the one that begins with it
  have hnil : before = [] := by
    rcases h.alone with ⟨behinds,tr,hlength,hreports,hcalls⟩
    rcases hbefore behinds hlength with ⟨q,tr',start,later,-,-,htr,-,hsame⟩
    obtain ⟨-,rfl⟩ := Prod.mk.inj (Option.some.inj (hreports.symm.trans htr))
    have hrun := h.staged
    rw [← hcalls, hsame, Stage.run_append] at hrun
    rcases Option.bind_eq_some_iff.mp hrun with ⟨s,hs,hrest⟩
    rcases Option.bind_eq_some_iff.mp hrest with ⟨s1,hnext,-⟩
    obtain rfl := next_begin s s1 start hnext
    rcases List.eq_nil_or_concat before with rfl | ⟨front,c,rfl⟩
    · rfl
    · rw [List.concat_eq_append] at hs hsame
      rcases Stage.run_concat _ _ front c hs with ⟨s2,-,hc⟩
      rcases h.last with ⟨quiet,q',hlast,hquiet⟩
      -- it would end in the one completion, which nothing follows
      have hquiet' := congrArg List.dropLast (hcalls.symm.trans hsame)
      rw [hlast, List.dropLast_concat, List.dropLast_append_of_ne_nil (List.cons_ne_nil _ _)] at hquiet'
      have hmem : c ∈ quiet := by
        rw [hquiet']
        simp
      exact absurd (next_idle s2 c hc) (by simp [hquiet c hmem])
  rcases hbefore (List.replicate r.datas.length b) List.length_replicate with
    ⟨q,tr,start,later,c,hc,htr,hmethod,hcalls⟩
  refine ⟨q, tr, start, later, htr, ?_, by rw [hcalls, hnil]; rfl⟩
  rw [← List.eq_of_mem_replicate hc]
  exact hmethod

end Cclab.HttpParser
