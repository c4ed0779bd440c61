import Cclab.HttpCutBodies

/-! A stream that is accepted in one call, and the same stream cut into several calls. -/
namespace Cclab.HttpParser
open OperationRuns

/-- How the shorter call ends, against all of the data in one call: it fails like this one, it is
left like this one, or this one goes on behind the cut like a machine that begins there. -/
def CutEnd (behind : UInt8) (w : Bytes) (v : Option (Option Bytes))
    (r : Parser × List (Call × Bytes) × Bytes) : Prop :=
  (r.1.httpErrno ≠ .ok ∧ v = some none) ∨
  (r.1 = httpParserInit ∧ v = some (some (r.2.2 ++ w))) ∨
  (r.1.httpErrno = .ok ∧ ∃ m', Valid m' ∧ Alike (startMachine r.1 w) m' ∧
    (v = verdict behind m' w ∨ BadStart r.1 w))

theorem startMachine_alike (m m' : Machine) (w : Bytes) (h : Alike m m') :
    Alike (startMachine m.parser w) m' :=
  Alike.of_parser _ _ h.parser.eq h.parser.count.1 h.parser.count.2

/-- The data end and the parser is left where the machine is. -/
theorem cutEnd_nil (behind behind' : UInt8) (n : ℕ) (m m' : Machine) (w : Bytes)
    (v : Option (Option Bytes)) (hm : Valid m) (hm' : Valid m') (h : Alike m m')
    (hv : v = verdict behind' m' w ∨ BadStart m.parser w) :
    ∃ r, loop behind n m [] = some r ∧ CutEnd behind' w v r := by
  rcases hm.flush m with ⟨calls,hcalls,-⟩
  refine ⟨(m.parser, withUnread [] calls, []), ?_, Or.inr (Or.inr ⟨hm.ok,m',hm',?_,hv⟩)⟩
  · cases n <;> simp [loop, hcalls]
  · exact startMachine_alike m m' w h

/-- A request has begun, with this method assumed. -/
def Machine.begun (m : Machine) (method : HttpMethod) : Machine :=
  { m with parser := { (m.add 1).parser with
    flags := .none, contentLength := ullongMax, method := method, index := 1, state := .reqMethod } }

theorem startMethod_put (next : UInt8) : startMethod (byte 'P') next =
    some (if next = byte 'U' then .put else .post) := by
  unfold startMethod
  by_cases hu : next = byte 'U'
  · rw [if_pos ⟨rfl,hu⟩, if_pos hu]
  · rw [if_neg (fun h => hu h.2), if_neg hu]
    decide

theorem iteration_begins (behind : UInt8) (m : Machine) (rest : Bytes)
    (hs : m.parser.state = .startReq) (hcount : m.parser.nread.toNat+1 ≤ httpMaxHeaderSize.toNat) :
    let method := if rest.headD behind = byte 'U' then HttpMethod.put else .post
    iteration behind m (byte 'P') rest =
      .next (m.begun method) 0 [.messageBegin (m.begun method).parser] := by
  intro method
  rw [iteration_head behind m _ rest (by rw [hs]; rfl), count_pass m 1 _ _ hcount]
  unfold switch
  rw [show (m.add 1).parser.state = .startReq from hs]
  dsimp only
  unfold sStartReq
  rw [if_neg (by decide)]
  dsimp only
  rw [if_pos (by decide), startMethod_put]
  rfl

theorem Alike.begun (m m' : Machine) (h : Alike m m') (method : HttpMethod)
    (hcount : m.parser.nread.toNat+1 ≤ httpMaxHeaderSize.toNat) :
    Alike (m.begun method) (m'.begun method) := by
  have hadd := h.add m m' 1 hcount
  obtain ⟨n,f,v,u,b,rfl,-⟩ := h.elim
  exact Alike.of_parser _ _ rfl hadd.parser.count.1 hadd.parser.count.2

/-- Behind a 'U' it makes no difference whether the 'P' stood for PUT already. -/
theorem verdict_begun (behind : UInt8) (m : Machine) (w : Bytes) (hn : m.parser.nread.toNat < 2^31) :
    verdict behind (m.begun .put) (byte 'U' :: w) = verdict behind (m.begun .post) (byte 'U' :: w) := by
  have hadd := add_nread m 1 (by omega)
  have hcount (method : HttpMethod) : (m.begun method).parser.nread.toNat = m.parser.nread.toNat+1 := hadd
  rw [verdict_cons, verdict_cons, iteration_head _ _ _ _ rfl, iteration_head _ _ _ _ rfl,
    verdict_count _ _ 1 _ _ _ (by rw [hcount]; omega),
    verdict_count _ _ 1 _ _ _ (by rw [hcount]; omega), hcount, hcount]
  rfl

/-- The call ends behind a 'P' that begins a request, and a stale 'U' behind it makes no harm. -/
theorem cut_looks (behind behind' : UInt8) (n : ℕ) (m m' : Machine) (w : Bytes) (hm : Valid m)
    (hm' : Valid m') (h : Alike m m') (hs : m.parser.state = .startReq)
    (hcount : m.parser.nread.toNat+1 ≤ httpMaxHeaderSize.toNat)
    (hput : behind = byte 'U' → ∀ c ∈ w.head?, c = byte 'U') :
    ∃ r, loop behind (n+1) m [byte 'P'] = some r ∧
      CutEnd behind' w (verdict behind' m' (byte 'P' :: w)) r := by
  have hmax : httpMaxHeaderSize.toNat = 81920 := rfl
  have hle := h.parser.count.1
  have hkeeps := keeps_iteration behind m (byte 'P') [] hm
  have hkeeps' := keeps_iteration behind' m' (byte 'P') w hm'
  have hi := iteration_begins behind m [] hs hcount
  have hi' := iteration_begins behind' m' w (h.state.trans hs) (by omega)
  dsimp only at hi hi'
  rw [List.headD_nil] at hi
  rw [hi] at hkeeps
  rw [hi'] at hkeeps'
  have hvalid (method : HttpMethod) : Valid (m'.begun method) :=
    ⟨hkeeps'.1.ok, fun hne => hkeeps'.1.field hne, fun hne => hkeeps'.1.value hne,
      fun hne => hkeeps'.1.url hne, fun hne => hkeeps'.1.body hne, True.intro⟩
  -- the longer call goes on as if it had assumed the same method
  have hv : verdict behind' m' (byte 'P' :: w) =
      verdict behind' (m'.begun (if behind = byte 'U' then .put else .post)) w := by
    rw [verdict_cons, hi']
    change verdict behind' (m'.begun _) (w.drop 0) = _
    rw [List.drop_zero]
    cases w with
    | nil => rw [verdict_nil behind' _ (hvalid _), verdict_nil behind' _ (hvalid _)]
    | cons c w =>
      rw [List.headD_cons]
      by_cases hu : behind = byte 'U'
      · rw [hput hu c rfl, hu]
      · by_cases hc : c = byte 'U'
        · rw [if_pos hc, if_neg hu, hc]
          exact verdict_begun behind' m' w (by omega)
        · rw [if_neg hc, if_neg hu]
  rcases cutEnd_nil behind behind' n _ _ w _ hkeeps.1 (hvalid _) (h.begun m m' _ hcount) (Or.inl hv)
    with ⟨r,hr,hend⟩
  have hloop : loop behind (n+1) m [byte 'P'] = some (r.1, withUnread []
      [.messageBegin (m.begun (if behind = byte 'U' then .put else .post)).parser] ++ r.2.1, r.2.2) := by
    rw [loop, hi]
    dsimp only
    rw [List.drop_nil, hr]
    rfl
  exact ⟨_, hloop, hend⟩

/-- Over the bytes of a call: it fails where the head gets too long, and otherwise it ends like the
call that is given all the data. -/
theorem loop_cut (behind behind' : UInt8) (n : ℕ) (m m' : Machine) (p w : Bytes)
    (r : Parser × List (Call × Bytes) × Bytes) (hn : p.length ≤ n) (hm : Valid m) (hm' : Valid m')
    (h : Alike m m') (hlen : p.length+w.length < 2^31)
    (hput : LoopLooksBehind n m p → behind = byte 'U' → ∀ c ∈ w.head?, c = byte 'U')
    (hr : loop behind n m p = some r) :
    (LoopOverlong behind n m p → r.1.httpErrno ≠ .ok) ∧
      (¬ LoopOverlong behind n m p → CutEnd behind' w (verdict behind' m' (p ++ w)) r) := by
  induction n generalizing m m' p r with
  | zero =>
    obtain rfl : p = [] := List.length_eq_zero_iff.mp (Nat.le_zero.mp hn)
    rcases cutEnd_nil behind behind' 0 m m' w _ hm hm' h (Or.inl rfl) with ⟨r',hr',hend⟩
    obtain rfl := Option.some.inj (hr.symm.trans hr')
    exact ⟨fun hover => hover.elim, fun _ => hend⟩
  | succ n ih =>
    cases p with
    | nil =>
      rcases cutEnd_nil behind behind' (n+1) m m' w _ hm hm' h (Or.inl rfl) with ⟨r',hr',hend⟩
      obtain rfl := Option.some.inj (hr.symm.trans hr')
      exact ⟨fun hover => hover.elim, fun _ => hend⟩
    | cons ch rest =>
      have hmax : httpMaxHeaderSize.toNat = 81920 := rfl
      by_cases hlong : Overlong m (ch :: rest)
      · have hfails := overlong_fails behind m ch rest h.parser.count.2 (by omega) hm hlong
        rw [loop] at hr
        cases hi : iteration behind m ch rest with
        | next m1 skip calls =>
          rw [hi] at hfails
          exact hfails.elim
        | abort =>
          rw [hi] at hfails
          exact hfails.elim
        | leave m1 q calls =>
          rw [hi] at hfails hr
          obtain rfl := Option.some.inj hr
          exact ⟨fun _ => hfails, fun hno => absurd (Or.inl hlong) hno⟩
      by_cases hlooks : LooksBehind m ch rest
      -- the byte is the last one, and nothing is counted behind it
      · have hclaim := hput (Or.inl hlooks)
        rcases hlooks with ⟨hs,-,rfl,rfl⟩
        have hcount : m.parser.nread.toNat+1 ≤ httpMaxHeaderSize.toNat := by
          by_contra hover
          refine hlong ⟨by rw [hs]; rfl, ?_⟩
          omega
        rcases cut_looks behind behind' n m m' w hm hm' h hs hcount hclaim with ⟨r',hr',hend⟩
        obtain rfl := Option.some.inj (hr.symm.trans hr')
        refine ⟨?_, fun _ => hend⟩
        rintro (hover | hover)
        · exact absurd hover hlong
        · rw [iteration_begins behind m [] hs hcount] at hover
          cases n <;> exact hover.elim
      have hnext : m.parser.state = .startReq →
          startMethod ch (rest.headD behind) = startMethod ch ((rest ++ w).headD behind') := by
        intro hs
        cases rest with
        | cons c rest => rfl
        | nil =>
          apply startMethod_of_ne
          intro hch
          refine hlooks ⟨hs, ?_, hch, rfl⟩
          intro hover
          refine hlong ⟨by rw [hs]; rfl, ?_⟩
          rw [gt_iff_lt, UInt32.lt_iff_toNat_lt] at hover
          have hadd := add_nread m 1 (by have := h.parser.count.2; omega)
          change _ < (m.add 1).parser.nread.toNat at hover
          omega
      have hcut := cut_iteration behind behind' m m' ch rest w hm hm' h hlong hlen hnext
      have hkeeps := keeps_iteration behind m ch rest hm
      have hsame := iteration_behind behind 0 m ch rest hlooks
      rw [loop] at hr
      unfold LoopOverlong
      cases hi : iteration behind m ch rest with
      | next m1 skip calls =>
        rw [hi] at hcut hkeeps hr hsame
        rcases Option.map_eq_some_iff.mp hr with ⟨s,hs,rfl⟩
        rcases hcut with ⟨m1',hm1',halike,hv⟩
        have hdrop : (rest.drop skip).length ≤ rest.length := by
          rw [List.length_drop]
          exact Nat.sub_le _ _
        have hrest : (ch :: rest).length = rest.length+1 := rfl
        rcases hv with hv | ⟨hnil,hbad⟩
        · have hlooksBehind : LoopLooksBehind n m1 (rest.drop skip) →
              LoopLooksBehind (n+1) m (ch :: rest) := by
            intro hl
            right
            rw [← hsame]
            exact hl
          rcases ih m1 m1' (rest.drop skip) s (by omega) hkeeps.1 hm1' halike (by omega)
            (fun hl => hput (hlooksBehind hl)) hs with ⟨hover,hend⟩
          refine ⟨fun ho => hover (ho.resolve_left hlong), ?_⟩
          intro hno
          rw [hv]
          exact hend (fun ho => hno (Or.inr ho))
        -- the call ends inside a value, and the next one begins with a bad byte
        · rw [hnil] at hs
          rcases cutEnd_nil behind behind' n m1 m1' w _ hkeeps.1 hm1' halike (Or.inr hbad) with
            ⟨s',hs',hend⟩
          obtain rfl := Option.some.inj (hs.symm.trans hs')
          refine ⟨?_, fun _ => hend⟩
          rintro (ho | ho)
          · exact absurd ho hlong
          · dsimp only at ho
            rw [hnil] at ho
            cases n <;> exact ho.elim
      | leave m1 q calls =>
        rw [hi] at hcut hr hkeeps
        obtain rfl := Option.some.inj hr
        refine ⟨fun ho => (ho.resolve_left hlong).elim, fun _ => ?_⟩
        rcases hkeeps.2 with hbad | hinit
        · exact Or.inl ⟨hbad, hcut.trans (congrArg some (if_neg hbad))⟩
        · exact Or.inr (Or.inl ⟨hinit, hcut.trans (congrArg some (if_pos (by rw [hinit]; rfl)))⟩)
      | abort =>
        rw [hi] at hcut
        exact hcut.elim

/-- No call of the parser returns an error; an error that was returned once stays. -/
def Accepted (parser : Parser) (input : Input) : Prop :=
  ∃ q tr, reports parser input = some (q,tr) ∧ q.httpErrno = .ok

theorem accepted_cons (parser : Parser) (data : Bytes) (behind : UInt8) (later : Input) :
    Accepted parser ((data,behind) :: later) ↔
      ∃ r, httpParserExecute behind parser data = some r ∧ Accepted r.1 later := by
  constructor
  · rintro ⟨q,tr,hq,hok⟩
    rcases Option.bind_eq_some_iff.mp hq with ⟨r,hr,hrest⟩
    rcases Option.map_eq_some_iff.mp hrest with ⟨s,hs,he⟩
    refine ⟨r, hr, s.1, s.2, hs, ?_⟩
    rw [(Prod.mk.inj he).1]
    exact hok
  · rintro ⟨r,hr,q,tr,hq,hok⟩
    refine ⟨q, r.2.1.map (fun c => (c.1,(c.2,behind) :: later)) ++ tr, ?_, hok⟩
    rw [reports, hr, Option.bind_some, hq]
    rfl

theorem failed_rejected (parser : Parser) (input : Input) (h : parser.httpErrno ≠ .ok) :
    ¬ Accepted parser input := by
  induction input with
  | nil =>
    rintro ⟨q,tr,hq,hok⟩
    obtain ⟨rfl,-⟩ := Prod.mk.inj (Option.some.inj hq)
    exact h hok
  | cons call later ih =>
    intro ha
    rcases (accepted_cons parser call.1 call.2 later).mp ha with ⟨r,hr,hlater⟩
    have hsame : httpParserExecute call.2 parser call.1 = some (parser,[],0) := if_pos h
    obtain rfl := Option.some.inj (hr.symm.trans hsame)
    exact ih hlater

theorem execute_loop (behind : UInt8) (parser : Parser) (data : Bytes) (hok : parser.httpErrno = .ok)
    (hdata : data ≠ []) : httpParserExecute behind parser data =
      (loop behind data.length (startMachine parser data) data).map fun r =>
        (r.1, r.2.1, data.length-r.2.2.length) := by
  unfold httpParserExecute
  rw [if_neg (not_not_intro hok), if_neg hdata]

/-- The call returns an error exactly where the verdict on it is one. -/
theorem execute_verdict (behind : UInt8) (parser : Parser) (data : Bytes)
    (hok : parser.httpErrno = .ok) (hdata : data ≠ []) (r : Parser × List (Call × Bytes) × ℕ)
    (hr : httpParserExecute behind parser data = some r) :
    ∃ unread, r.2.2 = data.length-unread.length ∧
      verdict behind (startMachine parser data) data =
        some (if r.1.httpErrno = .ok then some unread else none) := by
  rw [execute_loop behind parser data hok hdata] at hr
  rcases Option.map_eq_some_iff.mp hr with ⟨s,hs,rfl⟩
  refine ⟨s.2.2, rfl, ?_⟩
  unfold verdict
  rw [hs]
  rfl

theorem badStart_fails (behind : UInt8) (parser : Parser) (data : Bytes) (hok : parser.httpErrno = .ok)
    (hp : Sane parser) (hn : parser.nread.toNat ≤ httpMaxHeaderSize.toNat) (hlen : data.length < 2^31)
    (hbad : BadStart parser data) (r : Parser × List (Call × Bytes) × ℕ)
    (hr : httpParserExecute behind parser data = some r) : r.1.httpErrno ≠ .ok := by
  rcases hbad with ⟨hs,hg,hl,ch,hch,hchar⟩
  have hmax : httpMaxHeaderSize.toNat = 81920 := rfl
  cases data with
  | nil => exact absurd hch (by simp)
  | cons c rest =>
    obtain rfl : c = ch := by simpa using hch
    rcases execute_verdict behind parser _ hok (by simp) r hr with ⟨unread,-,hv⟩
    have hvalid := valid_start parser (c :: rest) hok hp
    have hloop : headerValueLoop parser.headerState parser (c :: rest) =
        .error { parser with httpErrno := .invalidHeaderToken } 0 := by
      unfold headerValueLoop
      have hend : ¬ (c = CR ∨ c = LF) := by
        rintro (rfl | rfl) <;> exact absurd hchar (by decide)
      rw [if_neg hend, if_pos (by rw [hl, hchar]; rfl)]
    rw [verdict_headerValue behind _ c rest hvalid hs (by change parser.nread.toNat+1+_ < _; omega)] at hv
    rw [show headerValueLoop (startMachine parser (c :: rest)).parser.headerState
      (startMachine parser (c :: rest)).parser (c :: rest) = _ from hloop] at hv
    intro hfine
    rw [if_pos hfine] at hv
    split_ifs at hv
    · exact absurd hv (by simp)
    · exact absurd hv (by simp [valueVerdict])

theorem sReqMethod_put_fails (m : Machine) (ch : UInt8) (rest : Bytes) (hm : m.parser.method = .put)
    (hi : m.parser.index = 1) (hch : ch ≠ byte 'U') : (sReqMethod m ch rest).Fails := by
  have hrows : ∀ row ∈ methodRows, ¬ (row.1.1 = .put ∧ row.1.2.1 = 1) := by decide
  have hrow : refineMethod .put 1 ch = none := by
    apply List.lookup_eq_none_iff.mpr
    intro row hrow
    apply bne_iff_ne.mpr
    intro he
    exact hrows row hrow (by rw [← he]; exact ⟨rfl,rfl⟩)
  unfold sReqMethod
  dsimp only
  rw [hm, hi, hrow, show (methodString .put).getD 1 0 = byte 'U' from rfl]
  split_ifs with hzero hspace hletter
  · exact fail_fails _ _ _ (by decide)
  · exact absurd hspace.2 (by decide)
  · exact fail_fails _ _ _ (by decide)
  · exact fail_fails _ _ _ (by decide)

/-- The parser has assumed PUT, and the second byte of the word is not its 'U'. -/
theorem put_fails (behind : UInt8) (parser : Parser) (ch : UInt8) (rest : Bytes)
    (hs : parser.state = .reqMethod) (hm : parser.method = .put) (hi : parser.index = 1)
    (hch : ch ≠ byte 'U') (r : Parser × List (Call × Bytes) × ℕ)
    (hr : httpParserExecute behind parser (ch :: rest) = some r) : r.1.httpErrno ≠ .ok := by
  by_cases hok : parser.httpErrno = .ok
  · rcases execute_verdict behind parser (ch :: rest) hok (by simp) r hr with ⟨unread,-,hv⟩
    have hfails : (iteration behind (startMachine parser (ch :: rest)) ch rest).Fails := by
      rw [iteration_head behind _ ch rest (by change parsingHeader parser.state = _; rw [hs]; rfl)]
      unfold Machine.count
      dsimp only
      split_ifs
      · exact fail_fails _ _ _ (by decide)
      · unfold switch
        dsimp only
        rw [show (startMachine parser (ch :: rest)).parser.state = .reqMethod from hs]
        exact sReqMethod_put_fails _ ch rest hm hi hch
    rw [verdict_cons, hfails.verdict] at hv
    intro hfine
    rw [if_pos hfine] at hv
    exact absurd hv (by simp)
  · have hsame : httpParserExecute behind parser (ch :: rest) = some (parser,[],0) := if_pos hok
    obtain rfl := Option.some.inj (hr.symm.trans hsame)
    exact hok

theorem TakesForPut.fails (behind : UInt8) (parser : Parser) (data : Bytes) (later : Input)
    (hp : Sane parser) (hne : ∀ c ∈ later, c.1 ≠ [])
    (h : TakesForPut parser data behind (later.flatMap Prod.fst))
    (r : Parser × List (Call × Bytes) × ℕ) (hr : httpParserExecute behind parser data = some r) :
    ¬ Accepted r.1 later := by
  rcases h with ⟨hends,rfl,ch,hch,hput⟩
  rcases execute_looks parser data hp hends with ⟨before,hlooked⟩
  rcases hlooked (byte 'U') with ⟨r',hr',hmethod,hs,hi,-⟩
  obtain rfl := Option.some.inj (hr.symm.trans hr')
  have hm : r.1.method = .put := by
    have hu : startMethod (byte 'P') (byte 'U') = some .put := by decide
    exact (Option.some.inj (hu.symm.trans hmethod)).symm
  cases later with
  | nil => exact absurd hch (by simp)
  | cons call later =>
    intro ha
    rcases (accepted_cons r.1 call.1 call.2 later).mp ha with ⟨q,hq,hlater⟩
    rcases hdata : call.1 with _ | ⟨c,rest⟩
    · exact hne call List.mem_cons_self hdata
    · rw [hdata] at hq
      obtain rfl : c = ch := by simpa [hdata] using hch
      exact failed_rejected q.1 later (put_fails call.2 r.1 c rest hs hm hi hput q hq) hlater

/-- What is accepted trips nowhere. -/
theorem Accepted.noCallTrips (parser : Parser) (input : Input) (hp : Sane parser)
    (hn : parser.nread.toNat ≤ httpMaxHeaderSize.toNat) (hne : ∀ c ∈ input, c.1 ≠ [])
    (hlen : (input.flatMap Prod.fst).length < 2^31) (h : Accepted parser input) :
    NoCallTrips parser input := by
  induction input generalizing parser with
  | nil => exact True.intro
  | cons call later ih =>
    rcases call with ⟨data,behind⟩
    rw [List.flatMap_cons, List.length_append] at hlen
    dsimp only at hlen
    have hok : parser.httpErrno = .ok := not_not.mp fun hbad => failed_rejected parser _ hbad h
    rcases (accepted_cons parser data behind later).mp h with ⟨r,hr,hlater⟩
    have hfine : r.1.httpErrno = .ok := not_not.mp fun hbad => failed_rejected r.1 later hbad hlater
    have hdata : data ≠ [] := hne (data,behind) List.mem_cons_self
    have hloop := hr
    rw [execute_loop behind parser data hok hdata] at hloop
    rcases Option.map_eq_some_iff.mp hloop with ⟨s,hs,rfl⟩
    have hvalid := valid_start parser data hok hp
    have hself : Alike (startMachine parser data) (startMachine parser data) :=
      Alike.of_parser _ _ rfl (Nat.le_refl _) hn
    rcases loop_cut behind 0 data.length _ _ data [] s (Nat.le_refl _) hvalid hvalid hself
      (by rw [List.length_nil]; omega) (fun _ _ c hc => absurd hc (by simp)) hs with ⟨hover,hend⟩
    have hshort : ¬ LoopOverlong behind data.length (startMachine parser data) data :=
      fun ho => hover ho hfine
    refine ⟨?_, ?_⟩
    · rintro (hbad | ho | hput)
      · exact badStart_fails behind parser data hok hp hn (by omega) hbad _ hr hfine
      · exact hshort ho
      · exact hput.fails behind parser data later hp (fun c hc => hne c (List.mem_cons_of_mem _ hc)) _ hr
          hlater
    · intro r' hr'
      obtain rfl := Option.some.inj (hr.symm.trans hr')
      rcases execute_total behind parser data hp with ⟨r',hr',hsane⟩
      obtain rfl := Option.some.inj (hr.symm.trans hr')
      have hcount : s.1.nread.toNat ≤ httpMaxHeaderSize.toNat := by
        rcases hend hshort with ⟨hbad,-⟩ | ⟨hinit,-⟩ | ⟨-,m',-,ha,-⟩
        · exact absurd hfine hbad
        · rw [hinit]
          exact Nat.zero_le _
        · exact ha.parser.count.2
      exact ih s.1 hsane hcount (fun c hc => hne c (List.mem_cons_of_mem _ hc)) (by omega) hlater

/-- Over the calls: those that trip nowhere are accepted like the one call that is given all the
data. -/
theorem accepted_cut (behind : UInt8) (parser : Parser) (input : Input) (m' : Machine)
    (v : Option (Option Bytes)) (hok : parser.httpErrno = .ok) (hp : Sane parser) (hm' : Valid m')
    (h : Alike (startMachine parser (input.flatMap Prod.fst)) m') (hne : ∀ c ∈ input, c.1 ≠ [])
    (hlen : (input.flatMap Prod.fst).length < 2^31)
    (hv : v = verdict behind m' (input.flatMap Prod.fst) ∨ BadStart parser (input.flatMap Prod.fst))
    (hno : NoCallTrips parser input) :
    (Accepted parser input → ∃ unread, v = some (some unread)) ∧
      (v = some (some []) → Accepted parser input) := by
  induction input generalizing parser m' with
  | nil =>
    have hempty : Accepted parser [] := ⟨parser,[],rfl,hok⟩
    rcases hv with hv | ⟨-,-,-,ch,hch,-⟩
    · exact ⟨fun _ => ⟨[], hv.trans (verdict_nil behind m' hm')⟩, fun _ => hempty⟩
    · exact absurd hch (by simp)
  | cons call later ih =>
    rcases call with ⟨data,b⟩
    rcases hno with ⟨htrips,hrest⟩
    rw [List.flatMap_cons] at h hlen hv
    dsimp only at h hlen hv
    rw [List.length_append] at hlen
    have hdata : data ≠ [] := hne (data,b) List.mem_cons_self
    rcases execute_total b parser data hp with ⟨r,hr,hsane⟩
    have hloop := hr
    rw [execute_loop b parser data hok hdata] at hloop
    rcases Option.map_eq_some_iff.mp hloop with ⟨s,hs,rfl⟩
    have hv' : v = verdict behind m' (data ++ later.flatMap Prod.fst) := by
      apply hv.resolve_right
      rintro ⟨hstate,hg,hl,ch,hch,hbad⟩
      apply htrips
      left
      refine ⟨hstate, hg, hl, ch, ?_, hbad⟩
      rwa [List.head?_append_of_ne_nil _ hdata] at hch
    have hput (hl : LoopLooksBehind data.length (startMachine parser data) data) (hu : b = byte 'U') :
        ∀ c ∈ (later.flatMap Prod.fst).head?, c = byte 'U' := by
      intro c hc
      by_contra hneq
      exact htrips (Or.inr (Or.inr ⟨⟨hok,hl⟩, hu, c, hc, hneq⟩))
    rcases loop_cut b behind data.length (startMachine parser data) m' data (later.flatMap Prod.fst) s
      (Nat.le_refl _) (valid_start parser data hok hp) hm' ⟨h.parser,h.field,h.value,h.url,h.body⟩ hlen
      hput hs with ⟨-,hend⟩
    have haccept := accepted_cons parser data b later
    rw [← hv'] at hend
    rcases hend fun ho => htrips (Or.inr (Or.inl ho)) with ⟨hbad,hnone⟩ | ⟨hinit,hleft⟩ |
      ⟨hfine,m'',hm'',ha,hgo⟩
    · rw [hnone]
      refine ⟨?_, fun he => absurd he (by simp)⟩
      intro hacc
      rcases haccept.mp hacc with ⟨r',hr',hlater⟩
      obtain rfl := Option.some.inj (hr.symm.trans hr')
      exact absurd hlater (failed_rejected s.1 later hbad)
    -- the call is left with an upgrade, and the longer one reads no byte of the later calls
    · rw [hleft]
      refine ⟨fun _ => ⟨_,rfl⟩, ?_⟩
      intro he
      have hnil := (List.append_eq_nil_iff.mp (Option.some.inj (Option.some.inj he))).2
      refine haccept.mpr ⟨_, hr, ?_⟩
      cases later with
      | nil => exact ⟨s.1, [], rfl, by rw [hinit]; rfl⟩
      | cons call' later' =>
        rw [List.flatMap_cons, List.append_eq_nil_iff] at hnil
        exact absurd hnil.1 (hne call' (by simp))
    · rcases ih s.1 m'' hfine hsane hm'' ha (fun c hc => hne c (List.mem_cons_of_mem _ hc)) (by omega) hgo
        (hrest _ hr) with ⟨hfor,hback⟩
      refine ⟨?_, ?_⟩
      · intro hacc
        rcases haccept.mp hacc with ⟨r',hr',hlater⟩
        obtain rfl := Option.some.inj (hr.symm.trans hr')
        exact hfor hlater
      · intro he
        exact haccept.mpr ⟨_, hr, hback he⟩

/-- One call on the data is accepted and parses them to their end. -/
def ReadToEnd (behind : UInt8) (data : Bytes) : Prop :=
  ∃ r, httpParserExecute behind httpParserInit data = some r ∧ r.1.httpErrno = .ok ∧
    r.2.2 = data.length

/-- However a stream is cut, it is only accepted if it is accepted in one call; and if one call
reads it to its end, it is accepted exactly where no call trips. -/
theorem accepted_iff (input : Input) (behind : UInt8) (hne : ∀ c ∈ input, c.1 ≠ [])
    (hlen : (input.flatMap Prod.fst).length < 2^31) :
    (Accepted httpParserInit input →
      Accepted httpParserInit [(input.flatMap Prod.fst,behind)]) ∧
    (ReadToEnd behind (input.flatMap Prod.fst) →
      (Accepted httpParserInit input ↔ NoCallTrips httpParserInit input)) := by
  have hno (ha : Accepted httpParserInit input) : NoCallTrips httpParserInit input :=
    ha.noCallTrips _ _ sane_init (Nat.zero_le _) hne hlen
  by_cases hdata : input.flatMap Prod.fst = []
  · have hempty : input = [] := by
      cases input with
      | nil => rfl
      | cons call later =>
        rw [List.flatMap_cons, List.append_eq_nil_iff] at hdata
        exact absurd hdata.1 (hne call List.mem_cons_self)
    subst hempty
    refine ⟨fun _ => (accepted_cons _ _ _ _).mpr ⟨(httpParserInit,[],0), rfl, httpParserInit, [], rfl, rfl⟩,
      fun _ => ⟨hno, fun _ => ⟨httpParserInit, [], rfl, rfl⟩⟩⟩
  have hcut := accepted_cut behind httpParserInit input
    (startMachine httpParserInit (input.flatMap Prod.fst))
    (verdict behind (startMachine httpParserInit (input.flatMap Prod.fst)) (input.flatMap Prod.fst)) rfl
    sane_init (valid_start _ _ rfl sane_init) (Alike.of_parser _ _ rfl (Nat.le_refl _) (Nat.zero_le _))
    hne hlen (Or.inl rfl)
  rcases execute_total behind httpParserInit (input.flatMap Prod.fst) sane_init with ⟨r,hr,-⟩
  rcases execute_verdict behind httpParserInit _ rfl hdata r hr with ⟨unread,hparsed,hv⟩
  refine ⟨?_, ?_⟩
  · intro ha
    rcases (hcut (hno ha)).1 ha with ⟨u,hu⟩
    rw [hv] at hu
    refine (accepted_cons _ _ _ _).mpr ⟨r, hr, r.1, [], rfl, ?_⟩
    by_contra hbad
    rw [if_neg hbad] at hu
    exact absurd hu (by simp)
  · rintro ⟨r',hr',hok,hall⟩
    obtain rfl := Option.some.inj (hr.symm.trans hr')
    refine ⟨hno, fun hnone => (hcut hnone).2 ?_⟩
    have hpos : 0 < (input.flatMap Prod.fst).length := List.length_pos_iff.mpr hdata
    have hnil : unread = [] := List.length_eq_zero_iff.mp (by omega)
    rw [hv, if_pos hok, hnil]

/-- The error after each call. -/
def errors (datas : List Bytes) (behinds : List UInt8) : Option (List HttpErrno) :=
  (observed httpParserInit datas behinds).map fun seen => seen.map Prod.fst

end Cclab.HttpParser
