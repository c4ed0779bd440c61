import Cclab.HttpTrips

/-! What follows a request that is the last one in HTTP on its connection. -/
namespace Cclab.HttpParser

/-- The callback calls `OnRequest`, `OnBody` or `OnComplete`. -/
def Call.handled : Call → Bool
  | .headersComplete _ | .body _ | .messageComplete _ => true
  | _ => false

/-- A request whose head is complete with this parser is the last one in HTTP. -/
def leavesHttp (parser : Parser) : Bool := !httpShouldKeepAlive parser || parser.upgrade

/-- The last call completes a request that left HTTP. -/
def LeftHttp (calls : List Call) : Prop :=
  ∃ before p body q, calls = before ++ .headersComplete p :: (body ++ [.messageComplete q]) ∧
    (∀ c ∈ body, c.isComplete = false) ∧ leavesHttp p

/-- Nothing is handled behind a request that left HTTP. -/
def StaysOut (calls : List Call) : Prop :=
  ∀ before after, calls = before ++ after → LeftHttp before → ∀ c ∈ after, c.handled = false

/-- Whenever the completed request left HTTP, the input that is not read yet meets `P`. -/
def BehindLeaving (P : Input → Prop) (tr : List (Call × Input)) : Prop :=
  ∀ before last after, tr = before ++ last :: after →
    LeftHttp ((before ++ [last]).map Prod.fst) → P last.2

/-- A byte that the first letter of a method may be. -/
def beginsMethod (ch : UInt8) : Bool := isAlpha ch && (startRows.lookup ch).isSome

/-- Behind line ends, at most `n` bytes with it, stands a byte that begins a method. -/
def beginsRequest : ℕ → Bytes → Bool
  | n+1, ch :: rest => if ch = CR ∨ ch = LF then beginsRequest n rest else beginsMethod ch
  | _, _ => false

/-- No request begins in what is left of the input: the line ends in it are the whole of it, or too
many for a head, or what follows them begins no method. -/
def NoRequestBegins (input : Input) : Prop :=
  beginsRequest httpMaxHeaderSize.toNat (input.flatMap Prod.fst) = false

def Call.isBegin : Call → Bool
  | .messageBegin _ => true
  | _ => false

/-- Behind a request that left HTTP no request begins. -/
def NoneBegins (calls : List Call) : Prop :=
  ∀ before after, calls = before ++ after → LeftHttp before → ∀ c ∈ after, c.isBegin = false

/-- A new parser goes on with what is left of the data as with new data. -/
theorem execute_fresh (behind : UInt8) (n : ℕ) (p : Bytes) (r : Parser × List (Call × Bytes) × Bytes)
    (hn : p.length ≤ n) (h : loop behind n fresh p = some r) :
    ∃ parsed, httpParserExecute behind httpParserInit p = some (r.1,r.2.1,parsed) := by
  cases p with
  | nil =>
    have hempty : loop behind n fresh [] = some (httpParserInit,[],[]) := by cases n <;> rfl
    rw [hempty] at h
    obtain rfl := Option.some.inj h
    exact ⟨0,rfl⟩
  | cons ch rest =>
    have hloop : loop behind (ch :: rest).length (startMachine httpParserInit (ch :: rest))
        (ch :: rest) = some r := (loop_fuel behind _ n fresh _ (Nat.le_refl _) hn).trans h
    refine ⟨(ch :: rest).length-r.2.2.length, ?_⟩
    unfold httpParserExecute
    rw [if_neg (by decide), if_neg (by simp), hloop]
    rfl

theorem withUnread_split (u unread : Bytes) (calls : List Call) (before after : List (Call × Bytes))
    (c : Call) (h : withUnread u calls = before ++ (c,unread) :: after) :
    unread = u ∧ ∃ front back, calls = front ++ c :: back ∧ after = withUnread u back := by
  rcases List.map_eq_append_iff.mp h with ⟨front,tail,hcalls,-,htail⟩
  rcases List.map_eq_cons_iff.mp htail with ⟨d,back,rfl,hd,hback⟩
  obtain ⟨hc,hu⟩ := Prod.mk.inj hd
  rw [hc] at hcalls
  exact ⟨hu.symm, front, back, hcalls, hback.symm⟩

/-- No request completes in the callbacks for the marks. -/
theorem flush_quiet (m : Machine) (p : Bytes) (r : Parser × List (Call × Bytes) × Bytes) (hm : Valid m)
    (h : (m.flush.map fun calls => (m.parser, withUnread [] calls, p)) = some r)
    (before after : List (Call × Bytes)) (q : Parser) (unread : Bytes)
    (he : r.2.1 = before ++ (.messageComplete q,unread) :: after) : False := by
  rcases hm.flush m with ⟨calls,hc,hquiet⟩
  rw [hc] at h
  obtain rfl := Option.some.inj h
  rcases withUnread_split [] unread calls before after _ he with ⟨-,front,back,hcalls,-⟩
  have hq := hquiet (.messageComplete q) (by rw [hcalls]; simp)
  exact absurd hq (by simp [Call.isComplete])

/-- Behind the completion of a request the loop is that of a new parser on what is left. -/
theorem loop_resume (behind : UInt8) (n : ℕ) (m : Machine) (p : Bytes)
    (r : Parser × List (Call × Bytes) × Bytes) (hm : Valid m) (hn : p.length ≤ n)
    (h : loop behind n m p = some r) (before after : List (Call × Bytes)) (q : Parser) (unread : Bytes)
    (he : r.2.1 = before ++ (.messageComplete q,unread) :: after) :
    ∃ parsed, httpParserExecute behind httpParserInit unread = some (r.1,after,parsed) := by
  induction n generalizing m p r before with
  | zero => exact (flush_quiet m p r hm h before after q unread he).elim
  | succ n ih =>
    cases p with
    | nil => exact (flush_quiet m [] r hm h before after q unread he).elim
    | cons ch rest =>
      have hkeeps := keeps_iteration behind m ch rest hm
      unfold loop at h
      cases hi : iteration behind m ch rest with
      | next m' skip calls =>
        rw [hi] at hkeeps h
        rcases Option.map_eq_some_iff.mp h with ⟨s,hs,rfl⟩
        have hlen : (rest.drop skip).length ≤ n := by
          rw [List.length_cons] at hn
          rw [List.length_drop]
          omega
        rcases List.append_eq_append_iff.mp he with ⟨front,-,hback⟩ | ⟨front,hfront,hback⟩
        · exact ih m' (rest.drop skip) s hkeeps.1 hlen hs front hback
        · cases front with
          | nil => exact ih m' (rest.drop skip) s hkeeps.1 hlen hs [] hback.symm
          | cons c front =>
            -- the request completes in this iteration, and nothing is called behind it
            obtain ⟨rfl,hafter⟩ := List.cons.inj hback
            rcases withUnread_split _ unread calls before front _ hfront with ⟨hu,x,y,hcalls,hy⟩
            rcases hkeeps.2 x q y hcalls with ⟨rfl,rfl⟩
            rw [hafter, hy, hu]
            exact execute_fresh behind n _ s hlen hs
      -- the loop is left with the completion, and nothing more is parsed
      | leave m' p calls =>
        rw [hi] at hkeeps h
        obtain rfl := Option.some.inj h
        rcases withUnread_split [] unread calls before after _ he with ⟨rfl,x,y,hcalls,rfl⟩
        rcases hkeeps.1 x q y hcalls with ⟨rfl,hinit⟩
        dsimp only
        rw [hinit]
        exact ⟨0,rfl⟩
      | abort =>
        rw [hi] at hkeeps
        exact hkeeps.elim

theorem execute_resume (behind : UInt8) (parser : Parser) (data : Bytes)
    (r : Parser × List (Call × Bytes) × ℕ) (hp : Sane parser)
    (h : httpParserExecute behind parser data = some r) (before after : List (Call × Bytes))
    (q : Parser) (unread : Bytes) (he : r.2.1 = before ++ (.messageComplete q,unread) :: after) :
    ∃ parsed, httpParserExecute behind httpParserInit unread = some (r.1,after,parsed) := by
  rcases execute_cases behind parser data r h with ⟨hnil,-⟩ | ⟨-,rfl⟩ | ⟨hok,s,hs,rfl⟩
  · rw [hnil] at he
    exact absurd he (by simp)
  -- the one call is the completion, and nothing is left behind it
  · rcases List.append_eq_singleton_iff.mp he.symm with ⟨-,hone⟩ | ⟨-,hone⟩
    · obtain ⟨hc,rfl⟩ := List.cons.inj hone
      obtain ⟨-,rfl⟩ := Prod.mk.inj hc
      exact ⟨0,rfl⟩
    · exact absurd hone (by simp)
  · exact loop_resume behind data.length _ data s (valid_start parser data hok hp) (Nat.le_refl _) hs
      before after q unread he

/-- Behind the completion of a request the connection is like a new one that is given the input
that is not read yet. -/
theorem reports_resume (parser parser' : Parser) (input : Input) (tr : List (Call × Input))
    (hp : Sane parser) (h : reports parser input = some (parser',tr))
    (before after : List (Call × Input)) (q : Parser) (unread : Input)
    (he : tr = before ++ (.messageComplete q,unread) :: after) :
    reports httpParserInit unread = some (parser',after) := by
  induction input generalizing parser tr before with
  | nil =>
    obtain ⟨-,rfl⟩ := Prod.mk.inj (Option.some.inj h)
    exact absurd he (by simp)
  | cons call later ih =>
    rcases Option.bind_eq_some_iff.mp h with ⟨r,hr,hrest⟩
    rcases Option.map_eq_some_iff.mp hrest with ⟨s,hs,hst⟩
    obtain ⟨rfl,rfl⟩ := Prod.mk.inj hst
    rcases execute_total call.2 parser call.1 hp with ⟨r',hr',hsane⟩
    obtain rfl := Option.some.inj (hr.symm.trans hr')
    -- the request completes in a later call, or in this one
    rcases List.append_eq_append_iff.mp he with ⟨front,-,hback⟩ | ⟨front,hfront,hback⟩
    · exact ih r.1 s.2 hsane hs front hback
    · cases front with
      | nil => exact ih r.1 s.2 hsane hs [] hback.symm
      | cons c front =>
        obtain ⟨rfl,hafter⟩ := List.cons.inj hback
        rcases List.map_eq_append_iff.mp hfront with ⟨x,tail,hcalls,-,htail⟩
        rcases List.map_eq_cons_iff.mp htail with ⟨d,y,rfl,hd,hy⟩
        obtain ⟨hc,rfl⟩ := Prod.mk.inj hd
        have hcall : d = (.messageComplete q,d.2) := Prod.ext hc rfl
        rw [hcall] at hcalls
        rcases execute_resume call.2 parser call.1 r hp hr x y q d.2 hcalls with ⟨parsed,hexec⟩
        rw [reports, hexec, Option.bind_some, hs, hafter, ← hy]
        rfl

/-! Between two requests the parser passes over newlines. -/

theorem iteration_startReq (behind : UInt8) (m : Machine) (ch : UInt8) (rest : Bytes)
    (hs : m.parser.state = .startReq) (hcount : m.parser.nread.toNat+1 ≤ httpMaxHeaderSize.toNat) :
    iteration behind m ch rest = sStartReq (m.add 1) ch rest behind := by
  rw [iteration_head behind m ch rest (by rw [hs]; rfl), count_pass m 1 _ _ hcount]
  unfold switch
  rw [show (m.add 1).parser.state = .startReq from hs]

theorem startMethod_isSome (ch next : UInt8) :
    (startMethod ch next).isSome = (startRows.lookup ch).isSome := by
  unfold startMethod
  split_ifs with hput
  · rw [hput.1]
    decide
  · rfl

/-- A first byte that is no line end begins a request or ends the call. -/
theorem iteration_first (behind : UInt8) (m : Machine) (ch : UInt8) (rest : Bytes)
    (hs : m.parser.state = .startReq) (hcount : m.parser.nread.toNat+1 ≤ httpMaxHeaderSize.toNat)
    (hch : ¬ (ch = CR ∨ ch = LF)) :
    (beginsMethod ch = true ∧ ∃ m', iteration behind m ch rest = .next m' 0 [.messageBegin m'.parser]) ∨
      (beginsMethod ch = false ∧ ∃ m' p, iteration behind m ch rest = .leave m' p [] ∧
        m'.parser.httpErrno ≠ .ok) := by
  have hsome := startMethod_isSome ch (rest.headD behind)
  rw [iteration_startReq behind m ch rest hs hcount]
  unfold sStartReq beginsMethod
  rw [if_neg hch]
  dsimp only
  by_cases halpha : isAlpha ch = true
  · rw [if_pos halpha, halpha, Bool.true_and, ← hsome]
    cases startMethod ch (rest.headD behind) with
    | none => exact Or.inr ⟨rfl, _, _, rfl, by simp⟩
    | some method => exact Or.inl ⟨rfl, _, rfl⟩
  · rw [if_neg halpha, Bool.eq_false_iff.mpr halpha]
    exact Or.inr ⟨rfl, _, _, rfl, by simp⟩

/-- The parser is between two requests, and its head may have `n` more bytes. -/
structure Waiting (n : ℕ) (parser : Parser) : Prop where
  ok : parser.httpErrno = .ok
  state : parser.state = .startReq
  left : parser.nread.toNat+n = httpMaxHeaderSize.toNat

theorem waiting_init : Waiting httpMaxHeaderSize.toNat httpParserInit := ⟨rfl,rfl,rfl⟩

/-- What a call with these data comes to between two requests: a request begins, nothing can follow
any more, or the data were line ends. -/
inductive Passed (n : ℕ) (p : Bytes) (parser : Parser) (calls : List Call) : Prop
  | begun (hbegins : ∀ w, beginsRequest n (p ++ w) = true) (start : Parser) (later : List Call)
      (hcalls : calls = .messageBegin start :: later)
  | failed (hbegins : ∀ w, beginsRequest n (p ++ w) = false) (hcalls : calls = [])
      (herrno : parser.httpErrno ≠ .ok)
  | waits (k : ℕ) (hbegins : ∀ w, beginsRequest n (p ++ w) = beginsRequest k w) (hcalls : calls = [])
      (hwaits : Waiting k parser)

theorem begins_newline (n : ℕ) (ch : UInt8) (p : Bytes) (h : ch = CR ∨ ch = LF) :
    beginsRequest (n+1) (ch :: p) = beginsRequest n p := if_pos h

theorem begins_first (n : ℕ) (ch : UInt8) (p : Bytes) (h : ¬ (ch = CR ∨ ch = LF)) :
    beginsRequest (n+1) (ch :: p) = beginsMethod ch := if_neg h

/-- A line end before the data uses up one byte of the head. -/
theorem Passed.newline (n : ℕ) (ch : UInt8) (p : Bytes) (parser : Parser) (calls : List Call)
    (hch : ch = CR ∨ ch = LF) (h : Passed n p parser calls) : Passed (n+1) (ch :: p) parser calls := by
  cases h with
  | begun hbegins start later hcalls =>
    exact .begun (fun w => (begins_newline n ch (p ++ w) hch).trans (hbegins w)) start later hcalls
  | failed hbegins hcalls herrno =>
    exact .failed (fun w => (begins_newline n ch (p ++ w) hch).trans (hbegins w)) hcalls herrno
  | waits k hbegins hcalls hwaits =>
    exact .waits k (fun w => (begins_newline n ch (p ++ w) hch).trans (hbegins w)) hcalls hwaits

theorem loop_waiting (behind : UInt8) (fuel n : ℕ) (m : Machine) (p : Bytes) (hm : Valid m)
    (hw : Waiting n m.parser) (hfuel : p.length ≤ fuel) :
    ∃ r, loop behind fuel m p = some r ∧ Passed n p r.1 (r.2.1.map Prod.fst) := by
  have hend (m : Machine) (hm : Valid m) (n : ℕ) (hw : Waiting n m.parser) (fuel : ℕ) :
      ∃ r, loop behind fuel m [] = some r ∧ Passed n [] r.1 (r.2.1.map Prod.fst) := by
    have hplain := hm.plain m (by rw [hw.state]; decide) (by rw [hw.state]; decide)
      (by rw [hw.state]; rfl) (by rw [hw.state]; rfl)
    refine ⟨(m.parser,[],[]), ?_, .waits n (fun _ => rfl) rfl hw⟩
    cases fuel <;> simp [loop, Machine.flush, hplain.field, hplain.value, hplain.url, hplain.body,
      callbackData, withUnread]
  have hmax : httpMaxHeaderSize.toNat = 81920 := rfl
  induction fuel generalizing n m p with
  | zero =>
    obtain rfl : p = [] := List.length_eq_zero_iff.mp (Nat.le_zero.mp hfuel)
    exact hend m hm n hw 0
  | succ fuel ih =>
    cases p with
    | nil => exact hend m hm n hw (fuel+1)
    | cons ch rest =>
      have hleft := hw.left
      have hkeeps := keeps_iteration behind m ch rest hm
      unfold loop
      cases n with
      -- the head is at its limit
      | zero =>
        rw [iteration_head behind m ch rest (by rw [hw.state]; rfl),
          count_fails m 1 _ _ (by omega) (by omega)]
        exact ⟨_, rfl, .failed (fun _ => rfl) rfl (by simp)⟩
      | succ n =>
        by_cases hch : ch = CR ∨ ch = LF
        · have hi : iteration behind m ch rest = .next (m.add 1) 0 [] := by
            rw [iteration_startReq behind m ch rest hw.state (by omega)]
            exact if_pos hch
          rw [hi] at hkeeps
          have hadd := add_nread m 1 (by omega)
          rcases ih n (m.add 1) rest hkeeps.1 ⟨hkeeps.1.ok, hw.state, by omega⟩ (Nat.le_of_succ_le_succ hfuel)
            with ⟨r,hr,hpassed⟩
          rw [hi]
          dsimp only
          rw [List.drop_zero, hr]
          exact ⟨_, rfl, hpassed.newline n ch rest _ _ hch⟩
        · rcases iteration_first behind m ch rest hw.state (by omega) hch with
            ⟨hbegins,m',hi⟩ | ⟨hbegins,m',p,hi,herrno⟩
          · rw [hi] at hkeeps
            rcases loop_total behind fuel m' (rest.drop 0) hkeeps.1 with ⟨r,hr,-⟩
            rw [hi]
            dsimp only
            rw [hr]
            exact ⟨_, rfl, .begun (fun w => (begins_first n ch (rest ++ w) hch).trans hbegins) _ _ rfl⟩
          · rw [hi]
            exact ⟨_, rfl, .failed (fun w => (begins_first n ch (rest ++ w) hch).trans hbegins) rfl herrno⟩

theorem execute_waiting (behind : UInt8) (n : ℕ) (parser : Parser) (data : Bytes)
    (hw : Waiting n parser) : ∃ r, httpParserExecute behind parser data = some r ∧
      Passed n data r.1 (r.2.1.map Prod.fst) := by
  unfold httpParserExecute
  rw [if_neg (not_not_intro hw.ok)]
  by_cases hdata : data = []
  · rw [if_pos hdata, hw.state, hdata]
    exact ⟨_, rfl, .waits n (fun _ => rfl) rfl hw⟩
  · have hsane : Sane parser := by
      intro _
      rw [Asserted, hw.state]
      exact True.intro
    rcases loop_waiting behind data.length n (startMachine parser data) data
      (valid_start parser data hw.ok hsane) hw (Nat.le_refl _) with ⟨r,hr,hpassed⟩
    rw [if_neg hdata, hr]
    exact ⟨_, rfl, hpassed⟩

theorem failed_reports (parser parser' : Parser) (input : Input) (tr : List (Call × Input))
    (h : parser.httpErrno ≠ .ok) (hr : reports parser input = some (parser',tr)) : tr = [] := by
  induction input generalizing tr with
  | nil => exact (Prod.mk.inj (Option.some.inj hr)).2.symm
  | cons call later ih =>
    have hexec : httpParserExecute call.2 parser call.1 = some (parser,[],0) := if_pos h
    rw [reports, hexec, Option.bind_some] at hr
    rcases Option.map_eq_some_iff.mp hr with ⟨s,hs,he⟩
    obtain ⟨rfl,rfl⟩ := Prod.mk.inj he
    exact ih s.2 hs

/-- Between two requests nothing is called for where no request begins, and otherwise the first
call is for its beginning. -/
theorem reports_waiting (n : ℕ) (parser parser' : Parser) (input : Input) (tr : List (Call × Input))
    (hw : Waiting n parser) (hr : reports parser input = some (parser',tr)) :
    (beginsRequest n (input.flatMap Prod.fst) = false → tr = []) ∧
      (beginsRequest n (input.flatMap Prod.fst) = true →
        ∃ start later, tr.map Prod.fst = .messageBegin start :: later) := by
  induction input generalizing n parser tr with
  | nil =>
    obtain ⟨-,rfl⟩ := Prod.mk.inj (Option.some.inj hr)
    refine ⟨fun _ => rfl, ?_⟩
    cases n <;> exact fun h => absurd h (by simp [beginsRequest])
  | cons call later ih =>
    rcases execute_waiting call.2 n parser call.1 hw with ⟨r,hexec,hpassed⟩
    rw [reports, hexec, Option.bind_some] at hr
    rcases Option.map_eq_some_iff.mp hr with ⟨s,hs,he⟩
    obtain ⟨rfl,rfl⟩ := Prod.mk.inj he
    rw [List.flatMap_cons, List.map_append, List.map_map]
    change _ ∧ (_ → ∃ start later', r.2.1.map Prod.fst ++ _ = _)
    cases hpassed with
    | begun hbegins start after hcalls =>
      rw [hbegins, hcalls]
      exact ⟨fun h => absurd h (by simp), fun _ => ⟨start, _, rfl⟩⟩
    | failed hbegins hcalls herrno =>
      rw [hbegins, List.map_eq_nil_iff.mp hcalls, failed_reports r.1 s.1 later s.2 herrno hs]
      exact ⟨fun _ => rfl, fun h => absurd h (by simp)⟩
    | waits k hbegins hcalls hwaits =>
      rw [hbegins, List.map_eq_nil_iff.mp hcalls]
      exact ih k r.1 s.2 hwaits hs

theorem LeftHttp.last (calls : List Call) (h : LeftHttp calls) :
    ∃ front q, calls = front ++ [.messageComplete q] := by
  rcases h with ⟨front,p,body,q,rfl,-,-⟩
  exact ⟨front ++ .headersComplete p :: body, q, by rw [List.append_assoc, List.cons_append]⟩

/-- The last call before the split, with the input that is not read yet there. -/
theorem split_leaving (tr : List (Call × Input)) (before after : List Call)
    (he : tr.map Prod.fst = before ++ after) (hl : LeftHttp before) :
    ∃ x last y, tr = x ++ last :: y ∧ LeftHttp ((x ++ [last]).map Prod.fst) ∧ y.map Prod.fst = after := by
  rcases List.map_eq_append_iff.mp he with ⟨front,y,htr,hfront,hy⟩
  rcases hl.last _ with ⟨x,q,hcalls⟩
  rcases List.map_eq_append_iff.mp (hfront.trans hcalls) with ⟨x1,x2,rfl,-,hx2⟩
  rcases List.map_eq_singleton_iff.mp hx2 with ⟨last,rfl,-⟩
  refine ⟨x1, last, y, by rw [htr, List.append_assoc, List.singleton_append], ?_, hy⟩
  rw [hfront]
  exact hl

/-- Behind a request that left HTTP the connection goes on like a new one. -/
theorem leaving_resume (input : Input) (parser : Parser) (before after : List (Call × Input))
    (last : Call × Input)
    (h : reports httpParserInit input = some (parser, before ++ last :: after))
    (hl : LeftHttp ((before ++ [last]).map Prod.fst)) :
    reports httpParserInit last.2 = some (parser,after) := by
  rcases hl.last _ with ⟨front,q,hcalls⟩
  rw [List.map_append, List.map_singleton] at hcalls
  have hlast : last.1 = .messageComplete q := (List.append_singleton_inj.mp hcalls).2
  exact reports_resume _ parser input _ sane_init h before after q last.2 (by rw [← hlast])

/-- A connection that left HTTP stays out of it in every run in which no request begins in what it
still reads, and these are the runs in which the parser, which has been initialised again, does not
begin another request. -/
theorem stays_out (input : Input) (parser : Parser) (tr : List (Call × Input))
    (h : reports httpParserInit input = some (parser,tr)) :
    (BehindLeaving NoRequestBegins tr → StaysOut (tr.map Prod.fst)) ∧
      (BehindLeaving NoRequestBegins tr ↔ NoneBegins (tr.map Prod.fst)) := by
  have hwaits (before after : List (Call × Input)) (last : Call × Input)
      (he : tr = before ++ last :: after) (hl : LeftHttp ((before ++ [last]).map Prod.fst)) :=
    reports_waiting _ _ parser last.2 after waiting_init
      (leaving_resume input parser before after last (by rw [h, he]) hl)
  -- where no request begins there are no more calls
  have hnone (hbegins : BehindLeaving NoRequestBegins tr) (before after : List Call)
      (he : tr.map Prod.fst = before ++ after) (hl : LeftHttp before) : after = [] := by
    rcases split_leaving tr before after he hl with ⟨x,last,y,htr,hleft,rfl⟩
    rw [(hwaits x y last htr hleft).1 (hbegins x last y htr hleft)]
    rfl
  refine ⟨?_, ?_, ?_⟩
  · intro hbegins before after he hl c hc
    rw [hnone hbegins before after he hl] at hc
    exact absurd hc List.not_mem_nil
  · intro hbegins before after he hl c hc
    rw [hnone hbegins before after he hl] at hc
    exact absurd hc List.not_mem_nil
  · intro hcalls before last after he hl
    by_contra hno
    rcases (hwaits before after last he hl).2 (Bool.eq_true_of_not_eq_false hno) with ⟨start,later,hmap⟩
    have hsplit : tr.map Prod.fst = (before ++ [last]).map Prod.fst ++ after.map Prod.fst := by
      rw [he, ← List.map_append, List.append_assoc, List.singleton_append]
    have hquiet := hcalls _ _ hsplit hl (.messageBegin start) (by rw [hmap]; exact List.mem_cons_self)
    exact absurd hquiet (by simp [Call.isBegin])

/-- A request of HTTP/1.0 that does not ask to be kept alive. -/
def oldRequest : Bytes := ascii "GET / HTTP/1.0\r\n\r\n"

def oldParser (state : State) (index : ℕ) (nread : UInt32) (httpMajor : ℕ) : Parser :=
  { httpParserInit with
    state := state, index := index, nread := nread, contentLength := ullongMax,
    httpMajor := httpMajor, method := .get }

def oldReports : List (Call × Input) :=
  [(.messageBegin (oldParser .reqMethod 1 1 0), [(oldRequest.drop 1,0)]),
   (.url (ascii "/"), [(ascii "HTTP/1.0\r\n\r\n",0)]),
   (.headersComplete (oldParser .headersDone 4 18 1), [([],0)]),
   (.messageComplete (oldParser .dead 4 0 1), [([],0)])]

/-- Behind the request come a line end and bytes of something else. -/
def trailingInput : Input := [(oldRequest ++ ascii "\r\n<p>",0), (ascii "</p>\r\n\r\n",0)]

theorem stays_out_trailing : ∃ parser tr, reports httpParserInit trailingInput = some (parser,tr) ∧
    LeftHttp (tr.map Prod.fst) ∧ StaysOut (tr.map Prod.fst) ∧ NoneBegins (tr.map Prod.fst) := by
  rcases reports_total httpParserInit trailingInput sane_init with ⟨⟨parser,tr⟩,h,-⟩
  have hall : ∀ q ∈ reports httpParserInit trailingInput, q.2.map Prod.fst = oldReports.map Prod.fst ∧
      ∀ c ∈ q.2, c.1.isComplete = true → beginsRequest 81920 (c.2.flatMap Prod.fst) = false := by
    decide +kernel
  rcases hall _ h with ⟨hcalls,hbegins⟩
  have hbehind : BehindLeaving NoRequestBegins tr := by
    intro before last after he hl
    rcases hl.last _ with ⟨front,q,hlast⟩
    rw [List.map_append, List.map_singleton] at hlast
    exact hbegins last (by rw [he]; simp) (by rw [(List.append_singleton_inj.mp hlast).2]; rfl)
  have hstays := stays_out trailingInput parser tr h
  refine ⟨parser, tr, h, ?_, hstays.1 hbehind, hstays.2.mp hbehind⟩
  rw [hcalls]
  exact ⟨(oldReports.take 2).map Prod.fst, _, [], _, rfl, by simp, by decide⟩

/-- A second request behind one that is not kept alive is handled like the first. -/
theorem second_request_handled : ¬ ∀ (input : Input) (parser : Parser) (tr : List (Call × Input)),
    reports httpParserInit input = some (parser,tr) → StaysOut (tr.map Prod.fst) := by
  intro h
  have hcalls : (reports httpParserInit [(oldRequest ++ oldRequest,0)]).map
      (fun r => r.2.map Prod.fst) = some (oldReports.map Prod.fst ++ oldReports.map Prod.fst) := by
    decide +kernel
  rcases Option.map_eq_some_iff.mp hcalls with ⟨r,hr,hc⟩
  have hleft : LeftHttp (oldReports.map Prod.fst) :=
    ⟨(oldReports.take 2).map Prod.fst, _, [], _, rfl, by simp, by decide⟩
  have hsecond := h _ r.1 r.2 hr _ _ hc hleft (.headersComplete (oldParser .headersDone 4 18 1))
    (by simp [oldReports])
  exact absurd hsecond (by decide)

end Cclab.HttpParser
