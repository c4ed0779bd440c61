import Cclab.HttpMethods

/-! What the byte in memory behind the data of a call changes. -/
namespace Cclab.HttpParser
open OperationRuns

/-- One call of the parser, with the error, the method and the callbacks that it leads to. -/
def parseStep (parser : Parser) (call : Bytes × UInt8) :
    Option (Parser × HttpErrno × HttpMethod × List Call) :=
  (httpParserExecute call.2 parser call.1).map fun r =>
    (r.1, r.1.httpErrno, r.1.method, r.2.1.map Prod.fst)

/-- What can be observed of the calls on these data with these bytes behind them. -/
def observed (parser : Parser) (datas : List Bytes) (behinds : List UInt8) :
    Option (List (HttpErrno × HttpMethod × List Call)) :=
  (run parseStep parser (datas.zip behinds)).map Prod.snd

/-- Parsing depends on the data alone. -/
def DependsOnData (parser : Parser) (datas : List Bytes) : Prop :=
  ∀ behinds behinds' : List UInt8, behinds.length = datas.length → behinds'.length = datas.length →
    observed parser datas behinds = observed parser datas behinds'

/-- The byte that the loop reads is the last one, it is a 'P', and it begins a request whose head
is not too long yet. -/
def LooksBehind (m : Machine) (ch : UInt8) (rest : Bytes) : Prop :=
  m.parser.state = .startReq ∧ ¬ m.parser.nread+UInt32.ofNat 1 > httpMaxHeaderSize ∧
    ch = byte 'P' ∧ rest = []

/-- The loop reaches a byte for which it looks behind the data. -/
def LoopLooksBehind : ℕ → Machine → Bytes → Prop
  | fuel+1, m, ch :: rest =>
    LooksBehind m ch rest ∨
      match iteration 0 m ch rest with
      | .next m skip _ => LoopLooksBehind fuel m (rest.drop skip)
      | _ => False
  | _, _, _ => False

/-- The data end in a 'P' that begins a request. -/
def EndsInP (parser : Parser) (data : Bytes) : Prop :=
  parser.httpErrno = .ok ∧ LoopLooksBehind data.length (startMachine parser data) data

/-- No call is given data that end in a 'P' that begins a request. -/
def NoCallEndsInP (parser : Parser) : List Bytes → Prop
  | [] => True
  | data :: later => ¬ EndsInP parser data ∧
      ∀ r, httpParserExecute 0 parser data = some r → NoCallEndsInP r.1 later

theorem loopLooksBehind_last (n : ℕ) (m : Machine) (p : Bytes) (h : LoopLooksBehind n m p) :
    p.getLast? = some (byte 'P') := by
  induction n generalizing m p with
  | zero => exact h.elim
  | succ n ih =>
    cases p with
    | nil => exact h.elim
    | cons ch rest =>
      rcases h with ⟨-,-,rfl,rfl⟩ | h
      · rfl
      · cases hi : iteration 0 m ch rest with
        | next m' skip calls =>
          rw [hi] at h
          have hdrop := ih m' (rest.drop skip) h
          rw [List.getLast?_drop] at hdrop
          split_ifs at hdrop
          rw [List.getLast?_cons, hdrop]
          rfl
        | leave m' p calls =>
          rw [hi] at h
          exact h.elim
        | abort =>
          rw [hi] at h
          exact h.elim

theorem noCallEndsInP_of_last (parser : Parser) (datas : List Bytes)
    (h : ∀ data ∈ datas, data.getLast? ≠ some (byte 'P')) : NoCallEndsInP parser datas := by
  induction datas generalizing parser with
  | nil => exact True.intro
  | cons data later ih =>
    refine ⟨?_, fun r _ => ih r.1 fun d hd => h d (List.mem_cons_of_mem data hd)⟩
    rintro ⟨-,hlooks⟩
    exact h data List.mem_cons_self (loopLooksBehind_last _ _ data hlooks)

theorem startMethod_of_ne (ch next next' : UInt8) (h : ch ≠ byte 'P') :
    startMethod ch next = startMethod ch next' := by
  unfold startMethod
  rw [if_neg (fun hp => h hp.1), if_neg (fun hp => h hp.1)]

theorem iteration_behind (behind behind' : UInt8) (m : Machine) (ch : UInt8) (rest : Bytes)
    (h : ¬ LooksBehind m ch rest) : iteration behind m ch rest = iteration behind' m ch rest := by
  have hswitch (k : Machine) (hk : k.parser.state = m.parser.state)
      (hcount : ¬ m.parser.nread+UInt32.ofNat 1 > httpMaxHeaderSize ∨ k.parser.state ≠ .startReq) :
      switch behind k ch rest = switch behind' k ch rest := by
    unfold switch
    dsimp only
    cases hs : k.parser.state with
    | startReq =>
      -- the only state that looks at the byte behind the data, and only behind the last byte
      have hmethod : startMethod ch (rest.headD behind) = startMethod ch (rest.headD behind') := by
        cases rest with
        | cons c rest => rfl
        | nil =>
          apply startMethod_of_ne
          intro hch
          exact h ⟨hk.symm.trans hs, hcount.resolve_right (not_not_intro hs), hch, rfl⟩
      dsimp only
      unfold sStartReq
      rw [hmethod]
    | _ => rfl
  unfold iteration Machine.count
  dsimp only
  -- in a state of the head the byte is counted first, which may end the call
  by_cases hheader : parsingHeader m.parser.state = true
  · rw [if_pos hheader, if_pos hheader]
    split_ifs with hover
    · rfl
    · exact hswitch _ rfl (Or.inl hover)
  · rw [if_neg hheader, if_neg hheader]
    apply hswitch m rfl
    right
    intro hs
    rw [hs] at hheader
    exact hheader rfl

theorem loop_behind (behind : UInt8) (n : ℕ) (m : Machine) (p : Bytes)
    (h : ¬ LoopLooksBehind n m p) : loop behind n m p = loop 0 n m p := by
  induction n generalizing m p with
  | zero => rfl
  | succ n ih =>
    cases p with
    | nil => rfl
    | cons ch rest =>
      unfold LoopLooksBehind at h
      rcases not_or.mp h with ⟨hfirst,hrest⟩
      unfold loop
      rw [iteration_behind behind 0 m ch rest hfirst]
      cases hi : iteration 0 m ch rest with
      | next m' skip calls =>
        rw [hi] at hrest
        dsimp only
        rw [ih m' (rest.drop skip) hrest]
      | leave m' p calls => rfl
      | abort => rfl

theorem execute_behind (behind : UInt8) (parser : Parser) (data : Bytes)
    (h : ¬ EndsInP parser data) :
    httpParserExecute behind parser data = httpParserExecute 0 parser data := by
  unfold httpParserExecute
  split_ifs with hok hdata
  · rfl
  · rfl
  · rw [loop_behind behind data.length _ data (fun hl => h ⟨not_not.mp hok,hl⟩)]

/-- The byte behind the data decides which method the parser assumes. -/
theorem iteration_looks (behind : UInt8) (m : Machine) (ch : UInt8) (rest : Bytes)
    (h : LooksBehind m ch rest) :
    ∃ m', iteration behind m ch rest = .next m' 0 [.messageBegin m'.parser] ∧
      startMethod (byte 'P') behind = some m'.parser.method ∧ m'.parser.state = .reqMethod ∧
      m'.parser.index = 1 := by
  rcases h with ⟨hs,hcount,rfl,rfl⟩
  have hstart : ∃ method, startMethod (byte 'P') behind = some method := by
    unfold startMethod
    split_ifs
    · exact ⟨_,rfl⟩
    · exact ⟨.post,by decide⟩
  rcases hstart with ⟨method,hmethod⟩
  unfold iteration Machine.count
  rw [if_pos (by rw [hs]; rfl)]
  dsimp only
  rw [if_neg hcount]
  unfold switch
  dsimp only
  rw [hs]
  dsimp only
  unfold sStartReq
  rw [if_neg (by decide)]
  dsimp only
  rw [if_pos (by decide), List.headD_nil, hmethod]
  exact ⟨_,rfl,rfl,rfl,rfl⟩

/-- What the parser has assumed where its data end behind the 'P', and the calls before that. -/
structure Looked (behind : UInt8) (before : List Call) (parser : Parser) (calls : List Call) : Prop where
  method : startMethod (byte 'P') behind = some parser.method
  state : parser.state = .reqMethod
  index : parser.index = 1
  calls : calls = before ++ [.messageBegin parser]

theorem map_withUnread (unread : Bytes) (calls : List Call) :
    (withUnread unread calls).map Prod.fst = calls := by
  rw [withUnread, List.map_map]
  exact List.map_id calls

theorem loop_looks (n : ℕ) (m : Machine) (p : Bytes) (hm : Valid m) (h : LoopLooksBehind n m p) :
    ∃ before, ∀ behind, ∃ r, loop behind n m p = some r ∧
      Looked behind before r.1 (r.2.1.map Prod.fst) := by
  induction n generalizing m p with
  | zero => exact h.elim
  | succ n ih =>
    cases p with
    | nil => exact h.elim
    | cons ch rest =>
      by_cases hfirst : LooksBehind m ch rest
      -- the byte is the last one, and no mark is set
      · refine ⟨[], ?_⟩
        intro behind
        have hkeeps := keeps_iteration behind m ch rest hm
        rcases iteration_looks behind m ch rest hfirst with ⟨m',hi,hmethod,hstate,hindex⟩
        rw [hi] at hkeeps
        have hplain := hkeeps.1.plain m' (by rw [hstate]; decide) (by rw [hstate]; decide)
          (by rw [hstate]; rfl) (by rw [hstate]; rfl)
        have hdone : loop behind n m' [] = some (m'.parser,[],[]) := by
          cases n <;> simp [loop, Machine.flush, hplain.field, hplain.value, hplain.url, hplain.body,
            callbackData, withUnread]
        refine ⟨(m'.parser, withUnread [] [.messageBegin m'.parser] ++ [], []), ?_,
          hmethod, hstate, hindex, rfl⟩
        rcases hfirst with ⟨-,-,-,rfl⟩
        unfold loop
        rw [hi]
        dsimp only
        rw [List.drop_zero, hdone]
        rfl
      -- any other iteration is the same as with a 0 behind the data
      · unfold LoopLooksBehind at h
        have hrest := h.resolve_left hfirst
        have hkeeps := keeps_iteration 0 m ch rest hm
        cases hi : iteration 0 m ch rest with
        | next m' skip calls =>
          rw [hi] at hkeeps hrest
          rcases ih m' (rest.drop skip) hkeeps.1 hrest with ⟨before,hlooked⟩
          refine ⟨calls ++ before, ?_⟩
          intro behind
          rcases hlooked behind with ⟨r,hr,hmethod,hstate,hindex,hcalls⟩
          refine ⟨(r.1, withUnread (rest.drop skip) calls ++ r.2.1, r.2.2), ?_, hmethod, hstate, hindex, ?_⟩
          · unfold loop
            rw [iteration_behind behind 0 m ch rest hfirst, hi]
            dsimp only
            rw [hr]
            rfl
          · rw [List.map_append, map_withUnread, hcalls, List.append_assoc]
        | leave m' p calls =>
          rw [hi] at hrest
          exact hrest.elim
        | abort =>
          rw [hi] at hrest
          exact hrest.elim

theorem execute_looks (parser : Parser) (data : Bytes) (hp : Sane parser) (h : EndsInP parser data) :
    ∃ before, ∀ behind, ∃ r, httpParserExecute behind parser data = some r ∧
      Looked behind before r.1 (r.2.1.map Prod.fst) := by
  rcases h with ⟨hok,hlooks⟩
  have hdata : data ≠ [] := by
    rintro rfl
    exact hlooks
  rcases loop_looks data.length _ data (valid_start parser data hok hp) hlooks with ⟨before,hlooked⟩
  refine ⟨before, ?_⟩
  intro behind
  rcases hlooked behind with ⟨r,hr,hmethod⟩
  unfold httpParserExecute
  rw [if_neg (not_not_intro hok), if_neg hdata, hr]
  exact ⟨_,rfl,hmethod⟩

theorem observed_cons (parser : Parser) (data : Bytes) (later : List Bytes) (behind : UInt8)
    (behinds : List UInt8) (r : Parser × List (Call × Bytes) × ℕ)
    (h : httpParserExecute behind parser data = some r) :
    observed parser (data :: later) (behind :: behinds) =
      (observed r.1 later behinds).map fun seen =>
        (r.1.httpErrno, r.1.method, r.2.1.map Prod.fst) :: seen := by
  unfold observed
  rw [List.zip_cons_cons, run_cons parser r.1 (data,behind) _
    (r.1.httpErrno, r.1.method, r.2.1.map Prod.fst) (by rw [parseStep, h]; rfl),
    Option.map_map, Option.map_map]
  rfl

theorem observed_total (parser : Parser) (datas : List Bytes) (behinds : List UInt8)
    (hp : Sane parser) : ∃ seen, observed parser datas behinds = some seen := by
  induction datas generalizing parser behinds with
  | nil => exact ⟨[],rfl⟩
  | cons data later ih =>
    cases behinds with
    | nil => exact ⟨[],rfl⟩
    | cons behind behinds =>
      rcases execute_total behind parser data hp with ⟨r,hr,hsane⟩
      rcases ih r.1 behinds hsane with ⟨seen,hseen⟩
      rw [observed_cons parser data later behind behinds r hr, hseen]
      exact ⟨_,rfl⟩

/-- The first call depends on its data alone, and so do the later ones. -/
theorem DependsOnData.cons (parser : Parser) (data : Bytes) (later : List Bytes) (hp : Sane parser)
    (h : DependsOnData parser (data :: later)) :
    ¬ EndsInP parser data ∧
      ∀ r, httpParserExecute 0 parser data = some r → DependsOnData r.1 later := by
  constructor
  · intro hends
    rcases execute_looks parser data hp hends with ⟨before,hlooks⟩
    let zeros := later.map fun _ => (0 : UInt8)
    have hzeros : zeros.length = later.length := List.length_map _
    have hseen (behind : UInt8) : ∃ (r : Parser × List (Call × Bytes) × ℕ) (seen : _),
        observed parser (data :: later) (behind :: zeros) =
          some ((r.1.httpErrno, r.1.method, r.2.1.map Prod.fst) :: seen) ∧
        startMethod (byte 'P') behind = some r.1.method := by
      rcases execute_total behind parser data hp with ⟨r,hr,hsane⟩
      rcases hlooks behind with ⟨r',hr',hmethod⟩
      obtain rfl := Option.some.inj (hr.symm.trans hr')
      rcases observed_total r.1 later zeros hsane with ⟨seen,hlater⟩
      refine ⟨r, seen, ?_, hmethod.method⟩
      rw [observed_cons parser data later behind zeros r hr, hlater]
      rfl
    -- with a 0 the first call ends with POST, with a 'U' it ends with PUT
    rcases hseen 0 with ⟨r,seen,hobs,hpost⟩
    rcases hseen (byte 'U') with ⟨r',seen',hobs',hput⟩
    have hsame := h (0 :: zeros) (byte 'U' :: zeros) (by simp [hzeros]) (by simp [hzeros])
    rw [hobs, hobs'] at hsame
    have hcall := (List.cons.inj (Option.some.inj hsame)).1
    have hmethod := (Prod.mk.inj (Prod.mk.inj hcall).2).1
    rw [← hmethod, ← hpost] at hput
    exact absurd hput (by decide)
  -- a byte behind the first call that is the same in both sequences
  · intro r hr behinds behinds' hlen hlen'
    have hsame := h (0 :: behinds) (0 :: behinds') (by simp [hlen]) (by simp [hlen'])
    rw [observed_cons parser data later 0 behinds r hr,
      observed_cons parser data later 0 behinds' r hr] at hsame
    exact Option.map_injective (fun x y hxy => (List.cons.inj hxy).2) hsame

theorem dependsOnData_init (datas : List Bytes) :
    DependsOnData httpParserInit datas ↔ NoCallEndsInP httpParserInit datas := by
  -- over the calls, for every parser that the earlier ones may have left
  have hiff (parser : Parser) (hp : Sane parser) :
      DependsOnData parser datas ↔ NoCallEndsInP parser datas := by
    induction datas generalizing parser with
    | nil =>
      refine iff_of_true ?_ True.intro
      intro behinds behinds' _ _
      rfl
    | cons data later ih =>
      rcases execute_total 0 parser data hp with ⟨r,hr,hsane⟩
      constructor
      · intro h
        rcases h.cons parser data later hp with ⟨hends,hlater⟩
        refine ⟨hends, ?_⟩
        intro r' hr'
        obtain rfl := Option.some.inj (hr.symm.trans hr')
        exact (ih r.1 hsane).mp (hlater r hr)
      · rintro ⟨hends,hlater⟩ behinds behinds' hlen hlen'
        rcases List.exists_cons_of_length_eq_add_one hlen with ⟨behind,behinds,rfl⟩
        rcases List.exists_cons_of_length_eq_add_one hlen' with ⟨behind',behinds',rfl⟩
        have hcall (b : UInt8) : httpParserExecute b parser data = some r :=
          (execute_behind b parser data hends).trans hr
        rw [observed_cons parser data later behind behinds r (hcall behind),
          observed_cons parser data later behind' behinds' r (hcall behind')]
        rw [(ih r.1 hsane).mpr (hlater r hr) behinds behinds' (Nat.succ.inj hlen)
          (Nat.succ.inj hlen')]
  exact hiff httpParserInit sane_init

end Cclab.HttpParser
