import Cclab.HttpLonger
import Cclab.HttpLookahead

/-! The same bytes in one call and in several ones: where the parser rejects them because of the
cuts between the calls. -/
namespace Cclab.HttpParser

def ValueEnd.taken : ValueEnd → ℕ
  | .line _ _ n | .data _ _ n => n
  | .error _ _ | .abort => 0

/-- The bytes that the loop inside the state adds to the count of the head. -/
def taken (parser : Parser) (p : Bytes) : ℕ :=
  match parser.state with
  | .headerField => ((headerFieldLoop parser.headerState parser.index p).map (·.2.2)).getD 0
  | .headerValue => (headerValueLoop parser.headerState parser p).taken
  | _ => 0

/-- The count of the head passes its limit with the byte that is read. -/
def Overlong (m : Machine) (p : Bytes) : Prop :=
  parsingHeader m.parser.state ∧
    httpMaxHeaderSize.toNat < m.parser.nread.toNat+1+taken m.parser p

/-- The count of the head passes its limit in this call. A byte at which a call begins inside a
name or a value is counted twice. -/
def LoopOverlong (behind : UInt8) : ℕ → Machine → Bytes → Prop
  | fuel+1, m, ch :: rest =>
    Overlong m (ch :: rest) ∨
      match iteration behind m ch rest with
      | .next m skip _ => LoopOverlong behind fuel m (rest.drop skip)
      | _ => False
  | _, _, _ => False

/-- The call begins inside a value in which nothing is looked for, and with a byte that is not
allowed in it. In the call before, the loop would have jumped over that byte. -/
def BadStart (parser : Parser) (data : Bytes) : Prop :=
  parser.state = .headerValue ∧ parser.headerState = .general ∧
    parser.lenientHttpHeaders = false ∧ ∃ ch ∈ data.head?, isHeaderChar ch = false

/-- The byte behind the data makes a PUT of a request that goes on with another letter. -/
def TakesForPut (parser : Parser) (data : Bytes) (behind : UInt8) (later : Bytes) : Prop :=
  EndsInP parser data ∧ behind = byte 'U' ∧ ∃ ch ∈ later.head?, ch ≠ byte 'U'

/-- What makes the parser reject a request that is cut before or behind the data of this call. -/
def Trips (parser : Parser) (data : Bytes) (behind : UInt8) (later : Bytes) : Prop :=
  BadStart parser data ∨ LoopOverlong behind data.length (startMachine parser data) data ∨
    TakesForPut parser data behind later

def NoCallTrips (parser : Parser) : Input → Prop
  | [] => True
  | (data,behind) :: later => ¬ Trips parser data behind (later.flatMap Prod.fst) ∧
      ∀ r, httpParserExecute behind parser data = some r → NoCallTrips r.1 later

/-- The limit of the head, and its count behind `v` more bytes. -/
def Machine.add (m : Machine) (v : ℕ) : Machine :=
  { m with parser := { m.parser with nread := m.parser.nread+UInt32.ofNat v } }

theorem add_nread (m : Machine) (v : ℕ) (h : m.parser.nread.toNat+v < 2^32) :
    (m.add v).parser.nread.toNat = m.parser.nread.toNat+v := by
  have hv : (UInt32.ofNat v).toNat = v := 
    UInt32.toNat_ofNat_of_lt' (lt_of_le_of_lt (Nat.le_add_left v _) h)
  change (m.parser.nread+UInt32.ofNat v).toNat = _
  rw [UInt32.toNat_add, hv]
  exact Nat.mod_eq_of_lt h

theorem count_pass (m : Machine) (v : ℕ) (p : Bytes) (k : Machine → Outcome)
    (h : m.parser.nread.toNat+v ≤ httpMaxHeaderSize.toNat) : m.count v p k = k (m.add v) := by
  have hmax : httpMaxHeaderSize.toNat = 81920 := rfl
  have hle : ¬ (m.add v).parser.nread > httpMaxHeaderSize := by
    rw [gt_iff_lt, UInt32.lt_iff_toNat_lt, add_nread m v (by omega)]
    omega
  exact if_neg hle

theorem count_fails (m : Machine) (v : ℕ) (p : Bytes) (k : Machine → Outcome)
    (h : httpMaxHeaderSize.toNat < m.parser.nread.toNat+v) (hv : m.parser.nread.toNat+v < 2^32) :
    m.count v p k = (m.add v).fail p .headerOverflow := by
  have hlt : (m.add v).parser.nread > httpMaxHeaderSize := by
    rw [gt_iff_lt, UInt32.lt_iff_toNat_lt, add_nread m v hv]
    exact h
  exact if_pos hlt

theorem headerValueLoop_le (h : HeaderState) (parser : Parser) (p : Bytes) :
    (headerValueLoop h parser p).taken ≤ p.length := by
  have hsucc (e : ValueEnd) (n : ℕ) (hn : e.taken ≤ n) : e.succ.taken ≤ n+1 := by
    cases e with
    | line h parser k => exact Nat.succ_le_succ hn
    | data h parser k => exact Nat.succ_le_succ hn
    | error parser k => exact Nat.zero_le _
    | abort => exact Nat.zero_le _
  induction p generalizing h parser with
  | nil => exact Nat.le_refl 0
  | cons ch p ih =>
    unfold headerValueLoop
    dsimp only
    split_ifs
    · exact Nat.zero_le _
    · exact Nat.zero_le _
    · exact generalLength_le (ch :: p)
    · exact generalLength_le (ch :: p)
    · cases headerValueByte h parser ch with
      | none => exact Nat.zero_le _
      | some r =>
        cases r with
        | error e => exact Nat.zero_le _
        | ok r => exact hsucc _ _ (ih r.1 r.2)

/-- What `s_header_value` does behind its loop. -/
def valueOutcome (m : Machine) (start : Bytes) : ValueEnd → Outcome
  | .abort => .abort
  | .error parser n => .leave { m with parser := parser } (start.drop n) []
  | .data h parser n =>
    { m with parser := { parser with headerState := h } }.count n [] fun m => .next m n []
  | .line h parser n =>
    let p := start.drop n
    let call := callbackData m.headerValueMark .headerValue p
    let m := { m with parser := { parser with state := .headerAlmostDone } }
    if p.head? = some CR then
      ({ m with headerValueMark := none, parser := { m.parser with headerState := h } }.count n p
        fun m => .next m n []).after call
    else
      m.count n p fun m =>
        let m := { m with headerValueMark := none, parser := { m.parser with headerState := h } }
        .next (m.goto .headerValueLws) n call

theorem sHeaderValue_eq (m : Machine) (ch : UInt8) (rest : Bytes) : sHeaderValue m ch rest =
    valueOutcome m (ch :: rest) (headerValueLoop m.parser.headerState m.parser (ch :: rest)) := by
  unfold sHeaderValue
  dsimp only
  cases headerValueLoop m.parser.headerState m.parser (ch :: rest) <;> rfl

/-- The call is left with an error. -/
def Outcome.Fails : Outcome → Prop
  | .leave m _ _ => m.parser.httpErrno ≠ .ok
  | _ => False

theorem fail_fails (m : Machine) (p : Bytes) (e : HttpErrno) (he : e ≠ .ok) : (m.fail p e).Fails := he

theorem Outcome.Fails.after (o : Outcome) (calls : List Call) (h : o.Fails) : (o.after calls).Fails := by
  cases o with
  | leave m p calls' => exact h
  | next m skip calls' => exact h.elim
  | abort => exact h.elim

/-- The line or the data end too late. -/
theorem valueOutcome_fails (m : Machine) (start : Bytes) (e : ValueEnd) (n : UInt32)
    (he : ∀ h parser k, e = .line h parser k ∨ e = .data h parser k → parser.nread = n)
    (hlong : httpMaxHeaderSize.toNat < n.toNat+e.taken) (hlen : n.toNat+e.taken < 2^32)
    (hn : n.toNat ≤ httpMaxHeaderSize.toNat) : (valueOutcome m start e).Fails := by
  cases e with
  | abort => exact absurd hlong (not_lt.mpr hn)
  | error parser k => exact absurd hlong (not_lt.mpr hn)
  | data h parser k =>
    obtain rfl := he h parser k (Or.inr rfl)
    unfold valueOutcome
    dsimp only
    rw [count_fails _ k _ _ hlong hlen]
    exact fail_fails _ _ _ (by decide)
  | line h parser k =>
    obtain rfl := he h parser k (Or.inl rfl)
    unfold valueOutcome
    dsimp only
    split_ifs
    · apply Outcome.Fails.after
      rw [count_fails _ k _ _ hlong hlen]
      exact fail_fails _ _ _ (by decide)
    · rw [count_fails _ k _ _ hlong hlen]
      exact fail_fails _ _ _ (by decide)

theorem ValueEnd.Same.taken (n : UInt32) (k : HeaderState) (e e' : ValueEnd) (h : e.Same n k e') :
    e'.taken = e.taken := by
  cases e with
  | line h' parser j => rw [show e' = _ from h]; rfl
  | data h' parser j => rw [show e' = _ from h]; rfl
  | error parser j =>
    rcases h with ⟨parser',j',rfl⟩
    rfl
  | abort => rw [show e' = _ from h]

theorem ValueEnd.Same.nread (n : UInt32) (k : HeaderState) (e e' : ValueEnd) (h : e.Same n k e')
    (h' : HeaderState) (parser : Parser) (j : ℕ) (he : e' = .line h' parser j ∨ e' = .data h' parser j) :
    parser.nread = n := by
  cases e with
  | line h1 parser1 j1 =>
    rcases he with rfl | rfl
    · rw [(ValueEnd.line.inj h).2.1]
    · exact absurd h (by simp [ValueEnd.Same])
  | data h1 parser1 j1 =>
    rcases he with rfl | rfl
    · exact absurd h (by simp [ValueEnd.Same])
    · rw [(ValueEnd.data.inj h).2.1]
  | error parser1 j1 => rcases he with rfl | rfl <;> exact absurd h (by simp [ValueEnd.Same])
  | abort => rcases he with rfl | rfl <;> exact absurd h (by simp [ValueEnd.Same])

theorem iteration_head (behind : UInt8) (m : Machine) (ch : UInt8) (rest : Bytes)
    (hs : parsingHeader m.parser.state = true) :
    iteration behind m ch rest = m.count 1 (ch :: rest) fun m => switch behind m ch rest := if_pos hs

theorem switch_headerField (behind : UInt8) (m : Machine) (ch : UInt8) (rest : Bytes)
    (hs : m.parser.state = .headerField) : switch behind m ch rest = sHeaderField m ch rest := by
  unfold switch
  rw [hs]

theorem switch_headerValue (behind : UInt8) (m : Machine) (ch : UInt8) (rest : Bytes)
    (hs : m.parser.state = .headerValue) : switch behind m ch rest = valueOutcome m (ch :: rest)
      (headerValueLoop m.parser.headerState m.parser (ch :: rest)) := by
  unfold switch
  rw [hs, ← sHeaderValue_eq]

theorem overlong_fails (behind : UInt8) (m : Machine) (ch : UInt8) (rest : Bytes)
    (hn : m.parser.nread.toNat ≤ httpMaxHeaderSize.toNat) (hlen : (ch :: rest).length < 2^31)
    (hm : Valid m) (h : Overlong m (ch :: rest)) : (iteration behind m ch rest).Fails := by
  rcases h with ⟨hhead,hlong⟩
  have hmax : httpMaxHeaderSize.toNat = 81920 := rfl
  rw [iteration_head behind m ch rest hhead]
  by_cases hone : httpMaxHeaderSize.toNat < m.parser.nread.toNat+1
  · rw [count_fails m 1 _ _ hone (by omega)]
    exact fail_fails _ _ _ (by decide)
  rw [count_pass m 1 _ _ (not_lt.mp hone)]
  have hadd : (m.add 1).parser.nread.toNat = m.parser.nread.toNat+1 := add_nread m 1 (by omega)
  have hpos : 0 < taken m.parser (ch :: rest) := by omega
  unfold taken at hpos hlong
  -- the state is one whose loop adds bytes of its own
  cases hs : m.parser.state with
  | headerField =>
    rw [hs] at hlong
    have ha := hm.asserted
    rw [Asserted, hs] at ha
    rcases headerFieldLoop_some m.parser.headerState m.parser.index (ch :: rest) ha with
      ⟨h',index',n,hloop,-⟩
    have hle := headerFieldLoop_le _ _ _ _ _ _ hloop
    rw [switch_headerField behind (m.add 1) ch rest hs]
    unfold sHeaderField
    dsimp only
    rw [show headerFieldLoop (m.add 1).parser.headerState (m.add 1).parser.index (ch :: rest) =
      some (h',index',n) from hloop]
    dsimp only
    rw [hloop] at hlong
    change httpMaxHeaderSize.toNat < m.parser.nread.toNat+1+n at hlong
    rw [count_fails _ n _ _ (by dsimp only; omega) (by dsimp only; omega)]
    exact fail_fails _ _ _ (by decide)
  | headerValue =>
    rw [hs] at hlong
    dsimp only at hlong
    rw [switch_headerValue behind (m.add 1) ch rest hs]
    have hsame : (headerValueLoop m.parser.headerState m.parser (ch :: rest)).Same
        (m.add 1).parser.nread m.parser.headerState
        (headerValueLoop (m.add 1).parser.headerState (m.add 1).parser (ch :: rest)) :=
      headerValueLoop_same _ _ _ _ _
    have htaken := hsame.taken _ _ _ _
    have hle := headerValueLoop_le m.parser.headerState m.parser (ch :: rest)
    apply valueOutcome_fails (m.add 1) (ch :: rest) _ (m.add 1).parser.nread
    · exact hsame.nread _ _ _ _
    · omega
    · omega
    · omega
  | _ =>
    rw [hs] at hpos
    exact absurd hpos (Nat.lt_irrefl 0)

end Cclab.HttpParser
