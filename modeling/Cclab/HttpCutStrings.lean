import Cclab.HttpCuts

/-! The states that use up more than one byte at a time, where the data are cut inside what they
use up: the call with all the data goes on as one that begins at the cut. -/
namespace Cclab.HttpParser

theorem add_add (m : Machine) (v k : ℕ) : (m.add v).add k = m.add (v+k) := by
  unfold Machine.add
  dsimp only
  rw [UInt32.add_assoc, ← UInt32.ofNat_add]

/-- The machine at this place of the name of a header. -/
def Machine.inField (m : Machine) (h : HeaderState) (index : ℕ) : Machine :=
  { m with parser := { m.parser with headerState := h, index := index } }

/-- What a call makes of the data behind the name of a header. -/
def fieldVerdict (behind : UInt8) (m : Machine) : Bytes → Option (Option Bytes)
  | [] => verdict behind m []
  | ch :: p =>
    if ch = byte ':' then
      verdict behind ({ m with headerFieldMark := none }.goto .headerValueDiscardWs) p
    else some none

theorem drop_of_drop (ch c : UInt8) (rest p : Bytes) (n : ℕ) (h : (ch :: rest).drop n = c :: p) :
    rest.drop n = p := by
  have htail := congrArg List.tail h
  rw [List.tail_drop] at htail
  exact htail

theorem drop_of_drop_nil (ch : UInt8) (rest : Bytes) (n : ℕ) (h : (ch :: rest).drop n = []) :
    rest.drop n = [] := by
  have htail := congrArg List.tail h
  rw [List.tail_drop] at htail
  exact htail

theorem verdict_headerField (behind : UInt8) (m : Machine) (ch : UInt8) (rest : Bytes)
    (hs : m.parser.state = .headerField) (h : HeaderState) (index n : ℕ)
    (hloop : headerFieldLoop m.parser.headerState m.parser.index (ch :: rest) = some (h,index,n))
    (hn : m.parser.nread.toNat+1+n < 2^32) : verdict behind m (ch :: rest) =
      if httpMaxHeaderSize.toNat < m.parser.nread.toNat+1+n then some none
      else fieldVerdict behind ((m.add (1+n)).inField h index) ((ch :: rest).drop n) := by
  have hadd := add_nread m 1 (by omega)
  rw [verdict_cons, iteration_head behind m ch rest (by rw [hs]; rfl)]
  by_cases hone : httpMaxHeaderSize.toNat < m.parser.nread.toNat+1
  · rw [count_fails m 1 _ _ hone (by omega), if_pos (by omega)]
    exact (fail_fails _ _ .headerOverflow (by decide)).verdict behind rest _
  rw [count_pass m 1 _ _ (not_lt.mp hone), switch_headerField behind (m.add 1) ch rest hs]
  unfold sHeaderField
  dsimp only
  rw [show headerFieldLoop (m.add 1).parser.headerState (m.add 1).parser.index (ch :: rest) =
    some (h,index,n) from hloop]
  dsimp only
  change (((m.add 1).inField h index).count n _ _).verdict behind rest = _
  have hcount : ((m.add 1).inField h index).parser.nread.toNat = m.parser.nread.toNat+1 := hadd
  by_cases hover : httpMaxHeaderSize.toNat < m.parser.nread.toNat+1+n
  · rw [count_fails _ n _ _ (by omega) (by omega), if_pos hover]
    exact (fail_fails _ _ .headerOverflow (by decide)).verdict behind rest _
  rw [count_pass _ n _ _ (by omega), if_neg hover]
  have hm : ((m.add 1).inField h index).add n = (m.add (1+n)).inField h index :=
    congrArg (Machine.inField · h index) (add_add m 1 n)
  rw [hm]
  cases hdrop : (ch :: rest).drop n with
  | nil =>
    change verdict behind _ (rest.drop n) = _
    rw [drop_of_drop_nil ch rest n hdrop]
    rfl
  | cons c p =>
    dsimp only [fieldVerdict]
    split_ifs
    · change verdict behind _ (rest.drop n) = _
      rw [drop_of_drop ch c rest p n hdrop]
    · exact (fail_fails _ _ .invalidHeaderToken (by decide)).verdict behind rest _

theorem Valid.inField (m : Machine) (hm : Valid m) (hs : m.parser.state = .headerField) (v : ℕ)
    (h : HeaderState) (index : ℕ) (hf : fieldState h) : Valid ((m.add v).inField h index) := by
  refine ⟨hm.ok, hm.field, hm.value, hm.url, hm.body, ?_⟩
  have hstate : ((m.add v).inField h index).parser.state = .headerField := hs
  rw [Asserted, hstate]
  exact hf

theorem Alike.inField (m m' : Machine) (hm : Alike m m') (h : HeaderState) (index : ℕ) :
    Alike (m.inField h index) (m'.inField h index) := by
  obtain ⟨n,f,v,u,b,rfl,hn,-⟩ := hm.elim
  exact Alike.of_parser _ _ rfl hn.1 hn.2

/-- A call that is given more data goes on with a name as one that begins at the cut. -/
theorem verdict_inField (behind : UInt8) (m : Machine) (ch : UInt8) (rest : Bytes)
    (hs : m.parser.state = .headerField) (h : HeaderState) (index : ℕ)
    (hloop : headerFieldLoop m.parser.headerState m.parser.index (ch :: rest) =
      some (h,index,(ch :: rest).length)) (hf : fieldState h) (c : UInt8) (w : Bytes)
    (hlen : m.parser.nread.toNat+1+((ch :: rest).length+(c :: w).length) < 2^32) :
    verdict behind m (ch :: rest ++ c :: w) =
      verdict behind ((m.add (ch :: rest).length).inField h index) (c :: w) := by
  rcases headerFieldLoop_some h index (c :: w) hf with ⟨h2,i2,n,hgo,-⟩
  have hn := headerFieldLoop_le _ _ _ _ _ _ hgo
  have hadd := add_nread m (ch :: rest).length (by omega)
  have hall : headerFieldLoop m.parser.headerState m.parser.index (ch :: (rest ++ c :: w)) =
      some (h2,i2,n+(ch :: rest).length) := by
    rw [← List.cons_append, headerFieldLoop_append, hloop]
    dsimp only [Option.bind_some]
    rw [if_neg (Nat.lt_irrefl _), hgo]
    rfl
  rw [List.cons_append, verdict_headerField behind m ch _ hs h2 i2 _ hall (by omega),
    verdict_headerField behind ((m.add (ch :: rest).length).inField h index) c w hs h2 i2 n hgo
      (by change (m.add _).parser.nread.toNat+1+n < _; omega)]
  have hcount : ((m.add (ch :: rest).length).inField h index).parser.nread.toNat+1+n =
      m.parser.nread.toNat+1+(n+(ch :: rest).length) := by
    change (m.add _).parser.nread.toNat+1+n = _
    omega
  have hmachine : (((m.add (ch :: rest).length).inField h index).add (1+n)).inField h2 i2 =
      (m.add (1+(n+(ch :: rest).length))).inField h2 i2 := by
    change ((m.add (ch :: rest).length).add (1+n)).inField h2 i2 = _
    rw [add_add]
    congr 2
    omega
  have hdrop : (ch :: (rest ++ c :: w)).drop (n+(ch :: rest).length) = (c :: w).drop n := by
    rw [← List.cons_append, Nat.add_comm, List.drop_append, List.drop_eq_nil_of_le (by omega),
      List.nil_append, Nat.add_sub_cancel_left]
  rw [hcount, hmachine, hdrop]

/-- What a call makes of the data behind the end of a value, where the count of the head was `n`
before the loop. -/
def valueVerdict (behind : UInt8) (m : Machine) (n : UInt32) (start : Bytes) :
    ValueEnd → Option (Option Bytes)
  | .abort => none
  | .error _ _ => some none
  | .data h parser k =>
    if httpMaxHeaderSize.toNat < n.toNat+k then some none
    else verdict behind { m with parser := { parser with
      headerState := h, nread := n+UInt32.ofNat k } } (start.drop k).tail
  | .line h parser k =>
    if httpMaxHeaderSize.toNat < n.toNat+k then some none
    else verdict behind { m with headerValueMark := none, parser := { parser with
      headerState := h, nread := n+UInt32.ofNat k
      state := if (start.drop k).head? = some CR then .headerAlmostDone else .headerValueLws } }
      (start.drop k).tail

theorem valueVerdict_same (behind : UInt8) (m : Machine) (n n' : UInt32) (k : HeaderState)
    (start : Bytes) (e e' : ValueEnd) (h : e.Same n' k e') :
    valueVerdict behind m n start e' = valueVerdict behind m n start e := by
  cases e with
  | line h' parser j => rw [show e' = _ from h]; rfl
  | data h' parser j => rw [show e' = _ from h]; rfl
  | error parser j =>
    rcases h with ⟨parser',j',rfl⟩
    rfl
  | abort => rw [show e' = _ from h]

/-- The end of a value that is found behind `front`. -/
theorem valueVerdict_add (behind : UInt8) (m : Machine) (n : UInt32) (front w : Bytes) (e : ValueEnd)
    (hn : n.toNat+front.length < 2^32) : valueVerdict behind m n (front ++ w) (e.add front.length) =
      valueVerdict behind m (n+UInt32.ofNat front.length) w e := by
  have hfront : (UInt32.ofNat front.length).toNat = front.length :=
    UInt32.toNat_ofNat_of_lt' (lt_of_le_of_lt (Nat.le_add_left _ _) hn)
  have hcount : (n+UInt32.ofNat front.length).toNat = n.toNat+front.length := by
    rw [UInt32.toNat_add, hfront]
    exact Nat.mod_eq_of_lt hn
  have hsum (k : ℕ) : n+UInt32.ofNat (k+front.length) =
      n+UInt32.ofNat front.length+UInt32.ofNat k := by
    rw [Nat.add_comm, UInt32.ofNat_add, UInt32.add_assoc]
  have hdrop (k : ℕ) : (front ++ w).drop (k+front.length) = w.drop k := by
    rw [Nat.add_comm, List.drop_append, List.drop_eq_nil_of_le (Nat.le_add_right _ _),
      List.nil_append, Nat.add_sub_cancel_left]
  have hle (k : ℕ) : n.toNat+(k+front.length) = (n+UInt32.ofNat front.length).toNat+k := by
    rw [hcount]
    omega
  cases e with
  | line h parser k => simp only [ValueEnd.add, valueVerdict, hle, hdrop, hsum]
  | data h parser k => simp only [ValueEnd.add, valueVerdict, hle, hdrop, hsum]
  | error parser k => rfl
  | abort => rfl

/-- A value that is too long. -/
theorem valueVerdict_long (behind : UInt8) (m : Machine) (n : UInt32) (start : Bytes) (e : ValueEnd)
    (hn : n.toNat ≤ httpMaxHeaderSize.toNat) (h : httpMaxHeaderSize.toNat < n.toNat+e.taken) :
    valueVerdict behind m n start e = some none := by
  cases e with
  | line h' parser k => exact if_pos h
  | data h' parser k => exact if_pos h
  | error parser k => rfl
  | abort => exact absurd h (not_lt.mpr hn)

theorem Outcome.verdict_after (behind : UInt8) (rest : Bytes) (calls : List Call) (o : Outcome) :
    (o.after calls).verdict behind rest = o.verdict behind rest := by
  cases o <;> rfl

theorem verdict_count (behind : UInt8) (m : Machine) (v : ℕ) (p rest : Bytes) (k : Machine → Outcome)
    (h : m.parser.nread.toNat+v < 2^32) : (m.count v p k).verdict behind rest =
      if httpMaxHeaderSize.toNat < m.parser.nread.toNat+v then some none
      else (k (m.add v)).verdict behind rest := by
  by_cases hover : httpMaxHeaderSize.toNat < m.parser.nread.toNat+v
  · rw [count_fails m v p k hover h, if_pos hover]
    exact (fail_fails _ _ .headerOverflow (by decide)).verdict behind rest _
  · rw [count_pass m v p k (not_lt.mp hover), if_neg hover]

theorem valueOutcome_verdict (behind : UInt8) (m : Machine) (ch : UInt8) (rest : Bytes) (e : ValueEnd)
    (n : UInt32) (hn : ∀ h parser k, e = .line h parser k ∨ e = .data h parser k → parser.nread = n)
    (hlen : n.toNat+e.taken < 2^32) (herror : ∀ parser k, e = .error parser k → parser.httpErrno ≠ .ok) :
    (valueOutcome m (ch :: rest) e).verdict behind rest = valueVerdict behind m n (ch :: rest) e := by
  have htail (k : ℕ) : ((ch :: rest).drop k).tail = rest.drop k := List.tail_drop
  cases e with
  | abort => rfl
  | error parser k => exact congrArg some (if_neg (herror parser k rfl))
  | data h parser k =>
    obtain rfl := hn h parser k (Or.inr rfl)
    unfold valueOutcome valueVerdict
    dsimp only
    rw [verdict_count behind _ k _ rest _ hlen, htail]
    rfl
  | line h parser k =>
    obtain rfl := hn h parser k (Or.inl rfl)
    unfold valueOutcome valueVerdict
    dsimp only
    rw [htail]
    split_ifs with hcr hover
    · rw [Outcome.verdict_after, verdict_count behind _ k _ rest _ hlen, if_pos hover]
    · rw [Outcome.verdict_after, verdict_count behind _ k _ rest _ hlen, if_neg hover]
      rfl
    · rw [verdict_count behind _ k _ rest _ hlen, if_pos ‹_›]
    · rw [verdict_count behind _ k _ rest _ hlen, if_neg ‹_›]
      rfl

theorem verdict_headerValue (behind : UInt8) (m : Machine) (ch : UInt8) (rest : Bytes) (hm : Valid m)
    (hs : m.parser.state = .headerValue)
    (hn : m.parser.nread.toNat+1+(ch :: rest).length < 2^32) : verdict behind m (ch :: rest) =
      if httpMaxHeaderSize.toNat < m.parser.nread.toNat+1 then some none
      else valueVerdict behind m (m.add 1).parser.nread (ch :: rest)
        (headerValueLoop m.parser.headerState m.parser (ch :: rest)) := by
  have ha := hm.asserted
  rw [Asserted, hs] at ha
  have hadd := add_nread m 1 (by omega)
  rw [verdict_cons, iteration_head behind m ch rest (by rw [hs]; rfl),
    verdict_count behind m 1 _ rest _ (by omega)]
  split_ifs
  · rfl
  rw [switch_headerValue behind (m.add 1) ch rest hs]
  have hsame : (headerValueLoop m.parser.headerState m.parser (ch :: rest)).Same
      (m.add 1).parser.nread m.parser.headerState
      (headerValueLoop (m.add 1).parser.headerState (m.add 1).parser (ch :: rest)) :=
    headerValueLoop_same _ _ _ _ _
  have hgood := headerValueLoop_good (m.add 1).parser.headerState (m.add 1).parser (ch :: rest) ha
  have hle := headerValueLoop_le (m.add 1).parser.headerState (m.add 1).parser (ch :: rest)
  rw [valueOutcome_verdict behind (m.add 1) ch rest _ (m.add 1).parser.nread
    (hsame.nread _ _ _ _) (by omega) ?_]
  · rw [valueVerdict_same behind (m.add 1) _ _ _ _ _ _ hsame]
    rfl
  · intro parser k he
    rw [he] at hgood
    exact hgood

theorem generalLength_append_of_none (q w : Bytes) (hq : generalLength q = q.length)
    (hlen : q.length < httpMaxHeaderSize.toNat) : generalLength (q ++ w) =
      (((w.take (httpMaxHeaderSize.toNat-q.length)).findIdx? fun c => c = CR ∨ c = LF).map
        (·+q.length)).getD (q ++ w).length := by
  have hnone : (q.findIdx? fun c => c = CR ∨ c = LF) = none := by
    unfold generalLength at hq
    rw [List.take_of_length_le (Nat.le_of_lt hlen)] at hq
    cases hi : q.findIdx? fun c => c = CR ∨ c = LF with
    | none => rfl
    | some i =>
      rw [hi] at hq
      have hlt := (List.findIdx?_eq_some_iff_getElem.mp hi).1
      exact absurd hq (Nat.ne_of_lt hlt)
  unfold generalLength
  rw [List.take_append, List.take_of_length_le (Nat.le_of_lt hlen), List.findIdx?_append, hnone,
    Option.none_or]

/-- A jump over `q` and on is one that begins behind `q`, or the head is too long by then. -/
theorem jump_add (parser : Parser) (q w : Bytes) (hq : generalLength q = q.length) :
    jump parser (q ++ w) = (jump parser w).add q.length ∨
      httpMaxHeaderSize.toNat ≤ (jump parser (q ++ w)).taken ∧
        httpMaxHeaderSize.toNat ≤ q.length+(jump parser w).taken := by
  have htaken (p : Bytes) : (jump parser p).taken = generalLength p := by
    unfold jump
    split_ifs <;> rfl
  have hlength : (q ++ w).length = w.length+q.length := by rw [List.length_append, Nat.add_comm]
  rw [htaken, htaken]
  by_cases hlen : q.length < httpMaxHeaderSize.toNat
  · rw [generalLength_append_of_none q w hq hlen]
    cases hi : (w.take (httpMaxHeaderSize.toNat-q.length)).findIdx? fun c => c = CR ∨ c = LF with
    | some i =>
      left
      -- the end of the value stands in both parts that are searched
      have hsome : (w.take httpMaxHeaderSize.toNat).findIdx? (fun c => c = CR ∨ c = LF) = some i := by
        have hsplit : w.take httpMaxHeaderSize.toNat =
            w.take (httpMaxHeaderSize.toNat-q.length) ++
              (w.drop (httpMaxHeaderSize.toNat-q.length)).take q.length := by
          rw [← List.take_add, Nat.sub_add_cancel (Nat.le_of_lt hlen)]
        rw [hsplit, List.findIdx?_append, hi]
        rfl
      have hw : generalLength w = i := by
        unfold generalLength
        rw [hsome]
        rfl
      have hqw : generalLength (q ++ w) = i+q.length := by
        rw [generalLength_append_of_none q w hq hlen, hi]
        rfl
      have hlt : i < w.length := by
        have hlt := (List.findIdx?_eq_some_iff_getElem.mp hi).1
        rw [List.length_take] at hlt
        exact lt_of_lt_of_le hlt (Nat.min_le_right _ _)
      unfold jump
      rw [hw, hqw, hlength, if_pos hlt, if_pos (Nat.add_lt_add_right hlt _)]
      rfl
    | none =>
      have hqw : generalLength (q ++ w) = (q ++ w).length := by
        rw [generalLength_append_of_none q w hq hlen, hi]
        rfl
      by_cases hw : generalLength w = w.length
      · left
        unfold jump
        rw [hw, hqw, if_neg (Nat.lt_irrefl _), if_neg (Nat.lt_irrefl _), hlength]
        rfl
      -- the end stands too far behind `q`
      · right
        have hlt : generalLength w < w.length := Nat.lt_of_le_of_ne (generalLength_le w) hw
        have hfar : httpMaxHeaderSize.toNat-q.length ≤ generalLength w := by
          by_contra hnear
          unfold generalLength at hlt hnear
          cases hj : (w.take httpMaxHeaderSize.toNat).findIdx? fun c => c = CR ∨ c = LF with
          | none =>
            rw [hj] at hlt
            exact absurd hlt (Nat.lt_irrefl _)
          | some j =>
            rw [hj, Option.getD_some] at hlt hnear
            rcases List.findIdx?_eq_some_iff_getElem.mp hj with ⟨hjlen,hend,-⟩
            have hmem : w.get ⟨j,hlt⟩ ∈ w.take (httpMaxHeaderSize.toNat-q.length) :=
              List.mem_take_iff_getElem.mpr ⟨j, by omega, rfl⟩
            rw [List.getElem_take] at hend
            exact absurd hend (List.findIdx?_eq_none_iff.mp hi _ hmem ▸ Bool.false_ne_true)
        rw [Option.map_none, Option.getD_none, hlength]
        omega
  · right
    have hle := Nat.le_add_right q.length (generalLength w)
    have hsame : generalLength (q ++ w) = (q ++ w).length := by
      unfold generalLength at hq ⊢
      rw [List.take_append_of_le_length (not_lt.mp hlen)]
      cases hi : (q.take httpMaxHeaderSize.toNat).findIdx? fun c => c = CR ∨ c = LF with
      | none => rfl
      | some i =>
        rw [hi] at hq
        have hlt := (List.findIdx?_eq_some_iff_getElem.mp hi).1
        rw [List.length_take] at hlt
        exact absurd hq (Nat.ne_of_lt (lt_of_lt_of_le hlt (Nat.min_le_right _ _)))
    rw [hsame, hlength]
    omega

/-- A value in which nothing is looked for ends where the jump says, if its first byte may stand in
it. -/
theorem headerValueLoop_general (parser : Parser) (ch : UInt8) (p : Bytes)
    (h : parser.lenientHttpHeaders = true ∨ isHeaderChar ch = true) :
    headerValueLoop .general parser (ch :: p) = jump parser (ch :: p) := by
  unfold headerValueLoop
  rw [if_pos rfl]
  split_ifs with hend hbad
  · have hzero : generalLength (ch :: p) = 0 := by
      unfold generalLength
      rw [show httpMaxHeaderSize.toNat = 81919+1 from rfl, List.take_succ_cons, List.findIdx?_cons,
        if_pos (decide_eq_true hend)]
      rfl
    have hpos : 0 < (ch :: p).length := Nat.succ_pos _
    unfold jump
    rw [hzero, if_pos hpos]
  · rcases h with h | h
    · rw [h] at hbad
      exact absurd hbad (by simp)
    · rw [h] at hbad
      exact absurd hbad (by simp)
  · rfl

theorem ValueEnd.add_add (e : ValueEnd) (v k : ℕ) : (e.add v).add k = e.add (v+k) := by
  cases e with
  | line h parser n => exact congrArg (ValueEnd.line h parser) (Nat.add_assoc n v k)
  | data h parser n => exact congrArg (ValueEnd.data h parser) (Nat.add_assoc n v k)
  | error parser n => exact congrArg (ValueEnd.error parser) (Nat.add_assoc n v k)
  | abort => rfl

theorem jump_taken (parser : Parser) (p : Bytes) (k : ℕ) :
    ((jump parser p).add k).taken = (jump parser p).taken+k := by
  unfold jump
  split_ifs <;> rfl

/-- The value goes on behind the cut as in a call that begins there, which only looks at one byte
more. -/
theorem verdict_inValue (behind : UInt8) (m : Machine) (ch : UInt8) (rest : Bytes) (hm : Valid m)
    (hs : m.parser.state = .headerValue) (h : HeaderState) (parser : Parser) (n : ℕ)
    (hloop : headerValueLoop m.parser.headerState m.parser (ch :: rest) = .data h parser n)
    (k : Machine) (hk : k = { m with parser := { parser with
      headerState := h, nread := (m.add (ch :: rest).length).parser.nread } }) (hv : Valid k)
    (hks : k.parser.state = .headerValue) (c : UInt8) (w : Bytes)
    (hgood : parser.lenientHttpHeaders = true ∨ isHeaderChar c = true ∨ h ≠ .general)
    (hcount : m.parser.nread.toNat+1+(ch :: rest).length ≤ httpMaxHeaderSize.toNat)
    (hlen : (ch :: rest).length+(c :: w).length < 2^31) :
    verdict behind m (ch :: rest ++ c :: w) = verdict behind k (c :: w) := by
  have hmax : httpMaxHeaderSize.toNat = 81920 := rfl
  have hadd := add_nread m (ch :: rest).length (by omega)
  have hadd1 := add_nread m 1 (by omega)
  have hkn : k.parser.nread.toNat = m.parser.nread.toNat+(ch :: rest).length := by
    rw [hk]
    exact hadd
  rw [List.cons_append, verdict_headerValue behind m ch _ hm hs
      (by rw [← List.cons_append, List.length_append]; omega),
    verdict_headerValue behind k c w hv hks (by omega), if_neg (by omega), if_neg (by omega),
    ← List.cons_append]
  -- from the end of the data on both are the same loop
  have hbase : (k.add 1).parser.nread = (m.add 1).parser.nread+UInt32.ofNat (ch :: rest).length := by
    rw [hk]
    change m.parser.nread+UInt32.ofNat (ch :: rest).length+UInt32.ofNat 1 =
      m.parser.nread+UInt32.ofNat 1+UInt32.ofNat (ch :: rest).length
    rw [UInt32.add_assoc, UInt32.add_assoc, UInt32.add_comm (UInt32.ofNat (ch :: rest).length)]
  have hmarks (n : UInt32) (e : ValueEnd) : valueVerdict behind k n (c :: w) e =
      valueVerdict behind m n (c :: w) e := by
    rw [hk]
    cases e <;> rfl
  have hsame : (headerValueLoop h parser (c :: w)).Same k.parser.nread h
      (headerValueLoop k.parser.headerState k.parser (c :: w)) := by
    rw [hk]
    exact headerValueLoop_same _ _ _ _ _
  rw [valueVerdict_same _ _ _ _ _ _ _ _ hsame, hmarks, hbase, ← valueVerdict_add behind m _ _ _ _
    (by omega)]
  have hgo := headerValueLoop_append m.parser.headerState m.parser (ch :: rest) (c :: w)
  rw [hloop] at hgo
  generalize headerValueLoop m.parser.headerState m.parser (ch :: rest ++ c :: w) = e at hgo ⊢
  cases hgo with
  | ended _ he => exact absurd rfl (he h parser n)
  | step => rfl
  | jumped _ front q hp hq hjump =>
    have hchar : parser.lenientHttpHeaders = true ∨ isHeaderChar c = true :=
      hgood.imp_right fun hc => hc.resolve_right (not_not_intro rfl)
    have hlength : (ch :: rest).length = q.length+front.length := by
      rw [hp, List.length_append, Nat.add_comm]
    rw [headerValueLoop_general parser c w hchar]
    rcases jump_add parser q (c :: w) hjump with hsum | ⟨hlong,hlong'⟩
    · rw [hsum, ValueEnd.add_add, hlength]
    -- the head is too long in either reading
    · rw [valueVerdict_long behind m _ _ _ (by omega) (by rw [jump_taken]; omega),
        valueVerdict_long behind m _ _ _ (by omega) (by rw [jump_taken]; omega)]

theorem headerValueLoop_line_lt (h : HeaderState) (parser : Parser) (p : Bytes) (h' : HeaderState)
    (parser' : Parser) (n : ℕ) (hl : headerValueLoop h parser p = .line h' parser' n) :
    n < p.length := by
  induction p generalizing h parser n with
  | nil => exact absurd hl (by simp [headerValueLoop])
  | cons ch p ih =>
    unfold headerValueLoop at hl
    dsimp only at hl
    split_ifs at hl with hend hchar hgeneral hlt
    · obtain ⟨-,-,rfl⟩ := ValueEnd.line.inj hl
      exact Nat.succ_pos _
    · obtain ⟨-,-,rfl⟩ := ValueEnd.line.inj hl
      exact hlt
    · cases hb : headerValueByte h parser ch with
      | none =>
        rw [hb] at hl
        exact absurd hl (by simp)
      | some r =>
        rw [hb] at hl
        cases r with
        | error e => exact absurd hl (by simp)
        | ok r =>
          change (headerValueLoop r.1 r.2 p).succ = _ at hl
          cases hr : headerValueLoop r.1 r.2 p with
          | line h1 parser1 k =>
            rw [hr] at hl
            obtain ⟨rfl,rfl,rfl⟩ := ValueEnd.line.inj hl
            exact Nat.succ_lt_succ (ih r.1 r.2 k hr)
          | data h1 parser1 k =>
            rw [hr] at hl
            exact absurd hl (by simp [ValueEnd.succ])
          | error parser1 k =>
            rw [hr] at hl
            exact absurd hl (by simp [ValueEnd.succ])
          | abort =>
            rw [hr] at hl
            exact absurd hl (by simp [ValueEnd.succ])

section states
variable (behind behind' : UInt8) (m m' : Machine) (ch : UInt8) (rest w : Bytes) (hm : Valid m)
  (hm' : Valid m') (h : Alike m m') (hlong : ¬ Overlong m (ch :: rest))
  (hlen : (ch :: rest).length+w.length < 2^31)

include hm hm' h hlong hlen

theorem cut_headerField (hs : m.parser.state = .headerField) :
    (iteration behind m ch rest).Cut behind' w rest (verdict behind' m' (ch :: rest ++ w)) := by
  have hmax : httpMaxHeaderSize.toNat = 81920 := rfl
  have hle := h.parser.count.1
  have hs' : m'.parser.state = .headerField := h.state.trans hs
  have ha := hm.asserted
  rw [Asserted, hs] at ha
  rcases headerFieldLoop_some m.parser.headerState m.parser.index (ch :: rest) ha with
    ⟨h1,i1,n,hloop,hf⟩
  have hn := headerFieldLoop_le _ _ _ _ _ _ hloop
  have hcount : m.parser.nread.toNat+1+n ≤ httpMaxHeaderSize.toNat := by
    by_contra hover
    apply hlong
    refine ⟨by rw [hs]; rfl, ?_⟩
    unfold taken
    rw [hs]
    dsimp only
    rw [hloop]
    exact not_le.mp hover
  have hadd := add_nread m 1 (by omega)
  have hsame : headerFieldLoop m'.parser.headerState m'.parser.index (ch :: rest) =
      some (h1,i1,n) := by
    rw [h.parser.eq]
    exact hloop
  have halike := (h.add m m' (1+n) (by omega)).inField _ _ h1 i1
  rw [iteration_head behind m ch rest (by rw [hs]; rfl), count_pass m 1 _ _ (by omega),
    switch_headerField behind (m.add 1) ch rest hs]
  unfold sHeaderField
  dsimp only
  rw [show headerFieldLoop (m.add 1).parser.headerState (m.add 1).parser.index (ch :: rest) =
    some (h1,i1,n) from hloop]
  dsimp only
  change (((m.add 1).inField h1 i1).count n _ _).Cut _ _ _ _
  rw [count_pass _ n _ _ (by change (m.add 1).parser.nread.toNat+n ≤ _; omega)]
  have hmachine : ((m.add 1).inField h1 i1).add n = (m.add (1+n)).inField h1 i1 :=
    congrArg (Machine.inField · h1 i1) (add_add m 1 n)
  rw [hmachine]
  cases hdrop : (ch :: rest).drop n with
  | nil =>
    have hall : n = (ch :: rest).length := Nat.le_antisymm hn (List.drop_eq_nil_iff.mp hdrop)
    have hnil := drop_of_drop_nil ch rest n hdrop
    cases w with
    | nil =>
      refine ⟨_, hm'.inField m' hs' (1+n) h1 i1 hf, halike, Or.inl ?_⟩
      rw [hnil, List.append_nil, verdict_headerField behind' m' ch rest hs' h1 i1 n hsame (by omega),
        if_neg (by omega), hdrop]
      rfl
    | cons c w =>
      refine ⟨_, hm'.inField m' hs' n h1 i1 hf, ?_, Or.inl ?_⟩
      · have hadd' := add_nread m' n (by omega)
        have hadd1 := add_nread m (1+n) (by omega)
        refine Alike.of_parser _ _ ?_ ?_ halike.parser.count.2
        · obtain ⟨k,f,v,u,b,rfl,-⟩ := h.elim
          rfl
        · change (m'.add n).parser.nread.toNat ≤ (m.add (1+n)).parser.nread.toNat
          omega
      · rw [hnil, List.nil_append, hall]
        rw [hall] at hsame
        exact verdict_inField behind' m' ch rest hs' h1 i1 hsame hf c w (by omega)
  | cons c p =>
    have hlt : n < (ch :: rest).length := by
      by_contra hge
      rw [List.drop_eq_nil_of_le (not_lt.mp hge)] at hdrop
      exact absurd hdrop (by simp)
    have hall : headerFieldLoop m'.parser.headerState m'.parser.index (ch :: (rest ++ w)) =
        some (h1,i1,n) := by
      rw [← List.cons_append, headerFieldLoop_append, hsame]
      dsimp only [Option.bind_some]
      rw [if_pos hlt]
    have hmore : (ch :: (rest ++ w)).drop n = c :: (p ++ w) := by
      rw [← List.cons_append, List.drop_append_of_le_length hn, hdrop, List.cons_append]
    rw [List.cons_append, verdict_headerField behind' m' ch (rest ++ w) hs' h1 i1 n hall (by omega),
      if_neg (by omega), hmore]
    rcases hm'.field_only m' hs' with ⟨hv,hu,hb⟩
    dsimp only [fieldVerdict]
    split_ifs
    · let m1 := { ((m'.add (1+n)).inField h1 i1) with headerFieldMark := none }.goto .headerValueDiscardWs
      have hplain : Plain m1 := ⟨hm'.ok,rfl,hv,hu,hb⟩
      refine ⟨m1, hplain.valid m1 True.intro, ?_, Or.inl ?_⟩
      · refine Alike.of_parser _ _ ?_ halike.parser.count.1 halike.parser.count.2
        obtain ⟨k,f,v,u,b,rfl,-⟩ := h.elim
        rfl
      · rw [drop_of_drop ch c rest p n hdrop]
    · rfl

theorem cut_headerValue (hs : m.parser.state = .headerValue) :
    (iteration behind m ch rest).Cut behind' w rest (verdict behind' m' (ch :: rest ++ w)) := by
  have hmax : httpMaxHeaderSize.toNat = 81920 := rfl
  have hle := h.parser.count.1
  have hs' : m'.parser.state = .headerValue := h.state.trans hs
  have ha := hm.asserted
  rw [Asserted, hs] at ha
  have hgood := headerValueLoop_good m.parser.headerState m.parser (ch :: rest) ha
  have htaken := headerValueLoop_le m.parser.headerState m.parser (ch :: rest)
  have hcount : m.parser.nread.toNat+1+
      (headerValueLoop m.parser.headerState m.parser (ch :: rest)).taken ≤ httpMaxHeaderSize.toNat := by
    by_contra hover
    apply hlong
    refine ⟨by rw [hs]; rfl, ?_⟩
    unfold taken
    rw [hs]
    exact not_le.mp hover
  have hadd := add_nread m 1 (by omega)
  have hadd' := add_nread m' 1 (by omega)
  have hsame : (headerValueLoop m.parser.headerState m.parser (ch :: rest)).Same
      (m.add 1).parser.nread m.parser.headerState
      (headerValueLoop (m.add 1).parser.headerState (m.add 1).parser (ch :: rest)) :=
    headerValueLoop_same _ _ _ _ _
  have hsame' : (headerValueLoop m.parser.headerState m.parser (ch :: rest)).Same
      m'.parser.nread m.parser.headerState
      (headerValueLoop m'.parser.headerState m'.parser (ch :: rest)) := by
    rw [h.parser.eq]
    exact headerValueLoop_same _ _ _ _ _
  have hgo := headerValueLoop_append m'.parser.headerState m'.parser (ch :: rest) w
  have hv : verdict behind' m' (ch :: rest ++ w) = valueVerdict behind' m' (m'.add 1).parser.nread
      (ch :: rest ++ w) (headerValueLoop m'.parser.headerState m'.parser (ch :: rest ++ w)) := by
    rw [List.cons_append, verdict_headerValue behind' m' ch (rest ++ w) hm' hs'
      (by rw [← List.cons_append, List.length_append]; omega), if_neg (by omega)]
  rcases hm'.value_only m' hs' with ⟨hf,hu,hb⟩
  rw [iteration_head behind m ch rest (by rw [hs]; rfl), count_pass m 1 _ _ (by omega),
    switch_headerValue behind (m.add 1) ch rest hs, hv]
  generalize headerValueLoop m'.parser.headerState m'.parser (ch :: rest ++ w) = e' at hgo hv ⊢
  have halike (parser : Parser) (n : ℕ) (h1 : HeaderState) (s : State)
      (hn : m.parser.nread.toNat+1+n ≤ httpMaxHeaderSize.toNat) (k k' : Machine)
      (hk : k.parser = { parser with
        headerState := h1, nread := (m.add 1).parser.nread+UInt32.ofNat n, state := s })
      (hk' : k'.parser = { parser with
        headerState := h1, nread := (m'.add 1).parser.nread+UInt32.ofNat n, state := s }) :
      Alike k k' := by
    have hsum := add_nread (m.add 1) n (by omega)
    have hsum' := add_nread (m'.add 1) n (by omega)
    apply Alike.of_parser
    · rw [hk, hk']
    · rw [hk, hk']
      change ((m'.add 1).add n).parser.nread.toNat ≤ ((m.add 1).add n).parser.nread.toNat
      omega
    · rw [hk]
      change ((m.add 1).add n).parser.nread.toNat ≤ _
      omega
  cases he : headerValueLoop m.parser.headerState m.parser (ch :: rest) with
  | abort =>
    rw [he] at hgood
    exact hgood.elim
  | error parser n =>
    rw [he] at hsame hsame'
    rcases hsame with ⟨parser1,n1,hsame⟩
    rcases hsame' with ⟨parser',n',hsame'⟩
    have hbad := headerValueLoop_good (m.add 1).parser.headerState (m.add 1).parser (ch :: rest) ha
    rw [hsame] at hbad ⊢
    rw [hsame'] at hgo
    cases hgo with
    | ended => exact congrArg some (if_neg hbad).symm
  | line h1 parser n =>
    have hlt := headerValueLoop_line_lt m.parser.headerState m.parser (ch :: rest) h1 parser n he
    rw [he] at hgood hsame hsame' hcount
    change m.parser.nread.toNat+1+n ≤ _ at hcount
    rw [show headerValueLoop (m.add 1).parser.headerState (m.add 1).parser (ch :: rest) = _ from hsame]
    rw [show headerValueLoop m'.parser.headerState m'.parser (ch :: rest) = _ from hsame'] at hgo
    cases hgo with
    | ended =>
      have hdrop : (ch :: rest ++ w).drop n = (ch :: rest).drop n ++ w :=
        List.drop_append_of_le_length (Nat.le_of_lt hlt)
      have hhead : ((ch :: rest ++ w).drop n).head? = ((ch :: rest).drop n).head? := by
        rw [hdrop, List.head?_append_of_ne_nil]
        exact List.drop_eq_nil_iff.not.mpr (not_le.mpr hlt)
      have htail : ((ch :: rest ++ w).drop n).tail = rest.drop n ++ w := by
        rw [hdrop, List.tail_append_of_ne_nil (List.drop_eq_nil_iff.not.mpr (not_le.mpr hlt)), List.tail_drop]
        rfl
      unfold valueVerdict valueOutcome
      dsimp only
      rw [if_neg (by omega), hhead, htail]
      have hok : parser.httpErrno = .ok := hgood.2.1.trans hm.ok
      split_ifs
      · rw [count_pass _ n _ _ (by change (m.add 1).parser.nread.toNat+n ≤ _; omega)]
        have hplain : Plain { m' with headerValueMark := none, parser := { parser with
            headerState := h1, nread := (m'.add 1).parser.nread+UInt32.ofNat n
            state := .headerAlmostDone } } := ⟨hok,hf,rfl,hu,hb⟩
        exact ⟨_, hplain.valid _ True.intro, halike parser n h1 .headerAlmostDone hcount _ _ rfl rfl, Or.inl rfl⟩
      · rw [count_pass _ n _ _ (by change (m.add 1).parser.nread.toNat+n ≤ _; omega)]
        have hplain : Plain { m' with headerValueMark := none, parser := { parser with
            headerState := h1, nread := (m'.add 1).parser.nread+UInt32.ofNat n
            state := .headerValueLws } } := ⟨hok,hf,rfl,hu,hb⟩
        exact ⟨_, hplain.valid _ True.intro, halike parser n h1 .headerValueLws hcount _ _ rfl rfl, Or.inl rfl⟩
  | data h1 parser n =>
    rw [he] at hgood hsame hsame' hcount
    change m.parser.nread.toNat+1+n ≤ _ at hcount
    rw [show headerValueLoop (m.add 1).parser.headerState (m.add 1).parser (ch :: rest) = _ from hsame]
    have hloop : headerValueLoop m'.parser.headerState m'.parser (ch :: rest) = .data h1
        { parser with nread := m'.parser.nread, headerState := m.parser.headerState } n := hsame'
    rw [hloop] at hgo
    have hn : n = (ch :: rest).length := by
      cases hgo with
      | ended _ hne => exact absurd rfl (hne _ _ _)
      | step => rfl
      | jumped => rfl
    have hnil : rest.drop n = [] := List.drop_eq_nil_of_le (by rw [hn]; exact Nat.le_succ _)
    have hstate := hgood.2.2.2 hs
    have hok : parser.httpErrno = .ok := hgood.2.1.trans hm.ok
    have hvalid (nread : UInt32) : Valid { m' with parser := { parser with
        headerState := h1, nread := nread } } := by
      refine ⟨hok, fun hne => absurd hf hne, fun _ => hstate, fun hne => absurd hu hne,
        fun hne => absurd hb hne, ?_⟩
      rw [Asserted]
      dsimp only
      rw [hstate]
      exact hgood.1
    rw [← hv]
    unfold valueOutcome
    dsimp only
    rw [count_pass _ n _ _ (by change (m.add 1).parser.nread.toNat+n ≤ _; omega)]
    cases w with
    | nil =>
      refine ⟨_, hvalid ((m'.add 1).parser.nread+UInt32.ofNat n),
        halike parser n h1 parser.state hcount _ _ rfl rfl, Or.inl ?_⟩
      rw [List.append_nil, hnil, verdict_headerValue behind' m' ch rest hm' hs' (by omega),
        if_neg (by omega), hloop]
      unfold valueVerdict
      dsimp only
      have htail : ((ch :: rest).drop n).tail = rest.drop n := List.tail_drop
      rw [if_neg (by omega), htail, hnil]
      rfl
    | cons c w =>
      by_cases hbad : h1 = .general ∧ parser.lenientHttpHeaders = false ∧ isHeaderChar c = false
      · refine ⟨_, hvalid ((m'.add 1).parser.nread+UInt32.ofNat n),
          halike parser n h1 parser.state hcount _ _ rfl rfl, Or.inr ⟨hnil,?_⟩⟩
        exact ⟨hstate, hbad.1, hbad.2.1, c, rfl, hbad.2.2⟩
      · have hk := add_nread m' (ch :: rest).length (by omega)
        have hk1 := add_nread (m.add 1) n (by omega)
        refine ⟨_, hvalid (m'.add (ch :: rest).length).parser.nread, ?_, Or.inl ?_⟩
        · refine Alike.of_parser _ _ rfl ?_ ?_
          · change (m'.add (ch :: rest).length).parser.nread.toNat ≤ ((m.add 1).add n).parser.nread.toNat
            omega
          · change ((m.add 1).add n).parser.nread.toNat ≤ _
            omega
        · rw [hnil, List.nil_append]
          refine verdict_inValue behind' m' ch rest hm' hs' h1 _ n hloop _ rfl (hvalid _) hstate c w ?_
            (by omega) (by omega)
          by_contra hne
          rcases not_or.mp hne with ⟨hl,hrest⟩
          rcases not_or.mp hrest with ⟨hc,hg⟩
          exact hbad ⟨not_not.mp hg, by simpa using hl, by simpa using hc⟩

end states

end Cclab.HttpParser
