import Cclab.HttpTrips
import Cclab.HttpLeaving
import Cclab.HttpStages

/-! A request that is followed by other data, and the same request alone: up to its completion the
parser makes the same calls for it. -/
namespace Cclab.HttpParser

/-- The machine whose marks go on behind the data. -/
def Machine.longer (m : Machine) (y : Bytes) : Machine where
  parser := m.parser
  headerFieldMark := m.headerFieldMark.map (· ++ y)
  headerValueMark := m.headerValueMark.map (· ++ y)
  urlMark := m.urlMark.map (· ++ y)
  bodyMark := m.bodyMark.map (· ++ y)

theorem slice_append (s p y : Bytes) : slice (s ++ y) (p ++ y) = slice s p := by
  unfold slice
  rw [List.length_append, List.length_append, Nat.add_sub_add_right,
    List.take_append_of_le_length (Nat.sub_le _ _)]

theorem callbackData_append (mark : Option Bytes) (on : Bytes → Call) (p y : Bytes) :
    callbackData (mark.map (· ++ y)) on (p ++ y) = callbackData mark on p := by
  cases mark with
  | none => rfl
  | some s =>
    change [on (slice (s ++ y) (p ++ y))] = _
    rw [slice_append]
    rfl

theorem getD_append (mark : Option Bytes) (p y : Bytes) :
    (mark.map (· ++ y)).getD (p ++ y) = mark.getD p ++ y := by
  cases mark <;> rfl

/-- Nothing but the data and the marks is longer. -/
def longerLink (y : Bytes) : Link where
  count n n' := n' = n
  mark a a' := a' = a.map (· ++ y)
  calls c c' := c' = c
  data p p' := p' = p ++ y
  count_zero := rfl
  mark_none := rfl
  mark_here a a' p p' ha hp := by
    rw [ha, hp, getD_append]
    rfl
  calls_nil := rfl
  calls_append c c' d d' hc hd := by rw [hc, hd]
  calls_data on a a' p p' ha hp := by rw [ha, hp, callbackData_append]
  calls_notify on _ parser n n' hn := by rw [hn]
  data_tail := tail_append y

theorem longerLink_iff (y : Bytes) (m m' : Machine) :
    (longerLink y).Machines m m' ↔ m' = m.longer y := by
  constructor
  · intro h
    obtain ⟨n,f,v,u,b,rfl,hn,hf,hv,hu,hb⟩ := h.elim
    rw [Machine.longer, ← show f = _ from hf, ← show v = _ from hv, ← show u = _ from hu,
      ← show b = _ from hb, show n = _ from hn]
  · rintro rfl
    exact ⟨⟨rfl,rfl⟩,rfl,rfl,rfl,rfl⟩

theorem Valid.longer (m : Machine) (h : Valid m) (y : Bytes) : Valid (m.longer y) := by
  have hmark (mark : Option Bytes) (hn : mark.map (· ++ y) ≠ none) : mark ≠ none := by
    rintro rfl
    exact hn rfl
  exact ⟨h.ok, fun hn => h.field (hmark _ hn), fun hn => h.value (hmark _ hn),
    fun hn => h.url (hmark _ hn), fun hn => h.body (hmark _ hn), h.asserted⟩

theorem count_next (m m1 : Machine) (v skip : ℕ) (p : Bytes) (k : Machine → Outcome)
    (calls : List Call) (h : m.count v p k = .next m1 skip calls) :
    ¬ (m.add v).parser.nread > httpMaxHeaderSize ∧ k (m.add v) = .next m1 skip calls := by
  unfold Machine.count at h
  dsimp only at h
  split_ifs at h with hover
  · exact absurd h (by simp [Machine.fail])
  · exact ⟨hover, h⟩

theorem count_goes (m : Machine) (v : ℕ) (p : Bytes) (k : Machine → Outcome)
    (h : ¬ (m.add v).parser.nread > httpMaxHeaderSize) : m.count v p k = k (m.add v) := if_neg h

/-- Where the longer call goes on without using up more than the data of the request, the shorter
one does the same. -/
def Alone (y rest : Bytes) (o o' : Outcome) : Prop :=
  ∀ m' skip calls, o' = .next m' skip calls → skip ≤ rest.length →
    ∃ m, o = .next m skip calls ∧ m' = m.longer y

theorem alone_of_link (y rest : Bytes) (o o' : Outcome) (h : (longerLink y).Outcomes o o') :
    Alone y rest o o' := by
  rintro m' skip calls rfl -
  cases o with
  | next m skip' calls' =>
    obtain ⟨hm,⟨rfl,rfl⟩,hc⟩ := h
    rw [show calls = calls' from hc]
    exact ⟨m, rfl, (longerLink_iff y m m').mp hm⟩
  | leave m p calls' => exact h.elim
  | abort => exact h.elim

theorem alone_count (y rest : Bytes) (m : Machine) (v : ℕ) (p p' : Bytes) (k k' : Machine → Outcome)
    (h : Alone y rest (k (m.add v)) (k' ((m.add v).longer y))) :
    Alone y rest (m.count v p k) ((m.longer y).count v p' k') := by
  intro m' skip calls he hskip
  rcases count_next _ m' v skip p' k' calls he with ⟨hover,hk⟩
  rw [count_goes m v p k hover]
  exact h m' skip calls hk hskip

theorem Alone.after (y rest : Bytes) (o o' : Outcome) (calls : List Call) (h : Alone y rest o o') :
    Alone y rest (o.after calls) (o'.after calls) := by
  intro m' skip calls' he hskip
  cases o' with
  | next m1 skip1 calls1 =>
    obtain ⟨rfl,rfl,rfl⟩ := Outcome.next.inj he
    rcases h m1 skip1 calls1 rfl hskip with ⟨m,rfl,hm⟩
    exact ⟨m, rfl, hm⟩
  | leave m1 p calls1 => exact absurd he (by simp [Outcome.after])
  | abort => exact absurd he (by simp [Outcome.after])

theorem alone_next (y rest : Bytes) (m m' : Machine) (skip : ℕ) (calls calls' : List Call)
    (hm : m' = m.longer y) (hc : calls' = calls) :
    Alone y rest (.next m skip calls) (.next m' skip calls') := by
  intro m1 skip1 calls1 he _
  obtain ⟨rfl,rfl,rfl⟩ := Outcome.next.inj he
  exact ⟨m, by rw [hc], hm⟩

theorem alone_leave (y rest : Bytes) (o : Outcome) (m' : Machine) (p : Bytes) (calls : List Call) :
    Alone y rest o (.leave m' p calls) := fun _ _ _ he _ => absurd he (by simp)

theorem alone_abort (y rest : Bytes) (o : Outcome) : Alone y rest o .abort :=
  fun _ _ _ he _ => absurd he (by simp)

/-- The longer call uses up data behind the request. -/
theorem alone_past (y rest : Bytes) (o : Outcome) (m' : Machine) (skip : ℕ) (calls : List Call)
    (h : rest.length < skip) : Alone y rest o (.next m' skip calls) := by
  intro _ _ _ he hskip
  obtain ⟨rfl,rfl,rfl⟩ := Outcome.next.inj he
  exact absurd hskip (not_le.mpr h)

section states
variable (m : Machine) (ch : UInt8) (rest y : Bytes)

theorem alone_sHeaderField :
    Alone y rest (sHeaderField m ch rest) (sHeaderField (m.longer y) ch (rest ++ y)) := by
  have hlength : (ch :: rest).length = rest.length+1 := rfl
  unfold sHeaderField
  dsimp only
  rw [← List.cons_append, show (m.longer y).parser = m.parser from rfl, headerFieldLoop_append]
  cases hl : headerFieldLoop m.parser.headerState m.parser.index (ch :: rest) with
  | none => exact alone_abort y rest _
  | some r =>
    dsimp only [Option.bind_some]
    by_cases hn : r.2.2 < (ch :: rest).length
    -- the name ends inside the request
    · rw [if_pos hn]
      dsimp only
      rw [List.drop_append_of_le_length (Nat.le_of_lt hn)]
      apply alone_count y rest { m with parser := { m.parser with headerState := r.1, index := r.2.1 } }
      cases hd : (ch :: rest).drop r.2.2 with
      | nil => exact absurd (List.drop_eq_nil_iff.mp hd) (not_le.mpr hn)
      | cons c p =>
        dsimp only [List.cons_append]
        split_ifs
        · exact alone_next y rest _ _ r.2.2 _ _ rfl
            (callbackData_append m.headerFieldMark .headerField (c :: p) y)
        · exact alone_leave y rest _ _ _ _
    · rw [if_neg hn]
      cases headerFieldLoop r.1 r.2.1 y with
      | none => exact alone_abort y rest _
      | some s =>
        have hpast : rest.length < s.2.2+r.2.2 := by omega
        dsimp only [Option.map_some]
        intro m' skip calls he
        rcases count_next _ m' _ skip _ _ calls he with ⟨-,hk⟩
        revert hk
        cases (ch :: rest ++ y).drop (s.2.2+r.2.2) with
        | nil =>
          intro hk
          exact alone_past y rest _ _ _ _ hpast m' skip calls hk
        | cons c p =>
          dsimp only
          split_ifs
          · intro hk
            exact alone_past y rest _ _ _ _ hpast m' skip calls hk
          · intro hk
            exact absurd hk (by simp [Machine.fail])

theorem valueOutcome_next (k : Machine) (start : Bytes) (e : ValueEnd) (m' : Machine) (skip : ℕ)
    (calls : List Call) (h : valueOutcome k start e = .next m' skip calls) : e.taken = skip := by
  cases e with
  | abort => exact absurd h (by simp [valueOutcome])
  | error parser n => exact absurd h (by simp [valueOutcome])
  | data h' parser n =>
    unfold valueOutcome at h
    rcases count_next _ m' n skip _ _ calls h with ⟨-,hk⟩
    exact (Outcome.next.inj hk).2.1
  | line h' parser n =>
    unfold valueOutcome at h
    dsimp only at h
    split_ifs at h
    · have hcount := h
      unfold Machine.count at hcount
      dsimp only at hcount
      split_ifs at hcount
      · exact absurd hcount (by simp [Machine.fail, Outcome.after])
      · exact (Outcome.next.inj hcount).2.1
    · rcases count_next _ m' n skip _ _ calls h with ⟨-,hk⟩
      exact (Outcome.next.inj hk).2.1

/-- A jump that takes all the data takes them when there are more as well. -/
theorem jump_le (parser : Parser) (q : Bytes) (h : generalLength q = q.length) :
    q.length ≤ (jump parser (q ++ y)).taken := by
  have hle : q.length ≤ generalLength (q ++ y) := by
    unfold generalLength at h ⊢
    cases hi : (q.take httpMaxHeaderSize.toNat).findIdx? fun c => c = CR ∨ c = LF with
    | some i =>
      have hlt := (List.findIdx?_eq_some_iff_getElem.mp hi).1
      rw [hi] at h
      rw [show i = q.length from h, List.length_take] at hlt
      omega
    | none =>
      rw [List.take_append, List.findIdx?_append, hi]
      cases hj : (y.take (httpMaxHeaderSize.toNat-q.length)).findIdx? fun c => c = CR ∨ c = LF with
      | none =>
        change q.length ≤ (q ++ y).length
        rw [List.length_append]
        exact Nat.le_add_right _ _
      | some j =>
        change q.length ≤ j+(q.take httpMaxHeaderSize.toNat).length
        have hlt := (List.findIdx?_eq_some_iff_getElem.mp hj).1
        rw [List.length_take] at hlt ⊢
        omega
  unfold jump
  split_ifs
  · exact hle
  · exact hle

theorem alone_valueOutcome (e : ValueEnd) (he : ∀ h parser n, e ≠ .data h parser n) :
    Alone y rest (valueOutcome m (ch :: rest) e) (valueOutcome (m.longer y) (ch :: rest ++ y) e) := by
  cases e with
  | abort => exact alone_abort y rest _
  | error parser n => exact alone_leave y rest _ _ _ _
  | data h parser n => exact absurd rfl (he h parser n)
  | line h parser n =>
    by_cases hn : n ≤ rest.length
    · have hlt : n < (ch :: rest).length := Nat.lt_succ_of_le hn
      unfold valueOutcome
      dsimp only
      rw [List.drop_append_of_le_length (Nat.le_of_lt hlt)]
      cases hd : (ch :: rest).drop n with
      | nil => exact absurd (List.drop_eq_nil_iff.mp hd) (not_le.mpr hlt)
      | cons c p =>
        have hcall : callbackData (m.longer y).headerValueMark .headerValue (c :: p ++ y) =
            callbackData m.headerValueMark .headerValue (c :: p) := callbackData_append _ _ _ _
        rw [hcall]
        simp only [List.cons_append, List.head?_cons, Option.some.injEq]
        split_ifs
        · apply Alone.after
          apply alone_count y rest { m with
            headerValueMark := none
            parser := { parser with state := .headerAlmostDone, headerState := h } }
          exact alone_next y rest _ _ n _ _ rfl rfl
        · apply alone_count y rest { m with parser := { parser with state := .headerAlmostDone } }
          exact alone_next y rest _ _ n _ _ rfl rfl
    · intro m' skip calls hk hskip
      have htaken := valueOutcome_next _ _ _ m' skip calls hk
      change n = skip at htaken
      omega

theorem alone_sHeaderValue :
    Alone y rest (sHeaderValue m ch rest) (sHeaderValue (m.longer y) ch (rest ++ y)) := by
  have hlength : (ch :: rest).length = rest.length+1 := rfl
  rw [sHeaderValue_eq, sHeaderValue_eq, ← List.cons_append,
    show (m.longer y).parser = m.parser from rfl]
  -- a value that goes on behind the request takes all of its data
  have hpast (o : Outcome) (e : ValueEnd) (he : (ch :: rest).length ≤ e.taken) :
      Alone y rest o (valueOutcome (m.longer y) (ch :: rest ++ y) e) := by
    intro m' skip calls hk hskip
    have htaken := valueOutcome_next _ _ _ m' skip calls hk
    omega
  have hadd (o : Outcome) (e : ValueEnd) (k : ℕ) (hk : (ch :: rest).length ≤ e.taken+k) :
      Alone y rest o (valueOutcome (m.longer y) (ch :: rest ++ y) (e.add k)) := by
    cases e with
    | abort => exact alone_abort y rest _
    | error parser n => exact alone_leave y rest _ _ _ _
    | line h parser n => exact hpast o _ hk
    | data h parser n => exact hpast o _ hk
  have hgoes := headerValueLoop_append m.parser.headerState m.parser (ch :: rest) y
  revert hgoes
  generalize headerValueLoop m.parser.headerState m.parser (ch :: rest) = e
  generalize headerValueLoop m.parser.headerState m.parser (ch :: rest ++ y) = e'
  intro hgoes
  cases hgoes with
  | ended _ he => exact alone_valueOutcome m ch rest y e he
  | step h parser => exact hadd _ _ _ (Nat.le_add_left _ _)
  | jumped parser front q hp hq hjump =>
    apply hadd
    have hlen : (ch :: rest).length = front.length+q.length := by rw [hp, List.length_append]
    have hle := jump_le y parser q hjump
    omega

/-- What is taken of a body that ends inside the request. -/
theorem take_longer (content : UInt64) (p : Bytes) (hlen : (p ++ y).length < 2^64)
    (h : (min content (UInt64.ofNat (p ++ y).length)).toNat ≤ p.length) :
    min content (UInt64.ofNat (p ++ y).length) = min content (UInt64.ofNat p.length) := by
  have hall : (p ++ y).length = p.length+y.length := List.length_append
  have htake := take_toNat content (p ++ y) hlen
  have htake' := take_toNat content p (by omega)
  exact UInt64.toNat_inj.mp (by omega)

theorem takeBody_longer (hlen : (ch :: rest ++ y).length < 2^64)
    (h : (min m.parser.contentLength (UInt64.ofNat (ch :: rest ++ y).length)).toNat ≤ rest.length+1) :
    takeBody (m.longer y) ch (rest ++ y) = ((takeBody m ch rest).1.longer y,
      (takeBody m ch rest).2.1, (takeBody m ch rest).2.2 ++ y) := by
  have hsame := take_longer y m.parser.contentLength (ch :: rest) hlen h
  rw [hsame] at h
  unfold takeBody
  dsimp only
  rw [← List.cons_append, show (m.longer y).parser = m.parser from rfl, hsame,
    List.drop_append_of_le_length h, show (m.longer y).bodyMark = m.bodyMark.map (· ++ y) from rfl,
    getD_append]
  rfl

/-- The loop goes past the request where the body does. -/
theorem body_past (h : ¬ (min m.parser.contentLength (UInt64.ofNat (ch :: rest ++ y).length)).toNat ≤
    rest.length+1) : rest.length < (takeBody (m.longer y) ch (rest ++ y)).2.1 := by
  change rest.length < (min m.parser.contentLength (UInt64.ofNat (ch :: rest ++ y).length)).toNat-1
  omega

theorem alone_sBodyIdentity (hlen : (ch :: rest ++ y).length < 2^64) :
    Alone y rest (sBodyIdentity m ch rest) (sBodyIdentity (m.longer y) ch (rest ++ y)) := by
  unfold sBodyIdentity
  rw [show (m.longer y).parser = m.parser from rfl]
  by_cases hassert : m.parser.contentLength = 0 ∨ m.parser.contentLength = ullongMax
  · rw [if_pos hassert, if_pos hassert]
    exact alone_abort y rest _
  rw [if_neg hassert, if_neg hassert]
  by_cases h : (min m.parser.contentLength (UInt64.ofNat (ch :: rest ++ y).length)).toNat ≤ rest.length+1
  · rw [takeBody_longer m ch rest y hlen h]
    dsimp only
    rw [show ((takeBody m ch rest).1.longer y).parser = (takeBody m ch rest).1.parser from rfl]
    split_ifs
    · rw [show ((takeBody m ch rest).1.longer y).bodyMark = (takeBody m ch rest).1.bodyMark.map (· ++ y) from rfl,
        callbackData_append]
      apply Alone.after
      exact alone_next y rest _ _ _ _ _ rfl rfl
    · exact alone_next y rest _ _ _ _ _ rfl rfl
  · have hpast := body_past m ch rest y h
    dsimp only
    by_cases hzero : (takeBody (m.longer y) ch (rest ++ y)).1.parser.contentLength = 0
    · rw [if_pos hzero]
      exact alone_past y rest _ _ _ _ hpast
    · rw [if_neg hzero]
      exact alone_past y rest _ _ _ _ hpast

theorem alone_sChunkData (hlen : (ch :: rest ++ y).length < 2^64) :
    Alone y rest (sChunkData m ch rest) (sChunkData (m.longer y) ch (rest ++ y)) := by
  unfold sChunkData
  rw [show (m.longer y).parser = m.parser from rfl]
  split_ifs
  · exact alone_abort y rest _
  by_cases h : (min m.parser.contentLength (UInt64.ofNat (ch :: rest ++ y).length)).toNat ≤ rest.length+1
  · rw [takeBody_longer m ch rest y hlen h]
    dsimp only
    rw [show ((takeBody m ch rest).1.longer y).parser = (takeBody m ch rest).1.parser from rfl]
    by_cases hzero : (takeBody m ch rest).1.parser.contentLength = 0
    · rw [if_pos hzero, if_pos hzero]
      exact alone_next y rest _ _ _ _ _ rfl rfl
    · rw [if_neg hzero, if_neg hzero]
      exact alone_next y rest _ _ _ _ _ rfl rfl
  · exact alone_past y rest _ _ _ _ (body_past m ch rest y h)

theorem alone_sBodyIdentityEof :
    Alone y rest (sBodyIdentityEof m ch rest) (sBodyIdentityEof (m.longer y) ch (rest ++ y)) := by
  have hall : (rest ++ y).length = rest.length+y.length := List.length_append
  unfold sBodyIdentityEof
  rw [← List.cons_append, show (m.longer y).bodyMark = m.bodyMark.map (· ++ y) from rfl, getD_append]
  by_cases hy : y.length = 0
  · rw [show (rest ++ y).length = rest.length by omega]
    exact alone_next y rest _ _ _ _ _ rfl rfl
  · exact alone_past y rest _ _ _ _ (by omega)

end states

/-- The longer call looks at the byte behind the request where the shorter one looks behind its
data. -/
theorem alone_switch (behind : UInt8) (m : Machine) (ch : UInt8) (rest y : Bytes)
    (hlen : (ch :: rest ++ y).length < 2^64) :
    Alone y rest (switch (y.headD behind) m ch rest) (switch behind (m.longer y) ch (rest ++ y)) := by
  by_cases hlong : longState m.parser.state = false
  · apply alone_of_link
    apply Link.switch _ _ _ _ _ _ _ _ ((longerLink_iff y m _).mpr rfl) rfl hlong
    · intro _
      cases rest with
      | nil => cases y <;> rfl
      | cons c rest => rfl
    · intro _
      exact Iff.rfl
  · unfold switch
    dsimp only
    rw [show (m.longer y).parser = m.parser from rfl]
    cases hs : m.parser.state with
    | headerField => exact alone_sHeaderField m ch rest y
    | headerValue => exact alone_sHeaderValue m ch rest y
    | bodyIdentity => exact alone_sBodyIdentity m ch rest y hlen
    | bodyIdentityEof => exact alone_sBodyIdentityEof m ch rest y
    | chunkData => exact alone_sChunkData m ch rest y hlen
    | _ =>
      rw [hs] at hlong
      exact absurd rfl hlong

theorem alone_iteration (behind : UInt8) (m : Machine) (ch : UInt8) (rest y : Bytes)
    (hlen : (ch :: rest ++ y).length < 2^64) : Alone y rest (iteration (y.headD behind) m ch rest)
      (iteration behind (m.longer y) ch (rest ++ y)) := by
  unfold iteration
  rw [show (m.longer y).parser = m.parser from rfl]
  split_ifs
  · exact alone_count y rest m 1 _ _ _ _ (alone_switch behind (m.add 1) ch rest y hlen)
  · exact alone_switch behind m ch rest y hlen

/-- What is left of the data behind a call. -/
def LeftOf (p : Bytes) (c : Call × Bytes) : Prop := c.2 <:+ p ∧ (c.2.length < p.length ∨ c.2 = [])

theorem leftOf_end (p : Bytes) (calls : List Call) : ∀ c ∈ withUnread [] calls, LeftOf p c := by
  intro c hc
  rcases List.mem_map.mp hc with ⟨d,-,rfl⟩
  exact ⟨List.nil_suffix, Or.inr rfl⟩

theorem loop_unread (behind : UInt8) (n : ℕ) (m : Machine) (p : Bytes)
    (r : Parser × List (Call × Bytes) × Bytes) (h : loop behind n m p = some r) :
    ∀ c ∈ r.2.1, LeftOf p c := by
  have hflush (k : Machine) (p : Bytes) (r : Parser × List (Call × Bytes) × Bytes)
      (h : (k.flush.map fun calls => (k.parser, withUnread [] calls, p)) = some r) :
      ∀ c ∈ r.2.1, LeftOf p c := by
    rcases Option.map_eq_some_iff.mp h with ⟨calls,-,rfl⟩
    exact leftOf_end p calls
  induction n generalizing m p r with
  | zero => exact hflush m p r h
  | succ n ih =>
    cases p with
    | nil => exact hflush m [] r h
    | cons ch rest =>
      rw [loop] at h
      cases hi : iteration behind m ch rest with
      | next m' skip calls =>
        rw [hi] at h
        rcases Option.map_eq_some_iff.mp h with ⟨s,hs,rfl⟩
        have hsuffix : rest.drop skip <:+ ch :: rest :=
          (List.drop_suffix _ _).trans (List.suffix_cons _ _)
        have hlen : (rest.drop skip).length < (ch :: rest).length := by
          rw [List.length_drop, List.length_cons]
          omega
        intro c hc
        rcases List.mem_append.mp hc with hc | hc
        · rcases List.mem_map.mp hc with ⟨d,-,rfl⟩
          exact ⟨hsuffix, Or.inl hlen⟩
        · rcases ih m' _ s hs c hc with ⟨hleft,hless⟩
          exact ⟨hleft.trans hsuffix, Or.inl (lt_of_le_of_lt hleft.length_le hlen)⟩
      | leave m' p calls =>
        rw [hi] at h
        obtain rfl := Option.some.inj h
        exact leftOf_end _ calls
      | abort =>
        rw [hi] at h
        exact absurd h (by simp)

theorem loop_fresh_nil (behind : UInt8) (n : ℕ) : loop behind n fresh [] = some (httpParserInit,[],[]) := by
  cases n <;> rfl

/-- Over the data of the request, up to its completion. -/
theorem alone_loop (behind : UInt8) (n : ℕ) (m : Machine) (p y : Bytes) (hm : Valid m) (hy : y ≠ [])
    (hlen : (p ++ y).length < 2^64) (r : Parser × List (Call × Bytes) × Bytes)
    (hr : loop behind n (m.longer y) (p ++ y) = some r) (before after : List (Call × Bytes))
    (q : Parser) (he : r.2.1 = before ++ (.messageComplete q,y) :: after) :
    ∃ tr unread, loop (y.headD behind) n m p = some (httpParserInit,tr,unread) ∧
      tr.map Prod.fst = before.map Prod.fst ++ [.messageComplete q] := by
  have hpos := List.length_pos_iff.mpr hy
  -- the completion leaves less than the data
  have hshort (p' : Bytes) (calls : List (Call × Bytes)) (hl : ∀ c ∈ calls, LeftOf p' c)
      (hmem : (Call.messageComplete q,y) ∈ calls) : y.length < p'.length :=
    (hl _ hmem).2.resolve_right hy
  have hcall : (Call.messageComplete q,y) ∈ r.2.1 := by
    rw [he]
    simp
  induction n generalizing m p r before with
  | zero =>
    rcases Option.map_eq_some_iff.mp hr with ⟨calls,-,rfl⟩
    rcases List.mem_map.mp hcall with ⟨d,-,hd⟩
    exact absurd (Prod.mk.inj hd).2.symm hy
  | succ n ih =>
    cases p with
    | nil =>
      have hless := hshort _ _ (loop_unread behind (n+1) _ _ r hr) hcall
      exact absurd hless (Nat.lt_irrefl _)
    | cons ch rest =>
      have hkeeps := keeps_iteration (y.headD behind) m ch rest hm
      have halone := alone_iteration behind m ch rest y hlen
      rw [List.cons_append, loop] at hr
      cases hi : iteration behind (m.longer y) ch (rest ++ y) with
      | leave m' p calls =>
        rw [hi] at hr
        obtain rfl := Option.some.inj hr
        rcases List.mem_map.mp hcall with ⟨d,-,hd⟩
        exact absurd (Prod.mk.inj hd).2.symm hy
      | abort =>
        rw [hi] at hr
        exact absurd hr (by simp)
      | next m1 skip calls =>
        rw [hi] at hr halone
        rcases Option.map_eq_some_iff.mp hr with ⟨s,hs,rfl⟩
        have hall : ((rest ++ y).drop skip).length = rest.length+y.length-skip := by
          rw [List.length_drop, List.length_append]
        -- the request completes behind this iteration
        have htail (front : List (Call × Bytes))
            (hfront : before = withUnread ((rest ++ y).drop skip) calls ++ front)
            (hback : s.2.1 = front ++ (.messageComplete q,y) :: after) :
            ∃ tr unread, loop (y.headD behind) (n+1) m (ch :: rest) = some (httpParserInit,tr,unread) ∧
              tr.map Prod.fst = before.map Prod.fst ++ [.messageComplete q] := by
          have hmem : (Call.messageComplete q,y) ∈ s.2.1 := by
            rw [hback]
            simp
          have hle := (loop_unread behind n m1 _ s hs _ hmem).1.length_le
          have hskip : skip ≤ rest.length := by
            dsimp only at hle
            omega
          rcases halone m1 skip calls rfl hskip with ⟨k,hk,rfl⟩
          rw [hk] at hkeeps
          rw [List.drop_append_of_le_length hskip] at hs
          have hlen' : (rest.drop skip ++ y).length < 2^64 := by
            rw [List.length_append, List.length_drop]
            rw [List.length_append, List.length_cons] at hlen
            omega
          rcases ih k (rest.drop skip) hkeeps.1 hlen' s hs front hback hmem with ⟨tr,unread,hloop,htr⟩
          refine ⟨withUnread (rest.drop skip) calls ++ tr, unread, ?_, ?_⟩
          · rw [loop, hk]
            dsimp only
            rw [hloop]
            rfl
          · rw [hfront, List.map_append, List.map_append, htr, map_withUnread, map_withUnread,
              List.append_assoc]
        rcases List.append_eq_append_iff.mp he with ⟨front,hfront,hback⟩ | ⟨front,hfront,hback⟩
        · exact htail front hfront hback
        · cases front with
          | nil => exact htail [] (by rw [hfront, List.append_nil, List.append_nil]) hback.symm
          | cons c front =>
            obtain ⟨rfl,-⟩ := List.cons.inj hback
            rcases withUnread_split _ y calls before front _ hfront with ⟨hu,-⟩
            have hlast : y.length = rest.length+y.length-skip := by rw [← hall, ← hu]
            rcases halone m1 skip calls rfl (by omega) with ⟨k,hk,rfl⟩
            rw [hk] at hkeeps
            have hcalls := congrArg (List.map Prod.fst) hfront
            rw [map_withUnread, List.map_append, List.map_cons] at hcalls
            -- the completion is the last call, and nothing of the request is left
            rcases hkeeps.2 _ q _ hcalls with ⟨hend,rfl⟩
            have hnil : rest.drop skip = [] := List.drop_eq_nil_iff.mpr (by omega)
            refine ⟨withUnread [] calls ++ [], [], ?_, ?_⟩
            · rw [loop, hk]
              dsimp only
              rw [hnil, loop_fresh_nil]
              rfl
            · rw [List.append_nil, map_withUnread, hcalls, hend]

end Cclab.HttpParser
