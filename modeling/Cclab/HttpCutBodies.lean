import Cclab.HttpCutStrings

/-! The bodies where the data are cut inside them, and with them any byte that is read. -/
namespace Cclab.HttpParser

/-- What a body still has to take. -/
theorem left_toNat (content : UInt64) (p : Bytes) (hp : p.length < 2^31) :
    (content-min content (UInt64.ofNat p.length)).toNat = content.toNat-p.length := by
  have htake := take_toNat content p (lt_trans hp (by decide))
  have hle : min content (UInt64.ofNat p.length) ≤ content := by
    rw [UInt64.le_iff_toNat_le, htake]
    exact Nat.min_le_left _ _
  rw [UInt64.toNat_sub_of_le _ _ hle, htake]
  omega

theorem switch_bodyIdentity (behind : UInt8) (m : Machine) (ch : UInt8) (rest : Bytes)
    (hs : m.parser.state = .bodyIdentity) : iteration behind m ch rest = sBodyIdentity m ch rest := by
  unfold iteration
  rw [if_neg (by rw [hs]; decide)]
  unfold switch
  rw [hs]

theorem switch_chunkData (behind : UInt8) (m : Machine) (ch : UInt8) (rest : Bytes)
    (hs : m.parser.state = .chunkData) : iteration behind m ch rest = sChunkData m ch rest := by
  unfold iteration
  rw [if_neg (by rw [hs]; decide)]
  unfold switch
  rw [hs]

/-- The machine inside a body, with the mark and with what is still to come. -/
def Machine.inBody (m : Machine) (mark : Bytes) (content : UInt64) : Machine :=
  { m with bodyMark := some mark, parser := { m.parser with contentLength := content } }

theorem toNat_pos_of_ne (c : UInt64) (h : c ≠ 0) : 0 < c.toNat := by
  by_contra hz
  apply h
  apply UInt64.toNat_inj.mp
  exact Nat.le_zero.mp (not_lt.mp hz)

theorem sBodyIdentity_ends (m : Machine) (ch : UInt8) (rest : Bytes) (hm : Valid m)
    (hs : m.parser.state = .bodyIdentity) (hlen : (ch :: rest).length < 2^31)
    (hle : m.parser.contentLength.toNat ≤ (ch :: rest).length) :
    ∃ calls, sBodyIdentity m ch rest = .next fresh (m.parser.contentLength.toNat-1) calls := by
  rcases hm.body_only m (by rw [hs]; rfl) with ⟨hf,hv,hu⟩
  have ha := hm.asserted
  rw [Asserted, hs] at ha
  have hzero := left_toNat m.parser.contentLength (ch :: rest) hlen
  have htake := take_toNat m.parser.contentLength (ch :: rest) (lt_trans hlen (by decide))
  unfold sBodyIdentity takeBody
  dsimp only
  rw [if_neg (not_or.mpr ha), if_pos (UInt64.toNat_inj.mp (by rw [hzero]; exact Nat.sub_eq_zero_of_le hle)),
    htake, Nat.min_eq_left hle]
  unfold sMessageDone
  simp only [Machine.complete, Machine.goto, hf, hv, hu]
  exact ⟨_,rfl⟩

theorem sBodyIdentity_goes (m : Machine) (ch : UInt8) (rest : Bytes) (hm : Valid m)
    (hs : m.parser.state = .bodyIdentity) (hlen : (ch :: rest).length < 2^31)
    (hlt : (ch :: rest).length < m.parser.contentLength.toNat) : sBodyIdentity m ch rest =
      .next (m.inBody (m.bodyMark.getD (ch :: rest))
        (m.parser.contentLength-min m.parser.contentLength (UInt64.ofNat (ch :: rest).length)))
        rest.length [] := by
  have ha := hm.asserted
  rw [Asserted, hs] at ha
  have hleft := left_toNat m.parser.contentLength (ch :: rest) hlen
  have htake := take_toNat m.parser.contentLength (ch :: rest) (lt_trans hlen (by decide))
  have hne : ¬ m.parser.contentLength-min m.parser.contentLength (UInt64.ofNat (ch :: rest).length) = 0 := by
    intro h
    rw [h] at hleft
    change 0 = _ at hleft
    omega
  unfold sBodyIdentity takeBody
  dsimp only
  rw [if_neg (not_or.mpr ha), if_neg hne, htake, Nat.min_eq_right (Nat.le_of_lt hlt)]
  rfl

theorem sChunkData_ends (m : Machine) (ch : UInt8) (rest : Bytes) (hm : Valid m)
    (hs : m.parser.state = .chunkData) (hlen : (ch :: rest).length < 2^31)
    (hle : m.parser.contentLength.toNat ≤ (ch :: rest).length) :
    sChunkData m ch rest =
      .next ((m.inBody (m.bodyMark.getD (ch :: rest)) 0).goto .chunkDataAlmostDone)
        (m.parser.contentLength.toNat-1) [] := by
  have ha := hm.asserted
  rw [Asserted, hs] at ha
  have hleft := left_toNat m.parser.contentLength (ch :: rest) hlen
  have htake := take_toNat m.parser.contentLength (ch :: rest) (lt_trans hlen (by decide))
  have hzero : m.parser.contentLength-min m.parser.contentLength (UInt64.ofNat (ch :: rest).length) = 0 :=
    UInt64.toNat_inj.mp (by rw [hleft]; exact Nat.sub_eq_zero_of_le hle)
  unfold sChunkData takeBody
  dsimp only
  rw [if_neg (by simp [ha]), if_pos hzero, hzero, htake, Nat.min_eq_left hle]
  rfl

theorem sChunkData_goes (m : Machine) (ch : UInt8) (rest : Bytes) (hm : Valid m)
    (hs : m.parser.state = .chunkData) (hlen : (ch :: rest).length < 2^31)
    (hlt : (ch :: rest).length < m.parser.contentLength.toNat) : sChunkData m ch rest =
      .next (m.inBody (m.bodyMark.getD (ch :: rest))
        (m.parser.contentLength-min m.parser.contentLength (UInt64.ofNat (ch :: rest).length)))
        rest.length [] := by
  have ha := hm.asserted
  rw [Asserted, hs] at ha
  have hleft := left_toNat m.parser.contentLength (ch :: rest) hlen
  have htake := take_toNat m.parser.contentLength (ch :: rest) (lt_trans hlen (by decide))
  have hne : ¬ m.parser.contentLength-min m.parser.contentLength (UInt64.ofNat (ch :: rest).length) = 0 := by
    intro h
    rw [h] at hleft
    change 0 = _ at hleft
    omega
  unfold sChunkData takeBody
  dsimp only
  rw [if_neg (by simp [ha]), if_neg hne, htake, Nat.min_eq_right (Nat.le_of_lt hlt)]
  rfl

/-- The state takes the data for a body until nothing of it is to come, and then leaves the
machine `done`. -/
structure TakesBody (s : State) (done : Machine → Bytes → Machine) : Prop where
  content : ∀ m, Valid m → m.parser.state = s → m.parser.contentLength ≠ 0
  ends : ∀ behind m ch rest, Valid m → m.parser.state = s → (ch :: rest).length < 2^31 →
    m.parser.contentLength.toNat ≤ (ch :: rest).length → ∃ calls, iteration behind m ch rest =
      .next (done m (m.bodyMark.getD (ch :: rest))) (m.parser.contentLength.toNat-1) calls
  goes : ∀ behind m ch rest, Valid m → m.parser.state = s → (ch :: rest).length < 2^31 →
    (ch :: rest).length < m.parser.contentLength.toNat → iteration behind m ch rest =
      .next (m.inBody (m.bodyMark.getD (ch :: rest))
        (m.parser.contentLength-min m.parser.contentLength (UInt64.ofNat (ch :: rest).length)))
        rest.length []
  alike : ∀ m m' mark mark', Alike m m' → Alike (done m mark) (done m' mark')
  inBody : ∀ m mark mark' content, done (m.inBody mark content) mark' = done m mark'

theorem takesBody_identity : TakesBody .bodyIdentity fun _ _ => fresh where
  content m hm hs := by
    have ha := hm.asserted
    rw [Asserted, hs] at ha
    exact ha.1
  ends behind m ch rest hm hs hlen hle := by
    rw [switch_bodyIdentity behind m ch rest hs]
    exact sBodyIdentity_ends m ch rest hm hs hlen hle
  goes behind m ch rest hm hs hlen hlt := by
    rw [switch_bodyIdentity behind m ch rest hs]
    exact sBodyIdentity_goes m ch rest hm hs hlen hlt
  alike _ _ _ _ _ := Alike.of_parser _ _ rfl (Nat.le_refl _) (by decide)
  inBody _ _ _ _ := rfl

theorem takesBody_chunk :
    TakesBody .chunkData fun m mark => (m.inBody mark 0).goto .chunkDataAlmostDone where
  content m hm hs := by
    have ha := hm.asserted
    rw [Asserted, hs] at ha
    exact ha.2.1
  ends behind m ch rest hm hs hlen hle := by
    rw [switch_chunkData behind m ch rest hs]
    exact ⟨_, sChunkData_ends m ch rest hm hs hlen hle⟩
  goes behind m ch rest hm hs hlen hlt := by
    rw [switch_chunkData behind m ch rest hs]
    exact sChunkData_goes m ch rest hm hs hlen hlt
  alike m m' mark mark' h := by
    obtain ⟨n,f,v,u,b,rfl,hn,-⟩ := h.elim
    exact Alike.of_parser _ _ rfl hn.1 hn.2
  inBody _ _ _ _ := rfl

theorem Alike.inBody (m m' : Machine) (h : Alike m m') (mark mark' : Bytes) (content : UInt64) :
    Alike (m.inBody mark content) (m'.inBody mark' content) := by
  obtain ⟨n,f,v,u,b,rfl,hn,-⟩ := h.elim
  exact Alike.of_parser _ _ rfl hn.1 hn.2

/-- A call that is given more data goes on with a body as one that begins at the cut. -/
theorem TakesBody.verdict (s : State) (done : Machine → Bytes → Machine) (t : TakesBody s done)
    (behind : UInt8) (m : Machine) (ch : UInt8) (rest : Bytes) (hm : Valid m) (hs : m.parser.state = s)
    (hlt : (ch :: rest).length < m.parser.contentLength.toNat) (c : UInt8) (w : Bytes)
    (hlen : (ch :: rest).length+(c :: w).length < 2^31) (k : Machine)
    (hk : k = m.inBody (m.bodyMark.getD (ch :: rest ++ c :: w))
      (m.parser.contentLength-min m.parser.contentLength (UInt64.ofNat (ch :: rest).length)))
    (hv : Valid k) : verdict behind m (ch :: rest ++ c :: w) = verdict behind k (c :: w) := by
  have hlength : (ch :: (rest ++ c :: w)).length = (ch :: rest).length+(c :: w).length := by
    rw [← List.cons_append, List.length_append]
  have hrest : (ch :: rest).length = rest.length+1 := rfl
  have hw : (c :: w).length = w.length+1 := rfl
  have hall : (rest ++ c :: w).length = rest.length+(w.length+1) := List.length_append
  have hks : k.parser.state = s := by rw [hk]; exact hs
  have hmark : k.bodyMark.getD (c :: w) = m.bodyMark.getD (ch :: (rest ++ c :: w)) := by rw [hk]; rfl
  have hcontent := left_toNat m.parser.contentLength (ch :: rest) (by omega)
  have hkc : k.parser.contentLength.toNat = m.parser.contentLength.toNat-(ch :: rest).length := by
    rw [hk]
    exact hcontent
  rw [List.cons_append, verdict_cons, verdict_cons]
  by_cases hle : m.parser.contentLength.toNat ≤ (ch :: rest).length+(c :: w).length
  · rcases t.ends behind m ch (rest ++ c :: w) hm hs (by omega) (by omega) with ⟨calls,hi⟩
    rcases t.ends behind k c w hv hks (by omega) (by omega) with ⟨calls',hi'⟩
    have hdrop : (rest ++ c :: w).drop (m.parser.contentLength.toNat-1) =
        w.drop (k.parser.contentLength.toNat-1) := by
      rw [List.drop_append, List.drop_eq_nil_of_le (by omega), List.nil_append]
      have hsucc : m.parser.contentLength.toNat-1-rest.length = k.parser.contentLength.toNat-1+1 := by omega
      rw [hsucc, List.drop_succ_cons]
    rw [hi, hi']
    dsimp only [Outcome.verdict]
    rw [hmark, hdrop]
    rw [hk, t.inBody]
  · rw [t.goes behind m ch (rest ++ c :: w) hm hs (by omega) (by omega),
      t.goes behind k c w hv hks (by omega) (by omega), hmark]
    dsimp only [Outcome.verdict]
    have hleft := left_toNat m.parser.contentLength (ch :: (rest ++ c :: w)) (by omega)
    have hleft' := left_toNat k.parser.contentLength (c :: w) (by omega)
    have hsame : k.parser.contentLength-min k.parser.contentLength (UInt64.ofNat (c :: w).length) =
        m.parser.contentLength-
          min m.parser.contentLength (UInt64.ofNat (ch :: (rest ++ c :: w)).length) :=
      UInt64.toNat_inj.mp (by omega)
    rw [hsame, List.drop_length, List.drop_length, hk]
    rfl

section bodies
variable (s : State) (done : Machine → Bytes → Machine) (t : TakesBody s done)
  (behind behind' : UInt8) (m m' : Machine) (ch : UInt8) (rest w : Bytes) (hm : Valid m)
  (hm' : Valid m') (h : Alike m m') (hlen : (ch :: rest).length+w.length < 2^31)

include t hm hm' h hlen

theorem cut_body (hs : m.parser.state = s) :
    (iteration behind m ch rest).Cut behind' w rest (verdict behind' m' (ch :: rest ++ w)) := by
  have hs' : m'.parser.state = s := h.state.trans hs
  have hsame : m'.parser.contentLength = m.parser.contentLength := by rw [h.parser.eq]
  have hpos := toNat_pos_of_ne _ (t.content m hm hs)
  have hlength : (ch :: (rest ++ w)).length = (ch :: rest).length+w.length := by
    rw [← List.cons_append, List.length_append]
  have hrest : (ch :: rest).length = rest.length+1 := rfl
  by_cases hle : m.parser.contentLength.toNat ≤ (ch :: rest).length
  · rcases t.ends behind m ch rest hm hs (by omega) hle with ⟨calls,hi⟩
    rcases t.ends behind' m' ch (rest ++ w) hm' hs' (by omega) (by rw [hsame]; omega) with ⟨calls',hi'⟩
    have hkeeps := keeps_iteration behind' m' ch (rest ++ w) hm'
    rw [hi'] at hkeeps
    rw [hi, List.cons_append, verdict_cons, hi']
    refine ⟨_, hkeeps.1, t.alike m m' _ _ h, Or.inl ?_⟩
    dsimp only [Outcome.verdict]
    rw [hsame, List.drop_append_of_le_length (by omega)]
  · rw [t.goes behind m ch rest hm hs (by omega) (by omega)]
    have hcontent : m.parser.contentLength-
          min m.parser.contentLength (UInt64.ofNat (ch :: rest).length) = m'.parser.contentLength-
          min m'.parser.contentLength (UInt64.ofNat (ch :: rest).length) := by rw [hsame]
    have hgo := t.goes behind' m' ch rest hm' hs' (by omega) (by rw [hsame]; omega)
    have hkeeps := keeps_iteration behind' m' ch rest hm'
    rw [hgo] at hkeeps
    cases w with
    | nil =>
      refine ⟨_, hkeeps.1, ?_, Or.inl ?_⟩
      · rw [hcontent]
        exact h.inBody m m' _ _ _
      · rw [List.append_nil, verdict_cons, hgo, List.append_nil]
        rfl
    | cons c w =>
      have hv : Valid (m'.inBody (m'.bodyMark.getD (ch :: rest ++ c :: w)) (m'.parser.contentLength-
          min m'.parser.contentLength (UInt64.ofNat (ch :: rest).length))) :=
        ⟨hkeeps.1.ok, hkeeps.1.field, hkeeps.1.value, hkeeps.1.url, fun _ => hkeeps.1.body (by simp [Machine.inBody]),
          hkeeps.1.asserted⟩
      refine ⟨_, hv, ?_, Or.inl ?_⟩
      · rw [hcontent]
        exact h.inBody m m' _ _ _
      · rw [List.drop_length, List.nil_append]
        exact t.verdict s done behind' m' ch rest hm' hs' (by rw [hsame]; omega) c w (by omega) _ rfl hv

end bodies

section states
variable (behind behind' : UInt8) (m m' : Machine) (ch : UInt8) (rest w : Bytes) (hm : Valid m)
  (hm' : Valid m') (h : Alike m m') (hlong : ¬ Overlong m (ch :: rest))
  (hlen : (ch :: rest).length+w.length < 2^31)

include hm hm' h hlong hlen

omit hm hlong hlen in
/-- A body that lasts until the input ends takes everything. -/
theorem cut_bodyIdentityEof (hs : m.parser.state = .bodyIdentityEof) :
    (iteration behind m ch rest).Cut behind' w rest (verdict behind' m' (ch :: rest ++ w)) := by
  have hs' : m'.parser.state = .bodyIdentityEof := h.state.trans hs
  have hi (b : UInt8) (k : Machine) (c : UInt8) (p : Bytes) (hk : k.parser.state = .bodyIdentityEof) :
      iteration b k c p = .next { k with bodyMark := some (k.bodyMark.getD (c :: p)) } p.length [] := by
    unfold iteration
    rw [if_neg (by rw [hk]; decide)]
    unfold switch
    rw [hk]
    rfl
  -- such a body is accepted wherever the data end
  have hall (k : Machine) (p : Bytes) (hv : Valid k) (hk : k.parser.state = .bodyIdentityEof) :
      verdict behind' k p = some (some []) := by
    cases p with
    | nil => exact verdict_nil behind' k hv
    | cons c p =>
      have hkeeps := keeps_iteration behind' k c p hv
      rw [hi behind' k c p hk] at hkeeps
      rw [verdict_cons, hi behind' k c p hk]
      dsimp only [Outcome.verdict]
      rw [List.drop_length]
      exact verdict_nil behind' _ hkeeps.1
  have hkeeps := keeps_iteration behind' m' ch rest hm'
  rw [hi behind' m' ch rest hs'] at hkeeps
  rw [hi behind m ch rest hs, hall m' _ hm' hs']
  refine ⟨_, hkeeps.1, ?_, Or.inl (hall _ _ hkeeps.1 hs').symm⟩
  exact Alike.of_parser _ _ h.parser.eq h.parser.count.1 h.parser.count.2

theorem cut_iteration
    (hnext : m.parser.state = .startReq →
      startMethod ch (rest.headD behind) = startMethod ch ((rest ++ w).headD behind')) :
    (iteration behind m ch rest).Cut behind' w rest (verdict behind' m' (ch :: rest ++ w)) := by
  cases hs : m.parser.state with
  | headerField => exact cut_headerField behind behind' m m' ch rest w hm hm' h hlong hlen hs
  | headerValue => exact cut_headerValue behind behind' m m' ch rest w hm hm' h hlong hlen hs
  | bodyIdentity =>
    exact cut_body _ _ takesBody_identity behind behind' m m' ch rest w hm hm' h hlen hs
  | chunkData => exact cut_body _ _ takesBody_chunk behind behind' m m' ch rest w hm hm' h hlen hs
  | bodyIdentityEof => exact cut_bodyIdentityEof behind behind' m m' ch rest w hm' h hs
  | _ => exact cut_short behind behind' m m' ch rest w hm hm' h hlong (by rw [hs]; rfl) hnext

end states

end Cclab.HttpParser
