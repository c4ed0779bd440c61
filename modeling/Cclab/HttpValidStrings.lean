import Cclab.HttpValid

/-! The states of the parser that go through a field, a value, a body or a chunk. -/
namespace Cclab.HttpParser

theorem headerFieldByte_some (h : HeaderState) (index : ℕ) (ch : UInt8) (hf : fieldState h) :
    ∃ h' index', headerFieldByte h index ch = some (h',index') ∧ fieldState h' := by
  have hword (word : String) (n : ℕ) (bad good stay : HeaderState) (hb : fieldState bad)
      (hg : fieldState good) (hs : fieldState stay) :
      fieldState (matchWord word n (token ch) bad good stay) := by
    unfold matchWord
    split_ifs
    · exact hb
    · exact hg
    · exact hs
  cases h <;> first
    | exact absurd hf (by decide)
    | refine ⟨_, _, rfl, ?_⟩
  all_goals first
    | exact hword _ _ _ _ _ rfl rfl rfl
    | exact hf
    | split_ifs <;> rfl

theorem headerFieldLoop_some (h : HeaderState) (index : ℕ) (p : Bytes) (hf : fieldState h) :
    ∃ h' index' n, headerFieldLoop h index p = some (h',index',n) ∧ fieldState h' := by
  induction p generalizing h index with
  | nil => exact ⟨h, index, 0, rfl, hf⟩
  | cons ch p ih =>
    unfold headerFieldLoop
    split_ifs
    · exact ⟨h, index, 0, rfl, hf⟩
    · rcases headerFieldByte_some h index ch hf with ⟨h1,index1,he,hf1⟩
      rcases ih h1 index1 hf1 with ⟨h2,index2,n,hloop,hf2⟩
      rw [he]
      dsimp only
      rw [hloop]
      exact ⟨h2, index2, n+1, rfl, hf2⟩

/-- The states of a value behind its first byte. -/
def valueState (h : HeaderState) : Prop := h ≠ .connection ∧ h ≠ .transferEncoding

theorem headerValueByte_some (h : HeaderState) (parser : Parser) (ch : UInt8) (hv : valueState h) :
    (∃ e, headerValueByte h parser ch = some (.error e) ∧ e ≠ .ok) ∨
    ∃ h' parser', headerValueByte h parser ch = some (.ok (h',parser')) ∧ valueState h' ∧
      parser'.httpErrno = parser.httpErrno ∧ parser'.method = parser.method ∧
      (parser.state = .headerValue → parser'.state = .headerValue) := by
  have hword (word : String) (n : ℕ) (bad good stay : HeaderState) (hb : valueState bad)
      (hg : valueState good) (hs : valueState stay) :
      valueState (matchWord word n (lower ch) bad good stay) := by
    unfold matchWord
    split_ifs
    · exact hb
    · exact hg
    · exact hs
  have hgood : valueState .matchingConnectionToken := by simp [valueState]
  cases h with
  -- the start of the value has replaced these two states
  | connection => exact absurd rfl hv.1
  | transferEncoding => exact absurd rfl hv.2
  -- a digit, a blank or an error
  | contentLength =>
    unfold headerValueByte
    dsimp only
    split_ifs
    · exact Or.inr ⟨_, _, rfl, hv, rfl, rfl, id⟩
    · cases pushDigit 10 parser.contentLength (ch-byte '0').toUInt64 with
      | none => exact Or.inl ⟨_, rfl, by decide⟩
      | some t => exact Or.inr ⟨_, _, rfl, hv, rfl, rfl, id⟩
    · exact Or.inl ⟨_, rfl, by decide⟩
  | matchingConnectionTokenStart =>
    refine Or.inr ⟨_, _, rfl, ?_, rfl, rfl, id⟩
    unfold connectionToken
    split_ifs <;> simp [valueState]
  | matchingConnectionToken =>
    right
    unfold headerValueByte
    dsimp only
    split_ifs
    · exact ⟨_, _, rfl, by simp [valueState], rfl, rfl, id⟩
    · exact ⟨_, _, rfl, hv, rfl, rfl, id⟩
  | transferEncodingChunked =>
    refine Or.inr ⟨_, _, rfl, ?_, rfl, rfl, id⟩
    split_ifs <;> simp [valueState]
  | connectionKeepAlive | connectionClose | connectionUpgrade =>
    right
    unfold headerValueByte
    dsimp only
    split_ifs
    · exact ⟨_, _, rfl, by simp [valueState], rfl, rfl, id⟩
    · exact ⟨_, _, rfl, hgood, rfl, rfl, id⟩
    · exact ⟨_, _, rfl, hv, rfl, rfl, id⟩
  | matchingTransferEncodingChunked | matchingConnectionKeepAlive | matchingConnectionClose
  | matchingConnectionUpgrade =>
    refine Or.inr ⟨_, _, rfl, ?_, rfl, rfl, id⟩
    apply hword <;> simp [valueState]
  | _ => exact Or.inr ⟨_, _, rfl, by simp [valueState], rfl, rfl, fun _ => rfl⟩

/-- How the loop over a value ends. -/
def ValueEnd.Good (parser : Parser) : ValueEnd → Prop
  | .line h parser' _ | .data h parser' _ =>
    valueState h ∧ parser'.httpErrno = parser.httpErrno ∧ parser'.method = parser.method ∧
      (parser.state = .headerValue → parser'.state = .headerValue)
  | .error parser' _ => parser'.httpErrno ≠ .ok
  | .abort => False

theorem ValueEnd.Good.succ (parser : Parser) (e : ValueEnd) (h : e.Good parser) : e.succ.Good parser := by
  cases e <;> exact h

theorem headerValueLoop_good (h : HeaderState) (parser : Parser) (p : Bytes) (hv : valueState h) :
    (headerValueLoop h parser p).Good parser := by
  induction p generalizing h parser with
  | nil => exact ⟨hv,rfl,rfl,id⟩
  | cons ch p ih =>
    unfold headerValueLoop
    dsimp only
    split_ifs
    · exact ⟨hv,rfl,rfl,id⟩
    · simp [ValueEnd.Good]
    · exact ⟨hv,rfl,rfl,id⟩
    · exact ⟨hv,rfl,rfl,id⟩
    -- one byte of the inner switch, then `ih` from the state that it left
    · rcases headerValueByte_some h parser ch hv with ⟨e,he,hne⟩ | ⟨h',parser',he,hv',hp,hmethod,hs⟩
      · rw [he]
        exact hne
      · rw [he]
        have hgood := ih h' parser' hv'
        apply ValueEnd.Good.succ
        cases hloop : headerValueLoop h' parser' p <;> rw [hloop] at hgood
        · exact ⟨hgood.1, hgood.2.1.trans hp, hgood.2.2.1.trans hmethod,
            fun hstate => hgood.2.2.2 (hs hstate)⟩
        · exact ⟨hgood.1, hgood.2.1.trans hp, hgood.2.2.1.trans hmethod,
            fun hstate => hgood.2.2.2 (hs hstate)⟩
        · exact hgood
        · exact hgood

theorem sub_min_ne_max (a b : UInt64) (h : a ≠ ullongMax) : a-min a b ≠ ullongMax := by
  have hmin : min a b ≤ a := by
    change (if a ≤ b then a else b) ≤ a
    split_ifs with hle
    · exact UInt64.le_refl a
    · exact UInt64.le_of_lt (UInt64.not_le.mp hle)
  intro he
  have hsub : (a-min a b).toNat = a.toNat-(min a b).toNat := UInt64.toNat_sub_of_le a _ hmin
  rw [he] at hsub
  have hlt : a.toNat < 2^64 := a.toNat_lt
  apply h
  apply UInt64.toNat_inj.mp
  have hmax : ullongMax.toNat = 2^64-1 := by decide
  omega

/-- A number that passed the check is not the mark of a missing length. -/
theorem pushDigit_ne_max (c t : UInt64) (v : UInt8) (hv : v < 16)
    (h : pushDigit 16 c v.toUInt64 = some t) : t ≠ ullongMax := by
  unfold pushDigit at h
  split_ifs at h with hle
  have hc : c.toNat ≤ ((ullongMax-16)/16).toNat := UInt64.le_iff_toNat_le.mp (UInt64.not_lt.mp hle)
  have hbound : ((ullongMax-16)/16).toNat = 0x0FFFFFFFFFFFFFFE := by decide
  have hdigit : v.toUInt64.toNat < 16 := by
    rw [UInt8.toNat_toUInt64]
    exact UInt8.lt_iff_toNat_lt.mp hv
  have hmax : ullongMax.toNat = 2^64-1 := by decide
  rintro rfl
  have ht := congrArg UInt64.toNat (Option.some.inj h)
  rw [UInt64.toNat_add, UInt64.toNat_mul, hmax] at ht
  have hbase : (16:UInt64).toNat = 16 := rfl
  rw [hbase] at ht
  omega

theorem unhex_lt (c v : UInt8) (h : unhex c = some v) : v < 16 := by
  have hrange (a x y : UInt8) (hx : x ≤ a) (hy : a ≤ y) (hxy : y.toNat < x.toNat+10) :
      (a-x).toNat < 10 := by
    have hle : x.toNat ≤ a.toNat := UInt8.le_iff_toNat_le.mp hx
    have hge : a.toNat ≤ y.toNat := UInt8.le_iff_toNat_le.mp hy
    rw [UInt8.toNat_sub_of_le a x hx]
    omega
  apply UInt8.lt_iff_toNat_lt.mpr
  have h16 : (16:UInt8).toNat = 16 := rfl
  rw [h16]
  unfold unhex at h
  -- a byte from 128 on reads as 0, then the digits and the letters
  split_ifs at h with hhigh hnum hletter
  · rw [← Option.some.inj h]
    decide
  · have hn : byte '0' ≤ c ∧ c ≤ byte '9' := by simpa [isNum] using hnum
    have hlt := hrange c _ _ hn.1 hn.2 (by decide)
    rw [← Option.some.inj h]
    omega
  · have hlt := hrange (lower c) _ _ hletter.1 hletter.2 (by decide)
    have h10 : (10:UInt8).toNat = 10 := rfl
    rw [← Option.some.inj h, UInt8.toNat_add, h10]
    have hlt' : (lower c-byte 'a').toNat < 6 := by
      have hle : (byte 'a').toNat ≤ (lower c).toNat := UInt8.le_iff_toNat_le.mp hletter.1
      have hge : (lower c).toNat ≤ (byte 'f').toNat := UInt8.le_iff_toNat_le.mp hletter.2
      have ha : (byte 'a').toNat = 97 := rfl
      have hf : (byte 'f').toNat = 102 := rfl
      rw [UInt8.toNat_sub_of_le _ _ hletter.1]
      omega
    omega

section marked
variable (m : Machine) (ch : UInt8) (rest : Bytes) (h : Valid m)
include h

theorem Valid.field_only (hs : m.parser.state = .headerField) :
    m.headerValueMark = none ∧ m.urlMark = none ∧ m.bodyMark = none := by
  refine ⟨?_, ?_, ?_⟩
  · by_contra hn
    exact absurd (h.value hn) (by rw [hs]; decide)
  · by_contra hn
    exact absurd (h.url hn) (by rw [hs]; decide)
  · by_contra hn
    exact absurd (h.body hn) (by rw [hs]; decide)

theorem Valid.value_only (hs : m.parser.state = .headerValue) :
    m.headerFieldMark = none ∧ m.urlMark = none ∧ m.bodyMark = none := by
  refine ⟨?_, ?_, ?_⟩
  · by_contra hn
    exact absurd (h.field hn) (by rw [hs]; decide)
  · by_contra hn
    exact absurd (h.url hn) (by rw [hs]; decide)
  · by_contra hn
    exact absurd (h.body hn) (by rw [hs]; decide)

theorem Valid.body_only (hb : bodyState m.parser.state) :
    m.headerFieldMark = none ∧ m.headerValueMark = none ∧ m.urlMark = none := by
  refine ⟨?_, ?_, ?_⟩
  · by_contra hn
    rw [h.field hn] at hb
    exact absurd hb (by decide)
  · by_contra hn
    rw [h.value hn] at hb
    exact absurd hb (by decide)
  · by_contra hn
    have hu := h.url hn
    cases hs : m.parser.state <;> simp_all [urlState, bodyState]

theorem keeps_sHeaderField (hs : m.parser.state = .headerField) : (sHeaderField m ch rest).Keeps := by
  rcases h.field_only m hs with ⟨hv,hu,hb⟩
  have ha := h.asserted
  rw [Asserted, hs] at ha
  rcases headerFieldLoop_some m.parser.headerState m.parser.index (ch :: rest) ha with
    ⟨h',index',n,hloop,hf⟩
  unfold sHeaderField
  dsimp only
  rw [hloop]
  apply keeps_count
  dsimp only
  -- the data end inside the name, or the byte behind it decides
  cases (ch :: rest).drop n with
  | nil =>
    apply keeps_pass
    refine ⟨h.ok, fun _ => hs, fun hn => absurd hv hn, fun hn => absurd hu hn, fun hn => absurd hb hn, ?_⟩
    rw [Asserted]
    dsimp only
    rw [hs]
    exact hf
  | cons c p =>
    dsimp only
    split_ifs
    · have hplain : Plain { m with headerFieldMark := none } := ⟨h.ok,rfl,hv,hu,hb⟩
      exact keeps_next _ n _ (hplain.validOf _ _ h.ok True.intro)
        (callbackData_quiet _ _ _ (fun _ => rfl))
    · exact keeps_fail _ _ _ (by decide)

theorem keeps_sHeaderValue (hs : m.parser.state = .headerValue) : (sHeaderValue m ch rest).Keeps := by
  rcases h.value_only m hs with ⟨hf,hu,hb⟩
  have ha := h.asserted
  rw [Asserted, hs] at ha
  have hgood := headerValueLoop_good m.parser.headerState m.parser (ch :: rest) ha
  unfold sHeaderValue
  dsimp only
  cases hloop : headerValueLoop m.parser.headerState m.parser (ch :: rest) with
  | abort =>
    rw [hloop] at hgood
    exact hgood
  | error parser n =>
    rw [hloop] at hgood
    exact ⟨ends_nil _, Or.inl hgood⟩
  | data h' parser n =>
    -- the data end inside the value, and its mark stays set
    rw [hloop] at hgood
    have hstate := hgood.2.2.2 hs
    apply keeps_count
    apply keeps_pass
    refine ⟨hgood.2.1.trans h.ok, fun hn => absurd hf hn, fun _ => hstate, fun hn => absurd hu hn,
      fun hn => absurd hb hn, ?_⟩
    rw [Asserted]
    dsimp only
    rw [hstate]
    exact hgood.1
  | line h' parser n =>
    -- the value is handed over, so no mark is left
    rw [hloop] at hgood
    have hplain : Plain { m with headerValueMark := none } := ⟨h.ok,hf,rfl,hu,hb⟩
    have hok : parser.httpErrno = .ok := hgood.2.1.trans h.ok
    have hquiet := callbackData_quiet m.headerValueMark .headerValue ((ch :: rest).drop n) (fun _ => rfl)
    dsimp only
    split_ifs
    · apply Outcome.Keeps.after
      · apply keeps_count
        exact keeps_pass _ n (hplain.validOf _ _ hok True.intro)
      · exact hquiet
    · apply keeps_count
      exact keeps_next _ n _ (hplain.validOf _ _ hok True.intro) hquiet

/-- The body states but for their mark: a body takes at least one byte. -/
theorem keeps_sBodyIdentity (hs : m.parser.state = .bodyIdentity) : (sBodyIdentity m ch rest).Keeps := by
  rcases h.body_only m (by rw [hs]; rfl) with ⟨hf,hv,hu⟩
  have ha := h.asserted
  rw [Asserted, hs] at ha
  unfold sBodyIdentity
  dsimp only
  split_ifs with hassert hzero
  · exact hassert.elim ha.1 ha.2
  · apply Outcome.Keeps.after
    · apply keeps_sMessageDone
      exact ⟨h.ok,hf,hv,hu,rfl⟩
    · exact callbackData_quiet _ _ _ (fun _ => rfl)
  · apply keeps_pass
    refine ⟨h.ok, fun hn => absurd hf hn, fun hn => absurd hv hn, fun hn => absurd hu hn,
      fun _ => by rw [takeBody]; dsimp only; rw [hs]; rfl, ?_⟩
    rw [Asserted]
    dsimp only [takeBody]
    rw [hs]
    exact ⟨hzero, sub_min_ne_max _ _ ha.2⟩

theorem keeps_sBodyIdentityEof (hs : m.parser.state = .bodyIdentityEof) :
    (sBodyIdentityEof m ch rest).Keeps := by
  rcases h.body_only m (by rw [hs]; rfl) with ⟨hf,hv,hu⟩
  apply keeps_pass
  exact ⟨h.ok, fun hn => absurd hf hn, fun hn => absurd hv hn, fun hn => absurd hu hn,
    fun _ => by dsimp only; rw [hs]; rfl, h.asserted⟩

theorem keeps_sChunkData (hs : m.parser.state = .chunkData) : (sChunkData m ch rest).Keeps := by
  rcases h.body_only m (by rw [hs]; rfl) with ⟨hf,hv,hu⟩
  have ha := h.asserted
  rw [Asserted, hs] at ha
  unfold sChunkData
  dsimp only
  split_ifs with hassert hzero
  · rcases hassert with hc | hc
    · exact absurd ha.1 (by simpa using hc)
    · exact hc.elim ha.2.1 ha.2.2
  · apply keeps_pass
    exact ⟨h.ok, fun hn => absurd hf hn, fun hn => absurd hv hn, fun hn => absurd hu hn,
      fun _ => rfl, ha.1, hzero⟩
  · apply keeps_pass
    refine ⟨h.ok, fun hn => absurd hf hn, fun hn => absurd hv hn, fun hn => absurd hu hn,
      fun _ => by rw [takeBody]; dsimp only; rw [hs]; rfl, ?_⟩
    rw [Asserted]
    dsimp only [takeBody]
    rw [hs]
    exact ⟨ha.1, hzero, sub_min_ne_max _ _ ha.2.2⟩

theorem keeps_sChunkDataAlmostDone (hs : m.parser.state = .chunkDataAlmostDone) :
    (sChunkDataAlmostDone m ch rest).Keeps := by
  rcases h.body_only m (by rw [hs]; rfl) with ⟨hf,hv,hu⟩
  have ha := h.asserted
  rw [Asserted, hs] at ha
  have hplain : Plain { m with bodyMark := none } := ⟨h.ok,hf,hv,hu,rfl⟩
  unfold sChunkDataAlmostDone
  split_ifs with hassert
  · rcases hassert with hc | hc
    · exact absurd ha.1 (by simpa using hc)
    · exact hc ha.2
  · exact keeps_fail m _ _ (by decide)
  · exact keeps_next _ 0 _ (hplain.validOf _ _ h.ok ha.1) (callbackData_quiet _ _ _ (fun _ => rfl))

end marked

theorem ite_chunked (c : Bool) (hc : c = true) (o : Outcome) : (if !c then .abort else o) = o := by
  rw [hc]
  rfl

section chunks
variable (m : Machine) (ch : UInt8) (rest : Bytes) (h : Plain m)
include h

theorem keeps_sChunkSizeStart (hc : m.parser.flags.chunked = true) (hn : m.parser.nread = 1) :
    (sChunkSizeStart m ch rest).Keeps := by
  have hlt := unhex_lt ch
  unfold sChunkSizeStart
  rw [hc, hn]
  cases hv : unhex ch with
  | none => exact keeps_fail m _ _ (by decide)
  | some v =>
    apply keeps_pass
    refine h.validOf m _ h.ok ⟨hc, ?_⟩
    intro he
    have hnat := congrArg UInt64.toNat he
    rw [UInt8.toNat_toUInt64] at hnat
    have hv16 : v.toNat < 16 := UInt8.lt_iff_toNat_lt.mp (hlt v hv)
    have hmax : ullongMax.toNat = 2^64-1 := by decide
    omega

theorem keeps_sChunkSize (hs : m.parser.state = .chunkSize) (hc : m.parser.flags.chunked = true)
    (hn : m.parser.contentLength ≠ ullongMax) : (sChunkSize m ch rest).Keeps := by
  have hlt := unhex_lt ch
  unfold sChunkSize
  rw [ite_chunked _ hc]
  by_cases hcr : ch = CR
  · rw [if_pos hcr]
    exact keeps_breakTo m _ h ⟨hc,hn⟩
  · rw [if_neg hcr]
    -- a digit is pushed, and the check of `pushDigit` keeps the number below the mark
    cases hv : unhex ch with
    | none =>
      dsimp only
      split_ifs
      · exact keeps_breakTo m _ h ⟨hc,hn⟩
      · exact keeps_fail m _ _ (by decide)
    | some v =>
      dsimp only
      cases ht : pushDigit 16 m.parser.contentLength v.toUInt64 with
      | none => exact keeps_fail m _ _ (by decide)
      | some t =>
        apply keeps_pass
        refine h.validOf m _ h.ok ?_
        rw [Asserted]
        dsimp only
        rw [hs]
        exact ⟨hc, pushDigit_ne_max _ t v (hlt v hv) ht⟩

theorem keeps_sChunkParameters (ha : Asserted m.parser) (hc : m.parser.flags.chunked = true)
    (hn : m.parser.contentLength ≠ ullongMax) : (sChunkParameters m ch).Keeps := by
  unfold sChunkParameters
  rw [ite_chunked _ hc]
  split_ifs
  · exact keeps_breakTo m _ h ⟨hc,hn⟩
  · exact keeps_pass m 0 (h.valid m ha)

theorem keeps_sChunkSizeAlmostDone (hc : m.parser.flags.chunked = true)
    (hn : m.parser.contentLength ≠ ullongMax) : (sChunkSizeAlmostDone m ch rest).Keeps := by
  unfold sChunkSizeAlmostDone
  rw [ite_chunked _ hc]
  dsimp only
  split_ifs with hlf hzero
  · exact keeps_fail m _ _ (by decide)
  · exact keeps_pass _ 0 (h.validOf m _ h.ok True.intro)
  · exact keeps_breakTo _ _ (h.of_parser m _ h.ok) ⟨hc,hzero,hn⟩

theorem keeps_sChunkDataDone (hc : m.parser.flags.chunked = true) : (sChunkDataDone m ch rest).Keeps := by
  unfold sChunkDataDone
  rw [ite_chunked _ hc]
  split_ifs
  · exact keeps_fail m _ _ (by decide)
  · exact keeps_breakTo _ _ (h.of_parser m _ h.ok) ⟨hc,rfl⟩

end chunks

end Cclab.HttpParser
