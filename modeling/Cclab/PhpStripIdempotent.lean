import Cclab.PhpStripBounds

/-! Stripping all tags is idempotent. In state 0 no quotation and no nested `'<'` is pending, so
every byte is either emitted or opens a tag, and a `'<'` is emitted only in front of a space that is
emitted behind it. -/
namespace Cclab.PhpStripTags
open ByteMemory

/-- Every `'<'` is followed by white space. -/
def NoOpener (o : Bytes) : Prop :=
  ∀ k : ℕ, o[k]? = some (byte '<') → ∃ x, o[k+1]? = some x ∧ isspace x = true

theorem NoOpener.append (o p : Bytes) (ho : NoOpener o) (hp : NoOpener p) : NoOpener (o ++ p) := by
  intro k hk
  rcases Nat.lt_or_ge k o.length with hlt | hge
  · rw [List.getElem?_append_left hlt] at hk
    obtain ⟨x,hx,hs⟩ := ho k hk
    refine ⟨x, ?_, hs⟩
    rw [List.getElem?_append_left (List.getElem?_eq_some_iff.mp hx).1]
    exact hx
  · rw [List.getElem?_append_right hge] at hk
    obtain ⟨x,hx,hs⟩ := hp _ hk
    refine ⟨x, ?_, hs⟩
    rw [List.getElem?_append_right (by omega), Nat.sub_add_comm hge]
    exact hx

theorem noOpener_single (c : UInt8) (hc : c ≠ byte '<') : NoOpener [c] := by
  intro k hk
  exact absurd (List.mem_singleton.mp (List.mem_of_getElem? hk)).symm hc

theorem noOpener_spaced (c : UInt8) (hc : isspace c = true) : NoOpener [byte '<',c] := by
  have hne : c ≠ byte '<' := by
    rintro rfl
    exact absurd hc (by decide)
  intro k hk
  cases k with
  | zero => exact ⟨c,rfl,hc⟩
  | succ k =>
    rw [List.getElem?_cons_succ] at hk
    exact absurd (List.mem_singleton.mp (List.mem_of_getElem? hk)).symm hne

/-- The state is one of the five, and in state 0 nothing is pending. -/
structure Regular (r : Regs) : Prop where
  low : 0 ≤ r.state
  high : r.state ≤ 4
  calm : r.state = 0 → r.inQ = 0 ∧ r.depth = 0

section regular
variable (env : Env) (r : Regs)

theorem when_cases (P : Regs → Prop) (k : Look) (yes no : Regs → Regs)
    (hyes : ∀ b, k.holds = true → P (yes { r with bufs := b }))
    (hno : ∀ b, k.holds = false → P (no { r with bufs := b })) : P (r.when k yes no) := by
  unfold Regs.when
  dsimp only
  split_ifs with hk
  · exact hyes _ hk
  · exact hno _ (by simpa using hk)

/-- A regular state stays one when only other variables change. -/
theorem Regular.of_eq (h : Regular r) (r' : Regs) (hs : r'.state = r.state) (hq : r'.inQ = r.inQ)
    (hd : r'.depth = r.depth) : Regular r' := by
  refine ⟨hs ▸ h.low, hs ▸ h.high, ?_⟩
  intro hz
  rw [hq, hd]
  exact h.calm (hs ▸ hz)

theorem Regular.bufs (h : Regular r) (b : Buffers) : Regular { r with bufs := b } :=
  h.of_eq r _ rfl rfl rfl

theorem Regular.regChar (h : Regular r) : Regular (regChar env r) := by
  unfold PhpStripTags.regChar
  split_ifs
  · exact h.bufs r _
  · exact h.bufs r _
  · exact h

/-- A state other than 0 allows everything to be pending. -/
theorem Regular.enter (s : ℤ) (h0 : 1 ≤ s) (h4 : s ≤ 4) (hs : r.state = s) : Regular r :=
  ⟨by omega, by omega, fun hz => by omega⟩

/-- In state 0 nothing is pending. -/
theorem Regular.zero (hs : r.state = 0) (hq : r.inQ = 0) (hd : r.depth = 0) : Regular r :=
  ⟨hs.ge, by omega, fun _ => ⟨hq,hd⟩⟩

theorem Regular.caseLess (h : Regular r) : Regular (caseLess env r) := by
  unfold PhpStripTags.caseLess
  by_cases hq : r.inQ ≠ 0
  · rw [if_pos hq]
    exact h
  · rw [if_neg hq]
    apply when_cases
    · intro b _
      exact (h.bufs r b).regChar env _
    · intro b _
      dsimp only
      split_ifs with hzero hallow hone
      · exact Regular.enter _ 1 (by decide) (by decide) rfl
      · exact Regular.enter _ 1 (by decide) (by decide) rfl
      · exact Regular.enter _ 1 (by decide) (by decide) hone
      · exact h.bufs r b

theorem Regular.paren (h : Regular r) (c : UInt8) (step : ℤ) : Regular (paren env r c step) := by
  unfold PhpStripTags.paren
  split_ifs
  · exact h.of_eq r _ rfl rfl rfl
  · exact h
  · exact h.bufs r _
  · exact h.bufs r _
  · exact h

theorem Regular.leave (hd : r.depth = 0) : Regular r.leave := .zero _ rfl rfl hd

theorem Regular.closeState (h : Regular r) (hd : r.depth = 0) : Regular (closeState env r) := by
  unfold PhpStripTags.closeState
  by_cases h1 : r.state = 1
  · rw [if_pos h1]
    cases env.allow with
    | none => exact .zero _ rfl rfl hd
    | some set => exact .zero _ rfl rfl hd
  · rw [if_neg h1]
    split_ifs
    · apply when_cases
      · intro b _
        exact Regular.leave _ hd
      · intro b _
        exact h.bufs r b
    · exact Regular.leave r hd
    · apply when_cases
      · intro b _
        exact Regular.leave _ hd
      · intro b _
        exact h.bufs r b
    · exact h.bufs r _

theorem Regular.caseGreater (h : Regular r) : Regular (caseGreater env r) := by
  unfold PhpStripTags.caseGreater
  split_ifs with hdepth hq
  · refine ⟨h.low, h.high, ?_⟩
    intro hz
    exact absurd (h.calm hz).2 hdepth
  · exact h
  · exact h.closeState env r (not_not.mp hdepth)

theorem Regular.quoteMark (h : Regular r) : Regular (quoteMark env r) := by
  apply when_cases
  · intro b _
    dsimp only
    split_ifs
    · exact h.of_eq r _ rfl rfl rfl
    · exact h.of_eq r _ rfl rfl rfl
    · exact h.bufs r b
  · intro b _
    exact (h.bufs r b).regChar env _

/-- A quotation begins outside of state 0 only. -/
theorem Regular.quoteToggle (h : Regular r) : Regular (quoteToggle env r) := by
  apply when_cases
  · intro b hk
    have hne : r.state ≠ 0 := by
      simp at hk
      exact hk.1
    have hlow := h.low
    have henter (r' : Regs) (hs : r'.state = r.state) : Regular r' :=
      Regular.enter r' r.state (by omega) h.high hs
    dsimp only
    split_ifs
    · exact henter _ rfl
    · exact henter _ rfl
  · intro b _
    exact h.bufs r b

theorem Regular.caseQuote (h : Regular r) : Regular (caseQuote env r) := by
  unfold PhpStripTags.caseQuote
  split_ifs
  · exact h
  · exact (h.quoteMark env r).quoteToggle env _

/-- The other cases enter a state or treat their byte like any other. -/
theorem Regular.when_enter (h : Regular r) (k : Look) (yes no : Regs → Regs) (s : ℤ)
    (hs : 1 ≤ s ∧ s ≤ 4) (hyes : ∀ r', (yes r').state = s)
    (hno : ∀ r', Regular r' → Regular (no r')) : Regular (r.when k yes no) := by
  apply when_cases
  · intro b _
    exact Regular.enter _ s hs.1 hs.2 (hyes _)
  · intro b _
    exact hno _ (h.bufs r b)

theorem Regular.caseL (h : Regular r) : Regular (caseL env r) :=
  h.when_enter r _ _ _ 1 (by decide) (fun _ => rfl) (fun r' h' => h'.regChar env r')

theorem Regular.caseE (h : Regular r) : Regular (caseE env r) :=
  h.when_enter r _ _ _ 1 (by decide) (fun _ => rfl) (fun r' h' => h'.caseL env r')

theorem Regular.switch (h : Regular r) : Regular (switch env r) := by
  apply switch_cases
  · exact fun _ => h
  · exact fun _ => h.caseLess env r
  · exact fun _ => h.paren env r _ _
  · exact fun _ => h.paren env r _ _
  · exact fun _ => h.caseGreater env r
  · exact fun _ => h.caseQuote env r
  · exact fun _ => h.when_enter r _ _ _ 3 (by decide) (fun _ => rfl) (fun r' h' => h'.regChar env r')
  · exact fun _ => h.when_enter r _ _ _ 4 (by decide) (fun _ => rfl) (fun r' h' => h'.regChar env r')
  · exact fun _ => h.when_enter r _ _ _ 2 (by decide) (fun _ => rfl) (fun r' h' => h'.caseE env r')
  · exact fun _ => h.caseE env r
  · exact fun _ => h.caseL env r
  · exact fun _ _ _ => h.regChar env r

end regular

/-! In state 0 a byte is emitted unless it opens a tag. -/

/-- The byte of the iteration that starts with `r` is emitted, and the state is still 0. -/
structure Emits (r r' : Regs) : Prop where
  state : r'.state = 0
  rbuf : r'.bufs.rbuf = store r.bufs.rbuf r.bufs.rp [r.c]
  rp : r'.bufs.rp = r.bufs.rp+1

/-- The `'<'` at `p` is not the start of a tag. -/
def Loose (env : Env) (r : Regs) : Prop :=
  isspace (env.buf (r.i+1)) = true ∧ env.allowTagSpaces = false

section emits
variable (env : Env) (r : Regs)

theorem emits_when (k : Look) (yes no : Regs → Regs) (hk : k.holds = false)
    (hno : ∀ r', r'.state = r.state → Emits r' (no r')) : Emits r (r.when k yes no) := by
  have h := hno { r with bufs := r.bufs.look r.i k.reads } rfl
  rw [Regs.when, hk]
  exact ⟨h.state,h.rbuf,h.rp⟩

variable (hs : r.state = 0)
include hs

theorem regChar_emits : Emits r (regChar env r) := by
  rw [regChar, if_pos hs]
  exact ⟨hs,rfl,rfl⟩

/-- The cases that ask for another state. -/
theorem when_regChar_emits (k : Look) (yes : Regs → Regs) (hk : k.holds = false) :
    Emits r (r.when k yes (regChar env)) := by
  apply emits_when r k yes _ hk
  intro r' hs'
  exact regChar_emits env r' (hs'.trans hs)

theorem paren_emits (c : UInt8) (step : ℤ) : Emits r (paren env r c step) := by
  rw [paren, if_neg (by omega), if_neg (by omega), if_pos hs]
  exact ⟨hs,rfl,rfl⟩

theorem caseGreater_emits (hq : r.inQ = 0) (hd : r.depth = 0) : Emits r (caseGreater env r) := by
  rw [caseGreater, if_neg (not_not.mpr hd), if_neg (not_not.mpr hq), closeState, if_neg (by omega),
    if_neg (by omega), if_neg (by omega), if_neg (by omega)]
  exact ⟨hs,rfl,rfl⟩

theorem caseQuote_emits : Emits r (caseQuote env r) := by
  have hmark : Emits r (quoteMark env r) := by
    apply when_regChar_emits env r hs
    simp [hs]
  rw [caseQuote, if_neg (by omega)]
  have hskip : (all [test ((quoteMark env r).state ≠ 0), test ((quoteMark env r).i ≠ 0),
      either (test ((quoteMark env r).state = 1)) ((quoteMark env r).at env (-1) (· ≠ backslash)),
      either (test ((quoteMark env r).inQ = 0))
        ((quoteMark env r).at env 0 (· = (quoteMark env r).inQ))]).holds = false := by
    simp [hmark.state]
  rw [quoteToggle, Regs.when, hskip]
  exact ⟨hmark.state,hmark.rbuf,hmark.rp⟩

theorem caseL_emits : Emits r (caseL env r) := by
  apply when_regChar_emits env r hs
  simp [hs]

theorem caseE_emits : Emits r (caseE env r) := by
  apply emits_when
  · simp [hs]
  · intro r' hs'
    exact caseL_emits env r' (hs'.trans hs)

theorem caseLess_emits (hq : r.inQ = 0) (hloose : Loose env r) : Emits r (caseLess env r) := by
  have hk : (all [r.at env 1 isspace, test (!env.allowTagSpaces)]).holds = true := by
    simp [hloose.1, hloose.2]
  have h := regChar_emits env { r with
    bufs := r.bufs.look r.i (all [r.at env 1 isspace, test (!env.allowTagSpaces)]).reads } hs
  rw [caseLess, if_neg (not_not.mpr hq), Regs.when, hk]
  exact ⟨h.state,h.rbuf,h.rp⟩

theorem switch_emits (h : Regular r) (hc : r.c ≠ 0) (hless : r.c = byte '<' → Loose env r) :
    Emits r (switch env r) := by
  obtain ⟨hq,hd⟩ := h.calm hs
  apply switch_cases
  · exact fun hz => absurd hz hc
  · exact fun hl => caseLess_emits env r hs hq (hless hl)
  · exact fun _ => paren_emits env r hs _ _
  · exact fun _ => paren_emits env r hs _ _
  · exact fun _ => caseGreater_emits env r hs hq hd
  · exact fun _ => caseQuote_emits env r hs
  · intro _
    apply when_regChar_emits env r hs
    simp [hs]
  · intro _
    apply when_regChar_emits env r hs
    simp [hs]
  · intro _
    apply emits_when
    · simp [hs]
    · intro r' hs'
      exact caseE_emits env r' (hs'.trans hs)
  · exact fun _ => caseE_emits env r hs
  · exact fun _ => caseL_emits env r hs
  · exact fun _ _ _ => regChar_emits env r hs

/-- A `'<'` that opens a tag leaves the output alone. -/
theorem switch_opens (h : Regular r) (hnone : env.allow = none) (hc : r.c = byte '<')
    (hloose : ¬ Loose env r) : (switch env r).state = 1 ∧
      (switch env r).bufs.rbuf = r.bufs.rbuf ∧ (switch env r).bufs.rp = r.bufs.rp := by
  have hk : (all [r.at env 1 isspace, test (!env.allowTagSpaces)]).holds = false := by
    by_contra hk
    simp at hk
    exact hloose hk
  have hswitch : switch env r = caseLess env r := by
    rw [switch, if_neg (by rw [hc]; decide), if_pos hc]
  rw [hswitch, caseLess, if_neg (not_not.mpr (h.calm hs).1), Regs.when, hk]
  simp only [hs, hnone, Option.isSome_none, Bool.false_eq_true, if_false, if_true]
  exact ⟨trivial,rfl,rfl⟩

end emits

/-- Inside of a tag nothing is emitted. -/
theorem Worked.silent (env : Env) (r : Regs) (hnone : env.allow = none) (u : Bool) (b : Buffers)
    (hs : 1 ≤ r.state ∧ r.state ≤ 4) (h : Worked env r u b) : b.rbuf = r.bufs.rbuf ∧ b.rp = r.bufs.rp := by
  induction h with
  | start => exact ⟨rfl,rfl⟩
  | look u b reads _ _ ih => exact ih
  | emit b hout _ _ => exact absurd hs hout
  | push b c _ ha _ _ =>
    rw [hnone] at ha
    exact absurd ha (by decide)
  | finish b set ha _ _ =>
    rw [hnone] at ha
    exact absurd ha (by simp)
  | leave u b _ ih => exact ih

/-- What the loop reads at position `k` of an input without 0 bytes. -/
def bytesOf (rbuf : Mem) (len k : ℕ) : UInt8 := if k < len then rbuf k else 0

/-- After `k` iterations a `'<'` at the end of the output waits for the space behind it. -/
structure Outputs (env : Env) (rbuf : Mem) (len k : ℕ) (r : Regs) : Prop where
  i : r.i = k
  c : r.c = bytesOf rbuf len k
  regular : Regular r
  noZero : 0 ∉ r.output
  noLess : env.allowTagSpaces = true → byte '<' ∉ r.output
  opener : NoOpener r.output ∨ (r.state = 0 ∧ isspace r.c = true ∧
    ∃ o, r.output = o ++ [byte '<'] ∧ NoOpener o)

section outputs
variable (env : Env) (rbuf : Mem) (len : ℕ)

theorem Emits.output (r r' : Regs) (h : Emits r r') : r'.output = r.output ++ [r.c] := by
  rw [Regs.output, Regs.output, h.rbuf, h.rp]
  exact load_store_end _ _ _

theorem output_of_eq (r r' : Regs) (hb : r'.bufs.rbuf = r.bufs.rbuf) (hp : r'.bufs.rp = r.bufs.rp) :
    r'.output = r.output := by
  rw [Regs.output, Regs.output, hb, hp]

variable (hnone : env.allow = none) (hbuf : ∀ k ≤ len, env.buf k = bytesOf rbuf len k)
  (hzero : ∀ k < len, rbuf k ≠ 0) (k : ℕ) (r : Regs) (hk : k < len)
include hbuf hk

/-- The next iteration reads the next byte. -/
theorem next_byte (hi : r.i = k) : (advance env (switch env r)).i = k+1 ∧
    (advance env (switch env r)).c = bytesOf rbuf len (k+1) := by
  have hnext : env.buf ((switch env r).i+1) = bytesOf rbuf len (k+1) := by
    rw [switch_i, hi]
    exact hbuf (k+1) hk
  refine ⟨?_, hnext⟩
  change (switch env r).i+1 = k+1
  rw [switch_i, hi]

include hzero in
omit hbuf in
theorem byte_ne_zero (h : Outputs env rbuf len k r) : r.c ≠ 0 := by
  rw [h.c, bytesOf, if_pos hk]
  exact hzero k hk

/-- An iteration that emits nothing. -/
theorem Outputs.silent (h : Outputs env rbuf len k r) (ho : (switch env r).output = r.output)
    (hopen : NoOpener r.output) : Outputs env rbuf len (k+1) (advance env (switch env r)) := by
  obtain ⟨hi,hc⟩ := next_byte env rbuf len hbuf k r hk h.i
  refine ⟨hi, hc, ?_, ?_, ?_, Or.inl ?_⟩
  · exact (h.regular.switch env r).of_eq _ _ rfl rfl rfl
  · exact ho ▸ h.noZero
  · exact ho ▸ h.noLess
  · exact ho ▸ hopen

include hzero in
/-- An iteration in state 0 that emits its byte. -/
theorem Outputs.emits (h : Outputs env rbuf len k r) (he : Emits r (switch env r))
    (hless : env.allowTagSpaces = true → r.c ≠ byte '<')
    (hopen : NoOpener (r.output ++ [r.c]) ∨ (isspace (env.buf (r.i+1)) = true ∧
      ∃ o, r.output ++ [r.c] = o ++ [byte '<'] ∧ NoOpener o)) :
    Outputs env rbuf len (k+1) (advance env (switch env r)) := by
  obtain ⟨hi,hc⟩ := next_byte env rbuf len hbuf k r hk h.i
  have ho : (advance env (switch env r)).output = r.output ++ [r.c] := he.output r _
  have hne := byte_ne_zero env rbuf len hzero k r hk h
  refine ⟨hi, hc, ?_, ?_, ?_, ?_⟩
  · exact (h.regular.switch env r).of_eq _ _ rfl rfl rfl
  · rw [ho, List.mem_append, List.mem_singleton, not_or]
    exact ⟨h.noZero,hne.symm⟩
  · intro hs
    rw [ho, List.mem_append, List.mem_singleton, not_or]
    exact ⟨h.noLess hs,(hless hs).symm⟩
  · rw [ho]
    refine hopen.imp id ?_
    rintro ⟨hspace,ho'⟩
    refine ⟨he.state, ?_, ho'⟩
    change isspace (env.buf ((switch env r).i+1)) = true
    rw [switch_i]
    exact hspace

include hnone hzero in
theorem Outputs.iteration (h : Outputs env rbuf len k r) :
    Outputs env rbuf len (k+1) (advance env (switch env r)) := by
  have hne := byte_ne_zero env rbuf len hzero k r hk h
  by_cases hs : r.state = 0
  · rcases h.opener with hopen | ⟨-,hspace,o,ho,hopen⟩
    · by_cases hc : r.c = byte '<'
      · by_cases hloose : Loose env r
        -- the space is the byte of the next iteration
        · have he := switch_emits env r hs h.regular hne (fun _ => hloose)
          refine h.emits env rbuf len hbuf hzero k r hk he ?_ (Or.inr ⟨hloose.1,_,?_,hopen⟩)
          · intro htrue
            rw [hloose.2] at htrue
            exact absurd htrue (by decide)
          · rw [hc]
        · obtain ⟨-,hb,hp⟩ := switch_opens env r hs h.regular hnone hc hloose
          exact h.silent env rbuf len hbuf k r hk (output_of_eq r _ hb hp) hopen
      · have he := switch_emits env r hs h.regular hne (fun hl => absurd hl hc)
        exact h.emits env rbuf len hbuf hzero k r hk he (fun _ => hc)
          (Or.inl (hopen.append _ _ (noOpener_single r.c hc)))
    -- the space behind a `'<'` that was emitted
    · have hc : r.c ≠ byte '<' := by
        intro hc
        rw [hc] at hspace
        exact absurd hspace (by decide)
      have he := switch_emits env r hs h.regular hne (fun hl => absurd hl hc)
      refine h.emits env rbuf len hbuf hzero k r hk he (fun _ => hc) (Or.inl ?_)
      rw [ho, List.append_assoc]
      exact hopen.append _ _ (noOpener_spaced r.c hspace)
  · obtain ⟨-,u,hw⟩ := switch_done env r
    have hlow := h.regular.low
    obtain ⟨hb,hp⟩ := hw.silent env r hnone u _ ⟨by omega,h.regular.high⟩
    have hopen : NoOpener r.output := by
      rcases h.opener with hopen | ⟨hz,-⟩
      · exact hopen
      · exact absurd hz hs
    exact h.silent env rbuf len hbuf k r hk (output_of_eq r _ hb hp) hopen

end outputs

theorem terminate_output (len : ℕ) (r : Regs) : (terminate len r).output = r.output := by
  unfold terminate
  split_ifs
  · exact load_store_behind _ _ _
  · rfl

theorem zero_free (rbuf : Mem) (len : ℕ) (h : 0 ∉ load rbuf 0 len) (k : ℕ) (hk : k < len) :
    rbuf k ≠ 0 := by
  intro hz
  have hat := load_at rbuf len k hk
  rw [hz] at hat
  exact h (List.mem_of_getElem? hat)

section run
variable (a : Args) (rbuf : Mem) (len : ℕ) (hzero : 0 ∉ load rbuf 0 len)
include hzero

/-- What a run leaves in `rbuf` has no 0 byte and no `'<'` that opens a tag. -/
theorem output_clean (hallow : a.allow = none) (hstate : a.stateptr = none) :
    0 ∉ (phpStripTagsEx a rbuf len).output ∧ NoOpener (phpStripTagsEx a rbuf len).output ∧
      (a.allowTagSpaces = true → byte '<' ∉ (phpStripTagsEx a rbuf len).output) := by
  have hnone : (a.env rbuf len).allow = none := by
    rw [Args.env, hallow]
    rfl
  have hbuf : ∀ k : ℕ, k ≤ len → (a.env rbuf len).buf k = bytesOf rbuf len k :=
    fun k hk => env_buf a rbuf len hzero k hk
  have hstart : Outputs (a.env rbuf len) rbuf len 0 (start (a.env rbuf len) rbuf a.stateptr) := by
    refine ⟨rfl, hbuf 0 (Nat.zero_le _), ?_, List.not_mem_nil, fun _ => List.not_mem_nil, Or.inl ?_⟩
    · rw [hstate]
      exact Regular.zero _ rfl rfl rfl
    · intro k hk
      exact absurd hk (by simp [start, Regs.output])
  have hend := loop_invariant (a.env rbuf len) (Outputs (a.env rbuf len) rbuf len) len
    (fun k r hk hr => hr.iteration (a.env rbuf len) rbuf len hnone hbuf
      (zero_free rbuf len hzero) k r hk) _ hstart
  unfold phpStripTagsEx
  rw [terminate_output]
  refine ⟨hend.noZero, ?_, hend.noLess⟩
  rcases hend.opener with hopen | ⟨-,hspace,-⟩
  · exact hopen
  -- no space is behind the last byte
  · rw [hend.c, bytesOf, if_neg (Nat.lt_irrefl _)] at hspace
    exact absurd hspace (by decide)

omit hzero in
theorem store_self (k : ℕ) : store rbuf k [rbuf k] = rbuf := by
  funext i
  rw [store_eq_iff]
  intro hlow hhigh
  simp only [List.length_singleton] at hhigh
  obtain rfl : i = k := by omega
  rw [Nat.sub_self]
  rfl

/-- After `k` iterations the first `k` bytes have been written over themselves. -/
structure Rewrites (k : ℕ) (r : Regs) : Prop where
  i : r.i = k
  c : r.c = bytesOf rbuf len k
  regular : Regular r
  state : r.state = 0
  rbuf : r.bufs.rbuf = rbuf
  rp : r.bufs.rp = k

/-- A `'<'` in front of a space opens no tag. -/
theorem loose_of_noOpener (hopen : NoOpener (load rbuf 0 len))
    (hless : a.allowTagSpaces = true → byte '<' ∉ load rbuf 0 len) (k : ℕ) (hk : k < len)
    (hc : rbuf k = byte '<') (r : Regs) (hi : r.i = k) : Loose (a.env rbuf len) r := by
  have hat := load_at rbuf len k hk
  rw [hc] at hat
  obtain ⟨x,hx,hs⟩ := hopen k hat
  have hlt := (List.getElem?_eq_some_iff.mp hx).1
  rw [load_length] at hlt
  have hnext := load_at rbuf len (k+1) hlt
  obtain rfl := Option.some.inj (hx.symm.trans hnext)
  constructor
  · have hb := env_buf a rbuf len hzero (k+1) hlt.le
    rw [if_pos hlt] at hb
    rw [hi]
    exact (congrArg isspace hb).trans hs
  · by_contra htrue
    rw [Bool.not_eq_false] at htrue
    exact hless htrue (List.mem_of_getElem? hat)

theorem Rewrites.iteration (hopen : NoOpener (load rbuf 0 len))
    (hless : a.allowTagSpaces = true → byte '<' ∉ load rbuf 0 len) (k : ℕ) (r : Regs) (hk : k < len)
    (h : Rewrites rbuf len k r) :
    Rewrites rbuf len (k+1) (advance (a.env rbuf len) (switch (a.env rbuf len) r)) := by
  have hbuf : ∀ k : ℕ, k ≤ len → (a.env rbuf len).buf k = bytesOf rbuf len k :=
    fun k hk => env_buf a rbuf len hzero k hk
  have hc : r.c = rbuf k := by
    rw [h.c, bytesOf, if_pos hk]
  have he : Emits r (switch (a.env rbuf len) r) := by
    apply switch_emits _ r h.state h.regular
    · rw [hc]
      exact zero_free rbuf len hzero k hk
    · intro hl
      exact loose_of_noOpener a rbuf len hzero hopen hless k hk (hc.symm.trans hl) r h.i
  obtain ⟨hi,hnext⟩ := next_byte (a.env rbuf len) rbuf len hbuf k r hk h.i
  refine ⟨hi, hnext, ?_, he.state, ?_, ?_⟩
  · exact (h.regular.switch _ r).of_eq _ _ rfl rfl rfl
  · refine he.rbuf.trans ?_
    rw [h.rbuf, h.rp, hc]
    exact store_self rbuf k
  · refine he.rp.trans ?_
    rw [h.rp]

/-- A text in which no `'<'` opens a tag is returned as it is. -/
theorem strip_clean (hstate : a.stateptr = none) (hopen : NoOpener (load rbuf 0 len))
    (hless : a.allowTagSpaces = true → byte '<' ∉ load rbuf 0 len) :
    (phpStripTagsEx a rbuf len).output = load rbuf 0 len := by
  have hstart : Rewrites rbuf len 0 (start (a.env rbuf len) rbuf a.stateptr) := by
    refine ⟨rfl, env_buf a rbuf len hzero 0 (Nat.zero_le _), ?_, ?_, rfl, rfl⟩
    · rw [hstate]
      exact Regular.zero _ rfl rfl rfl
    · rw [hstate]
      rfl
  have hend := loop_invariant (a.env rbuf len) (Rewrites rbuf len) len
    (fun k r hk hr => hr.iteration a rbuf len hzero hopen hless k r hk) _ hstart
  unfold phpStripTagsEx
  rw [terminate_output, Regs.output, hend.rbuf, hend.rp]

end run

/-- The call with `allow == NULL` and `stateptr == NULL`. -/
def stripAll (allowTagSpaces : Bool) (allowLen : ℕ) (heap : ℤ → UInt8) (rbuf : Mem) (len : ℕ) : Regs :=
  phpStripTagsEx ⟨none,none,allowLen,allowTagSpaces,heap⟩ rbuf len

/-- With no tag allowed and from the initial state, the output has no `'<'` that is not followed by
white space, none at all if tags may begin with white space, and stripping it again returns it
unchanged. -/
theorem strip_idempotent (allowTagSpaces : Bool) (allowLen allowLen' : ℕ) (heap heap' : ℤ → UInt8)
    (rbuf : Mem) (len : ℕ) (hzero : 0 ∉ load rbuf 0 len) :
    NoOpener (stripAll allowTagSpaces allowLen heap rbuf len).output ∧
    (allowTagSpaces = true → byte '<' ∉ (stripAll allowTagSpaces allowLen heap rbuf len).output) ∧
    (stripAll allowTagSpaces allowLen' heap'
      (stripAll allowTagSpaces allowLen heap rbuf len).bufs.rbuf
      (stripAll allowTagSpaces allowLen heap rbuf len).bufs.rp).output =
        (stripAll allowTagSpaces allowLen heap rbuf len).output := by
  obtain ⟨hfree,hopen,hless⟩ := output_clean ⟨none,none,allowLen,allowTagSpaces,heap⟩ rbuf len hzero
    rfl rfl
  exact ⟨hopen, hless, strip_clean ⟨none,none,allowLen',allowTagSpaces,heap'⟩ _ _ hfree rfl hopen hless⟩

theorem strip_idempotent_paragraph :
    (stripAll false 0 (fun _ => 255) (text "1 < 2<p>") 8).output = load (text "1 < 2") 0 5 ∧
    NoOpener (stripAll false 0 (fun _ => 255) (text "1 < 2<p>") 8).output :=
  ⟨by decide, (strip_idempotent false 0 0 (fun _ => 255) (fun _ => 255) (text "1 < 2<p>") 8
    (by decide)).1⟩

end Cclab.PhpStripTags
