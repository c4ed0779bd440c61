import Cclab.PhpStripTags

/-! What one iteration of `php_strip_tags_ex` can do. It reads through `p`, and it either drops its
byte, or emits it, or adds one byte to the tag buffer, where the end of a tag also empties it. -/
namespace Cclab.PhpStripTags
open ByteMemory

@[simp] theorem test_reads (b : Bool) : (test b).reads = [] := rfl
@[simp] theorem test_holds (b : Bool) : (test b).holds = b := rfl
@[simp] theorem at_reads (env : Env) (r : Regs) (d : ℤ) (ok : UInt8 → Bool) :
    (r.at env d ok).reads = [d] := rfl
@[simp] theorem at_holds (env : Env) (r : Regs) (d : ℤ) (ok : UInt8 → Bool) :
    (r.at env d ok).holds = ok (env.buf (r.i+d)) := rfl
@[simp] theorem all_nil_reads : (all []).reads = [] := rfl
@[simp] theorem all_nil_holds : (all []).holds = true := rfl
@[simp] theorem all_cons_holds (a : Look) (rest : List Look) :
    (all (a :: rest)).holds = (a.holds && (all rest).holds) := rfl

/-- A conjunct is read only behind those that hold. -/
@[simp] theorem mem_all_cons (a : Look) (rest : List Look) (d : ℤ) :
    d ∈ (all (a :: rest)).reads ↔ d ∈ a.reads ∨ a.holds = true ∧ d ∈ (all rest).reads := by
  change d ∈ a.reads ++ (if a.holds then (all rest).reads else []) ↔ _
  by_cases h : a.holds = true
  · simp [h]
  · simp [h]

@[simp] theorem mem_either (a b : Look) (d : ℤ) :
    d ∈ (either a b).reads ↔ d ∈ a.reads ∨ a.holds = false ∧ d ∈ b.reads := by
  unfold either
  by_cases h : a.holds = true
  · simp [h]
  · simp [h]

/-- A byte goes to the end of the tag buffer. -/
theorem push_eq (b : Buffers) (i : ℕ) (c : UInt8) : b.push i c =
    { b with
      tbuf := store b.tbuf b.tp [c]
      tp := b.tp+1
      allocated := b.grow.allocated
      log := b.log ++ [(i,.tag b.tp b.grow.allocated)] } := by
  unfold Buffers.push Buffers.writeTag Buffers.grow
  split_ifs
  · rfl
  · rfl

/-- The bytes whose case looks behind `p` without a test of the position. -/
def Unguarded (state : ℤ) (c : UInt8) : Prop :=
  (state = 2 ∧ (c = byte '>' ∨ c = doubleQuote ∨ c = singleQuote)) ∨
    (state = 1 ∧ (c = byte '!' ∨ c = byte '?'))

/-- The offsets that are read in an iteration that starts with `r`. -/
def Within (r : Regs) (d : ℤ) : Prop :=
  d ≤ 1 ∧ (0 ≤ r.i+d ∨ (r.i = 0 ∧ Unguarded r.state r.c))

/-- What an iteration that starts with `r₀` has done to the buffers so far; the flag tells whether
it has used its byte. -/
inductive Worked (env : Env) (r₀ : Regs) : Bool → Buffers → Prop
  | start : Worked env r₀ false r₀.bufs
  | look (u : Bool) (b : Buffers) (reads : List ℤ) (hr : ∀ d ∈ reads, Within r₀ d)
      (h : Worked env r₀ u b) : Worked env r₀ u (b.look r₀.i reads)
  | emit (b : Buffers) (hs : ¬ (1 ≤ r₀.state ∧ r₀.state ≤ 4)) (h : Worked env r₀ false b) :
      Worked env r₀ true (b.emit r₀.i r₀.c)
  | push (b : Buffers) (c : UInt8) (hc : c ≠ byte '>') (ha : env.allow.isSome)
      (h : Worked env r₀ false b) : Worked env r₀ true (b.push r₀.i c)
  | finish (b : Buffers) (set : Bytes) (ha : env.allow = some set) (h : Worked env r₀ false b) :
      Worked env r₀ true (b.finishTag r₀.i set)
  | leave (u : Bool) (b : Buffers) (h : Worked env r₀ u b) : Worked env r₀ u { b with tp := 0 }

/-- In the middle of an iteration that starts with `r₀`. -/
structure Here (env : Env) (r₀ : Regs) (u : Bool) (r : Regs) : Prop where
  i : r.i = r₀.i
  c : r.c = r₀.c
  state : r.state = r₀.state
  worked : Worked env r₀ u r.bufs

/-- At the end of an iteration that starts with `r₀`. -/
def Done (env : Env) (r₀ r : Regs) : Prop := r.i = r₀.i ∧ ∃ u, Worked env r₀ u r.bufs

section cases
variable (env : Env) (r₀ r : Regs) (u : Bool)

theorem Here.done (h : Here env r₀ u r) : Done env r₀ r := ⟨h.i,u,h.worked⟩

theorem Here.look (h : Here env r₀ u r) (k : Look) (hk : ∀ d ∈ k.reads, Within r₀ d) :
    Here env r₀ u { r with bufs := r.bufs.look r.i k.reads } := by
  refine ⟨h.i, h.c, h.state, ?_⟩
  rw [h.i]
  exact .look u r.bufs k.reads hk h.worked

/-- The branches of a condition start behind its reads. -/
theorem Here.when (h : Here env r₀ u r) (P : Regs → Prop) (k : Look) (yes no : Regs → Regs)
    (hk : ∀ d ∈ k.reads, Within r₀ d) (hyes : ∀ r', Here env r₀ u r' → P (yes r'))
    (hno : ∀ r', Here env r₀ u r' → P (no r')) : P (r.when k yes no) := by
  have hlook := h.look env r₀ r u k hk
  unfold Regs.when
  dsimp only
  split_ifs
  · exact hyes _ hlook
  · exact hno _ hlook

variable (h : Here env r₀ false r)
include h

theorem Here.emit (hs : ¬ (1 ≤ r.state ∧ r.state ≤ 4)) : Here env r₀ true (r.emit r.c) := by
  refine ⟨h.i, h.c, h.state, ?_⟩
  unfold Regs.emit
  rw [h.i, h.c]
  exact .emit r.bufs (h.state ▸ hs) h.worked

theorem Here.push (c : UInt8) (hc : c ≠ byte '>') (ha : env.allow.isSome) :
    Here env r₀ true (r.push c) := by
  refine ⟨h.i, h.c, h.state, ?_⟩
  unfold Regs.push
  rw [h.i]
  exact .push r.bufs c hc ha h.worked

/-- The code behind `reg_char` changes the buffers alone. -/
theorem regChar_here (hc : r₀.c ≠ byte '>') : ∃ u, Here env r₀ u (regChar env r) := by
  unfold regChar
  split_ifs with hzero hone
  · exact ⟨true, h.emit env r₀ r (by omega)⟩
  · exact ⟨true, h.push env r₀ r r.c (h.c ▸ hc) hone.1⟩
  · exact ⟨false, h⟩

theorem regChar_done (hc : r₀.c ≠ byte '>') : Done env r₀ (regChar env r) := by
  obtain ⟨u,h'⟩ := regChar_here env r₀ r h hc
  exact h'.done env r₀ _ u

theorem caseLess_done (hc : r₀.c ≠ byte '>') : Done env r₀ (caseLess env r) := by
  unfold caseLess
  by_cases hq : r.inQ ≠ 0
  · rw [if_pos hq]
    exact h.done env r₀ r false
  · rw [if_neg hq]
    apply h.when
    · intro d hd
      simp at hd
      exact ⟨by omega, Or.inl (by omega)⟩
    · intro r' h'
      exact regChar_done env r₀ r' h' hc
    · intro r' h'
      split_ifs with hzero hallow hone
      · refine ⟨h'.i, true, ?_⟩
        change Worked env r₀ true (r'.bufs.push r'.i (byte '<'))
        rw [h'.i]
        exact .push r'.bufs _ (by decide) hallow h'.worked
      · exact ⟨h'.i,false,h'.worked⟩
      · exact ⟨h'.i,false,h'.worked⟩
      · exact ⟨h'.i,false,h'.worked⟩

theorem paren_done (c : UInt8) (step : ℤ) (hc : r₀.c ≠ byte '>') :
    Done env r₀ (paren env r c step) := by
  unfold paren
  split_ifs with htwo hlc hone hzero
  · exact ⟨h.i,false,h.worked⟩
  · exact h.done env r₀ r false
  · exact (h.push env r₀ r r.c (h.c ▸ hc) hone.1).done
  · exact (h.emit env r₀ r (by omega)).done
  · exact h.done env r₀ r false

theorem leave_done : Done env r₀ r.leave := ⟨h.i,false,.leave false r.bufs h.worked⟩

/-- A look behind by one, in a state in which only the first byte is not guarded. -/
theorem behind_within (s : ℤ) (hs : r.state = s) (hun : Unguarded s r₀.c) : Within r₀ (-1) := by
  refine ⟨by decide, ?_⟩
  by_cases hi : r₀.i = 0
  · rw [← hs, h.state] at hun
    exact Or.inr ⟨hi,hun⟩
  · exact Or.inl (by omega)

theorem closeState_done (hc : r₀.c = byte '>') : Done env r₀ (closeState env r) := by
  unfold closeState
  by_cases h1 : r.state = 1
  · rw [if_pos h1]
    cases hallow : env.allow with
    | none => exact ⟨h.i,false,h.worked⟩
    | some set =>
      refine ⟨h.i, true, ?_⟩
      change Worked env r₀ true (r.bufs.finishTag r.i set)
      rw [h.i]
      exact .finish r.bufs set hallow h.worked
  · rw [if_neg h1]
    by_cases h2 : r.state = 2
    · rw [if_pos h2]
      apply h.when
      -- this look behind is guarded by nothing
      · intro d hd
        simp at hd
        rw [hd.2.2]
        exact behind_within env r₀ r h 2 h2 (Or.inl ⟨rfl,Or.inl hc⟩)
      · intro r' h'
        exact leave_done env r₀ r' h'
      · intro r' h'
        exact h'.done env r₀ r' false
    · rw [if_neg h2]
      by_cases h3 : r.state = 3
      · rw [if_pos h3]
        exact leave_done env r₀ r h
      · rw [if_neg h3]
        by_cases h4 : r.state = 4
        · rw [if_pos h4]
          apply h.when
          · intro d hd
            simp at hd
            have hi := h.i
            exact ⟨by omega, Or.inl (by omega)⟩
          · intro r' h'
            exact leave_done env r₀ r' h'
          · intro r' h'
            exact h'.done env r₀ r' false
        · rw [if_neg h4]
          exact (h.emit env r₀ r (by omega)).done

theorem caseGreater_done (hc : r₀.c = byte '>') : Done env r₀ (caseGreater env r) := by
  unfold caseGreater
  split_ifs
  · exact ⟨h.i,false,h.worked⟩
  · exact h.done env r₀ r false
  · exact closeState_done env r₀ r h hc

theorem quoteMark_here (hc : r₀.c = doubleQuote ∨ r₀.c = singleQuote) :
    ∃ u, Here env r₀ u (quoteMark env r) := by
  have hne : r₀.c ≠ byte '>' := by
    rcases hc with hc | hc <;> rw [hc] <;> decide
  unfold quoteMark
  apply h.when env r₀ r false (fun r' => ∃ u, Here env r₀ u r')
  · intro d hd
    simp at hd
    rw [hd.2]
    exact behind_within env r₀ r h 2 hd.1 (Or.inl ⟨rfl,Or.inr hc⟩)
  · intro r' h'
    split_ifs
    · exact ⟨false,h'.i,h'.c,h'.state,h'.worked⟩
    · exact ⟨false,h'.i,h'.c,h'.state,h'.worked⟩
    · exact ⟨false,h'⟩
  · intro r' h'
    exact regChar_here env r₀ r' h' hne

omit h in
/-- The second condition of a quotation mark is guarded by the position. -/
theorem quoteToggle_done (h : Here env r₀ u r) : Done env r₀ (quoteToggle env r) := by
  unfold quoteToggle
  apply h.when
  · intro d hd
    simp at hd
    have hi := h.i
    exact ⟨by omega, Or.inl (by omega)⟩
  · intro r' h'
    split_ifs
    · exact ⟨h'.i,u,h'.worked⟩
    · refine ⟨h'.i, u, ?_⟩
      change Worked env r₀ u (r'.bufs.look r'.i [0])
      rw [h'.i]
      apply Worked.look u r'.bufs [0] _ h'.worked
      intro d hd
      rw [List.mem_singleton.mp hd]
      exact ⟨by decide, Or.inl (by omega)⟩
  · intro r' h'
    exact h'.done env r₀ r' u

theorem caseQuote_done (hc : r₀.c = doubleQuote ∨ r₀.c = singleQuote) :
    Done env r₀ (caseQuote env r) := by
  unfold caseQuote
  split_ifs
  · exact h.done env r₀ r false
  · obtain ⟨u,h'⟩ := quoteMark_here env r₀ r h hc
    exact quoteToggle_done env r₀ _ u h'

theorem caseBang_done (hc : r₀.c = byte '!') : Done env r₀ (caseBang env r) := by
  have hne : r₀.c ≠ byte '>' := by
    rw [hc]
    decide
  unfold caseBang
  apply h.when
  · intro d hd
    simp at hd
    rw [hd.2]
    exact behind_within env r₀ r h 1 hd.1 (Or.inr ⟨rfl,Or.inl hc⟩)
  · intro r' h'
    exact ⟨h'.i,false,h'.worked⟩
  · intro r' h'
    exact regChar_done env r₀ r' h' hne

theorem caseMinus_done (hc : r₀.c ≠ byte '>') : Done env r₀ (caseMinus env r) := by
  unfold caseMinus
  apply h.when
  · intro d hd
    simp at hd
    have hi := h.i
    exact ⟨by omega, Or.inl (by omega)⟩
  · intro r' h'
    exact ⟨h'.i,false,h'.worked⟩
  · intro r' h'
    exact regChar_done env r₀ r' h' hc

theorem caseL_done (hc : r₀.c ≠ byte '>') : Done env r₀ (caseL env r) := by
  unfold caseL
  apply h.when
  · intro d hd
    simp at hd
    have hi := h.i
    exact ⟨by omega, Or.inl (by omega)⟩
  · intro r' h'
    exact ⟨h'.i,false,h'.worked⟩
  · intro r' h'
    exact regChar_done env r₀ r' h' hc

theorem caseE_done (hc : r₀.c ≠ byte '>') : Done env r₀ (caseE env r) := by
  unfold caseE
  apply h.when
  · intro d hd
    simp at hd
    have hi := h.i
    exact ⟨by omega, Or.inl (by omega)⟩
  · intro r' h'
    exact ⟨h'.i,false,h'.worked⟩
  · intro r' h'
    exact caseL_done env r₀ r' h' hc

theorem caseQuestion_done (hc : r₀.c = byte '?') : Done env r₀ (caseQuestion env r) := by
  have hne : r₀.c ≠ byte '>' := by
    rw [hc]
    decide
  unfold caseQuestion
  apply h.when
  · intro d hd
    simp at hd
    rw [hd.2]
    exact behind_within env r₀ r h 1 hd.1 (Or.inr ⟨rfl,Or.inr hc⟩)
  · intro r' h'
    exact ⟨h'.i,false,h'.worked⟩
  · intro r' h'
    exact caseE_done env r₀ r' h' hne

end cases

/-- One obligation for each label of the `switch`. -/
theorem switch_cases (env : Env) (r : Regs) (P : Regs → Prop)
    (zero : r.c = 0 → P r)
    (less : r.c = byte '<' → P (caseLess env r))
    (openParen : r.c = byte '(' → P (caseOpenParen env r))
    (closeParen : r.c = byte ')' → P (caseCloseParen env r))
    (greater : r.c = byte '>' → P (caseGreater env r))
    (quote : r.c = doubleQuote ∨ r.c = singleQuote → P (caseQuote env r))
    (bang : r.c = byte '!' → P (caseBang env r))
    (minus : r.c = byte '-' → P (caseMinus env r))
    (question : r.c = byte '?' → P (caseQuestion env r))
    (e : r.c = byte 'E' ∨ r.c = byte 'e' → P (caseE env r))
    (l : r.c = byte 'l' ∨ r.c = byte 'L' → P (caseL env r))
    (other : r.c ≠ 0 → r.c ≠ byte '<' → r.c ≠ byte '>' → P (regChar env r)) : P (switch env r) := by
  unfold switch
  by_cases hzero : r.c = 0
  · rw [if_pos hzero]
    exact zero hzero
  rw [if_neg hzero]
  by_cases hless : r.c = byte '<'
  · rw [if_pos hless]
    exact less hless
  rw [if_neg hless]
  by_cases hopenParen : r.c = byte '('
  · rw [if_pos hopenParen]
    exact openParen hopenParen
  rw [if_neg hopenParen]
  by_cases hcloseParen : r.c = byte ')'
  · rw [if_pos hcloseParen]
    exact closeParen hcloseParen
  rw [if_neg hcloseParen]
  by_cases hgreater : r.c = byte '>'
  · rw [if_pos hgreater]
    exact greater hgreater
  rw [if_neg hgreater]
  by_cases hquote : r.c = doubleQuote ∨ r.c = singleQuote
  · rw [if_pos hquote]
    exact quote hquote
  rw [if_neg hquote]
  by_cases hbang : r.c = byte '!'
  · rw [if_pos hbang]
    exact bang hbang
  rw [if_neg hbang]
  by_cases hminus : r.c = byte '-'
  · rw [if_pos hminus]
    exact minus hminus
  rw [if_neg hminus]
  by_cases hquestion : r.c = byte '?'
  · rw [if_pos hquestion]
    exact question hquestion
  rw [if_neg hquestion]
  by_cases he : r.c = byte 'E' ∨ r.c = byte 'e'
  · rw [if_pos he]
    exact e he
  rw [if_neg he]
  by_cases hl : r.c = byte 'l' ∨ r.c = byte 'L'
  · rw [if_pos hl]
    exact l hl
  rw [if_neg hl]
  exact other hzero hless hgreater

/-- What the `switch` of an iteration can do. -/
theorem switch_done (env : Env) (r : Regs) : Done env r (switch env r) := by
  have h : Here env r false r := ⟨rfl,rfl,rfl,.start⟩
  have hne (x : UInt8) (hx : x ≠ byte '>') (hc : r.c = x) : r.c ≠ byte '>' := hc ▸ hx
  apply switch_cases
  · intro _
    exact h.done env r r false
  · intro hc
    exact caseLess_done env r r h (hne _ (by decide) hc)
  · intro hc
    exact paren_done env r r h (byte '(') 1 (hne _ (by decide) hc)
  · intro hc
    exact paren_done env r r h (byte ')') (-1) (hne _ (by decide) hc)
  · exact caseGreater_done env r r h
  · exact caseQuote_done env r r h
  · exact caseBang_done env r r h
  · intro hc
    exact caseMinus_done env r r h (hne _ (by decide) hc)
  · exact caseQuestion_done env r r h
  · rintro (hc | hc)
    · exact caseE_done env r r h (hne _ (by decide) hc)
    · exact caseE_done env r r h (hne _ (by decide) hc)
  · rintro (hc | hc)
    · exact caseL_done env r r h (hne _ (by decide) hc)
    · exact caseL_done env r r h (hne _ (by decide) hc)
  · intro _ _ hgreater
    exact regChar_done env r r h hgreater

end Cclab.PhpStripTags
