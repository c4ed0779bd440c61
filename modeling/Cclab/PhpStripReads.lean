import Cclab.PhpStripSteps
import Mathlib.Data.List.TakeWhile

/-! Which bytes `php_strip_tags_ex` reads through `p`: all of them lie in its copy of the input
unless the copy is shorter than the input or the first byte looks behind itself. -/
namespace Cclab.PhpStripTags
open ByteMemory

/-- Every byte that is read through `p` lies in the memory that `estrndup` allocated. -/
def ReadsInside (a : Args) (rbuf : Mem) (len : ℕ) : Prop :=
  ∀ n j, (n,Access.copy j) ∈ (phpStripTagsEx a rbuf len).bufs.log →
    0 ≤ j ∧ j < (estrndup (load rbuf 0 len)).length

/-- The log goes on from `l` to `l'`, with reads of the copy only where `reads` has them. -/
def GoesOn (reads : ℤ → Prop) (l l' : List (ℕ × Access)) : Prop :=
  ∃ new, l' = l ++ new ∧ ∀ e ∈ new, ∀ j, e.2 = Access.copy j → reads j

theorem GoesOn.refl (reads : ℤ → Prop) (l : List (ℕ × Access)) : GoesOn reads l l :=
  ⟨[], (List.append_nil l).symm, by simp⟩

theorem GoesOn.trans (reads : ℤ → Prop) (l l' l'' : List (ℕ × Access)) (h : GoesOn reads l l')
    (h' : GoesOn reads l' l'') : GoesOn reads l l'' := by
  obtain ⟨new,rfl,hn⟩ := h
  obtain ⟨more,rfl,hm⟩ := h'
  refine ⟨new ++ more, List.append_assoc _ _ _, ?_⟩
  intro e he
  rcases List.mem_append.mp he with he | he
  · exact hn e he
  · exact hm e he

theorem GoesOn.subset (reads : ℤ → Prop) (l l' : List (ℕ × Access)) (h : GoesOn reads l l') :
    l ⊆ l' := by
  obtain ⟨new,rfl,-⟩ := h
  exact List.subset_append_left l new

section writes
variable (reads : ℤ → Prop) (b : Buffers) (i : ℕ)

theorem writeTag_goesOn (c : UInt8) : GoesOn reads b.log (b.writeTag i c).log :=
  ⟨_, rfl, by simp⟩

theorem copyTag_goesOn : GoesOn reads b.log (b.copyTag i).log := ⟨_, rfl, by simp⟩

theorem push_goesOn (c : UInt8) : GoesOn reads b.log (b.push i c).log := by
  rw [push_eq]
  exact ⟨_, rfl, by simp⟩

/-- The end of a tag writes to both buffers and reads nothing of the copy. -/
theorem finishTag_goesOn (set : Bytes) : GoesOn reads b.log (b.finishTag i set).log := by
  have hwritten := (push_goesOn reads b i (byte '>')).trans _ _ _ _
    (writeTag_goesOn reads (b.push i (byte '>')) i 0)
  refine hwritten.trans _ _ _ _ ?_
  have hfind (l : List (ℕ × Access)) (tag : Bytes) : GoesOn reads l (l ++ [(i,.find tag)]) :=
    ⟨_, rfl, by simp⟩
  unfold Buffers.finishTag
  dsimp only
  split_ifs
  · exact (hfind _ _).trans _ _ _ _ (copyTag_goesOn reads _ i)
  · exact hfind _ _

end writes

section iteration
variable (env : Env) (r₀ : Regs)

/-- The log only grows, and what it says of the copy are the reads of the iteration. -/
theorem Worked.goesOn (u : Bool) (b : Buffers) (h : Worked env r₀ u b) :
    GoesOn (fun j => ∃ d, Within r₀ d ∧ j = r₀.i+d) r₀.bufs.log b.log := by
  induction h with
  | start => exact .refl _ _
  | look u b reads hr _ ih =>
    refine ih.trans _ _ _ _ ⟨_, rfl, ?_⟩
    intro e he j hj
    obtain ⟨d,hd,rfl⟩ := List.mem_map.mp he
    exact ⟨d, hr d hd, (Access.copy.inj hj).symm⟩
  | emit b _ _ ih => exact ih.trans _ _ _ _ ⟨_, rfl, by simp⟩
  | push b c _ _ _ ih => exact ih.trans _ _ _ _ (push_goesOn _ b _ c)
  | finish b set _ _ ih => exact ih.trans _ _ _ _ (finishTag_goesOn _ b _ set)
  | leave u b _ ih => exact ih

theorem switch_i : (switch env r₀).i = r₀.i := (switch_done env r₀).1

theorem switch_goesOn : GoesOn (fun j => ∃ d, Within r₀ d ∧ j = r₀.i+d) r₀.bufs.log
    (switch env r₀).bufs.log := by
  obtain ⟨-,u,h⟩ := switch_done env r₀
  exact h.goesOn env r₀ u _

theorem iteration_log : (advance env (switch env r₀)).bufs.log =
    (switch env r₀).bufs.log ++ [(r₀.i,.copy (r₀.i+1))] := by
  change (switch env r₀).bufs.log ++ [((switch env r₀).i,Access.copy ((switch env r₀).i+1))] = _
  rw [switch_i]

theorem iteration_log_subset : r₀.bufs.log ⊆ (advance env (switch env r₀)).bufs.log := by
  rw [iteration_log]
  exact List.Subset.trans ((switch_goesOn env r₀).subset _ _ _) (List.subset_append_left _ _)

theorem loop_log_subset (n : ℕ) (r : Regs) : r.bufs.log ⊆ (loop env n r).bufs.log := by
  induction n generalizing r with
  | zero => exact List.Subset.refl _
  | succ n ih => exact List.Subset.trans (iteration_log_subset env r) (ih _)

end iteration

theorem terminate_log_subset (len : ℕ) (r : Regs) : r.bufs.log ⊆ (terminate len r).bufs.log := by
  unfold terminate
  split_ifs
  · exact List.subset_append_left _ _
  · exact List.Subset.refl _

/-- An invariant of the iterations, which also knows their number. -/
theorem loop_invariant (env : Env) (P : ℕ → Regs → Prop) (n : ℕ)
    (hstep : ∀ k r, k < n → P k r → P (k+1) (advance env (switch env r))) (r : Regs) (h : P 0 r) :
    P n (loop env n r) := by
  have hrun (m k : ℕ) (hk : k+m = n) (r : Regs) (hr : P k r) : P n (loop env m r) := by
    induction m generalizing k r with
    | zero =>
      obtain rfl : k = n := by omega
      exact hr
    | succ m ih => exact ih (k+1) (by omega) _ (hstep k r (by omega) hr)
  exact hrun n 0 (by omega) r h

/-- Every iteration ends with the read of the next byte. -/
theorem next_read (env : Env) (n : ℕ) (r : Regs) (k : ℕ) (hk : k < n) :
    (r.i+k,Access.copy (r.i+k+1)) ∈ (loop env n r).bufs.log := by
  induction n generalizing r k with
  | zero => omega
  | succ n ih =>
    cases k with
    | zero =>
      apply loop_log_subset env n
      rw [iteration_log]
      exact List.mem_append_right _ (List.mem_singleton.mpr (by simp))
    | succ k =>
      have hnext := ih (advance env (switch env r)) k (by omega)
      have hi : (advance env (switch env r)).i = r.i+1 := congrArg (· + 1) (switch_i env r)
      rw [hi] at hnext
      have hnat : r.i+1+k = r.i+(k+1) := by omega
      have hint : ((r.i+1 : ℕ):ℤ)+k+1 = (r.i:ℤ)+(k+1 : ℕ)+1 := by
        push_cast
        omega
      rwa [hnat, hint] at hnext

section first
variable (env : Env) (r : Regs)

theorem Done.log_subset (r' : Regs) (h : Done env r r') : r.bufs.log ⊆ r'.bufs.log := by
  obtain ⟨-,u,hw⟩ := h
  exact (hw.goesOn env r u _).subset _ _ _

/-- What a condition reads stays in the log. -/
theorem when_read (k : Look) (yes no : Regs → Regs) (d : ℤ) (hd : d ∈ k.reads)
    (hyes : ∀ r', r'.c = r.c → r'.state = r.state → r'.bufs.log ⊆ (yes r').bufs.log)
    (hno : ∀ r', r'.c = r.c → r'.state = r.state → r'.bufs.log ⊆ (no r').bufs.log) :
    (r.i,Access.copy (r.i+d)) ∈ (r.when k yes no).bufs.log := by
  have hlook : (r.i,Access.copy (r.i+d)) ∈ (r.bufs.look r.i k.reads).log :=
    List.mem_append_right _ (List.mem_map.mpr ⟨d,hd,rfl⟩)
  unfold Regs.when
  dsimp only
  split_ifs
  · exact hyes { r with bufs := r.bufs.look r.i k.reads } rfl rfl hlook
  · exact hno { r with bufs := r.bufs.look r.i k.reads } rfl rfl hlook

theorem greater_reads_behind (hs : r.state = 2) (hd : r.depth = 0) (hq : r.inQ = 0) (hb : r.br = 0)
    (hlc : r.lc = 0) : (r.i,Access.copy (r.i+(-1))) ∈ (caseGreater env r).bufs.log := by
  have hcase : caseGreater env r = closeState env r := by
    rw [caseGreater, if_neg (by simp [hd]), if_neg (by simp [hq])]
  rw [hcase, closeState, if_neg (by omega), if_pos hs]
  apply when_read
  · simp [hb, hlc, doubleQuote]
  · intro r' _ _
    exact List.Subset.refl _
  · intro r' _ _
    exact List.Subset.refl _

theorem quote_reads_behind (hs : r.state = 2) : (r.i,Access.copy (r.i+(-1))) ∈ (caseQuote env r).bufs.log := by
  rw [caseQuote, if_neg (by omega)]
  have hmark : (r.i,Access.copy (r.i+(-1))) ∈ (quoteMark env r).bufs.log := by
    unfold quoteMark
    apply when_read
    · simp [hs]
    · intro r' _ _
      split_ifs
      all_goals exact List.Subset.refl _
    · intro r' _ hs'
      rw [hs] at hs'
      rw [regChar, if_neg (by omega), if_neg (by omega)]
      exact List.Subset.refl _
  have htoggle : Done env (quoteMark env r) (quoteToggle env (quoteMark env r)) :=
    quoteToggle_done env _ _ false ⟨rfl,rfl,rfl,.start⟩
  exact htoggle.log_subset env _ _ hmark

theorem bang_reads_behind (hs : r.state = 1) (hc : r.c = byte '!') :
    (r.i,Access.copy (r.i+(-1))) ∈ (caseBang env r).bufs.log := by
  unfold caseBang
  apply when_read
  · simp [hs]
  · intro r' _ _
    exact List.Subset.refl _
  · intro r' hc' _
    have hdone : Done env r' (regChar env r') := by
      apply regChar_done env r' r' ⟨rfl,rfl,rfl,.start⟩
      rw [hc', hc]
      decide
    exact hdone.log_subset env r' _

theorem question_reads_behind (hs : r.state = 1) (hc : r.c = byte '?') :
    (r.i,Access.copy (r.i+(-1))) ∈ (caseQuestion env r).bufs.log := by
  unfold caseQuestion
  apply when_read
  · simp [hs]
  · intro r' _ _
    exact List.Subset.refl _
  · intro r' hc' _
    have hdone : Done env r' (caseE env r') := by
      apply caseE_done env r' r' ⟨rfl,rfl,rfl,.start⟩
      rw [hc', hc]
      decide
    exact hdone.log_subset env r' _

/-- In the first iteration nothing keeps the cases that look behind `p` from doing so. -/
theorem first_reads_behind (hd : r.depth = 0) (hq : r.inQ = 0) (hb : r.br = 0) (hlc : r.lc = 0)
    (hun : Unguarded r.state r.c) : (r.i,Access.copy (r.i+(-1))) ∈ (switch env r).bufs.log := by
  rcases hun with ⟨hs,hc | hc | hc⟩ | ⟨hs,hc | hc⟩
  · have hswitch : switch env r = caseGreater env r := by simp +decide [switch, hc]
    rw [hswitch]
    exact greater_reads_behind env r hs hd hq hb hlc
  · have hswitch : switch env r = caseQuote env r := by simp +decide [switch, hc]
    rw [hswitch]
    exact quote_reads_behind env r hs
  · have hswitch : switch env r = caseQuote env r := by simp +decide [switch, hc]
    rw [hswitch]
    exact quote_reads_behind env r hs
  · have hswitch : switch env r = caseBang env r := by simp +decide [switch, hc]
    rw [hswitch]
    exact bang_reads_behind env r hs hc
  · have hswitch : switch env r = caseQuestion env r := by simp +decide [switch, hc]
    rw [hswitch]
    exact question_reads_behind env r hs hc

end first

section copy
variable (a : Args) (rbuf : Mem) (len : ℕ)

theorem load_at (k : ℕ) (hk : k < len) : (load rbuf 0 len)[k]? = some (rbuf k) := by
  have hlt : k < (load rbuf 0 len).length := by rwa [load_length]
  rw [List.getElem?_eq_getElem hlt, load_getElem, Nat.zero_add]

theorem estrndup_whole (s : Bytes) (h : 0 ∉ s) : estrndup s = s ++ [0] := by
  rw [estrndup, List.takeWhile_eq_self_iff.mpr]
  intro x hx
  rw [decide_eq_true_iff]
  rintro rfl
  exact h hx

theorem estrndup_length_le (s : Bytes) (h : 0 ∈ s) : (estrndup s).length ≤ s.length := by
  have hle : (s.takeWhile (· ≠ 0)).length ≤ s.length := (List.takeWhile_prefix _).length_le
  have hne : (s.takeWhile (· ≠ 0)).length ≠ s.length := by
    intro he
    have hself := (List.takeWhile_prefix (p := (· ≠ 0)) (l := s)).eq_of_length he
    exact absurd (List.takeWhile_eq_self_iff.mp hself 0 h) (by decide)
  rw [estrndup, List.length_append, List.length_singleton]
  omega

/-- Without 0 bytes the copy is the input, and its last byte is the terminating 0. -/
theorem env_buf (h : 0 ∉ load rbuf 0 len) (k : ℕ) (hk : k ≤ len) :
    (a.env rbuf len).buf k = if k < len then rbuf k else 0 := by
  change around a.heap (estrndup (load rbuf 0 len)) k = _
  rw [around, if_pos (by omega), Int.toNat_natCast, estrndup_whole _ h]
  by_cases hlt : k < len
  · rw [if_pos hlt, List.getElem?_append_left (by rwa [load_length]), load_at rbuf len k hlt]
    rfl
  · have he : k = (load rbuf 0 len).length := by
      rw [load_length]
      omega
    rw [if_neg hlt, he, List.getElem?_concat_length]
    rfl

/-- The first byte of the copy is that of the input. -/
theorem env_buf_zero (hlen : 1 ≤ len) : (a.env rbuf len).buf 0 = rbuf 0 := by
  have hload : load rbuf 0 len = rbuf 0 :: (load rbuf 0 len).drop 1 := by
    have h := load_at rbuf len 0 (by omega)
    cases hl : load rbuf 0 len with
    | nil => rw [hl] at h; simp at h
    | cons x rest =>
      rw [hl] at h
      obtain rfl := Option.some.inj h
      rfl
  change around a.heap (estrndup (load rbuf 0 len)) 0 = rbuf 0
  rw [around, if_pos (Int.le_refl 0), estrndup, hload]
  by_cases hz : rbuf 0 = 0
  · simp [hz]
  · simp [hz]

end copy

/-- After `k` iterations everything that was read through `p` lies in a copy of the whole input. -/
structure InCopy (state : ℤ) (c : UInt8) (len k : ℕ) (r : Regs) : Prop where
  i : r.i = k
  first : k = 0 → r.state = state ∧ r.c = c
  log : ∀ n j, (n,Access.copy j) ∈ r.bufs.log → 0 ≤ j ∧ j ≤ len

theorem InCopy.iteration (env : Env) (state : ℤ) (c : UInt8) (len k : ℕ) (r : Regs)
    (hun : ¬ Unguarded state c) (hk : k < len) (h : InCopy state c len k r) :
    InCopy state c len (k+1) (advance env (switch env r)) := by
  refine ⟨?_, fun hz => absurd hz (by omega), ?_⟩
  · rw [← h.i]
    exact congrArg (· + 1) (switch_i env r)
  · intro n j hj
    have hi := h.i
    obtain ⟨new,he,hnew⟩ := switch_goesOn env r
    rw [iteration_log, he, List.append_assoc] at hj
    rcases List.mem_append.mp hj with hj | hj
    · exact h.log n j hj
    · rcases List.mem_append.mp hj with hj | hj
      · obtain ⟨d,⟨hd,hlow⟩,rfl⟩ := hnew _ hj j rfl
        rcases hlow with hlow | ⟨hzero,hbad⟩
        · omega
        -- a look behind from the first byte
        · obtain ⟨hs,hc⟩ := h.first (by omega)
          rw [hs, hc] at hbad
          exact absurd hbad hun
      · obtain ⟨-,hj⟩ := Prod.mk.inj (List.mem_singleton.mp hj)
        obtain rfl := Access.copy.inj hj
        omega

theorem terminate_reads (len : ℕ) (r : Regs) (n : ℕ) (j : ℤ)
    (h : (n,Access.copy j) ∈ (terminate len r).bufs.log) : (n,Access.copy j) ∈ r.bufs.log := by
  unfold terminate at h
  split_ifs at h
  · simpa using h
  · exact h

/-- A copy that is shorter than the input is left before the end of the loop. -/
theorem shorter_copy_left (a : Args) (rbuf : Mem) (len : ℕ) (hin : ReadsInside a rbuf len) :
    0 ∉ load rbuf 0 len := by
  intro hzero
  have hshort := estrndup_length_le _ hzero
  have hpos : 1 ≤ (estrndup (load rbuf 0 len)).length := by
    rw [estrndup, List.length_append, List.length_singleton]
    omega
  rw [load_length] at hshort
  have hread := next_read (a.env rbuf len) len (start (a.env rbuf len) rbuf a.stateptr)
    ((estrndup (load rbuf 0 len)).length-1) (by omega)
  have hbad := (hin _ _ (terminate_log_subset len _ hread)).2
  change (0:ℤ)+_+1 < _ at hbad
  omega

theorem first_guarded (a : Args) (rbuf : Mem) (len : ℕ) (hlen : 1 ≤ len)
    (hin : ReadsInside a rbuf len) : ¬ Unguarded (a.stateptr.getD 0) (rbuf 0) := by
  intro hun
  rw [← env_buf_zero a rbuf len hlen] at hun
  have hread := first_reads_behind (a.env rbuf len) (start (a.env rbuf len) rbuf a.stateptr)
    rfl rfl rfl rfl hun
  have hrun : (switch (a.env rbuf len) (start (a.env rbuf len) rbuf a.stateptr)).bufs.log ⊆
      (phpStripTagsEx a rbuf len).bufs.log := by
    obtain ⟨n,rfl⟩ := Nat.exists_eq_add_of_le' hlen
    refine List.Subset.trans ?_ (terminate_log_subset _ _)
    have hnext := loop_log_subset (a.env rbuf (n+1)) n
      (advance (a.env rbuf (n+1)) (switch (a.env rbuf (n+1)) (start (a.env rbuf (n+1)) rbuf a.stateptr)))
    rw [iteration_log] at hnext
    exact List.Subset.trans (List.subset_append_left _ _) hnext
  have hbad := (hin _ _ (hrun hread)).1
  change (0:ℤ) ≤ 0+(-1) at hbad
  omega

/-- For every input, whatever lies around its copy and whatever tags are allowed, everything that
is read through `p` lies in the copy if and only if the input has no 0 byte and its first byte is
not one that looks behind itself in the initial state. -/
theorem reads_inside_iff (a : Args) (rbuf : Mem) (len : ℕ) (hlen : 1 ≤ len) :
    ReadsInside a rbuf len ↔
      0 ∉ load rbuf 0 len ∧ ¬ Unguarded (a.stateptr.getD 0) (rbuf 0) := by
  constructor
  · intro hin
    exact ⟨shorter_copy_left a rbuf len hin, first_guarded a rbuf len hlen hin⟩
  · rintro ⟨hzero,hun⟩ n j hj
    have hstart : InCopy (a.stateptr.getD 0) (rbuf 0) len 0
        (start (a.env rbuf len) rbuf a.stateptr) := by
      refine ⟨rfl, fun _ => ⟨rfl,env_buf_zero a rbuf len hlen⟩, ?_⟩
      intro n j hj
      obtain ⟨-,hj⟩ := Prod.mk.inj (List.mem_singleton.mp hj)
      obtain rfl := Access.copy.inj hj
      omega
    have hend := loop_invariant (a.env rbuf len) (InCopy (a.stateptr.getD 0) (rbuf 0) len) len
      (fun k r hk hr => hr.iteration (a.env rbuf len) _ _ len k r hun hk) _ hstart
    have hin := hend.log n j (terminate_reads len _ n j hj)
    rw [estrndup_whole _ hzero, List.length_append, List.length_singleton, load_length]
    omega

def text (s : String) : Mem := fun i => (s.toList.map Char.toUInt8).getD i 0

theorem reads_inside_iff_tag :
    ReadsInside ⟨none,none,0,false,fun _ => 255⟩ (text "a<b>c") 5 :=
  (reads_inside_iff ⟨none,none,0,false,fun _ => 255⟩ (text "a<b>c") 5 (by decide)).mpr
    ⟨by decide, by rintro (⟨h,-⟩ | ⟨h,-⟩) <;> exact absurd h (by decide)⟩

/-- A `'>'` in the state of a PHP section looks at the byte before the copy, and the loop goes on
behind the copy of an input with a 0 byte. -/
theorem reads_outside :
    (0,Access.copy (-1)) ∈
      (phpStripTagsEx ⟨some 2,none,0,false,fun _ => 255⟩ (text ">") 1).bufs.log ∧
    (0,Access.copy 1) ∈
      (phpStripTagsEx ⟨none,none,0,false,fun _ => 255⟩ (fun _ => 0) 1).bufs.log ∧
    estrndup (load (fun _ => 0) 0 1) = [0] ∧
    ¬ ReadsInside ⟨some 2,none,0,false,fun _ => 255⟩ (text ">") 1 := by
  have hread : (0,Access.copy (-1)) ∈
      (phpStripTagsEx ⟨some 2,none,0,false,fun _ => 255⟩ (text ">") 1).bufs.log := by decide
  refine ⟨hread, by decide, by decide, ?_⟩
  intro h
  exact absurd (h _ _ hread).1 (by decide)

end Cclab.PhpStripTags
