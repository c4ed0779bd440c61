import Cclab.HttpLink

/-! What the loops inside the states that use up more than one byte do when the data are longer. -/
namespace Cclab.HttpParser

/-- A name goes on where the shorter data end inside it. -/
theorem headerFieldLoop_append (h : HeaderState) (index : ℕ) (p w : Bytes) :
    headerFieldLoop h index (p ++ w) = (headerFieldLoop h index p).bind fun r =>
      if r.2.2 < p.length then some r
      else (headerFieldLoop r.1 r.2.1 w).map fun s => (s.1, s.2.1, s.2.2+r.2.2) := by
  induction p generalizing h index with
  | nil =>
    have hnone : ¬ (0 : ℕ) < ([] : Bytes).length := Nat.lt_irrefl 0
    change headerFieldLoop h index w = if 0 < ([] : Bytes).length then some (h,index,0) else _
    rw [if_neg hnone]
    exact Option.map_id'.symm
  | cons ch p ih =>
    rw [List.cons_append, headerFieldLoop, headerFieldLoop]
    split_ifs with htoken
    · have hsome : 0 < (ch :: p).length := Nat.succ_pos _
      dsimp only [Option.bind_some]
      rw [if_pos hsome]
    cases headerFieldByte h index ch with
    | none => rfl
    | some r =>
      dsimp only
      rw [ih r.1 r.2]
      cases headerFieldLoop r.1 r.2 p with
      | none => rfl
      | some s =>
        simp only [Option.map_some, Option.bind_some, List.length_cons, Nat.add_lt_add_iff_right]
        split_ifs
        · rfl
        · rw [Option.map_map]
          rfl

theorem headerFieldLoop_le (h h' : HeaderState) (index index' : ℕ) (p : Bytes) (n : ℕ)
    (hl : headerFieldLoop h index p = some (h',index',n)) : n ≤ p.length := by
  induction p generalizing h index n with
  | nil =>
    obtain ⟨-,-,rfl⟩ : h = h' ∧ index = index' ∧ 0 = n := by simpa [headerFieldLoop] using hl
    exact Nat.le_refl 0
  | cons ch p ih =>
    unfold headerFieldLoop at hl
    split_ifs at hl with htoken
    · obtain ⟨-,-,rfl⟩ : h = h' ∧ index = index' ∧ 0 = n := by simpa using hl
      exact Nat.zero_le _
    cases hb : headerFieldByte h index ch with
    | none =>
      rw [hb] at hl
      exact absurd hl (by simp)
    | some r =>
      rw [hb] at hl
      rcases Option.map_eq_some_iff.mp hl with ⟨s,hs,he⟩
      obtain ⟨rfl,hr⟩ := Prod.mk.inj he
      obtain ⟨rfl,rfl⟩ := Prod.mk.inj hr
      exact Nat.succ_le_succ (ih r.1 r.2 s.2.2 hs)

def ValueEnd.add (k : ℕ) : ValueEnd → ValueEnd
  | .line h parser n => .line h parser (n+k)
  | .data h parser n => .data h parser (n+k)
  | .error parser n => .error parser (n+k)
  | .abort => .abort

theorem ValueEnd.succ_add (k : ℕ) (e : ValueEnd) : (e.add k).succ = e.add (k+1) := by
  cases e <;> rfl

theorem ValueEnd.add_zero (e : ValueEnd) : e.add 0 = e := by
  cases e <;> rfl

/-- The jump to the end of a value in which nothing is looked for. -/
def jump (parser : Parser) (p : Bytes) : ValueEnd :=
  if generalLength p < p.length then .line .general parser (generalLength p)
  else .data .general parser (generalLength p)

theorem findIdx?_append_of_some {α : Type*} (P : α → Bool) (p w : List α) (k i : ℕ)
    (h : (p.take k).findIdx? P = some i) : ((p ++ w).take k).findIdx? P = some i := by
  rw [List.take_append, List.findIdx?_append, h]
  rfl

theorem generalLength_le (p : Bytes) : generalLength p ≤ p.length := by
  unfold generalLength
  cases h : (p.take httpMaxHeaderSize.toNat).findIdx? fun c => c = CR ∨ c = LF with
  | none => exact Nat.le_refl _
  | some i =>
    have hlt := (List.findIdx?_eq_some_iff_getElem.mp h).1
    rw [List.length_take] at hlt
    exact Nat.le_of_lt (Nat.lt_of_lt_of_le hlt (Nat.min_le_right _ _))

/-- The end of a value that was found stays where it is. -/
theorem jump_append (parser : Parser) (p w : Bytes) (h : generalLength p < p.length) :
    jump parser (p ++ w) = jump parser p := by
  have hsame : generalLength (p ++ w) = generalLength p := by
    unfold generalLength at h ⊢
    cases hi : (p.take httpMaxHeaderSize.toNat).findIdx? fun c => c = CR ∨ c = LF with
    | none =>
      rw [hi] at h
      exact absurd h (Nat.lt_irrefl _)
    | some i =>
      rw [findIdx?_append_of_some _ p w _ i hi]
      rfl
  have hlt : generalLength p < (p ++ w).length := by
    rw [List.length_append]
    exact Nat.lt_of_lt_of_le h (Nat.le_add_right _ _)
  rw [jump, jump, hsame, if_pos hlt, if_pos h]

/-- How the loop over a value goes on with the data `w`: it has ended, it goes on behind the byte
where it was, or it had jumped from the bytes `q` on. -/
inductive GoesOn (p w : Bytes) : ValueEnd → ValueEnd → Prop
  | ended (e : ValueEnd) (he : ∀ h parser n, e ≠ .data h parser n) : GoesOn p w e e
  | step (h : HeaderState) (parser : Parser) :
      GoesOn p w (.data h parser p.length) ((headerValueLoop h parser w).add p.length)
  | jumped (parser : Parser) (front q : Bytes) (hp : p = front ++ q) (hq : q ≠ [])
      (hjump : generalLength q = q.length) :
      GoesOn p w (.data .general parser p.length) ((jump parser (q ++ w)).add front.length)

theorem GoesOn.succ (p w : Bytes) (ch : UInt8) (e e' : ValueEnd) (h : GoesOn p w e e') :
    GoesOn (ch :: p) w e.succ e'.succ := by
  cases h with
  | ended _ he =>
    apply GoesOn.ended
    intro h parser n
    cases e with
    | data h' parser' n' => exact absurd rfl (he h' parser' n')
    | _ => simp [ValueEnd.succ]
  | step h parser =>
    rw [ValueEnd.succ_add]
    exact .step h parser
  | jumped parser front q hp hq hjump =>
    rw [ValueEnd.succ_add]
    exact .jumped parser (ch :: front) q (by rw [hp, List.cons_append]) hq hjump

theorem headerValueLoop_append (h : HeaderState) (parser : Parser) (p w : Bytes) :
    GoesOn p w (headerValueLoop h parser p) (headerValueLoop h parser (p ++ w)) := by
  induction p generalizing h parser with
  | nil =>
    have hstep := GoesOn.step (p := []) (w := w) h parser
    rwa [List.length_nil, ValueEnd.add_zero] at hstep
  | cons ch p ih =>
    rw [List.cons_append]
    unfold headerValueLoop
    split_ifs with hend hchar hgeneral
    · exact .ended _ (by simp)
    · exact .ended _ (by simp)
    -- the jump has found the end of the value, or all the data belong to it
    · subst hgeneral
      change GoesOn (ch :: p) w (jump parser (ch :: p)) (jump parser (ch :: p ++ w))
      by_cases hlt : generalLength (ch :: p) < (ch :: p).length
      · rw [jump_append parser _ w hlt, jump, if_pos hlt]
        exact .ended _ (by simp)
      · have hall := Nat.le_antisymm (generalLength_le (ch :: p)) (not_lt.mp hlt)
        have hjumped := GoesOn.jumped (p := ch :: p) (w := w) parser [] (ch :: p) rfl (by simp) hall
        rw [List.length_nil, ValueEnd.add_zero] at hjumped
        rwa [jump, if_neg hlt, hall]
    · cases headerValueByte h parser ch with
      | none => exact .ended _ (by simp)
      | some r =>
        cases r with
        | error e => exact .ended _ (by simp)
        | ok r => exact (ih r.1 r.2).succ p w ch _ _

/-- The same end, read by a parser with this count of the head and this header state, which the
loop does not look at. -/
def ValueEnd.Same (n : UInt32) (k : HeaderState) : ValueEnd → ValueEnd → Prop
  | .line h parser j, e => e = .line h { parser with nread := n, headerState := k } j
  | .data h parser j, e => e = .data h { parser with nread := n, headerState := k } j
  | .error _ _, e => ∃ parser' j, e = .error parser' j
  | .abort, e => e = .abort

theorem ValueEnd.Same.succ (n : UInt32) (k : HeaderState) (e e' : ValueEnd) (h : e.Same n k e') :
    e.succ.Same n k e'.succ := by
  cases e with
  | line h' parser j =>
    obtain rfl := h
    rfl
  | data h' parser j =>
    obtain rfl := h
    rfl
  | error parser j =>
    rcases h with ⟨parser',j',rfl⟩
    exact ⟨parser', j'+1, rfl⟩
  | abort =>
    obtain rfl := h
    rfl

theorem headerValueByte_same (h : HeaderState) (parser : Parser) (ch : UInt8) (n : UInt32)
    (k : HeaderState) : headerValueByte h { parser with nread := n, headerState := k } ch =
      (headerValueByte h parser ch).map fun r =>
        r.map fun s => (s.1, { s.2 with nread := n, headerState := k }) := by
  cases h with
  | contentLength =>
    unfold headerValueByte
    dsimp only
    split_ifs
    · rfl
    · cases pushDigit 10 parser.contentLength (ch-byte '0').toUInt64 <;> rfl
    · rfl
  | matchingConnectionToken | connectionKeepAlive | connectionClose | connectionUpgrade =>
    unfold headerValueByte
    dsimp only
    split_ifs <;> rfl
  | _ => rfl

theorem headerValueLoop_same (h : HeaderState) (parser : Parser) (p : Bytes) (n : UInt32)
    (k : HeaderState) : (headerValueLoop h parser p).Same n k
      (headerValueLoop h { parser with nread := n, headerState := k } p) := by
  induction p generalizing h parser with
  | nil => rfl
  | cons ch p ih =>
    unfold headerValueLoop
    rw [headerValueByte_same h parser ch n k]
    dsimp only
    split_ifs
    · rfl
    · exact ⟨_,_,rfl⟩
    · rfl
    · rfl
    · cases headerValueByte h parser ch with
      | none => rfl
      | some r =>
        cases r with
        | error e => exact ⟨_,_,rfl⟩
        | ok r => exact (ih r.1 r.2).succ n k _ _

/-- What a body takes of the data. -/
theorem take_toNat (content : UInt64) (p : Bytes) (hp : p.length < 2^64) :
    (min content (UInt64.ofNat p.length)).toNat = min content.toNat p.length := by
  have hlen : (UInt64.ofNat p.length).toNat = p.length :=
    UInt64.toNat_ofNat_of_lt' hp
  change (if content ≤ UInt64.ofNat p.length then content else UInt64.ofNat p.length).toNat = _
  split_ifs with hle
  · rw [UInt64.le_iff_toNat_le, hlen] at hle
    rw [Nat.min_eq_left hle]
  · rw [UInt64.le_iff_toNat_le, hlen] at hle
    rw [hlen, Nat.min_eq_right (Nat.le_of_not_le hle)]


end Cclab.HttpParser
