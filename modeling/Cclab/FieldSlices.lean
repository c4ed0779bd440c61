import Mathlib.Algebra.Ring.Nat
import Mathlib.Data.Option.Basic
import Mathlib.Data.List.Basic
import Mathlib.Data.List.TakeWhile
import Mathlib.Logic.Function.Basic
import Mathlib.Tactic.Common

/-! Scanners that cut a string into fields: an automaton says of every byte whether it is a
delimiter, begins a field or makes it longer, and a table keeps where the fields stand. -/
namespace Cclab.FieldSlices

variable {A F S : Type*}

/-- The table: which fields are set, where they begin and how long they are, in 16 bits. -/
structure Slices (F : Type*) where
  set : F → Bool
  off : F → UInt16
  len : F → UInt16

/-- The bytes of a field. -/
def textOf (buf : List A) (u : Slices F) (f : F) : List A :=
  (buf.drop (u.off f).toNat).take (u.len f).toNat

/-- What a byte does to the table. `move` is a beginning that does not set the length. -/
inductive Act (F : Type*)
  | skip
  | start (f : F)
  | move (f : F)
  | extend (f : F)

section automaton
variable (step : S → A → Option (S × Act F))

/-- The states alone. -/
def states (s : S) (as : List A) : Option S := as.foldlM (fun s a => (step s a).map Prod.fst) s

/-- All these bytes make one field longer. -/
def Extends (f : F) : S → List A → S → Prop
  | s, [], s' => s = s'
  | s, a :: as, s' => ∃ t, step s a = some (t,.extend f) ∧ Extends f t as s'

theorem states_cons (s : S) (a : A) (as : List A) :
    states step s (a :: as) = (step s a).bind fun r => states step r.1 as := by
  rw [states, List.foldlM_cons]
  cases step s a <;> rfl

variable {step}

/-- A state that some bytes leave alone. -/
theorem extends_stay (f : F) (good : A → Bool) (s : S) (as : List A) (ha : ∀ a ∈ as, good a = true)
    (hstay : ∀ a, good a = true → step s a = some (s,.extend f)) : Extends step f s as s := by
  induction as with
  | nil => rfl
  | cons a as ih =>
    refine ⟨s, hstay a (ha a List.mem_cons_self), ih ?_⟩
    exact fun b hb => ha b (List.mem_cons_of_mem a hb)

theorem Extends.append (f : F) (s t t' : S) (as bs : List A) (h : Extends step f s as t)
    (h' : Extends step f t bs t') : Extends step f s (as ++ bs) t' := by
  induction as generalizing s with
  | nil =>
    obtain rfl : s = t := h
    exact h'
  | cons a as ih =>
    obtain ⟨s',hstep,hrest⟩ := h
    exact ⟨s', hstep, ih s' hrest⟩

end automaton

variable [DecidableEq F]

def Slices.put (u : Slices F) (f : F) (i n : ℕ) : Slices F :=
  ⟨Function.update u.set f true, Function.update u.off f (UInt16.ofNat i),
    Function.update u.len f (UInt16.ofNat n)⟩

/-- An empty part leaves its field alone. -/
def Slices.putPart (u : Slices F) (f : F) (i : ℕ) : List A → Slices F
  | [] => u
  | a :: as => u.put f i (a :: as).length

def Slices.setLen (u : Slices F) (f : F) (n : UInt16) : Slices F :=
  { u with len := Function.update u.len f n }

def Act.apply (i : ℕ) (u : Slices F) : Act F → Slices F
  | .skip => u
  | .start f => u.put f i 1
  | .move f => { u.setLen f (u.len f+1) with off := Function.update u.off f (UInt16.ofNat i) }
  | .extend f => u.setLen f (u.len f+1)

section put
variable (u : Slices F) (f g : F) (i n : ℕ) (buf : List A)

theorem set_put_self : (u.put f i n).set f = true := Function.update_self ..

theorem off_put_self : (u.put f i n).off f = UInt16.ofNat i := Function.update_self ..

theorem len_put_self : (u.put f i n).len f = UInt16.ofNat n := Function.update_self ..

theorem len_setLen_self (k : UInt16) : (u.setLen f k).len f = k := Function.update_self ..

theorem set_put_of_ne (h : f ≠ g) : (u.put g i n).set f = u.set f := Function.update_of_ne h _ _

theorem putPart_of_ne (part : List A) (h : f ≠ g) : (u.putPart g i part).set f = u.set f ∧
    (u.putPart g i part).off f = u.off f ∧ (u.putPart g i part).len f = u.len f := by
  cases part with
  | nil => exact ⟨rfl,rfl,rfl⟩
  | cons a as =>
    refine ⟨set_put_of_ne u f g i _ h, ?_, ?_⟩
    · exact Function.update_of_ne h _ _
    · exact Function.update_of_ne h _ _

/-- The field is set exactly if the part is not empty, and then says that it begins behind `pre` and
how long it is. -/
structure Shows (u : Slices F) (f : F) (pre part : List A) : Prop where
  set : u.set f = decide (part ≠ [])
  off : part ≠ [] → (u.off f).toNat = pre.length
  len : part ≠ [] → (u.len f).toNat = part.length

variable {u f}
variable {pre part : List A}

omit [DecidableEq F] in
/-- So its bytes are the part. -/
theorem Shows.textOf (hs : Shows u f pre part) (hne : part ≠ []) (hbuf : pre ++ part <+: buf) :
    textOf buf u f = part := by
  obtain ⟨post,rfl⟩ := hbuf
  rw [FieldSlices.textOf, hs.off hne, hs.len hne, List.append_assoc, List.drop_left, List.take_left]

omit [DecidableEq F] in
theorem Shows.congr (v : Slices F) (hs : Shows u f pre part) (hset : v.set f = u.set f)
    (hoff : v.off f = u.off f) (hlen : v.len f = u.len f) : Shows v f pre part := by
  constructor
  · exact hset.trans hs.set
  · rw [hoff]
    exact hs.off
  · rw [hlen]
    exact hs.len

omit [DecidableEq F] in
theorem shows_nil (pre : List A) (h : u.set f = false) : Shows u f pre [] :=
  ⟨by simp [h], fun hne => absurd rfl hne, fun hne => absurd rfl hne⟩

theorem shows_put (hne : part ≠ []) (h : (pre ++ part).length < 2^16) :
    Shows (u.put f pre.length part.length) f pre part := by
  rw [List.length_append] at h
  constructor
  · rw [set_put_self, decide_eq_true hne]
  · intro _
    rw [off_put_self, UInt16.toNat_ofNat_of_lt' (show pre.length < 2^16 by omega)]
  · intro _
    rw [len_put_self, UInt16.toNat_ofNat_of_lt' (show part.length < 2^16 by omega)]

theorem shows_putPart (hu : u.set f = false) (h : (pre ++ part).length < 2^16) :
    Shows (u.putPart f pre.length part) f pre part := by
  cases part with
  | nil => exact shows_nil pre hu
  | cons a as => exact shows_put (List.cons_ne_nil a as) h

theorem Shows.put (hs : Shows u f pre part) (h : f ≠ g) : Shows (u.put g i n) f pre part := by
  apply hs.congr
  · exact set_put_of_ne u f g i n h
  · exact Function.update_of_ne h _ _
  · exact Function.update_of_ne h _ _

theorem Shows.putPart (as : List A) (hs : Shows u f pre part) (h : f ≠ g) :
    Shows (u.putPart g i as) f pre part := by
  obtain ⟨hset,hoff,hlen⟩ := putPart_of_ne u f g i as h
  exact hs.congr _ hset hoff hlen

theorem Shows.setLen (k : UInt16) (hs : Shows u f pre part) (h : f ≠ g) :
    Shows (u.setLen g k) f pre part :=
  hs.congr _ rfl rfl (Function.update_of_ne h _ _)

end put

section scan
variable (step : S → A → Option (S × Act F))

/-- The loop over the bytes from the `i`-th on. -/
def scan : ℕ → List A → S → Slices F → Option (S × Slices F)
  | _, [], s, u => some (s,u)
  | i, a :: as, s, u => (step s a).bind fun r => scan (i+1) as r.1 (r.2.apply i u)

/-- The table has no influence on the states. -/
theorem scan_states (i : ℕ) (as : List A) (s : S) (u : Slices F) :
    (scan step i as s u).map Prod.fst = states step s as := by
  induction as generalizing i s u with
  | nil => rfl
  | cons a as ih =>
    rw [scan, states_cons]
    cases step s a with
    | none => rfl
    | some r => exact ih (i+1) r.1 _

variable {step}

theorem scan_cons (i : ℕ) (a : A) (as : List A) (s t : S) (act : Act F) (u : Slices F)
    (h : step s a = some (t,act)) :
    scan step i (a :: as) s u = scan step (i+1) as t (act.apply i u) := by
  rw [scan, h, Option.bind_some]

theorem Extends.scan (f : F) (i n : ℕ) (as bs : List A) (s t : S) (u : Slices F)
    (h : Extends step f s as t) (hn : u.len f = UInt16.ofNat n) :
    scan step i (as ++ bs) s u =
      FieldSlices.scan step (i+as.length) bs t (u.setLen f (UInt16.ofNat (n+as.length))) := by
  induction as generalizing i n s u with
  | nil =>
    obtain rfl : s = t := h
    have hu : u.setLen f (UInt16.ofNat n) = u := by
      rw [Slices.setLen, ← hn, Function.update_eq_self]
    exact (congrArg (FieldSlices.scan step i bs s) hu).symm
  | cons a as ih =>
    obtain ⟨s',hstep,hrest⟩ := h
    have hlen : (u.setLen f (u.len f+1)).len f = UInt16.ofNat (n+1) := by
      show Function.update u.len f _ f = _
      rw [Function.update_self, hn, UInt16.ofNat_add]
      rfl
    rw [List.cons_append, scan_cons i a (as ++ bs) s s' _ u hstep]
    refine (ih (i+1) (n+1) s' _ hrest hlen).trans ?_
    have hset : (u.setLen f (u.len f+1)).setLen f (UInt16.ofNat (n+1+as.length)) =
        u.setLen f (UInt16.ofNat (n+1+as.length)) := by
      rw [Slices.setLen, Slices.setLen, Slices.setLen, Function.update_idem]
    have h1 : i+1+as.length = i+(as.length+1) := by omega
    have h2 : n+1+as.length = n+(as.length+1) := by omega
    rw [hset, h1, h2, List.length_cons]

/-- A field from its first byte on, which sets its length to 1. -/
theorem Extends.scan_first (f : F) (i : ℕ) (a : A) (as bs : List A) (s t t' : S) (act : Act F)
    (u : Slices F) (ha : step s a = some (t,act)) (hact : act.apply i u = u.put f i 1)
    (h : Extends step f t as t') : FieldSlices.scan step i (a :: as ++ bs) s u =
      FieldSlices.scan step (i+(a :: as).length) bs t' (u.put f i (a :: as).length) := by
  rw [List.cons_append, scan_cons i a (as ++ bs) s t _ u ha, hact]
  have hlen : (u.put f i 1).len f = UInt16.ofNat 1 := Function.update_self ..
  refine (h.scan f (i+1) 1 as bs t t' _ hlen).trans ?_
  have hset : (u.put f i 1).setLen f (UInt16.ofNat (1+as.length)) = u.put f i (as.length+1) := by
    show Slices.mk _ _ (Function.update (Function.update u.len f _) f _) = _
    rw [Function.update_idem, Nat.add_comm]
    rfl
  have hpos : i+1+as.length = i+(as.length+1) := by omega
  rw [hset, hpos, List.length_cons]

/-- The beginning of a field that is set already and whose length has been cleared. -/
theorem apply_move (f : F) (i : ℕ) (u : Slices F) (hlen : u.len f = 0) (hset : u.set f = true) :
    (Act.move f).apply i u = u.put f i 1 := by
  have hkeep : Function.update u.set f true = u.set := Function.update_eq_self_iff.mpr hset.symm
  show Slices.mk u.set _ (Function.update u.len f (u.len f+1)) =
    Slices.mk (Function.update u.set f true) _ _
  rw [hlen, hkeep]
  rfl

end scan

end Cclab.FieldSlices
