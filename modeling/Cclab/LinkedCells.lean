import Cclab.IntrusiveLists
import Mathlib.Data.Option.Basic

/-! A heap of cells that are linked one way, and the loops over such a list: a fold, a search
that remembers the cell before, and the cut that follows it. -/
namespace Cclab.LinkedCells
open IntrusiveLists

variable {D B : Type*}

structure Cell (D : Type*) where
  data : D
  next : Option ℕ

/-- The cells by their addresses; a null pointer is `none`. -/
abbrev Heap (D : Type*) := ℕ → Option (Cell D)

def nextOf (h : Heap D) (p : ℕ) : Option ℕ := (h p).bind Cell.next

/-- From `o` on there are these cells, and the last of them points to `m`. -/
def Span (h : Heap D) : Option ℕ → List (ℕ × D) → Option ℕ → Prop
  | o, [], m => o = m
  | o, e :: es, m => o = some e.1 ∧ ∃ next, h e.1 = some ⟨e.2,next⟩ ∧ Span h next es m

def modify (h : Heap D) (p : ℕ) (f : Cell D → Cell D) : Option (Heap D) :=
  (h p).map fun c => Function.update h p (some (f c))

def alloc (h : Heap D) (p : ℕ) (c : Cell D) : Heap D := Function.update h p (some c)

/-- A cell that is not allocated cannot be freed. -/
def free (h : Heap D) (p : ℕ) : Option (Heap D) :=
  (h p).map fun _ => Function.update h p none

section loops
variable (h : Heap D)

/-- `while (p) { b = f(b, p); p = p->next; }` -/
def fold (f : B → ℕ → D → B) : ℕ → Option ℕ → B → Option B
  | 0, _, _ => none
  | _+1, none, b => some b
  | n+1, some p, b => (h p).bind fun c => fold f n c.next (f b p c.data)

/-- The first cell with good data, and the one before it. -/
def search (good : D → Bool) : ℕ → Option ℕ → Option ℕ → Option (Option (Option ℕ × ℕ × Cell D))
  | 0, _, _ => none
  | _+1, _, none => some none
  | n+1, prev, some p => (h p).bind fun c =>
    if good c.data then some (some (prev,p,c)) else search good n (some p) c.next

/-- `if (prev == NULL) head = next; else prev->next = next;` -/
def cut (head prev next : Option ℕ) : Option (Heap D × Option ℕ) :=
  match prev with
  | none => some (h,next)
  | some q => (modify h q fun c => { c with next := next }).map fun h => (h,head)

end loops

theorem modify_spec (h : Heap D) (p : ℕ) (f : Cell D → Cell D) (c : Cell D) (hc : h p = some c) :
    modify h p f = some (Function.update h p (some (f c))) := by
  rw [modify, hc, Option.map_some]

theorem free_spec (h : Heap D) (p : ℕ) (hp : h p ≠ none) :
    free h p = some (Function.update h p none) := by
  obtain ⟨c,hc⟩ := Option.ne_none_iff_exists'.mp hp
  rw [free, hc, Option.map_some]

/-- The address of the last of these cells. -/
def lastOf (prev : Option ℕ) (es : List (ℕ × D)) : Option ℕ :=
  (es.getLast?.map Prod.fst).or prev

theorem lastOf_cons (prev : Option ℕ) (e : ℕ × D) (es : List (ℕ × D)) :
    lastOf prev (e :: es) = lastOf (some e.1) es := by
  rw [lastOf, lastOf, List.getLast?_cons]
  cases es.getLast? <;> rfl

section lists
variable {h h' : Heap D} {o m : Option ℕ}

theorem Span.congr (es : List (ℕ × D)) (hh : Span h o es m)
    (he : ∀ e ∈ es, h' e.1 = h e.1) : Span h' o es m := by
  induction es generalizing o with
  | nil => exact hh
  | cons e es ih =>
    obtain ⟨ho,next,hc,hrest⟩ := hh
    refine ⟨ho, next, ?_, ?_⟩
    · rw [he e List.mem_cons_self, hc]
    · apply ih hrest
      intro d hd
      exact he d (List.mem_cons_of_mem e hd)

theorem span_append (es fs : List (ℕ × D)) :
    Span h o (es ++ fs) m ↔ ∃ k, Span h o es k ∧ Span h k fs m := by
  induction es generalizing o with
  | nil => simp only [List.nil_append, Span, exists_eq_left']
  | cons e es ih =>
    simp only [List.cons_append, Span, ih]
    constructor
    · rintro ⟨ho,next,hc,k,h1,h2⟩
      exact ⟨k, ⟨ho, next, hc, h1⟩, h2⟩
    · rintro ⟨k,⟨ho,next,hc,h1⟩,h2⟩
      exact ⟨ho, next, hc, k, h1, h2⟩

theorem Span.chain (es : List (ℕ × D)) (hh : Span h o es none) :
    Chain (nextOf h) o (es.map Prod.fst) := by
  induction es generalizing o with
  | nil => exact hh
  | cons e es ih =>
    obtain ⟨ho,next,hc,hrest⟩ := hh
    refine ⟨ho, ?_⟩
    have hn : nextOf h e.1 = next := by rw [nextOf, hc, Option.bind_some]
    rw [hn]
    exact ih hrest

/-- A list that ends never comes back to one of its cells. -/
theorem Span.nodup (es : List (ℕ × D)) (hh : Span h o es none) : (es.map Prod.fst).Nodup :=
  (hh.chain es).nodup

theorem Span.data (es : List (ℕ × D)) (hh : Span h o es m) (e : ℕ × D) (he : e ∈ es) :
    ∃ next, h e.1 = some ⟨e.2,next⟩ := by
  induction es generalizing o with
  | nil => exact absurd he (by simp)
  | cons d es ih =>
    obtain ⟨-,next,hc,hrest⟩ := hh
    rcases List.mem_cons.mp he with rfl | hm
    · exact ⟨next,hc⟩
    · exact ih hrest hm

theorem Span.push (es : List (ℕ × D)) (p : ℕ) (d : D) (hh : Span h o es m)
    (hp : p ∉ es.map Prod.fst) : Span (alloc h p ⟨d,o⟩) (some p) ((p,d) :: es) m := by
  refine ⟨rfl, o, by rw [alloc, Function.update_self], hh.congr es ?_⟩
  intro e he
  apply Function.update_of_ne
  rintro rfl
  exact hp (List.mem_map_of_mem he)

/-- New data in one cell; its link stays. -/
theorem Span.setData (es fs : List (ℕ × D)) (e : ℕ × D) (d : D) (next : Option ℕ)
    (hh : Span h o (es ++ e :: fs) none) (hc : h e.1 = some ⟨e.2,next⟩) :
    Span (Function.update h e.1 (some ⟨d,next⟩)) o (es ++ (e.1,d) :: fs) none := by
  have hd := hh.nodup
  obtain ⟨k,h1,hk,next',hc',h2⟩ := (span_append es _).mp hh
  obtain rfl : next' = next := by
    rw [hc'] at hc
    exact congrArg Cell.next (Option.some.inj hc)
  have hne (f : ℕ × D) (hf : f ∈ es ++ fs) : f.1 ≠ e.1 := by
    rw [List.map_append, List.map_cons, List.perm_middle.nodup_iff, List.nodup_cons,
      ← List.map_append] at hd
    intro he
    exact hd.1 (he ▸ List.mem_map_of_mem hf)
  apply (span_append es _).mpr
  refine ⟨k, h1.congr es ?_, hk, next', Function.update_self .., h2.congr fs ?_⟩
  · intro f hf
    exact Function.update_of_ne (hne f (List.mem_append_left fs hf)) _ _
  · intro f hf
    exact Function.update_of_ne (hne f (List.mem_append_right es hf)) _ _

/-- The cut takes one cell out of the list and leaves that cell as it was. -/
theorem Span.cut (es fs : List (ℕ × D)) (e : ℕ × D) (next : Option ℕ)
    (hh : Span h o (es ++ e :: fs) none) (hc : h e.1 = some ⟨e.2,next⟩) :
    ∃ h' o', cut h o (lastOf none es) next = some (h',o') ∧ Span h' o' (es ++ fs) none ∧
      (∀ p, p ∉ es.map Prod.fst → h' p = h p) ∧ ∀ p, h' p = none ↔ h p = none := by
  have hd := hh.nodup
  obtain ⟨k,h1,-,next',hc',h2⟩ := (span_append es _).mp hh
  obtain rfl : next' = next := by
    rw [hc'] at hc
    exact congrArg Cell.next (Option.some.inj hc)
  rcases List.eq_nil_or_concat es with rfl | ⟨es,q,rfl⟩
  · exact ⟨h, next', rfl, h2, fun _ _ => rfl, fun _ => Iff.rfl⟩
  -- the cell before is the last one of those that stay in front
  · rw [List.concat_eq_append] at h1 hd ⊢
    obtain ⟨j,h3,hj,k',hq,rfl⟩ := (span_append es [q]).mp h1
    have hlast : lastOf none (es ++ [q]) = some q.1 := by
      rw [lastOf, List.getLast?_append, List.getLast?_singleton]
      rfl
    have hne (f : ℕ × D) (hf : f ∈ es ++ fs) : f.1 ≠ q.1 := by
      have hperm : (es ++ [q] ++ e :: fs).Perm (q :: e :: (es ++ fs)) := by
        rw [List.append_assoc, List.singleton_append]
        apply List.perm_middle.trans
        apply List.Perm.cons
        exact List.perm_middle
      have hd' := (hperm.map Prod.fst).nodup_iff.mp hd
      rw [List.map_cons, List.nodup_cons, List.map_cons, List.mem_cons, not_or] at hd'
      intro he
      exact hd'.1.2 (he ▸ List.mem_map_of_mem hf)
    refine ⟨Function.update h q.1 (some ⟨q.2,next'⟩), o, ?_, ?_, ?_, ?_⟩
    · rw [hlast, LinkedCells.cut, modify_spec h q.1 _ _ hq, Option.map_some]
    · rw [List.append_assoc]
      apply (span_append es _).mpr
      refine ⟨j, h3.congr es ?_, hj, next', Function.update_self .., h2.congr fs ?_⟩
      · intro f hf
        exact Function.update_of_ne (hne f (List.mem_append_left fs hf)) _ _
      · intro f hf
        exact Function.update_of_ne (hne f (List.mem_append_right es hf)) _ _
    · intro p hp
      apply Function.update_of_ne
      rintro rfl
      exact hp (by simp)
    · intro p
      by_cases hp : p = q.1
      · rw [hp, Function.update_self, hq]
        simp
      · rw [Function.update_of_ne hp]

/-- With more fuel than cells, the loop is the fold over the list. -/
theorem Span.fold (f : B → ℕ → D → B) (es : List (ℕ × D)) (n : ℕ) (b : B)
    (hh : Span h o es none) (hn : es.length < n) :
    fold h f n o b = some (es.foldl (fun b e => f b e.1 e.2) b) := by
  induction es generalizing o n b with
  | nil =>
    obtain rfl : o = none := hh
    obtain ⟨n,rfl⟩ := Nat.exists_eq_succ_of_ne_zero (Nat.ne_of_gt hn)
    rfl
  | cons e es ih =>
    obtain ⟨rfl,next,hc,hrest⟩ := hh
    obtain ⟨n,rfl⟩ := Nat.exists_eq_succ_of_ne_zero (Nat.ne_of_gt (Nat.zero_lt_of_lt hn))
    rw [LinkedCells.fold, hc, Option.bind_some, List.foldl_cons]
    exact ih n _ hrest (Nat.lt_of_succ_lt_succ hn)

section search
variable (good : D → Bool) (es fs : List (ℕ × D)) (e : ℕ × D) (n : ℕ) (prev : Option ℕ)

theorem Span.search_none (hh : Span h o es none) (hn : es.length < n)
    (hg : ∀ e ∈ es, good e.2 = false) : search h good n prev o = some none := by
  induction es generalizing o n prev with
  | nil =>
    obtain rfl : o = none := hh
    obtain ⟨n,rfl⟩ := Nat.exists_eq_succ_of_ne_zero (Nat.ne_of_gt hn)
    rfl
  | cons e es ih =>
    obtain ⟨rfl,next,hc,hrest⟩ := hh
    obtain ⟨n,rfl⟩ := Nat.exists_eq_succ_of_ne_zero (Nat.ne_of_gt (Nat.zero_lt_of_lt hn))
    rw [search, hc, Option.bind_some, hg e List.mem_cons_self]
    apply ih n _ hrest (Nat.lt_of_succ_lt_succ hn)
    intro d hd
    exact hg d (List.mem_cons_of_mem e hd)

theorem Span.search_some (hh : Span h o (es ++ e :: fs) none) (hn : (es ++ e :: fs).length < n)
    (hes : ∀ d ∈ es, good d.2 = false) (he : good e.2 = true) :
    ∃ next, h e.1 = some ⟨e.2,next⟩ ∧
      search h good n prev o = some (some (lastOf prev es,e.1,⟨e.2,next⟩)) := by
  induction es generalizing o n prev with
  | nil =>
    obtain ⟨rfl,next,hc,-⟩ := hh
    obtain ⟨n,rfl⟩ := Nat.exists_eq_succ_of_ne_zero (Nat.ne_of_gt (Nat.zero_lt_of_lt hn))
    refine ⟨next, hc, ?_⟩
    rw [search, hc, Option.bind_some, if_pos he]
    rfl
  | cons d es ih =>
    obtain ⟨rfl,k,hc,hrest⟩ := hh
    obtain ⟨n,rfl⟩ := Nat.exists_eq_succ_of_ne_zero (Nat.ne_of_gt (Nat.zero_lt_of_lt hn))
    rw [search, hc, Option.bind_some, hes d List.mem_cons_self, lastOf_cons]
    apply ih n _ hrest (Nat.lt_of_succ_lt_succ hn)
    intro f hf
    exact hes f (List.mem_cons_of_mem d hf)

end search

end lists

end Cclab.LinkedCells
