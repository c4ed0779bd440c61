import Mathlib.Data.List.Infix
import Mathlib.Data.List.Perm.Subperm
import Mathlib.Data.List.Nodup
import Mathlib.Data.List.Range
import Mathlib.Logic.Function.Basic
import Mathlib.Tactic.Common

/-! Trees of nodes that know their parent and their children, and the walk through all nodes
below one of them. -/
namespace Cclab.LinkedTree

structure Links where
  parent : ℕ → Option ℕ
  children : ℕ → List ℕ

/-- `c` becomes the last child of `p`. -/
def Links.append (t : Links) (p c : ℕ) : Links :=
  ⟨Function.update t.parent c (some p), Function.update t.children p (t.children p ++ [c])⟩

/-- All children of `p` are detached. -/
def Links.removeAll (t : Links) (p : ℕ) : Links :=
  ⟨fun c => if c ∈ t.children p then none else t.parent c, Function.update t.children p []⟩

/-- The parents and the children agree, and only the first `size` nodes are linked. -/
structure Linked (t : Links) (size : ℕ) : Prop where
  child_iff : ∀ n c, c ∈ t.children n ↔ t.parent c = some n
  bound : ∀ n c, t.parent c = some n → n < size ∧ c < size

/-- `n` is `r`, or a child of a node below `r`. -/
inductive Below (t : Links) (r : ℕ) : ℕ → Prop
  | refl : Below t r r
  | child (n c : ℕ) (h : Below t r n) (hc : c ∈ t.children n) : Below t r c

variable {t : Links} {size : ℕ}

theorem Linked.mono (k : ℕ) (h : Linked t size) (hk : size ≤ k) : Linked t k :=
  ⟨h.child_iff, fun n c hc => ⟨(h.bound n c hc).1.trans_le hk,(h.bound n c hc).2.trans_le hk⟩⟩

theorem Linked.append (p c : ℕ) (h : Linked t size) (hp : p < size) (hc : c < size)
    (hfree : t.parent c = none) : Linked (t.append p c) size := by
  have hnot (n : ℕ) : c ∉ t.children n := by
    intro hmem
    rw [(h.child_iff n c).mp hmem] at hfree
    exact absurd hfree (by simp)
  constructor
  · intro n x
    have hold := h.child_iff n x
    unfold Links.append
    dsimp only
    -- only the parent of `c` changes, and it had none
    by_cases hx : x = c
    · rw [hx, Function.update_self, Option.some.injEq]
      by_cases hn : n = p
      · rw [hn, Function.update_self]
        simp
      · rw [Function.update_of_ne hn]
        exact iff_of_false (hnot n) (Ne.symm hn)
    · rw [Function.update_of_ne hx, ← hold]
      by_cases hn : n = p
      · rw [hn, Function.update_self, List.mem_append, List.mem_singleton]
        exact or_iff_left hx
      · rw [Function.update_of_ne hn]
  · intro n x hx
    unfold Links.append at hx
    dsimp only at hx
    by_cases hxc : x = c
    · rw [hxc, Function.update_self] at hx
      rw [hxc, ← Option.some.inj hx]
      exact ⟨hp,hc⟩
    · rw [Function.update_of_ne hxc] at hx
      exact h.bound n x hx

theorem Linked.removeAll (p : ℕ) (h : Linked t size) : Linked (t.removeAll p) size := by
  constructor
  · intro n x
    unfold Links.removeAll
    dsimp only
    by_cases hn : n = p
    · rw [hn, Function.update_self]
      refine iff_of_false List.not_mem_nil ?_
      split_ifs with hx
      · simp
      · exact fun hp => hx ((h.child_iff p x).mpr hp)
    · rw [Function.update_of_ne hn, h.child_iff]
      -- a node of another parent keeps it
      split_ifs with hx
      · refine iff_of_false ?_ (by simp)
        intro hpn
        rw [(h.child_iff p x).mp hx] at hpn
        exact hn (Option.some.inj hpn).symm
      · exact Iff.rfl
  · intro n x hx
    unfold Links.removeAll at hx
    dsimp only at hx
    split_ifs at hx
    exact h.bound n x hx

theorem Below.trans (r n m : ℕ) (h : Below t r n) (k : Below t n m) : Below t r m := by
  induction k with
  | refl => exact h
  | child x c _ hc ih => exact ih.child x c hc

theorem Below.of_child (r c n : ℕ) (hc : c ∈ t.children r) (h : Below t c n) : Below t r n :=
  Below.trans r c n (Below.refl.child r c hc) h

theorem Below.lt (r n : ℕ) (ht : Linked t size) (hr : r < size) (h : Below t r n) : n < size := by
  cases h with
  | refl => exact hr
  | child m _ _ hc => exact (ht.bound m n ((ht.child_iff m n).mp hc)).2

theorem mem_children_append (p c n x : ℕ) (h : x ∈ t.children n) :
    x ∈ (t.append p c).children n := by
  unfold Links.append
  dsimp only
  by_cases hn : n = p
  · rw [hn, Function.update_self]
    rw [hn] at h
    exact List.mem_append_left _ h
  · rwa [Function.update_of_ne hn]

theorem children_append_self (p c : ℕ) : (t.append p c).children p = t.children p ++ [c] :=
  Function.update_self p _ _

theorem Below.append (r n p c : ℕ) (h : Below t r n) : Below (t.append p c) r n := by
  induction h with
  | refl => exact .refl
  | child m x _ hx ih => exact ih.child m x (mem_children_append p c m x hx)

/-- What is appended to a node below `r` is below `r`. -/
theorem Below.appended (r p c : ℕ) (h : Below t r p) : Below (t.append p c) r c := by
  refine (h.append r p p c).child p c ?_
  rw [children_append_self]
  exact List.mem_append_right _ (List.mem_singleton_self c)

/-- The nodes from `r` to the first one of the list, each below the next. -/
inductive Path (t : Links) (r : ℕ) : ℕ → List ℕ → Prop
  | start : Path t r r [r]
  | step (n c : ℕ) (l : List ℕ) (h : Path t r n l) (hc : c ∈ t.children n) : Path t r c (c :: l)

/-- A node has one parent, so there is one path to it. -/
theorem Path.unique (r n : ℕ) (l l' : List ℕ) (ht : Linked t size) (hr : t.parent r = none)
    (h : Path t r n l) (h' : Path t r n l') : l = l' := by
  have hroot (m : ℕ) : r ∉ t.children m := by
    intro hm
    rw [(ht.child_iff m r).mp hm] at hr
    exact absurd hr (by simp)
  induction h generalizing l' with
  | start =>
    cases h' with
    | start => rfl
    | step m _ k _ hc => exact absurd hc (hroot m)
  | step n c l _ hc ih =>
    cases h' with
    | start => exact absurd hc (hroot n)
    -- both paths come to `c` from its parent
    | step m _ k hk hc' =>
      have hsame : n = m := Option.some.inj
        (((ht.child_iff n c).mp hc).symm.trans ((ht.child_iff m c).mp hc'))
      rw [← hsame] at hk
      rw [ih k hk]

theorem Path.suffix (r n m : ℕ) (l : List ℕ) (h : Path t r n l) (hm : m ∈ l) :
    ∃ l', Path t r m l' ∧ l' <:+ l := by
  induction h with
  | start =>
    obtain rfl := List.mem_singleton.mp hm
    exact ⟨[m], .start, List.suffix_rfl⟩
  | step n c l h hc ih =>
    rcases List.mem_cons.mp hm with rfl | hm
    · exact ⟨m :: l, .step n m l h hc, List.suffix_rfl⟩
    · rcases ih hm with ⟨l',hl,hsuf⟩
      exact ⟨l', hl, hsuf.trans (List.suffix_cons c l)⟩

theorem Path.nodup (r n : ℕ) (l : List ℕ) (ht : Linked t size) (hr : t.parent r = none)
    (h : Path t r n l) : l.Nodup := by
  induction h with
  | start => exact List.nodup_singleton r
  | step n c l h hc ih =>
    refine List.nodup_cons.mpr ⟨?_,ih⟩
    intro hmem
    -- a second visit to `c` would make two paths to it, one inside the other
    rcases Path.suffix r n c l h hmem with ⟨l',hl,hsuf⟩
    have hsame := Path.unique r c l' (c :: l) ht hr hl (.step n c l h hc)
    have hlen := hsuf.length_le
    rw [hsame, List.length_cons] at hlen
    omega

theorem Path.length_le (r n : ℕ) (l : List ℕ) (ht : Linked t size) (hr : t.parent r = none)
    (hsize : r < size) (h : Path t r n l) : l.length ≤ size := by
  have hlt (m : ℕ) (hm : m ∈ l) : m < size := by
    rcases Path.suffix r n m l h hm with ⟨l',hl,-⟩
    cases hl with
    | start => exact hsize
    | step k _ _ _ hc => exact (ht.bound k m ((ht.child_iff k m).mp hc)).2
  have hsub : l ⊆ List.range size := fun m hm => List.mem_range.mpr (hlt m hm)
  have hle := ((h.nodup r n l ht hr).subperm hsub).length_le
  rwa [List.length_range] at hle

/-- The walk comes to a node and, behind all nodes below it, leaves it. -/
inductive Visit (α : Type) where
  | enter (a : α)
  | leave (a : α)
deriving DecidableEq

def Visit.map {α β : Type} (f : α → β) : Visit α → Visit β
  | .enter a => .enter (f a)
  | .leave a => .leave (f a)

/-- All lists behind each other, if all are there. -/
def concatAll {β : Type} : List (Option (List β)) → Option (List β)
  | [] => some []
  | x :: xs => x.bind fun a => (concatAll xs).map (a ++ ·)

/-- The walk through the nodes below `n`; the fuel bounds the depth. -/
def walk {α : Type} (t : Links) (label : ℕ → α) : ℕ → ℕ → Option (List (Visit α))
  | 0, _ => none
  | fuel+1, n =>
    (concatAll ((t.children n).map (walk t label fuel))).map fun below =>
      .enter (label n) :: (below ++ [.leave (label n)])

theorem concatAll_total {β : Type} (xs : List (Option (List β))) (h : ∀ x ∈ xs, ∃ a, x = some a) :
    ∃ l, concatAll xs = some l := by
  induction xs with
  | nil => exact ⟨[],rfl⟩
  | cons x xs ih =>
    rcases h x List.mem_cons_self with ⟨a,rfl⟩
    rcases ih (fun y hy => h y (List.mem_cons_of_mem _ hy)) with ⟨l,hl⟩
    refine ⟨a ++ l, ?_⟩
    rw [concatAll, Option.bind_some, hl]
    rfl

theorem concatAll_part {β : Type} (xs : List (Option (List β))) (l : List β)
    (h : concatAll xs = some l) (x : Option (List β)) (hx : x ∈ xs) : ∃ a, x = some a ∧ a <:+: l := by
  induction xs generalizing l with
  | nil => exact absurd hx List.not_mem_nil
  | cons y ys ih =>
    rcases Option.bind_eq_some_iff.mp h with ⟨b,rfl,hrest⟩
    rcases Option.map_eq_some_iff.mp hrest with ⟨k,hk,rfl⟩
    rcases List.mem_cons.mp hx with rfl | hx
    · exact ⟨b, rfl, (List.prefix_append b k).isInfix⟩
    · rcases ih k hk hx with ⟨a,ha,hinf⟩
      exact ⟨a, ha, hinf.trans (List.suffix_append b k).isInfix⟩

theorem concatAll_map {β γ : Type} (g : β → γ) (xs : List (Option (List β))) :
    concatAll (xs.map (Option.map (List.map g))) = (concatAll xs).map (List.map g) := by
  induction xs with
  | nil => rfl
  | cons x xs ih =>
    rw [List.map_cons, concatAll, concatAll, ih]
    cases x with
    | none => rfl
    | some a =>
      rw [Option.map_some, Option.bind_some, Option.bind_some, Option.map_map, Option.map_map]
      congr 1
      funext l
      exact List.map_append.symm

theorem concatAll_mem {β : Type} (xs : List (Option (List β))) (l : List β) (b : β)
    (h : concatAll xs = some l) (hb : b ∈ l) : ∃ a, some a ∈ xs ∧ b ∈ a := by
  induction xs generalizing l with
  | nil =>
    obtain rfl := Option.some.inj h
    exact absurd hb List.not_mem_nil
  | cons x xs ih =>
    rcases Option.bind_eq_some_iff.mp h with ⟨a,rfl,hrest⟩
    rcases Option.map_eq_some_iff.mp hrest with ⟨k,hk,rfl⟩
    rcases List.mem_append.mp hb with hin | hin
    · exact ⟨a, List.mem_cons_self, hin⟩
    · rcases ih k hk hin with ⟨a',ha',hb'⟩
      exact ⟨a', List.mem_cons_of_mem _ ha', hb'⟩

section walk
variable {α : Type} (label : ℕ → α)

/-- The labels do not change the walk. -/
theorem walk_map {β : Type} (f : α → β) (fuel n : ℕ) :
    walk t (fun m => f (label m)) fuel n = (walk t label fuel n).map (List.map (Visit.map f)) := by
  induction fuel generalizing n with
  | zero => rfl
  | succ fuel ih =>
    have hchildren : (t.children n).map (walk t (fun m => f (label m)) fuel) =
        ((t.children n).map (walk t label fuel)).map (Option.map (List.map (Visit.map f))) := by
      rw [List.map_map]
      apply List.map_congr_left
      intro c _
      exact ih c
    unfold walk
    rw [hchildren, concatAll_map, Option.map_map, Option.map_map]
    congr 1
    funext below
    simp [Visit.map]

theorem walk_part (fuel r n : ℕ) (l : List (Visit α)) (hl : walk t label fuel r = some l)
    (h : Below t r n) : ∃ k part, walk t label k n = some part ∧ part <:+: l := by
  induction h with
  | refl => exact ⟨fuel, l, hl, List.infix_rfl⟩
  | child n c _ hc ih =>
    rcases ih with ⟨k,part,hpart,hinf⟩
    cases k with
    | zero => exact absurd hpart (by simp [walk])
    | succ k =>
      unfold walk at hpart
      rcases Option.map_eq_some_iff.mp hpart with ⟨below,hbelow,rfl⟩
      rcases concatAll_part _ below hbelow _ (List.mem_map_of_mem hc) with ⟨a,ha,hin⟩
      refine ⟨k, a, ha, ?_⟩
      have hinner : a <:+: below ++ [.leave (label n)] :=
        hin.trans (List.prefix_append below _).isInfix
      exact (hinner.trans (List.suffix_cons _ _).isInfix).trans hinf

theorem enter_mem_walk (fuel n : ℕ) (vs : List (Visit α)) (h : walk t label fuel n = some vs) :
    .enter (label n) ∈ vs := by
  cases fuel with
  | zero => exact absurd h (by simp [walk])
  | succ fuel =>
    rcases Option.map_eq_some_iff.mp h with ⟨below,-,rfl⟩
    exact List.mem_cons_self

/-- The walk comes to no other nodes. -/
theorem walk_visits (fuel r : ℕ) (nodes : List (Visit ℕ)) (h : walk t id fuel r = some nodes)
    (v : Visit ℕ) (hv : v ∈ nodes) : ∃ n, Below t r n ∧ (v = .enter n ∨ v = .leave n) := by
  induction fuel generalizing r nodes with
  | zero => exact absurd h (by simp [walk])
  | succ fuel ih =>
    rcases Option.map_eq_some_iff.mp h with ⟨below,hbelow,rfl⟩
    rcases List.mem_cons.mp hv with rfl | hv
    · exact ⟨r, .refl, Or.inl rfl⟩
    rcases List.mem_append.mp hv with hv | hv
    · rcases concatAll_mem _ below v hbelow hv with ⟨part,hpart,hin⟩
      rcases List.mem_map.mp hpart with ⟨c,hc,hwalk⟩
      rcases ih c part hwalk hin with ⟨n,hn,he⟩
      exact ⟨n, hn.of_child r c n hc, he⟩
    · exact ⟨r, .refl, Or.inr (List.mem_singleton.mp hv)⟩

/-- Two walks through the same nodes are equal exactly if every node has the same label in both. -/
theorem walk_eq_iff (label' : ℕ → α) (fuel r : ℕ) (nodes : List (Visit ℕ))
    (h : walk t id fuel r = some nodes) :
    walk t label fuel r = walk t label' fuel r ↔ ∀ n, Below t r n → label n = label' n := by
  have hwalk (f : ℕ → α) : walk t f fuel r = some (nodes.map (Visit.map f)) := by
    have hmap := walk_map (t := t) id f fuel r
    rw [h] at hmap
    exact hmap
  rw [hwalk label, hwalk label', Option.some.injEq, List.map_inj_left]
  constructor
  · intro hsame n hn
    rcases walk_part id fuel r n nodes h hn with ⟨k,part,hpart,hinf⟩
    have henter := hsame _ (hinf.subset (enter_mem_walk id k n part hpart))
    exact Visit.enter.inj henter
  · intro hlabel v hv
    rcases walk_visits fuel r nodes h v hv with ⟨n,hn,rfl | rfl⟩
    · exact congrArg Visit.enter (hlabel n hn)
    · exact congrArg Visit.leave (hlabel n hn)

theorem walk_leaf (fuel n : ℕ) (part : List (Visit α)) (hn : t.children n = [])
    (h : walk t label fuel n = some part) : part = [.enter (label n), .leave (label n)] := by
  cases fuel with
  | zero => exact absurd h (by simp [walk])
  | succ fuel =>
    unfold walk at h
    rw [hn] at h
    exact (Option.some.inj h).symm

theorem walk_of_path (fuel r n : ℕ) (l : List ℕ) (ht : Linked t size) (hr : t.parent r = none)
    (hsize : r < size) (hpath : Path t r n l) (hfuel : size < l.length+fuel) :
    ∃ vs, walk t label fuel n = some vs := by
  induction fuel generalizing n l with
  | zero =>
    have hle := hpath.length_le r n l ht hr hsize
    omega
  | succ fuel ih =>
    unfold walk
    have hall : ∃ below, concatAll ((t.children n).map (walk t label fuel)) = some below := by
      apply concatAll_total
      intro x hx
      rcases List.mem_map.mp hx with ⟨c,hc,rfl⟩
      exact ih c (c :: l) (.step n c l hpath hc) (by rw [List.length_cons]; omega)
    rcases hall with ⟨below,hbelow⟩
    rw [hbelow]
    exact ⟨_,rfl⟩

/-- The number of nodes is enough fuel. -/
theorem walk_total (r : ℕ) (ht : Linked t size) (hr : t.parent r = none) (hsize : r < size) :
    ∃ vs, walk t label size r = some vs :=
  walk_of_path label size r r [r] ht hr hsize .start (by simp)

end walk

end Cclab.LinkedTree
