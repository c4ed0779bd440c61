import Cclab.HashtableRuns

/-! `hashtable_apply` and `hashtable_apply2`: a callback visits the items of the list, and may
take the visited item out of the table. -/
namespace Cclab.Hashtable
open IntrusiveLists NodeHeap OperationRuns

/-- `HT_APPLY_FUNC`, with a state of its own beside the table. -/
abbrev ApplyFunc (σ : Type) := σ → State → ℕ → Option (σ × State × ℤ)

section apply
variable {σ : Type} (applyFunc : ApplyFunc σ)

/-- The loop of `hashtable_apply`; the next item is read before the call. -/
def applyLoop : ℕ → σ → State → ℕ → Option (σ × State)
  | 0, _, _, _ => none
  | fuel+1, c, s, hi =>
    if hi = nullptr then some (c,s)
    else do
      let it ← s.heap hi
      let r ← applyFunc c s hi
      applyLoop fuel r.1 r.2.1 it.next

def hashtableApply (fuel : ℕ) (c : σ) (s : State) : Option (σ × State × HtErrorCode) :=
  (applyLoop applyFunc fuel c s s.ht.head).map fun r => (r.1,r.2,.htOk)

/-- The loop of `hashtable_apply2`, with the item at which it stops. -/
def apply2Loop (n : ℤ) : ℕ → σ → State → ℤ → ℕ → Option (σ × State × ℕ)
  | 0, _, _, _, _ => none
  | fuel+1, c, s, i, hi =>
    if hi = nullptr then some (c,s,hi)
    else if n ≤ i then some (c,s,hi)
    else do
      let it ← s.heap hi
      let r ← applyFunc c s hi
      apply2Loop n fuel r.1 r.2.1 (if r.2.2 ≠ 0 then i+1 else i) it.next

/-- What follows the loop: the list is closed to a circle and opened in front of `hi`. -/
def openCircle (s : State) (hi : ℕ) : Option State :=
  if hi = nullptr ∨ s.ht.head = nullptr ∨ s.ht.tail = nullptr then some s
  else do
    let h ← setNext s.heap s.ht.tail s.ht.head
    let h ← setPrev h s.ht.head s.ht.tail
    let it ← h hi
    let h ← setPrev h hi nullptr
    let h ← setNext h it.prev nullptr
    some ⟨{ s.ht with head := hi, tail := it.prev }, h⟩

def hashtableApply2 (n : ℤ) (fuel : ℕ) (c : σ) (s : State) :
    Option (σ × State × HtErrorCode) :=
  if n ≤ 0 then some (c,s,.htInvalidParam)
  else do
    let r ← apply2Loop applyFunc n fuel c s 0 s.ht.head
    let s ← openCircle r.2.1 r.2.2
    some (r.1,s,.htOk)

/-- A count that is never reached does not stop the loop. -/
theorem applyLoop_eq (n : ℤ) (fuel : ℕ) (c : σ) (s : State) (i : ℤ) (hi : ℕ) (hn : i+fuel ≤ n) :
    applyLoop applyFunc fuel c s hi =
      (apply2Loop applyFunc n fuel c s i hi).map fun r => (r.1,r.2.1) := by
  induction fuel generalizing c s i hi with
  | zero => rfl
  | succ fuel ih =>
    -- the fuel is used up before the count is
    rw [applyLoop, apply2Loop]
    by_cases hnull : hi = nullptr
    · rw [if_pos hnull, if_pos hnull, Option.map_some]
    · rw [if_neg hnull, if_neg hnull, if_neg (by omega)]
      cases hit : s.heap hi with
      | none => rfl
      | some it =>
        cases hcall : applyFunc c s hi with
        | none => simp only [Option.bind_eq_bind, Option.bind_some, Option.bind_none,
            Option.map_none]
        | some r =>
          simp only [Option.bind_eq_bind, Option.bind_some]
          apply ih
          split_ifs <;> omega

end apply

/-! Callbacks that leave the table alone or remove the item they are given. -/

inductive Action where
  | keep
  | remove
  | removeFree
deriving DecidableEq, Repr

structure Visit where
  item : ℕ
  action : Action
  ret : ℤ

/-- What a callback decides, from its own state, the table and the item. -/
abbrev Visitor (σ : Type) := σ → State → ℕ → σ × Action × ℤ

section visitor
variable {σ : Type} (hash : List UInt8 → UInt32) (fuel : ℕ)

/-- `hashtable_remove` of an item, with the key of the item. -/
def removeItem (s : State) (hi : ℕ) : Option State := do
  let it ← s.heap hi
  let r ← hashtableRemove hash fuel s (some (itemKey it.data)) true
  some r.1

def act (s : State) (hi : ℕ) : Action → Option State
  | .keep => some s
  | .remove => removeItem hash fuel s hi
  | .removeFree => (removeItem hash fuel s hi).map fun s => { s with heap := free s.heap hi }

/-- The callback that acts so; it keeps a record of its calls. -/
def callback (d : Visitor σ) : ApplyFunc (σ × List Visit) := fun c s hi =>
  let r := d c.1 s hi
  (act hash fuel s hi r.2.1).map fun s => ((r.1, c.2 ++ [⟨hi,r.2.1,r.2.2⟩]), s, r.2.2)

end visitor

/-- The items whose visits left them in the table. -/
def kept (es : Items) (calls : List Visit) : Items :=
  ((es.zip calls).filter fun x => x.2.action = .keep).map Prod.fst

theorem kept_cons (es : Items) (calls : List Visit) (e : ℕ × List UInt8) (v : Visit) :
    kept (e :: es) (v :: calls) = (if v.action = .keep then [e] else []) ++ kept es calls := by
  rw [kept, List.zip_cons_cons]
  by_cases hv : v.action = .keep
  · rw [if_pos hv, List.filter_cons_of_pos (by simpa using hv)]
    rfl
  · rw [if_neg hv, List.filter_cons_of_neg (by simpa using hv)]
    rfl

/-- How many visits had a result that is not zero. -/
def hits (calls : List Visit) : ℕ := calls.countP fun v => v.ret ≠ 0

theorem hits_cons (v : Visit) (calls : List Visit) :
    hits (v :: calls) = hits calls + if v.ret ≠ 0 then 1 else 0 := by
  rw [hits, List.countP_cons]
  simp only [decide_eq_true_eq]
  rfl

theorem hits_nil (i : ℤ) : i+hits [] = i := by
  rw [hits, List.countP_nil, Nat.cast_zero, add_zero]

/-- The counter of the loop goes over the results one by one. -/
theorem hits_from (i : ℤ) (v : Visit) (calls : List Visit) :
    i+hits (v :: calls) = (if v.ret ≠ 0 then i+1 else i)+hits calls := by
  rw [hits_cons]
  split_ifs
  all_goals
    push_cast
    omega

section ring
variable (h : Heap HashItem) (head tail : ℕ) (es fs : Items)

/-- The first item of a list, or the null pointer. -/
def first (es : Items) : ℕ := (es.head?.map Prod.fst).getD nullptr

theorem ItemRing.head_first (hr : ItemRing h head tail (es.map Prod.fst)) : head = first es := by
  cases es with
  | nil => exact (hr.empty_iff h head tail _).1.mpr rfl
  | cons e es => exact hr.head_eq h head tail _ _

theorem ItemRing.next_first (e : ℕ × List UInt8)
    (hr : ItemRing h head tail ((es ++ e :: fs).map Prod.fst)) : nextOf h e.1 = first fs := by
  rw [List.map_append, List.map_cons] at hr
  have hnull : e.1 ≠ nullptr := fun he => (List.nodup_cons.mp hr.nodup).1 (by simp [← he])
  have hnext := (Ring.rotate hr).next_head
  rw [Function.update_of_ne hnull] at hnext
  rw [hnext]
  cases fs <;> rfl

end ring

section linked
variable (hash : List UInt8 → UInt32) (s : State) (cs : Items)

theorem LinkedBy.node (es : Items) (h : LinkedBy hash s es cs) (e : ℕ × List UInt8) (he : e ∈ es) :
    ∃ d, s.heap e.1 = some ⟨d, prevOf s.heap e.1, nextOf s.heap e.1⟩ ∧ itemKey d = e.2 := by
  rcases (h.items e he).1.node with ⟨d,-,hnode,-,hkey⟩
  exact ⟨d, hnode, hkey⟩

theorem LinkedBy.removeItem (fuel : ℕ) (es fs : Items) (e : ℕ × List UInt8)
    (h : LinkedBy hash s (es ++ e :: fs) cs) (hf : (es ++ e :: fs).length < fuel) :
    ∃ s' cs', removeItem hash fuel s e.1 = some s' ∧ LinkedBy hash s' (es ++ fs) cs' := by
  have hmem : e ∈ es ++ e :: fs := by simp
  rcases h.node hash s cs _ e hmem with ⟨d,hnode,hkey⟩
  have hlookup := KeyedList.lookup_append Prod.snd e.2 es fs e rfl h.keys
  rcases h.remove hash s _ cs fuel hf e.2 e hlookup (h.items e hmem).2 with ⟨s',hs,hs'⟩
  rw [KeyedList.erase_append Prod.snd e.2 es fs e rfl h.keys] at hs'
  refine ⟨s', _, ?_, hs'⟩
  simp only [Hashtable.removeItem, hnode, Option.bind_eq_bind, Option.bind_some, hkey, hs]

/-- One visit: the item stays where it is, or it leaves. -/
theorem LinkedBy.act (fuel : ℕ) (es fs : Items) (e : ℕ × List UInt8) (a : Action)
    (h : LinkedBy hash s (es ++ e :: fs) cs) (hf : (es ++ e :: fs).length < fuel) :
    ∃ s' cs', act hash fuel s e.1 a = some s' ∧
      LinkedBy hash s' (es ++ (if a = .keep then [e] else []) ++ fs) cs' := by
  cases a with
  | keep =>
    refine ⟨s, cs, rfl, ?_⟩
    rwa [if_pos rfl, List.append_assoc, List.singleton_append]
  | remove =>
    rw [if_neg (by decide), List.append_nil]
    exact h.removeItem hash s cs fuel es fs e hf
  | removeFree =>
    rw [if_neg (by decide), List.append_nil]
    rcases h.removeItem hash s cs fuel es fs e hf with ⟨s',cs',hs,hs'⟩
    refine ⟨{ s' with heap := free s'.heap e.1 }, cs', ?_, ?_⟩
    · rw [Hashtable.act, hs, Option.map_some]
    -- the freed memory belongs to no item any more
    · apply hs'.congr hash s' _ cs'
      intro p hp
      have hd := (List.nodup_cons.mp h.ring.nodup).2
      rw [List.map_append, List.map_cons, List.perm_middle.nodup_iff, List.nodup_cons,
        ← List.map_append] at hd
      exact free_of_ne s'.heap e.1 p (fun he => hd.1 (he ▸ hp))

/-- The circle keeps the items and their chains. -/
theorem LinkedBy.openCircle (es fs : Items) (h : LinkedBy hash s (es ++ fs) cs) :
    ∃ s', openCircle s (first fs) = some s' ∧ LinkedBy hash s' (fs ++ es) cs := by
  cases fs with
  -- the loop came to the end of the list, which stays as it is
  | nil =>
    refine ⟨s, if_pos (Or.inl rfl), ?_⟩
    rwa [List.append_nil] at h
  | cons e fs =>
    have hring := h.ring
    have hends := hring.empty_iff s.heap _ _ _
    have hlive := h.live hash s _ cs
    rw [List.map_append, List.map_cons] at hring hlive
    rcases hring.turn s.heap s.ht.head s.ht.tail (es.map Prod.fst) (fs.map Prod.fst) e.1 hlive with
      ⟨h1,h2,h3,h4,hs1,hs2,hs3,hs4,hring',hd2,hd⟩
    rcases views_congr s.heap h4 hd with ⟨hh,hc⟩
    have hperm : (es ++ e :: fs).Perm (e :: fs ++ es) := List.perm_append_comm
    refine ⟨⟨{ s.ht with head := e.1, tail := prevOf h2 e.1 }, h4⟩, ?_, ?_, ?_, ?_, ?_, ?_, ?_⟩
    -- the five writes of the cut
    · have hne : ¬ (e.1 = nullptr ∨ s.ht.head = nullptr ∨ s.ht.tail = nullptr) := by
        rw [hends.1, hends.2, not_or, not_or]
        exact ⟨h.ne_null hash s _ cs e (by simp), by simp, by simp⟩
      rcases Option.ne_none_iff_exists'.mp (hlive e.1 (by simp)) with ⟨d,hd0⟩
      have hnode := dataOf_eq_some h2 e.1 d (by rw [hd2, hd0])
      show Hashtable.openCircle s e.1 = _
      rw [Hashtable.openCircle, if_neg hne]
      simp only [hs1, hs2, hnode, Option.bind_eq_bind, Option.bind_some, hs3, hs4]
    · rw [List.map_append, List.map_cons]
      exact hring'
    · intro f hf
      rw [ItemAt, hc]
      exact h.items f (hperm.mem_iff.mpr hf)
    · exact (hperm.map Prod.snd).nodup_iff.mp h.keys
    · intro b
      apply (h.chains b).congr
      intro p _
      rw [chainNext, chainNext, hh]
    · rw [← hperm.length_eq]
      exact h.count
    · exact hperm.symm.trans h.order

/-- The loop, from any item of the list on: it visits `visited`, and stops in front of what is
left of the list. -/
theorem LinkedBy.apply2Loop {σ : Type} (d : Visitor σ) (n : ℤ) (fuel : ℕ) (rest : Items) :
    ∀ (front cs : Items) (s : State) (c : σ) (log : List Visit) (i : ℤ) (budget : ℕ),
      LinkedBy hash s (front ++ rest) cs → (front ++ rest).length < fuel → rest.length < budget →
      ∃ c' calls s' cs' visited left, rest = visited ++ left ∧
        apply2Loop (callback hash fuel d) n budget (c,log) s i (first rest) =
          some ((c',log ++ calls), s', first left) ∧
        LinkedBy hash s' (front ++ kept visited calls ++ left) cs' ∧
        calls.map Visit.item = visited.map Prod.fst ∧ (n ≤ i+hits calls ∨ left = []) ∧
        ∀ pre, pre <+: calls → pre ≠ calls → i+hits pre < n := by
  induction rest with
  | nil =>
    intro front cs s c log i budget h hf hb
    obtain ⟨b,rfl⟩ := Nat.exists_eq_succ_of_ne_zero (Nat.ne_of_gt hb)
    refine ⟨c, [], s, cs, [], [], rfl, ?_, ?_, rfl, Or.inr rfl, ?_⟩
    · rw [Hashtable.apply2Loop, if_pos (show first [] = nullptr from rfl), List.append_nil]
    · show LinkedBy hash s (front ++ [] ++ []) cs
      rw [List.append_nil]
      exact h
    · intro pre hpre hne
      exact absurd (List.prefix_nil.mp hpre) hne
  | cons e rest ih =>
    intro front cs s c log i budget h hf hb
    obtain ⟨b,rfl⟩ := Nat.exists_eq_succ_of_ne_zero (Nat.ne_of_gt (Nat.zero_lt_of_lt hb))
    have hmem : e ∈ front ++ e :: rest := by simp
    have hnull := h.ne_null hash s _ cs e hmem
    by_cases hn : n ≤ i
    -- the count is reached in front of this item
    · refine ⟨c, [], s, cs, [], e :: rest, rfl, ?_, ?_, rfl, Or.inl ?_, ?_⟩
      · rw [Hashtable.apply2Loop, if_neg (show first (e :: rest) ≠ nullptr from hnull), if_pos hn,
          List.append_nil]
      · rw [List.append_assoc]
        exact h
      · rwa [hits_nil]
      · intro pre hpre hne
        exact absurd (List.prefix_nil.mp hpre) hne
    -- the item is visited, and what the callback leaves of it is behind `front`
    · rcases h.node hash s cs _ e hmem with ⟨dt,hnode,-⟩
      let r := d c s e.1
      let v : Visit := ⟨e.1,r.2.1,r.2.2⟩
      rcases h.act hash s cs fuel front rest e r.2.1 hf with ⟨s1,cs1,hact,h1⟩
      have hlen : (front ++ (if r.2.1 = .keep then [e] else []) ++ rest).length < fuel := by
        refine lt_of_le_of_lt ?_ hf
        split_ifs <;> simp
      rcases ih (front ++ if r.2.1 = .keep then [e] else []) cs1 s1 r.1 (log ++ [v])
        (if r.2.2 ≠ 0 then i+1 else i) b h1 hlen (Nat.lt_of_succ_lt_succ hb) with
        ⟨c',calls,s',cs',visited,left,hrest,hloop,h',hcalls,hstop,hshort⟩
      refine ⟨c', v :: calls, s', cs', e :: visited, left, ?_, ?_, ?_, ?_, ?_, ?_⟩
      · rw [hrest]
        rfl
      -- `next` was read before the call
      · have hnext := h.ring.next_first s.heap _ _ front rest e
        have hcall : callback hash fuel d (c,log) s e.1 = some ((r.1,log ++ [v]), s1, r.2.2) := by
          show (Hashtable.act hash fuel s e.1 r.2.1).map _ = _
          rw [hact, Option.map_some]
        show Hashtable.apply2Loop _ n (b+1) (c,log) s i e.1 = _
        rw [Hashtable.apply2Loop, if_neg hnull, if_neg hn]
        simp only [hnode, Option.bind_eq_bind, Option.bind_some, hcall, hnext]
        rw [hloop, List.append_assoc]
        rfl
      · rw [kept_cons, ← List.append_assoc]
        exact h'
      · rw [List.map_cons, List.map_cons, hcalls]
      · rw [hits_from]
        exact hstop
      · intro pre hpre hne
        cases pre with
        | nil =>
          rw [hits_nil]
          exact Int.not_le.mp hn
        | cons w pre =>
          obtain ⟨rfl,hpre'⟩ := List.cons_prefix_cons.mp hpre
          rw [hits_from]
          exact hshort pre hpre' (fun he => hne (by rw [he]))

end linked

end Cclab.Hashtable
