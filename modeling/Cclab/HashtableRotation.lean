import Cclab.HashtableApply
import Cclab.Rotation

/-! The tables that any sequence of calls leaves, and `hashtable_apply2` on them: it visits in
rotation, so no item is visited again before every other one was. -/
namespace Cclab.Hashtable
open IntrusiveLists NodeHeap OperationRuns Rotation

/-- The visits of `hashtable_apply2`: `visited` is the shortest prefix of the list on which the
callback had `n` results that are not zero, or the whole list. -/
structure Visited (n : ℤ) (calls : List Visit) (visited left : Items) : Prop where
  items : calls.map Visit.item = visited.map Prod.fst
  stop : hits calls = n ∨ hits calls < n ∧ left = []
  shortest : ∀ pre, pre <+: calls → pre ≠ calls → hits pre < n

theorem kept_length (es : Items) (calls : List Visit) : (kept es calls).length ≤ es.length := by
  rw [kept, List.length_map]
  calc
    _ ≤ (es.zip calls).length := List.length_filter_le _ _
    _ = min es.length calls.length := List.length_zip
    _ ≤ es.length := Nat.min_le_left _ _

section apply
variable (hash : List UInt8 → UInt32) {σ : Type} (d : Visitor σ) (fuel : ℕ) (es cs : Items)
  (s : State) (h : LinkedBy hash s es cs) (hf : es.length < fuel) (c : σ) (log : List Visit)
include h hf

/-- One call rotates the list by the items that it visits. -/
theorem LinkedBy.apply2 (n : ℤ) (hn : 1 ≤ n) : ∃ c' calls s' cs' visited left,
    hashtableApply2 (callback hash fuel d) n fuel (c,log) s = some ((c',log ++ calls), s', .htOk) ∧
      es = visited ++ left ∧ Visited n calls visited left ∧
      LinkedBy hash s' (left ++ kept visited calls) cs' := by
  rcases LinkedBy.apply2Loop hash d n fuel es [] cs s c log 0 fuel h hf hf with
    ⟨c',calls,s1,cs1,visited,left,hes,hloop,h1,hitems,hstop,hshort⟩
  simp only [Int.zero_add] at hstop hshort
  rcases h1.openCircle hash s1 cs1 _ left with ⟨s',hopen,h'⟩
  refine ⟨c', calls, s', cs1, visited, left, ?_, hes, ⟨hitems, ?_, hshort⟩, h'⟩
  · have hhead := h.ring.head_first s.heap _ _ es
    rw [hashtableApply2, if_neg (by omega)]
    simp only [hhead, hloop, Option.bind_eq_bind, Option.bind_some, hopen]
  -- before the last visit the count was not reached
  · have hle : hits calls ≤ n := by
      rcases List.eq_nil_or_concat calls with rfl | ⟨pre,v,rfl⟩
      · rw [hits, List.countP_nil]
        omega
      · have hlt := hshort pre ⟨[v], (List.concat_eq_append).symm⟩ (by
          intro he
          simpa using congrArg List.length he)
        rw [List.concat_eq_append, hits, List.countP_append, List.countP_singleton]
        rw [hits] at hlt
        split_ifs <;> omega
    rcases hstop with hge | hleft
    · exact Or.inl (Int.le_antisymm hle hge)
    · rcases Int.lt_or_eq_of_le hle with hlt | heq
      · exact Or.inr ⟨hlt,hleft⟩
      · exact Or.inl heq

/-- `hashtable_apply` visits the whole list. -/
theorem LinkedBy.apply : ∃ c' calls s' cs',
    hashtableApply (callback hash fuel d) fuel (c,log) s = some ((c',log ++ calls), s', .htOk) ∧
      calls.map Visit.item = es.map Prod.fst ∧ LinkedBy hash s' (kept es calls) cs' := by
  rcases LinkedBy.apply2Loop hash d (fuel+1) fuel es [] cs s c log 0 fuel h hf hf with
    ⟨c',calls,s',cs',visited,left,hes,hloop,h',hitems,hstop,-⟩
  -- there are fewer items than the count that would stop the loop
  have hleft : left = [] := by
    apply hstop.resolve_left
    have hle : hits calls ≤ calls.length := List.countP_le_length
    have hlen := congrArg List.length hitems
    rw [List.length_map, List.length_map] at hlen
    rw [hes, List.length_append] at hf
    omega
  subst hleft
  rw [List.append_nil] at hes h'
  subst hes
  refine ⟨c', calls, s', cs', ?_, hitems, h'⟩
  have hhead := h.ring.head_first s.heap _ _ es
  rw [hashtableApply, hhead, applyLoop_eq _ (fuel+1) fuel _ s 0 _ (by omega), hloop]
  rfl

end apply

/-- Calls of `hashtable_apply2`, one after the other. -/
def apply2All (hash : List UInt8 → UInt32) {σ : Type} (fuel : ℕ) (ds : List (ℤ × Visitor σ))
    (c : σ × List Visit) (s : State) : Option ((σ × List Visit) × State) :=
  ds.foldlM (fun m d => (hashtableApply2 (callback hash fuel d.2) d.1 fuel m.1 m.2).map
    fun r => (r.1,r.2.1)) (c,s)

/-- The visits as turns of a queue. -/
def turnsOf (calls : List Visit) : List (ℕ × Bool) :=
  calls.map fun v => (v.item, v.action = .keep)

theorem turnsOf_append (calls more : List Visit) :
    turnsOf (calls ++ more) = turnsOf calls ++ turnsOf more := List.map_append

theorem kept_turns (es : Items) (calls : List Visit)
    (h : calls.map Visit.item = es.map Prod.fst) :
    ((turnsOf calls).filter Prod.snd).map Prod.fst = (kept es calls).map Prod.fst := by
  induction calls generalizing es with
  | nil =>
    cases es with
    | nil => rfl
    | cons e es => exact absurd h (by simp)
  | cons v calls ih =>
    cases es with
    | nil => exact absurd h (by simp)
    | cons e es =>
      obtain ⟨hitem,hrest⟩ := List.cons.inj h
      rw [kept_cons, List.map_append, ← ih es hrest, turnsOf, List.map_cons]
      by_cases hv : v.action = .keep
      · rw [if_pos hv, List.filter_cons_of_pos (by simpa using hv), List.map_cons]
        exact congrArg (fun p => p :: _) hitem
      · rw [if_neg hv, List.filter_cons_of_neg (by simpa using hv)]
        rfl

/-- One call is a pass over the items that it visits. -/
theorem Visited.turns (n : ℤ) (calls : List Visit) (visited left : Items)
    (h : Visited n calls visited left) :
    turns ((visited ++ left).map Prod.fst) (turnsOf calls) =
      some ((left ++ kept visited calls).map Prod.fst) := by
  have hpass := turns_pass (turnsOf calls) (left.map Prod.fst) []
  have hfst : (turnsOf calls).map Prod.fst = visited.map Prod.fst := by
    rw [← h.items, turnsOf, List.map_map]
    rfl
  rw [hfst, kept_turns visited calls h.items] at hpass
  simpa only [List.append_nil, List.map_append] using hpass

theorem LinkedBy.apply2All (hash : List UInt8 → UInt32) {σ : Type} (ds : List (ℤ × Visitor σ))
    (fuel : ℕ) (es cs : Items) (s : State) (h : LinkedBy hash s es cs) (hf : es.length < fuel)
    (c : σ) (log : List Visit) : ∃ c' calls s' es' cs',
      apply2All hash fuel ds (c,log) s = some ((c',log ++ calls),s') ∧ LinkedBy hash s' es' cs' ∧
      turns (es.map Prod.fst) (turnsOf calls) = some (es'.map Prod.fst) := by
  induction ds generalizing es cs s c log with
  | nil =>
    refine ⟨c, [], s, es, cs, ?_, h, ?_⟩
    · rw [List.append_nil]
      rfl
    · cases es <;> rfl
  | cons nd ds ih =>
    by_cases hn : 1 ≤ nd.1
    · rcases h.apply2 hash nd.2 fuel es cs s hf c log nd.1 hn with
        ⟨c1,calls1,s1,cs1,visited,left,hcall,rfl,hvisited,h1⟩
      have hlen : (left ++ kept visited calls1).length < fuel := by
        have hle := kept_length visited calls1
        rw [List.length_append] at hf ⊢
        omega
      rcases ih _ cs1 s1 h1 hlen c1 (log ++ calls1) with ⟨c',calls,s',es',cs',hall,h',hturns⟩
      -- the turns of this call, and then those of the later ones
      refine ⟨c', calls1 ++ calls, s', es', cs', ?_, h', ?_⟩
      · rw [Hashtable.apply2All, List.foldlM_cons, hcall, ← List.append_assoc]
        exact hall
      · rw [turnsOf_append, turns_append, hvisited.turns]
        exact hturns
    -- the arguments are refused
    · rcases ih es cs s h hf c log with ⟨c',calls,s',es',cs',hall,h',hturns⟩
      refine ⟨c', calls, s', es', cs', ?_, h', hturns⟩
      rw [Hashtable.apply2All, List.foldlM_cons, hashtableApply2, if_pos (by omega)]
      exact hall

/-- The tables behind `hashtable_init` and any calls. No item is inserted that is linked, and
the fuel of a call is enough for the items of the table. -/
inductive Reachable (hash : List UInt8 → UInt32) : State → Prop
  | init (heap : Heap HashItem) : Reachable hash (hashtableInit heap)
  | step (s s' : State) (fuel : ℕ) (op : Op) (answer : Answer) (hs : Reachable hash s)
      (hok : ∀ es cs, LinkedBy hash s es cs → es.length < fuel ∧ Allowed es op)
      (h : step hash fuel s op = some (s',answer)) : Reachable hash s'
  | apply {σ : Type} (s s' : State) (fuel : ℕ) (d : Visitor σ) (c c' : σ × List Visit)
      (code : HtErrorCode) (hs : Reachable hash s)
      (hf : ∀ es cs, LinkedBy hash s es cs → es.length < fuel)
      (h : hashtableApply (callback hash fuel d) fuel c s = some (c',s',code)) : Reachable hash s'
  | apply2 {σ : Type} (s s' : State) (fuel : ℕ) (n : ℤ) (d : Visitor σ) (c c' : σ × List Visit)
      (code : HtErrorCode) (hs : Reachable hash s)
      (hf : ∀ es cs, LinkedBy hash s es cs → es.length < fuel)
      (h : hashtableApply2 (callback hash fuel d) n fuel c s = some (c',s',code)) :
      Reachable hash s'

theorem Reachable.linked (hash : List UInt8 → UInt32) (s : State) (hs : Reachable hash s) :
    ∃ es cs, LinkedBy hash s es cs := by
  induction hs with
  | init heap => exact ⟨[], [], (linkedBy_self_iff hash _ []).mpr (linked_init hash heap)⟩
  | step s s' fuel op answer hs hok h ih =>
    rcases ih with ⟨es,cs,hl⟩
    rcases hok es cs hl with ⟨hf,ha⟩
    rcases hl.step hash fuel s es cs hf op ha with ⟨s1,h1,hl1⟩
    obtain rfl := (Prod.mk.inj (Option.some.inj (h.symm.trans h1))).1
    exact ⟨_, _, hl1⟩
  | apply s s' fuel d c c' code hs hf h ih =>
    rcases ih with ⟨es,cs,hl⟩
    rcases hl.apply hash d fuel es cs s (hf es cs hl) c.1 c.2 with ⟨c1,calls,s1,cs1,h1,-,hl1⟩
    obtain rfl := (Prod.mk.inj (Prod.mk.inj (Option.some.inj (h.symm.trans h1))).2).1
    exact ⟨_, _, hl1⟩
  | apply2 s s' fuel n d c c' code hs hf h ih =>
    rcases ih with ⟨es,cs,hl⟩
    by_cases hn : 1 ≤ n
    · rcases hl.apply2 hash d fuel es cs s (hf es cs hl) c.1 c.2 n hn with
        ⟨c1,calls,s1,cs1,visited,left,h1,-,-,hl1⟩
      obtain rfl := (Prod.mk.inj (Prod.mk.inj (Option.some.inj (h.symm.trans h1))).2).1
      exact ⟨_, _, hl1⟩
    · rw [hashtableApply2, if_pos (by omega)] at h
      obtain rfl := (Prod.mk.inj (Prod.mk.inj (Option.some.inj h)).2).1
      exact ⟨es, cs, hl⟩

/-- The pointers of a table determine its list. -/
theorem LinkedBy.unique (hash : List UInt8 → UInt32) (s : State) (es es' cs cs' : Items)
    (h : LinkedBy hash s es cs) (h' : LinkedBy hash s es' cs') : es = es' := by
  have hfst := Ring.unique nullptr _ _ h.ring h'.ring
  have hlen : es.length = es'.length := by
    simpa using congrArg List.length hfst
  apply List.ext_getElem hlen
  intro i hi hi'
  have hp : es[i].1 = es'[i].1 := by
    simpa [hi, hi'] using congrArg (fun l => l[i]?) hfst
  have hkey := (h.items es[i] (List.getElem_mem hi)).1
  rw [hp] at hkey
  exact Prod.ext hp (hkey.unique _ _ _ _ (h'.items es'[i] (List.getElem_mem hi')).1)

/-- What a run of operations leaves is reachable, and its list is that of the abstract table. -/
theorem reachable_run (hash : List UInt8 → UInt32) (fuel : ℕ) (ops : List Op) (s : State)
    (es : Items) (hs : Reachable hash s) (h : Linked hash s es) (hl : Legal specStep Allowed es ops)
    (hf : es.length+ops.length < fuel) : ∃ s' os, run (step hash fuel) s ops = some (s',os) ∧
      Reachable hash s' ∧ Linked hash s' (specRun specStep es ops).1 := by
  induction ops generalizing s es with
  | nil => exact ⟨s, [], rfl, hs, h⟩
  | cons op ops ih =>
    obtain ⟨hok,hrest⟩ := hl
    rw [List.length_cons] at hf
    have hlen := specStep_length es op
    obtain ⟨s1,h1,hl1⟩ := h.step hash fuel s es (by omega) op hok
    have hreach : Reachable hash s1 := by
      refine .step s s1 fuel op _ hs ?_ h1
      intro es' cs' h'
      obtain rfl := h'.unique hash s _ _ _ _ ((linkedBy_self_iff hash s es).mpr h)
      exact ⟨by omega, hok⟩
    obtain ⟨s',os,hrun,hs',hl'⟩ := ih s1 _ hreach hl1 hrest (by omega)
    refine ⟨s', (specStep es op).2 :: os, ?_, hs', hl'⟩
    rw [run_cons _ _ _ _ _ h1, hrun]
    rfl

/-- A call on a reachable table visits a prefix of its list and rotates the list by it; the
visited items that were not removed are at its end, and the table is well linked again. Over any
calls that follow each other, every other item that is in the list when an item is visited has its
turn before that one is visited again. -/
theorem apply2_rotates (hash : List UInt8 → UInt32) (s : State) (hs : Reachable hash s) :
    ∃ es cs, LinkedBy hash s es cs ∧ ∀ fuel, es.length < fuel →
      (∀ (σ : Type) (d : Visitor σ) (n : ℤ) (c : σ), 1 ≤ n →
        ∃ c' calls s' cs' visited left,
          hashtableApply2 (callback hash fuel d) n fuel (c,[]) s =
            some ((c',calls), s', .htOk) ∧
          es = visited ++ left ∧ Visited n calls visited left ∧
          LinkedBy hash s' (left ++ kept visited calls) cs') ∧
      ∀ (σ : Type) (ds : List (ℤ × Visitor σ)) (c : σ), ∃ c' calls s',
        apply2All hash fuel ds (c,[]) s = some ((c',calls),s') ∧
        ∀ pre v mid w post, calls = pre ++ v :: (mid ++ w :: post) → w.item = v.item →
          ∀ p ∈ es.map Prod.fst, p ≠ v.item → (∀ u ∈ pre, u.item = p → u.action = .keep) →
            p ∈ mid.map Visit.item := by
  rcases hs.linked hash s with ⟨es,cs,h⟩
  refine ⟨es, cs, h, ?_⟩
  intro fuel hf
  constructor
  · intro σ d n c hn
    exact h.apply2 hash d fuel es cs s hf c [] n hn
  · intro σ ds c
    rcases h.apply2All hash ds fuel es cs s hf c [] with ⟨c',calls,s',es',cs',hall,-,hturns⟩
    refine ⟨c', calls, s', hall, ?_⟩
    intro pre v mid w post hcalls hw p hp hne hkeep
    subst hcalls
    -- an item that is not removed is kept in every visit before `v`
    simp only [turnsOf, List.map_append, List.map_cons] at hturns
    have hmem := turns_fair _ _ (List.nodup_cons.mp h.ring.nodup).2 _ _ _ _ _ hturns hw p hp (by
      intro hm
      obtain ⟨u,hu,he⟩ := List.mem_map.mp hm
      obtain ⟨hitem,haction⟩ := Prod.mk.inj he
      exact absurd (hkeep u hu hitem) (by simpa using haction)) hne
    rw [List.map_map] at hmem
    exact hmem

/-- An item at `hi` whose key is one byte. -/
def oneByte (hi : ℕ) (c : UInt8) : Op := .insert hi ⟨⟨0,1,0,fun _ => c⟩,0,0⟩

/-- Three items, which all hash to the same bucket. -/
def threeItems : State :=
  ((run (step (fun _ => 0) 4) (hashtableInit fun _ => none)
    [oneByte 5 7,oneByte 6 8,oneByte 7 9]).map Prod.fst).getD (hashtableInit fun _ => none)

theorem reachable_threeItems : Reachable (fun _ => 0) threeItems ∧
    Linked (fun _ => 0) threeItems [(5,[7]),(6,[8]),(7,[9])] := by
  have hlegal : Legal specStep Allowed [] [oneByte 5 7,oneByte 6 8,oneByte 7 9] := by
    refine ⟨fun _ => ⟨?_,?_,?_⟩, fun _ => ⟨?_,?_,?_⟩, fun _ => ⟨?_,?_,?_⟩, trivial⟩ <;> decide
  obtain ⟨s,os,hrun,hs,hl⟩ := reachable_run (fun _ => 0) 4 _ _ _ (.init fun _ => none)
    (linked_init (fun _ => 0) fun _ => none) hlegal (by decide)
  have hthree : threeItems = s := by
    rw [threeItems, hrun]
    rfl
  rw [hthree]
  exact ⟨hs,hl⟩

/-- Removes the item at 5, and counts every item. -/
def removeFive : Visitor Unit := fun c _ hi => (c,if hi = 5 then .remove else .keep,1)

/-- Two items are visited, of which the first goes and the second comes behind the third. -/
theorem apply2_rotates_three : ∃ calls s' cs',
    hashtableApply2 (callback (fun _ => 0) 4 removeFive) 2 4 ((),[]) threeItems =
      some (((),calls),s',.htOk) ∧
    calls.map Visit.item = [5,6] ∧ LinkedBy (fun _ => 0) s' [(7,[9]),(6,[8])] cs' := by
  obtain ⟨hs,hl⟩ := reachable_threeItems
  obtain ⟨es,cs,h,hrotates⟩ := apply2_rotates (fun _ => 0) threeItems hs
  obtain rfl := h.unique _ _ _ _ _ _ ((linkedBy_self_iff _ _ _).mpr hl)
  obtain ⟨c',calls,s',cs',visited,left,hcall,hes,hvisited,h'⟩ :=
    (hrotates 4 (by decide)).1 Unit removeFive 2 () (by decide)
  have hlog : (hashtableApply2 (callback (fun _ => 0) 4 removeFive) 2 4 ((),[]) threeItems).map
      (fun r => r.1.2) = some [⟨5,.remove,1⟩,⟨6,.keep,1⟩] := rfl
  rw [hcall] at hlog
  obtain rfl : calls = [⟨5,.remove,1⟩,⟨6,.keep,1⟩] := Option.some.inj hlog
  have htwo : visited.length = 2 := by
    simpa using (congrArg List.length hvisited.items).symm
  obtain ⟨rfl,rfl⟩ := List.append_inj (hes.symm.trans (List.take_append_drop 2 _).symm) htwo
  exact ⟨_, s', cs', hcall, rfl, h'⟩

end Cclab.Hashtable
