import Cclab.HashtableRefines

/-! Runs of the hash table: every answer is that of the list of linked items, and the item
counter follows the length of the list modulo its width. -/
namespace Cclab.Hashtable
open IntrusiveLists NodeHeap OperationRuns

/-- The abstract table: what an operation answers and which items it leaves. -/
def specStep (es : Items) : Op → Items × Answer
  | .insert hi item =>
    if hi = nullptr then (es, .insert .htInvalidParam)
    else if itemKey item.data ∈ es.map Prod.snd then (es, .insert .htExists)
    else (es ++ [(hi,itemKey item.data)], .insert .htOk)
  | .remove none _ => (es, .remove .htInvalidParam none)
  | .remove (some key) item =>
    if key = [] ∨ item = false then (es, .remove .htInvalidParam none)
    else match KeyedList.lookup Prod.snd key es with
      | none => (es, .remove .htNotFound none)
      | some e => (KeyedList.erase Prod.snd key es, .remove .htOk (some e.1))
  | .find none => (es, .find nullptr)
  | .find (some key) =>
    (es, .find (((KeyedList.lookup Prod.snd key es).map Prod.fst).getD nullptr))
  | .clear => if es = [] then (es, .clear (-1)) else ([], .clear 0)

/-- The caller inserts no item that is linked, and none without a key. -/
def Allowed (es : Items) : Op → Prop
  | .insert hi item => hi ≠ nullptr →
    hi ∉ es.map Prod.fst ∧ 0 < item.data.keyLength ∧ item.data.keyLength < 2^31
  | _ => True

theorem itemKey_ne_nil (d : HashItem) (h : 0 < d.keyLength) (h' : d.keyLength < 2^31) :
    itemKey d ≠ [] := by
  intro he
  have hlen := congrArg List.length he
  rw [itemKey, hashitemKey, ByteMemory.load_length, sizeT, List.length_nil] at hlen
  omega

section step
variable (hash : List UInt8 → UInt32) (fuel : ℕ) (s : State) (es cs : Items)
  (h : LinkedBy hash s es cs) (hf : es.length < fuel)
include h hf

theorem LinkedBy.step_insert (hi : ℕ) (item : Node HashItem) (hok : Allowed es (.insert hi item)) :
    ∃ s', step hash fuel s (.insert hi item) = some (s', (specStep es (.insert hi item)).2) ∧
      LinkedBy hash s' (specStep es (.insert hi item)).1 (specStep cs (.insert hi item)).1 := by
  by_cases hnull : hi = nullptr
  · refine ⟨s, ?_, ?_⟩
    · rw [step, hashtableInsert, if_pos hnull, fill, if_pos hnull, specStep, if_pos hnull]
      rfl
    · rwa [specStep, specStep, if_pos hnull, if_pos hnull]
  rcases hok hnull with ⟨hout,hpos,hmax⟩
  have hself := alloc_self s.heap hi item
  have hfill : fill s.heap hi item = alloc s.heap hi item := if_neg hnull
  have hkeys := (h.order.map Prod.snd).mem_iff (a := itemKey item.data)
  -- the caller fills a node that the table does not know
  have h0 : LinkedBy hash ⟨s.ht,alloc s.heap hi item⟩ es cs := by
    apply h.congr hash s es cs
    intro p hp
    exact alloc_of_ne s.heap hi p item (fun he => hout (he ▸ hp))
  by_cases hkey : itemKey item.data ∈ es.map Prod.snd
  · refine ⟨⟨s.ht,alloc s.heap hi item⟩, ?_, ?_⟩
    · rw [step, hfill, h0.insert_exists hash _ es cs fuel hf hi item.data hself.2.2 hnull hkey,
        specStep, if_neg hnull, if_pos hkey]
      rfl
    · rwa [specStep, specStep, if_neg hnull, if_neg hnull, if_pos hkey, if_pos (hkeys.mp hkey)]
  · rcases h0.insert hash _ es cs fuel hf hi item.data hself.2.2 (by
      rw [List.mem_cons, not_or]
      exact ⟨hnull,hout⟩) (itemKey_ne_nil item.data hpos hmax) hkey with ⟨s',hs,hs'⟩
    refine ⟨s', ?_, ?_⟩
    · rw [step, hfill, hs, specStep, if_neg hnull, if_neg hkey]
      rfl
    · rwa [specStep, specStep, if_neg hnull, if_neg hnull, if_neg hkey,
        if_neg (fun hm => hkey (hkeys.mpr hm))]

theorem LinkedBy.step_remove (key : Option (List UInt8)) (item : Bool) :
    ∃ s', step hash fuel s (.remove key item) = some (s', (specStep es (.remove key item)).2) ∧
      LinkedBy hash s' (specStep es (.remove key item)).1 (specStep cs (.remove key item)).1 := by
  cases key with
  | none => exact ⟨s, rfl, h⟩
  | some key =>
    -- the check of the arguments comes before the search
    by_cases hbad : key = [] ∨ item = false
    · refine ⟨s, ?_, ?_⟩
      · rw [step, hashtableRemove, if_pos hbad, specStep, if_pos hbad]
        rfl
      · rwa [specStep, specStep, if_pos hbad, if_pos hbad]
    obtain ⟨hne,rfl⟩ : key ≠ [] ∧ item = true := by simpa using hbad
    have hlookup := h.lookup hash s es cs key
    cases hl : KeyedList.lookup Prod.snd key es with
    | none =>
      refine ⟨s, ?_, ?_⟩
      · rw [step, h.remove_absent hash s es cs fuel hf key hl hne, specStep, if_neg hbad, hl]
        rfl
      · rwa [specStep, specStep, if_neg hbad, if_neg hbad, hlookup, hl]
    | some e =>
      rcases h.remove hash s es cs fuel hf key e hl hne with ⟨s',hs,hs'⟩
      refine ⟨s', ?_, ?_⟩
      · rw [step, hs, specStep, if_neg hbad, hl]
        rfl
      · rwa [specStep, specStep, if_neg hbad, if_neg hbad, hlookup, hl]

theorem LinkedBy.hashtableFind (key : List UInt8) : hashtableFind hash fuel s (some key) =
    some (((KeyedList.lookup Prod.snd key es).map Prod.fst).getD nullptr) := by
  by_cases hkey : key = []
  · have habsent : key ∉ es.map Prod.snd := by
      intro hm
      rcases List.mem_map.mp hm with ⟨e,he,hek⟩
      exact (h.items e he).2 (hek.trans hkey)
    rw [KeyedList.lookup_none Prod.snd key es habsent, Hashtable.hashtableFind, if_pos hkey]
    rfl
  · rw [Hashtable.hashtableFind, if_neg hkey, h.find hash s es cs fuel hf key]

theorem LinkedBy.step_clear : ∃ s',
    step hash fuel s .clear = some (s', (specStep es .clear).2) ∧
      LinkedBy hash s' (specStep es .clear).1 (specStep cs .clear).1 := by
  have hnil : es = [] ↔ cs = [] := by
    rw [← List.length_eq_zero_iff, ← List.length_eq_zero_iff, h.order.length_eq]
  by_cases hes : es = []
  -- an empty table answers that there was nothing to clear
  · have hends := h.ring.empty_iff s.heap _ _ _
    refine ⟨s, ?_, ?_⟩
    · rw [Hashtable.step, hashtableClear, hashtableClearFreed, if_pos (Or.inl (hends.1.mpr (by rw [hes]; rfl))),
        specStep, if_pos hes]
      rfl
    · rwa [specStep, specStep, if_pos hes, if_pos (hnil.mp hes)]
  · rcases h.clear hash s es cs fuel hf hes with ⟨s',hs,hs'⟩
    refine ⟨s', ?_, ?_⟩
    · rw [Hashtable.step, hs, specStep, if_neg hes]
      rfl
    · rwa [specStep, specStep, if_neg hes, if_neg (fun hc => hes (hnil.mpr hc))]

/-- Every operation answers as the abstract table, whatever the order of the chains is. -/
theorem LinkedBy.step (op : Op) (hok : Allowed es op) :
    ∃ s', step hash fuel s op = some (s', (specStep es op).2) ∧
      LinkedBy hash s' (specStep es op).1 (specStep cs op).1 := by
  cases op with
  | insert hi item => exact h.step_insert hash fuel s es cs hf hi item hok
  | remove key item => exact h.step_remove hash fuel s es cs hf key item
  | find key =>
    cases key with
    | none => exact ⟨s, rfl, h⟩
    | some key =>
      refine ⟨s, ?_, h⟩
      rw [Hashtable.step, h.hashtableFind hash fuel s es cs hf key]
      rfl
  | clear => exact h.step_clear hash fuel s es cs hf

end step

theorem Linked.step (hash : List UInt8 → UInt32) (fuel : ℕ) (s : State) (es : Items)
    (h : Linked hash s es) (hf : es.length < fuel) (op : Op) (hok : Allowed es op) :
    ∃ s', step hash fuel s op = some (s', (specStep es op).2) ∧
      Linked hash s' (specStep es op).1 := by
  have hby := (linkedBy_self_iff hash s es).mpr h
  rcases hby.step hash fuel s es es hf op hok with ⟨s',hs,hs'⟩
  exact ⟨s', hs, (linkedBy_self_iff hash s' _).mp hs'⟩

theorem specStep_length (es : Items) (op : Op) : (specStep es op).1.length ≤ es.length+1 := by
  unfold specStep
  split
  · split_ifs <;> simp
  · exact Nat.le_succ _
  · split_ifs
    · exact Nat.le_succ _
    · split
      · exact Nat.le_succ _
      · exact Nat.le_succ_of_le (KeyedList.erase_length Prod.snd _ es)
  · exact Nat.le_succ _
  · exact Nat.le_succ _
  · split_ifs <;> simp

/-- In a run of `n` operations no more than `n` items are linked. -/
theorem legal_bounded (fuel : ℕ) (ops : List Op) (es : Items) (hl : Legal specStep Allowed es ops)
    (hf : es.length+ops.length ≤ fuel) :
    Legal specStep (fun es op => Allowed es op ∧ es.length < fuel) es ops ∧
      (specRun specStep es ops).1.length ≤ fuel := by
  induction ops generalizing es with
  | nil => exact ⟨trivial, hf⟩
  | cons op ops ih =>
    rw [List.length_cons] at hf
    have hlen := specStep_length es op
    have hrest := ih (specStep es op).1 hl.2 (by omega)
    exact ⟨⟨⟨hl.1, by omega⟩, hrest.1⟩, hrest.2⟩

theorem linked_run (hash : List UInt8 → UInt32) (heap : Heap HashItem) (ops : List Op) (fuel : ℕ)
    (hf : ops.length < fuel) (hl : Legal specStep Allowed [] ops) :
    ∃ s, run (step hash fuel) (hashtableInit heap) ops = some (s, (specRun specStep [] ops).2) ∧
      Linked hash s (specRun specStep [] ops).1 ∧
      (specRun specStep [] ops).1.length < fuel := by
  have hb := legal_bounded ops.length ops [] hl (by simp)
  have hb' := legal_bounded fuel ops [] hl (by simp; omega)
  rcases run_refines (Linked hash) (fun es op => Allowed es op ∧ es.length < fuel)
    (fun s es op h hok => h.step hash fuel s es hok.2 op hok.1) (hashtableInit heap) [] ops
    (linked_init hash heap) hb'.1 with ⟨s,hrun,hs⟩
  exact ⟨s, hrun, hs, by omega⟩

/-- The item inserted last with the key and not removed or cleared since, after one more
operation that answered so. -/
def ownerAfter (key : List UInt8) (owner : Option ℕ) : Op × Answer → Option ℕ
  | (.insert hi item, .insert .htOk) => if itemKey item.data = key then some hi else owner
  | (.remove (some k) _, .remove .htOk _) => if k = key then none else owner
  | (.clear, _) => none
  | _ => owner

theorem ownerAfter_specStep (key : List UInt8) (es : Items) (op : Op) :
    ownerAfter key ((KeyedList.lookup Prod.snd key es).map Prod.fst) (op, (specStep es op).2) =
      (KeyedList.lookup Prod.snd key (specStep es op).1).map Prod.fst := by
  cases op with
  | insert hi item =>
    by_cases hnull : hi = nullptr
    · rw [specStep, if_pos hnull]
      rfl
    by_cases hkey : itemKey item.data ∈ es.map Prod.snd
    · rw [specStep, if_neg hnull, if_pos hkey]
      rfl
    · have hlast := KeyedList.lookup_snoc Prod.snd key es (hi,itemKey item.data)
      rw [specStep, if_neg hnull, if_neg hkey, hlast]
      by_cases hk : itemKey item.data = key
      · have habsent := KeyedList.lookup_none Prod.snd _ es hkey
        rw [hk] at habsent
        simp only [ownerAfter, hk, if_true, habsent, Option.none_or, Option.map_some]
      · simp only [ownerAfter, hk, if_false, Option.or_none]
  | remove key' item =>
    cases key' with
    | none => rfl
    | some k =>
      by_cases hbad : k = [] ∨ item = false
      · rw [specStep, if_pos hbad]
        rfl
      · rw [specStep, if_neg hbad]
        cases hl : KeyedList.lookup Prod.snd k es with
        | none => rfl
        | some e =>
          simp only [ownerAfter, KeyedList.lookup_erase, eq_comm]
          split_ifs <;> rfl
  | find key' => cases key' <;> rfl
  | clear =>
    by_cases hes : es = []
    · rw [specStep, if_pos hes, hes]
      rfl
    · rw [specStep, if_neg hes]
      rfl

theorem owner_specRun (key : List UInt8) (ops : List Op) (es : Items) :
    (ops.zip (specRun specStep es ops).2).foldl (ownerAfter key)
        ((KeyedList.lookup Prod.snd key es).map Prod.fst) =
      (KeyedList.lookup Prod.snd key (specRun specStep es ops).1).map Prod.fst := by
  induction ops generalizing es with
  | nil => rfl
  | cons op ops ih =>
    rw [specRun, List.zip_cons_cons, List.foldl_cons, ownerAfter_specStep]
    exact ih _

/-- `HT_EXISTS` and `HT_NOT_FOUND` leave everything as it was. -/
theorem insert_exists_unchanged (hash : List UInt8 → UInt32) (fuel : ℕ) (s s' : State) (hi : ℕ)
    (h : hashtableInsert hash fuel s hi = some (s',.htExists)) : s' = s := by
  rw [hashtableInsert] at h
  by_cases hnull : hi = nullptr
  · rw [if_pos hnull] at h
    exact absurd h (by simp)
  · rw [if_neg hnull] at h
    simp only [Option.bind_eq_bind, Option.bind_eq_some_iff] at h
    rcases h with ⟨it,-,pos,-,h⟩
    by_cases hpos : pos ≠ nullptr
    · rw [if_pos hpos] at h
      exact (Prod.mk.inj (Option.some.inj h)).1.symm
    · rw [if_neg hpos] at h
      simp only [Option.bind_eq_some_iff] at h
      rcases h with ⟨_,-,_,-,_,-,_,-,h⟩
      exact absurd (Prod.mk.inj (Option.some.inj h)).2 (by decide)

theorem remove_not_found_unchanged (hash : List UInt8 → UInt32) (fuel : ℕ) (s s' : State)
    (key : Option (List UInt8)) (item : Bool) (p : Option ℕ)
    (h : hashtableRemove hash fuel s key item = some (s',.htNotFound,p)) : s' = s ∧ p = none := by
  cases key with
  | none => exact absurd h (by simp [hashtableRemove])
  | some key =>
    rw [hashtableRemove] at h
    split_ifs at h with hbad
    · exact absurd h (by simp)
    · simp only [Option.bind_eq_bind, Option.bind_eq_some_iff] at h
      rcases h with ⟨before,-,hi,-,h⟩
      split_ifs at h with hnull
      · simp only [Option.some.injEq, Prod.mk.injEq, true_and] at h
        exact ⟨h.1.symm, h.2.symm⟩
      · simp only [Option.bind_eq_some_iff] at h
        rcases h with ⟨_,-,_,-,_,-,_,-,_,-,h⟩
        simp at h

/-- After every allowed run the table links exactly the items of the abstract table, in the
order of their insertion, and finds for every key the item inserted last with it; the counter
holds their number modulo its width. -/
theorem hashtable_refines (hash : List UInt8 → UInt32) (heap : Heap HashItem) (ops : List Op)
    (fuel : ℕ) (hf : ops.length < fuel) (hl : Legal specStep Allowed [] ops) : ∃ s es answers,
      run (step hash fuel) (hashtableInit heap) ops = some (s,answers) ∧
      specRun specStep [] ops = (es,answers) ∧ Linked hash s es ∧
      (∀ p ∈ es.map Prod.fst, nextOf s.heap p ≠ nullptr → prevOf s.heap (nextOf s.heap p) = p) ∧
      s.ht.hashItems.toNat = es.length%2^32 ∧
      (∀ key, hashtableFind hash fuel s (some key) =
        some (((ops.zip answers).foldl (ownerAfter key) none).getD nullptr)) ∧
      (∀ hi s', hashtableInsert hash fuel s hi = some (s',.htExists) → s' = s) ∧
      (∀ key item s' p, hashtableRemove hash fuel s key item = some (s',.htNotFound,p) →
        s' = s ∧ p = none) := by
  rcases linked_run hash heap ops fuel hf hl with ⟨s,hrun,hs,hlen⟩
  refine ⟨s, _, _, hrun, rfl, hs, ?_, ?_, ?_, ?_, ?_⟩
  · intro p hp hnext
    have hinv := (Ring.next_prev hs.ring p (List.mem_cons_of_mem _ hp)).1
    have hnull : p ≠ nullptr := by
      rintro rfl
      exact (List.nodup_cons.mp hs.ring.nodup).1 hp
    rwa [Function.update_of_ne hnull, Function.update_of_ne hnext] at hinv
  · rw [hs.count, UInt32.toNat_ofNat']
  · intro key
    have howner := owner_specRun key ops []
    have hby := (linkedBy_self_iff hash s _).mpr hs
    rw [hby.hashtableFind hash fuel s _ _ hlen key, ← howner]
    rfl
  · intro hi s' h
    exact insert_exists_unchanged hash fuel s s' hi h
  · intro key item s' p h
    exact remove_not_found_unchanged hash fuel s s' key item p h

/-- A key is inserted, removed, and inserted again with another item. -/
theorem hashtable_refines_reinsert : ∃ s answers,
    run (step (fun _ => 0) 4) (hashtableInit fun _ => none)
      [.insert 5 ⟨⟨0,1,0,fun _ => 7⟩,0,0⟩, .remove (some [7]) true,
        .insert 6 ⟨⟨0,1,0,fun _ => 7⟩,0,0⟩] = some (s,answers) ∧
    Linked (fun _ => 0) s [(6,[7])] ∧ s.ht.hashItems.toNat = 1 := by
  rcases hashtable_refines (fun _ => 0) (fun _ => none)
    [.insert 5 ⟨⟨0,1,0,fun _ => 7⟩,0,0⟩, .remove (some [7]) true,
      .insert 6 ⟨⟨0,1,0,fun _ => 7⟩,0,0⟩] 4 (by decide)
    ⟨fun _ => by decide, trivial, fun _ => by decide, trivial⟩ with
    ⟨s,es,answers,hrun,hspec,hs,-,hcount,-⟩
  obtain rfl : [(6,[7])] = es := (Prod.mk.inj hspec).1
  exact ⟨s, answers, hrun, hs, hcount⟩

/-- An item whose key is the number `i` in four bytes. -/
def numbered (i : ℕ) : Node HashItem := ⟨⟨0,4,0,fun a => UInt8.ofNat (i/256^a)⟩,0,0⟩

def inserts (n : ℕ) : List Op := (List.range n).map fun i => .insert (i+1) (numbered i)

theorem numbered_inj (i j : ℕ) (hi : i < 2^32) (hj : j < 2^32)
    (h : itemKey (numbered i).data = itemKey (numbered j).data) : i = j := by
  have hkey (n : ℕ) : itemKey (numbered n).data = [UInt8.ofNat (n/256^0),
      UInt8.ofNat (n/256^1), UInt8.ofNat (n/256^2), UInt8.ofNat (n/256^3)] := rfl
  rw [hkey, hkey] at h
  simp only [List.cons.injEq, and_true, ← UInt8.toNat_inj, UInt8.toNat_ofNat'] at h
  omega

theorem inserts_succ (n : ℕ) : inserts (n+1) = inserts n ++ [.insert (n+1) (numbered n)] := by
  rw [inserts, List.range_succ, List.map_append]
  rfl

/-- Distinct keys: all of them get linked. -/
theorem specRun_inserts (n : ℕ) (hn : n ≤ 2^32) : Legal specStep Allowed [] (inserts n) ∧
    (specRun specStep [] (inserts n)).1 =
      (List.range n).map fun i => (i+1, itemKey (numbered i).data) := by
  induction n with
  | zero => exact ⟨trivial, rfl⟩
  | succ n ih =>
    rcases ih (by omega) with ⟨hl,hs⟩
    have hout : n+1 ∉ ((specRun specStep [] (inserts n)).1).map Prod.fst := by
      rw [hs, List.map_map]
      intro hm
      rcases List.mem_map.mp hm with ⟨i,hi,he⟩
      have hlt := List.mem_range.mp hi
      simp only [Function.comp_apply] at he
      omega
    -- the keys of the run are different as long as their numbers fit into four bytes
    have hkey : itemKey (numbered n).data ∉
        ((specRun specStep [] (inserts n)).1).map Prod.snd := by
      rw [hs, List.map_map]
      intro hm
      rcases List.mem_map.mp hm with ⟨i,hi,he⟩
      have hlt := List.mem_range.mp hi
      have hin := numbered_inj i n (by omega) (by omega) he
      omega
    have hnull : n+1 ≠ nullptr := Nat.succ_ne_zero n
    have hstep : (specStep (specRun specStep [] (inserts n)).1 (.insert (n+1) (numbered n))).1 =
        (specRun specStep [] (inserts n)).1 ++ [(n+1, itemKey (numbered n).data)] := by
      rw [specStep, if_neg hnull, if_neg hkey]
    have hlength : (numbered n).data.keyLength = 4 := rfl
    rw [inserts_succ]
    constructor
    · refine (legal_append Allowed [] _ _).mpr ⟨hl, ?_, trivial⟩
      intro _
      rw [hlength]
      exact ⟨hout, by decide, by decide⟩
    · rw [specRun_append, specRun, specRun, hstep, hs, List.range_succ, List.map_append]
      rfl

theorem inserts_run (n : ℕ) (hn : n ≤ 2^32) : ∃ s es answers,
    run (step (fun _ => 0) (n+1)) (hashtableInit fun _ => none) (inserts n) = some (s,answers) ∧
    Linked (fun _ => 0) s es ∧ es.length = n ∧ s.ht.hashItems.toNat = n%2^32 := by
  rcases specRun_inserts n hn with ⟨hl,hs⟩
  have hlen : (inserts n).length < n+1 := by
    rw [inserts, List.length_map, List.length_range]
    exact Nat.lt_succ_self n
  rcases linked_run (fun _ => 0) (fun _ => none) (inserts n) (n+1) hlen hl with ⟨s,hrun,h,-⟩
  have hes : (specRun specStep [] (inserts n)).1.length = n := by
    rw [hs, List.length_map, List.length_range]
  refine ⟨s, _, _, hrun, h, hes, ?_⟩
  rw [h.count, UInt32.toNat_ofNat', hes]

/-- The counter of a table with 2^32 items is zero. -/
theorem hash_items_wraps : Legal specStep Allowed [] (inserts (2^32)) ∧ ∃ s es answers,
    run (step (fun _ => 0) (2^32+1)) (hashtableInit fun _ => none) (inserts (2^32)) =
      some (s,answers) ∧
    Linked (fun _ => 0) s es ∧ es.length = 2^32 ∧ s.ht.hashItems.toNat = 0 := by
  -- for a variable, since the numeral must not be evaluated
  have hrun (n : ℕ) (hn : n = 2^32) : Legal specStep Allowed [] (inserts n) ∧ ∃ s es answers,
      run (step (fun _ => 0) (n+1)) (hashtableInit fun _ => none) (inserts n) = some (s,answers) ∧
      Linked (fun _ => 0) s es ∧ es.length = n ∧ s.ht.hashItems.toNat = 0 := by
    refine ⟨(specRun_inserts n (Nat.le_of_eq hn)).1, ?_⟩
    rcases inserts_run n (Nat.le_of_eq hn) with ⟨s,es,answers,hrun,h,hlen,hcount⟩
    exact ⟨s, es, answers, hrun, h, hlen, hcount.trans (by rw [hn, Nat.mod_self])⟩
  exact hrun (2^32) rfl

end Cclab.Hashtable
