import Cclab.ResourceCacheLinks
import Cclab.KeyedList

/-! The cache refines a bounded list of items, the one set last in front. -/
namespace Cclab.ResourceCache
open IntrusiveLists NodeHeap OperationRuns

variable {R : Type}

/-- The cache holds the items `es`, in this order, in the nodes `l` of its ring. -/
structure Represents (c : Cache R) (es : List (Item R)) (l : List ℕ) : Prop where
  ring : Ring (nextOf c.heap) (prevOf c.heap) lruHead l
  data : l.map (dataOf c.heap) = es.map some
  head : dataOf c.heap lruHead ≠ none
  live : ∀ p, dataOf c.heap p ≠ none → p ∈ lruHead :: l
  known : ∀ p ∈ lruHead :: l, p ≠ nullptr ∧ p < c.nextItem
  keys : (es.map Item.key).Nodup
  map : ∀ k p, c.cacheMap.lookup k = some p ↔ p ∈ l ∧ (dataOf c.heap p).map Item.key = some k
  size : c.cacheMap.keys.length = l.length

/-! A map from the keys of some nodes to these nodes. -/

section index
variable {K : Type} [DecidableEq K] (m : AList fun _ : K => ℕ) (key key' : ℕ → Option K)
  (l : List ℕ) (h : ∀ k p, m.lookup k = some p ↔ p ∈ l ∧ key p = some k)
include h

/-- A node joins the others, with a key that none of them has. -/
theorem index_insert (d : K) (x : ℕ) (hd : m.lookup d = none) (hx : key' x = some d)
    (hkeep : ∀ p ∈ l, key' p = key p) (k : K) (p : ℕ) :
    (m.insert d x).lookup k = some p ↔ p ∈ x :: l ∧ key' p = some k := by
  by_cases hk : k = d
  · subst hk
    rw [AList.lookup_insert]
    constructor
    · intro hp
      obtain rfl := Option.some.inj hp
      exact ⟨List.mem_cons_self, hx⟩
    · rintro ⟨hp,hkey⟩
      rcases List.mem_cons.mp hp with rfl | hp
      · rfl
      -- an old node with the new key would be in the map
      · rw [hkeep p hp] at hkey
        exact absurd ((h k p).mpr ⟨hp,hkey⟩) (by simp [hd])
  · rw [AList.lookup_insert_ne hk, h k p]
    constructor
    · rintro ⟨hp,hkey⟩
      rw [← hkeep p hp] at hkey
      exact ⟨List.mem_cons_of_mem _ hp, hkey⟩
    · rintro ⟨hp,hkey⟩
      rcases List.mem_cons.mp hp with rfl | hp
      · exact absurd (Option.some.inj (hkey.symm.trans hx)) hk
      · rw [hkeep p hp] at hkey
        exact ⟨hp,hkey⟩

/-- A node leaves with its key. -/
theorem index_erase (d : K) (r : ℕ) (l0 : List ℕ) (hl : ∀ p, p ∈ l ↔ p = r ∨ p ∈ l0)
    (hout : r ∉ l0) (hr : key r = some d) (hkeep : ∀ p ∈ l0, key' p = key p) (k : K) (p : ℕ) :
    (m.erase d).lookup k = some p ↔ p ∈ l0 ∧ key' p = some k := by
  have hrear : m.lookup d = some r := (h d r).mpr ⟨(hl r).mpr (Or.inl rfl), hr⟩
  by_cases hk : k = d
  -- only the node that leaves had this key
  · subst hk
    rw [AList.lookup_erase]
    refine ⟨fun hn => absurd hn (by simp), ?_⟩
    rintro ⟨hp,hkey⟩
    rw [hkeep p hp] at hkey
    have hsame := (h k p).mpr ⟨(hl p).mpr (Or.inr hp), hkey⟩
    obtain rfl := Option.some.inj (hrear.symm.trans hsame)
    exact absurd hp hout
  · rw [AList.lookup_erase_ne hk, h k p, hl p]
    constructor
    · rintro ⟨rfl | hp,hkey⟩
      · exact absurd (Option.some.inj (hkey.symm.trans hr)) hk
      · rw [← hkeep p hp] at hkey
        exact ⟨hp,hkey⟩
    · rintro ⟨hp,hkey⟩
      rw [hkeep p hp] at hkey
      exact ⟨Or.inr hp,hkey⟩

end index

section represents
variable (n : ℕ) (c : Cache R) (es : List (Item R)) (l : List ℕ) (h : Represents c es l)
include h

theorem Represents.length : l.length = es.length := by
  have hlen := congrArg List.length h.data
  rwa [List.length_map, List.length_map] at hlen

theorem Represents.alive (p : ℕ) (hp : p ∈ lruHead :: l) :
    p ≠ nullptr ∧ dataOf c.heap p ≠ none := by
  refine ⟨(h.known p hp).1, ?_⟩
  rcases List.mem_cons.mp hp with rfl | hm
  · exact h.head
  · have hd := List.mem_map_of_mem (f := dataOf c.heap) hm
    rw [h.data] at hd
    obtain ⟨e,-,he⟩ := List.mem_map.mp hd
    rw [← he]
    exact Option.some_ne_none e

/-- Where a node of the ring is, its item is in the list. -/
theorem Represents.split (p : ℕ) (hp : p ∈ l) : ∃ l1 l2 es1 es2 e, l = l1 ++ p :: l2 ∧
    es = es1 ++ e :: es2 ∧ dataOf c.heap p = some e ∧
    l1.map (dataOf c.heap) = es1.map some ∧ l2.map (dataOf c.heap) = es2.map some := by
  obtain ⟨l1,l2,rfl⟩ := List.append_of_mem hp
  have hd := h.data
  rw [List.map_append, List.map_cons] at hd
  obtain ⟨es1,rest,rfl,h1,h2⟩ := List.map_eq_append_iff.mp hd.symm
  obtain ⟨e,es2,rfl,he,h3⟩ := List.map_eq_cons_iff.mp h2
  exact ⟨l1, l2, es1, es2, e, rfl, rfl, he.symm, h1.symm, h3.symm⟩

theorem Represents.absent (k : String) (hk : c.cacheMap.lookup k = none) :
    k ∉ es.map Item.key := by
  intro hm
  obtain ⟨e,he,rfl⟩ := List.mem_map.mp hm
  have hs : some e ∈ l.map (dataOf c.heap) := by
    rw [h.data]
    exact List.mem_map_of_mem he
  obtain ⟨p,hp,hd⟩ := List.mem_map.mp hs
  have hl := (h.map e.key p).mpr ⟨hp, by rw [hd, Option.map_some]⟩
  exact absurd (hk.symm.trans hl) (by simp)

theorem Represents.lookup_none (k : String) (hk : k ∉ es.map Item.key) :
    c.cacheMap.lookup k = none := by
  by_contra hne
  obtain ⟨p,hp⟩ := Option.ne_none_iff_exists'.mp hne
  obtain ⟨hpl,hkey⟩ := (h.map k p).mp hp
  obtain ⟨l1,l2,es1,es2,e,rfl,rfl,he,-,-⟩ := h.split c es l p hpl
  rw [he, Option.map_some, Option.some.injEq] at hkey
  exact hk (by rw [← hkey]; simp)

theorem Represents.get (k : String) (now : ℤ) : get c k now =
    some ((KeyedList.lookup Item.key k es).bind fun e =>
      if (now-e.lastModified).tdiv 1000000000 < c.expireSeconds then e.res else none) := by
  cases hk : c.cacheMap.lookup k with
  | none =>
    rw [KeyedList.lookup_none _ _ _ (h.absent c es l k hk)]
    simp only [ResourceCache.get, hk, Option.bind_none]
  | some p =>
    obtain ⟨hp,hkey⟩ := (h.map k p).mp hk
    obtain ⟨l1,l2,es1,es2,e,rfl,rfl,he,-,-⟩ := h.split c es l p hp
    rw [he, Option.map_some, Option.some.injEq] at hkey
    rw [KeyedList.lookup_append Item.key k es1 es2 e hkey h.keys]
    simp only [ResourceCache.get, hk, dataOf_eq_some c.heap p e he, Option.bind_eq_bind,
      Option.bind_some, Option.pure_def]

/-- A new value for an item that is there, which then moves to the front. -/
theorem Represents.touch (k : String) (res : Option R) (now : ℤ) (p : ℕ)
    (hk : c.cacheMap.lookup k = some p) : ∃ c' l', set c k res now = some (c',true) ∧
    Represents c' (KeyedList.put Item.key n ⟨k,res,now⟩ es) l' ∧ c'.capacity = c.capacity ∧
      c'.expireSeconds = c.expireSeconds := by
  obtain ⟨hp,hkey⟩ := (h.map k p).mp hk
  obtain ⟨l1,l2,es1,es2,e,rfl,rfl,he,hd1,hd2⟩ := h.split c es l p hp
  obtain rfl : e.key = k := by
    rwa [he, Option.map_some, Option.some.injEq] at hkey
  -- the value and the time are written before the links
  obtain ⟨h1,hs1,hdata1,hn1,hp1⟩ := setData_spec c.heap p e { e with res := res, lastModified := now } he
  have hring1 : Ring (nextOf h1) (prevOf h1) lruHead (l1 ++ p :: l2) := by
    rw [hn1, hp1]
    exact h.ring
  have hsome (q : ℕ) (hq : dataOf c.heap q ≠ none) : dataOf h1 q ≠ none := by
    rw [hdata1]
    by_cases hqp : q = p
    · rw [hqp, Function.update_self]
      exact Option.some_ne_none _
    · rwa [Function.update_of_ne hqp]
  obtain ⟨h2,hs2,hring2,hdata2⟩ := moveToLRUHead_spec h1 p l1 l2 hring1 (by
    intro q hq
    exact ⟨(h.known q hq).1, hsome q (h.alive c _ _ q hq).2⟩)
  rw [hdata1] at hdata2
  have hout := (List.nodup_cons.mp h.ring.rotate.nodup).1
  -- no other node is written
  have hkeep (q : ℕ) (hq : q ∈ lruHead :: (l1 ++ l2)) : dataOf h2 q = dataOf c.heap q := by
    rw [hdata2, Function.update_of_ne]
    rintro rfl
    apply hout
    simp only [List.mem_cons, List.mem_append] at hq ⊢
    tauto
  have hperm : (l1 ++ p :: l2).Perm (p :: (l1 ++ l2)) := List.perm_middle
  have hself : dataOf h2 p = some { e with res := res, lastModified := now } := by
    rw [hdata2, Function.update_self]
  -- the item keeps its key
  have hkeys (q : ℕ) : (dataOf h2 q).map Item.key = (dataOf c.heap q).map Item.key := by
    by_cases hqp : q = p
    · rw [hqp, hself, he]
      rfl
    · rw [hdata2, Function.update_of_ne hqp]
  refine ⟨{ c with heap := h2 }, p :: (l1 ++ l2), ?_, ?_, rfl, rfl⟩
  · simp only [set, hk, dataOf_eq_some c.heap p e he, Option.bind_eq_bind, Option.bind_some,
      hs1, hs2, Option.pure_def]
  · rw [KeyedList.put_append Item.key n ⟨e.key,res,now⟩ e es1 es2 rfl h.keys]
    refine ⟨hring2, ?_, ?_, ?_, ?_, ?_, ?_, ?_⟩
    · have hrest : (l1 ++ l2).map (dataOf h2) = (es1 ++ es2).map some := by
        rw [List.map_append, List.map_append, ← hd1, ← hd2, ← List.map_append, ← List.map_append]
        exact List.map_congr_left fun q hq => hkeep q (List.mem_cons_of_mem _ hq)
      rw [List.map_cons, List.map_cons, hrest, hself]
    · rw [hkeep lruHead List.mem_cons_self]
      exact h.head
    -- a node without a key would have had none before
    · intro q hq
      apply (hperm.cons lruHead).mem_iff.mp
      apply h.live q
      intro hn
      have hkq := hkeys q
      rw [hn, Option.map_none, Option.map_eq_none_iff] at hkq
      exact hq hkq
    · intro q hq
      exact h.known q ((hperm.cons lruHead).mem_iff.mpr hq)
    · have hkeysperm : (es1 ++ e :: es2).Perm (e :: (es1 ++ es2)) := List.perm_middle
      exact (hkeysperm.map Item.key).nodup_iff.mp h.keys
    · intro k q
      rw [hkeys, ← hperm.mem_iff]
      exact h.map k q
    · rw [h.size]
      exact hperm.length_eq

/-- The last item of a full cache goes. -/
theorem Represents.dropRear (hl : l ≠ []) : ∃ c' l', ResourceCache.dropRear c = some c' ∧
    Represents c' es.dropLast l' ∧ c'.capacity = c.capacity ∧ c'.expireSeconds = c.expireSeconds := by
  obtain ⟨l0,r,rfl⟩ := (List.eq_nil_or_concat l).resolve_left hl
  rw [List.concat_eq_append] at h
  have hdata := h.data
  rw [List.map_append, List.map_singleton] at hdata
  -- the last node holds the last item
  obtain ⟨es0,rest,rfl,hd0,hrest⟩ := List.map_eq_append_iff.mp hdata.symm
  obtain ⟨e,rfl,he⟩ := List.map_eq_singleton_iff.mp hrest
  have hnode := dataOf_eq_some c.heap r e he.symm
  have hrear : prevOf c.heap lruHead = r := by
    rw [h.ring.prev_head]
    simp
  obtain ⟨dh,-,hhead⟩ := exists_node c.heap lruHead h.head
  rw [hrear] at hhead
  obtain ⟨h1,hs1,hring1,hdata1⟩ := removeFromLRU_spec c.heap r l0 [] h.ring (h.alive c _ _)
  rw [List.append_nil] at hring1
  have hr : r ∉ lruHead :: l0 := by
    have hout := (List.nodup_cons.mp h.ring.rotate.nodup).1
    simpa using hout
  -- the removed node is written last, and no other node changes its item
  have hkeep (q : ℕ) (hq : q ∈ lruHead :: l0) : dataOf h1 q = dataOf c.heap q := by
    rw [hdata1, Function.update_of_ne]
    rintro rfl
    exact hr hq
  have hsub (q : ℕ) (hq : q ∈ lruHead :: l0) : q ∈ lruHead :: (l0 ++ [r]) := by
    rw [← List.cons_append]
    exact List.mem_append_left _ hq
  refine ⟨{ c with cacheMap := c.cacheMap.erase e.key, heap := h1 }, l0, ?_, ?_, rfl, rfl⟩
  · simp only [ResourceCache.dropRear, hhead, hnode, Option.bind_eq_bind, Option.bind_some, hs1,
      Option.pure_def]
  · rw [List.dropLast_concat]
    have hkeys := h.keys
    rw [List.map_append, List.nodup_append'] at hkeys
    have hrkey : (dataOf c.heap r).map Item.key = some e.key := by rw [← he, Option.map_some]
    refine ⟨hring1, ?_, ?_, ?_, ?_, hkeys.1, ?_, ?_⟩
    · rw [hd0]
      exact List.map_congr_left fun q hq => hkeep q (List.mem_cons_of_mem _ hq)
    · rw [hkeep lruHead List.mem_cons_self]
      exact h.head
    · intro q hq
      rw [hdata1] at hq
      by_cases hqr : q = r
      · rw [hqr, Function.update_self] at hq
        exact absurd rfl hq
      · rw [Function.update_of_ne hqr] at hq
        have hm := h.live q hq
        simp only [List.mem_cons, List.mem_append, List.not_mem_nil, or_false] at hm ⊢
        tauto
    · intro q hq
      exact h.known q (hsub q hq)
    -- the map loses the key of the removed node and keeps the others
    · apply index_erase c.cacheMap _ _ (l0 ++ [r]) h.map e.key r l0
      · intro p
        rw [List.mem_append, List.mem_singleton, or_comm]
      · exact fun hm => hr (List.mem_cons_of_mem _ hm)
      · exact hrkey
      · intro p hp
        rw [hkeep p (List.mem_cons_of_mem _ hp)]
    -- the map had the key, so it gets smaller with the list
    · have hmem : e.key ∈ c.cacheMap.keys := by
        rw [← AList.mem_keys, ← AList.lookup_isSome, (h.map e.key r).mpr ⟨by simp, hrkey⟩]
        rfl
      rw [AList.keys_erase, List.length_erase_of_mem hmem, h.size, List.length_append,
        List.length_singleton, Nat.add_sub_cancel]

/-- A new item in front, for a key that the cache does not hold. -/
theorem Represents.addItem (d : Item R) (hd : d.key ∉ es.map Item.key) :
    ∃ c' l', ResourceCache.addItem c d = some c' ∧ Represents c' (d :: es) l' ∧
      c'.capacity = c.capacity ∧ c'.expireSeconds = c.expireSeconds := by
  have hx (q : ℕ) (hq : q ∈ lruHead :: l) : q ≠ c.nextItem := by
    have hlt := (h.known q hq).2
    omega
  -- the node is new, so no link of the list points to it
  let h0 := alloc c.heap c.nextItem ⟨d,nullptr,nullptr⟩
  have hkeep0 (q : ℕ) (hq : q ∈ lruHead :: l) := alloc_of_ne c.heap c.nextItem q
    ⟨d,nullptr,nullptr⟩ (hx q hq)
  have hself0 := alloc_self c.heap c.nextItem ⟨d,nullptr,nullptr⟩
  have hring0 : Ring (nextOf h0) (prevOf h0) lruHead l :=
    h.ring.congr (fun q hq => (hkeep0 q hq).1) (fun q hq => (hkeep0 q hq).2.1)
  have hpos : 0 < c.nextItem := by
    have hlt := (h.known lruHead List.mem_cons_self).2
    omega
  obtain ⟨h1,hs1,hring1,hdata1⟩ := insertToLRU_spec h0 c.nextItem l hring0
    (fun hm => hx _ hm rfl) (by unfold nullptr; omega) (by
      intro q hq
      rcases List.mem_cons.mp hq with rfl | hq
      · rw [hself0.2.2]
        exact Option.some_ne_none d
      · rw [(hkeep0 q hq).2.2]
        exact (h.alive c es l q hq).2)
  have hkeep (q : ℕ) (hq : q ∈ lruHead :: l) : dataOf h1 q = dataOf c.heap q := by
    rw [hdata1]
    exact (hkeep0 q hq).2.2
  have hself : dataOf h1 c.nextItem = some d := by
    rw [hdata1]
    exact hself0.2.2
  have hnone := h.lookup_none c es l d.key hd
  refine ⟨{ c with
    cacheMap := c.cacheMap.insert d.key c.nextItem
    heap := h1
    nextItem := c.nextItem+1 }, c.nextItem :: l, ?_, ?_, rfl, rfl⟩
  · simp only [ResourceCache.addItem, Option.bind_eq_bind, h0] at hs1 ⊢
    rw [hs1]
    rfl
  · refine ⟨hring1, ?_, ?_, ?_, ?_, List.nodup_cons.mpr ⟨hd,h.keys⟩, ?_, ?_⟩
    · rw [List.map_cons, List.map_cons, hself, ← h.data]
      congr 1
      exact List.map_congr_left fun q hq => hkeep q (List.mem_cons_of_mem _ hq)
    · rw [hkeep lruHead List.mem_cons_self]
      exact h.head
    · intro q hq
      by_cases hqx : q = c.nextItem
      · simp [hqx]
      · rw [hdata1, (alloc_of_ne c.heap c.nextItem q _ hqx).2.2] at hq
        have hm := h.live q hq
        simp only [List.mem_cons] at hm ⊢
        tauto
    · intro q hq
      have hq' : q = c.nextItem ∨ q ∈ lruHead :: l := by
        simp only [List.mem_cons] at hq ⊢
        tauto
      rcases hq' with rfl | hq'
      · exact ⟨Nat.pos_iff_ne_zero.mp hpos, Nat.lt_succ_self _⟩
      · exact ⟨(h.known q hq').1, Nat.lt_succ_of_lt (h.known q hq').2⟩
    · apply index_insert c.cacheMap _ _ l h.map d.key c.nextItem hnone
      · rw [hself, Option.map_some]
      · intro p hp
        rw [hkeep p (List.mem_cons_of_mem _ hp)]
    · have habsent : d.key ∉ c.cacheMap.keys := fun hm =>
        AList.lookup_eq_none.mp hnone (AList.mem_keys.mpr hm)
      rw [AList.keys_insert, List.length_cons, List.length_cons, List.erase_of_not_mem habsent,
        h.size]

/-- A `Set` in a cache that is not full for its comparison. -/
theorem Represents.set_free (key : String) (res : Option R) (now : ℤ)
    (hk : key ∉ es.map Item.key) (hfree : (c.cacheMap.keys.length : ℤ) ≠ c.capacity%2^64) :
    ∃ c' l', set c key res now = some (c',true) ∧ Represents c' (⟨key,res,now⟩ :: es) l' ∧
      c'.capacity = c.capacity ∧ c'.expireSeconds = c.expireSeconds := by
  obtain ⟨c',l',hs,hr,hcap,hexp⟩ := h.addItem c es l ⟨key,res,now⟩ hk
  refine ⟨c', l', ?_, hr, hcap, hexp⟩
  simp only [ResourceCache.set, h.lookup_none c es l key hk, if_neg hfree, Option.bind_eq_bind,
    Option.bind_some, hs, Option.pure_def]

end represents

/-- The abstract cache: what `Get` finds and what `Set` leaves. -/
def specStep (n : ℕ) (expireSeconds : ℤ) (es : List (Item R)) : Op R → List (Item R) × Answer R
  | .get key now => (es, .get ((KeyedList.lookup Item.key key es).bind fun e =>
      if (now-e.lastModified).tdiv 1000000000 < expireSeconds then e.res else none))
  | .set key res now => (KeyedList.put Item.key n ⟨key,res,now⟩ es, .set true)

/-- A cache of `n` items that expire after `x` seconds holds `es`. -/
structure Holds (n : ℕ) (x : ℤ) (c : Cache R) (es : List (Item R)) : Prop where
  capacity : c.capacity = n
  expireSeconds : c.expireSeconds = x
  bound : es.length ≤ n
  represents : ∃ l, Represents c es l

theorem Holds.set (n : ℕ) (x : ℤ) (hn : 1 ≤ n) (hn' : n ≤ 2^31-1) (c : Cache R) (es : List (Item R))
    (h : Holds n x c es) (k : String) (res : Option R) (now : ℤ) :
    ∃ c', ResourceCache.set c k res now = some (c',true) ∧
      Holds n x c' (KeyedList.put Item.key n ⟨k,res,now⟩ es) := by
  obtain ⟨l,hl⟩ := h.represents
  have hbound := KeyedList.put_length Item.key n ⟨k,res,now⟩ es (by omega) h.bound
  cases hk : c.cacheMap.lookup k with
  | some p =>
    obtain ⟨c',l',hs,hr,hcap,hexp⟩ := hl.touch n c es l k res now p hk
    exact ⟨c', hs, hcap.trans h.capacity, hexp.trans h.expireSeconds, hbound, l', hr⟩
  | none =>
    have habsent := hl.absent c es l k hk
    -- the size is compared with the capacity as an unsigned number, here without a difference
    have hfull : (c.cacheMap.keys.length : ℤ) = c.capacity%2^64 ↔ es.length = n := by
      rw [hl.size, hl.length c es l, h.capacity]
      omega
    have hput : KeyedList.put Item.key n ⟨k,res,now⟩ es =
        ⟨k,res,now⟩ :: (if es.length = n then es.dropLast else es) := by
      rw [KeyedList.put, if_neg habsent]
      split_ifs <;> rfl
    rw [hput] at hbound ⊢
    by_cases hlen : es.length = n
    -- the cache is full: the last item goes before the new one comes
    · rw [if_pos hlen] at hbound ⊢
      have hne : l ≠ [] := by
        rintro rfl
        have hlen' := hl.length c es []
        simp only [List.length_nil] at hlen'
        omega
      obtain ⟨c1,l1,hs1,hr1,hcap1,hexp1⟩ := hl.dropRear c es l hne
      obtain ⟨c2,l2,hs2,hr2,hcap2,hexp2⟩ := hr1.addItem c1 _ l1 ⟨k,res,now⟩ (by
        intro hm
        obtain ⟨e,he,hke⟩ := List.mem_map.mp hm
        change e.key = k at hke
        exact habsent (hke ▸ List.mem_map_of_mem (List.dropLast_subset es he)))
      refine ⟨c2, ?_, hcap2.trans (hcap1.trans h.capacity), hexp2.trans (hexp1.trans h.expireSeconds),
        hbound, l2, hr2⟩
      simp only [ResourceCache.set, hk, if_pos (hfull.mpr hlen), Option.bind_eq_bind, hs1,
        Option.bind_some, hs2, Option.pure_def]
    · rw [if_neg hlen] at hbound ⊢
      obtain ⟨c1,l1,hs1,hr1,hcap1,hexp1⟩ := hl.set_free c es l k res now habsent
        (fun hf => hlen (hfull.mp hf))
      exact ⟨c1, hs1, hcap1.trans h.capacity, hexp1.trans h.expireSeconds, hbound, l1, hr1⟩

theorem Holds.step (n : ℕ) (x : ℤ) (hn : 1 ≤ n) (hn' : n ≤ 2^31-1) (c : Cache R)
    (es : List (Item R)) (op : Op R) (h : Holds n x c es) :
    ∃ c', ResourceCache.step c op = some (c', (specStep n x es op).2) ∧
      Holds n x c' (specStep n x es op).1 := by
  cases op with
  | get k now =>
    obtain ⟨l,hl⟩ := h.represents
    refine ⟨c, ?_, h⟩
    simp only [ResourceCache.step, hl.get c es l k now, Option.map_some, specStep, h.expireSeconds]
  | set k res now =>
    obtain ⟨c',hs,hc'⟩ := h.set n x hn hn' c es k res now
    refine ⟨c', ?_, hc'⟩
    simp only [ResourceCache.step, hs, Option.map_some, specStep]

theorem holds_create (n : ℕ) (x now : ℤ) : Holds n x (create (n:ℤ) x now) ([] : List (Item R)) := by
  refine ⟨rfl, rfl, Nat.zero_le n, [], ?_⟩
  have hself := alloc_self (fun _ => none) lruHead (⟨⟨"",none,now⟩,lruHead,lruHead⟩ : Node (Item R))
  refine ⟨Ring.singleton lruHead hself.1 hself.2.1, rfl, ?_, ?_, ?_, List.nodup_nil, ?_, rfl⟩
  · simp only [create, hself.2.2, ne_eq, reduceCtorEq, not_false_eq_true]
  · intro p hp
    by_cases hph : p = lruHead
    · simp [hph]
    · have hnone : dataOf (create (n:ℤ) x now : Cache R).heap p = none :=
        (alloc_of_ne (fun _ => none) lruHead p _ hph).2.2
      exact absurd hnone hp
  · intro p hp
    rw [List.mem_singleton.mp hp]
    exact ⟨by decide, Nat.lt_succ_self 1⟩
  · intro k p
    simp [create]

/-- The items of the `Set` calls of a run. -/
def sets (ops : List (Op R)) : List (Item R) :=
  ops.filterMap fun
    | .get _ _ => none
    | .set key res now => some ⟨key,res,now⟩

theorem specRun_sets (n : ℕ) (x : ℤ) (ops : List (Op R)) (es : List (Item R)) :
    (specRun (specStep n x) es ops).1 =
      (sets ops).foldl (fun es e => KeyedList.put Item.key n e es) es := by
  induction ops generalizing es with
  | nil => rfl
  | cons op ops ih =>
    cases op with
    | get k now => exact ih es
    | set k res now => exact ih _

/-- Every run of `Get` and `Set` returns what the bounded list of the last set items
returns, and leaves exactly its items in the map and in the ring; each of them is what the
last `Set` of its key stored. -/
theorem resource_cache_refines (n : ℕ) (hn : 1 ≤ n) (hn' : n ≤ 2^31-1) (x now : ℤ)
    (ops : List (Op R)) : ∃ c l,
      run step (create (n:ℤ) x now) ops = some (c, (specRun (specStep n x) [] ops).2) ∧
      Represents c (specRun (specStep n x) [] ops).1 l ∧ l.length ≤ n ∧
      (∀ p ∈ lruHead :: l, prevOf c.heap (nextOf c.heap p) = p) ∧
      ∀ e ∈ (specRun (specStep n x) [] ops).1,
        KeyedList.lookup Item.key e.key (sets ops).reverse = some e := by
  have hlegal : Legal (specStep n x) (fun _ _ => True) [] ops := by
    generalize ([] : List (Item R)) = es
    induction ops generalizing es with
    | nil => trivial
    | cons op ops ih => exact ⟨trivial, ih _⟩
  obtain ⟨c,hrun,hc⟩ := run_refines (Holds n x) (fun _ _ => True)
    (fun c es op h _ => h.step n x hn hn' c es op) _ _ ops (holds_create n x now) hlegal
  obtain ⟨l,hl⟩ := hc.represents
  refine ⟨c, l, hrun, hl, ?_, fun p hp => (hl.ring.next_prev p hp).1, ?_⟩
  · rw [hl.length c _ l]
    exact hc.bound
  · intro e he
    rw [specRun_sets] at he
    exact KeyedList.put_latest Item.key n (sets ops) e he

/-- A cache of one item: setting a second key drops the first. -/
theorem resource_cache_refines_two_sets : ∃ (c : Cache ℕ) (l : List ℕ),
    run step (create 1 30 0) [.set "a" (some 7) 0, .set "b" (some 8) 1, .get "a" 2, .get "b" 2] =
      some (c, (specRun (specStep 1 30) [] [.set "a" (some 7) 0, .set "b" (some 8) 1, .get "a" 2,
        .get "b" 2]).2) ∧ l.length ≤ 1 := by
  obtain ⟨c,l,hrun,-,hl,-,-⟩ := resource_cache_refines 1 (by decide) (by decide) 30 0
    [.set "a" (some 7) 0, .set "b" (some 8) 1, .get "a" 2, .get "b" 2]
  exact ⟨c, l, hrun, hl⟩

end Cclab.ResourceCache
