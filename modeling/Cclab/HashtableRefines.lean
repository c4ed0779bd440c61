import Cclab.HashtableRing
import Cclab.KeyedList
import Cclab.OperationRuns

/-! The hash table refines a list of items with distinct keys, in the order of their insertion. -/
namespace Cclab.Hashtable
open IntrusiveLists NodeHeap OperationRuns

/-- The linked items with their keys, the first one inserted in front. -/
abbrev Items := List (ℕ × List UInt8)

section linked
variable (hash : List UInt8 → UInt32)

/-- The chain of a bucket: its items, the last one inserted in front. -/
def chainOf (es : Items) (b : ℕ) : List ℕ :=
  ((es.filter fun e => bucketOf hash e.2 = b).map Prod.fst).reverse

theorem chainOf_append (es fs : Items) (b : ℕ) :
    chainOf hash (es ++ fs) b = chainOf hash fs b ++ chainOf hash es b := by
  rw [chainOf, List.filter_append, List.map_append, List.reverse_append]
  rfl

theorem chainOf_cons (es : Items) (e : ℕ × List UInt8) (b : ℕ) :
    chainOf hash (e :: es) b =
      if bucketOf hash e.2 = b then chainOf hash es b ++ [e.1] else chainOf hash es b := by
  by_cases hb : bucketOf hash e.2 = b
  · rw [if_pos hb, chainOf, List.filter_cons_of_pos (by simpa using hb), List.map_cons,
      List.reverse_cons]
    rfl
  · rw [if_neg hb, chainOf, List.filter_cons_of_neg (by simpa using hb)]
    rfl

theorem mem_chainOf (es : Items) (b p : ℕ) (hp : p ∈ chainOf hash es b) :
    ∃ e ∈ es, e.1 = p ∧ bucketOf hash e.2 = b := by
  rw [chainOf, List.mem_reverse, List.mem_map] at hp
  rcases hp with ⟨e,he,rfl⟩
  rw [List.mem_filter] at he
  exact ⟨e, he.1, rfl, by simpa using he.2⟩

theorem chainOf_length (es : Items) (b : ℕ) : (chainOf hash es b).length ≤ es.length := by
  rw [chainOf, List.length_reverse, List.length_map]
  exact List.length_filter_le _ es

/-- The table links exactly the items `es`. -/
structure Linked (s : State) (es : Items) : Prop where
  ring : ItemRing s.heap s.ht.head s.ht.tail (es.map Prod.fst)
  items : ∀ e ∈ es, ItemAt s.heap e.1 e.2 ∧ e.2 ≠ []
  keys : (es.map Prod.snd).Nodup
  chains : ∀ b, Chain (chainNext s.heap) (chainPtr (s.ht.primaryHashtable b)) (chainOf hash es b)
  count : s.ht.hashItems = UInt32.ofNat es.length

/-- The table links the items `es`, in this order in the list of all items, while the chains
have the order of `cs`: that of the insertions, which the list loses when it is rotated. -/
structure LinkedBy (s : State) (es cs : Items) : Prop where
  ring : ItemRing s.heap s.ht.head s.ht.tail (es.map Prod.fst)
  items : ∀ e ∈ es, ItemAt s.heap e.1 e.2 ∧ e.2 ≠ []
  keys : (es.map Prod.snd).Nodup
  chains : ∀ b, Chain (chainNext s.heap) (chainPtr (s.ht.primaryHashtable b)) (chainOf hash cs b)
  count : s.ht.hashItems = UInt32.ofNat es.length
  order : es.Perm cs

theorem linked_init (heap : Heap HashItem) : Linked hash (hashtableInit heap) [] := by
  refine ⟨Ring.singleton nullptr ?_ ?_, ?_, List.nodup_nil, ?_, rfl⟩
  · rw [Function.update_self]
    rfl
  · rw [Function.update_self]
    rfl
  · intro e he
    exact absurd he (by simp)
  · intro b
    rfl

theorem linkedBy_self_iff (s : State) (es : Items) : LinkedBy hash s es es ↔ Linked hash s es :=
  ⟨fun h => ⟨h.ring,h.items,h.keys,h.chains,h.count⟩,
    fun h => ⟨h.ring,h.items,h.keys,h.chains,h.count,List.Perm.refl es⟩⟩

variable (s : State) (es cs : Items) (h : LinkedBy hash s es cs)
include h

theorem LinkedBy.live (p : ℕ) (hp : p ∈ es.map Prod.fst) : dataOf s.heap p ≠ none := by
  rcases List.mem_map.mp hp with ⟨e,he,rfl⟩
  rcases (h.items e he).1.node with ⟨d,hd,-⟩
  rw [hd]
  exact Option.some_ne_none d

theorem LinkedBy.ne_null (e : ℕ × List UInt8) (he : e ∈ es) : e.1 ≠ nullptr := by
  intro hnull
  apply (List.nodup_cons.mp h.ring.nodup).1
  rw [← hnull]
  exact List.mem_map_of_mem he

theorem LinkedBy.passed (key : List UInt8) (fs : Items) (b : ℕ) (hsub : ∀ e ∈ fs, e ∈ cs)
    (hkey : key ∉ fs.map Prod.snd) (q : ℕ) (hq : q ∈ chainOf hash fs b) :
    ∃ other, ItemAt s.heap q other ∧ other ≠ key := by
  rcases mem_chainOf hash fs b q hq with ⟨e,he,rfl,-⟩
  refine ⟨e.2, (h.items e (h.order.mem_iff.mpr (hsub e he))).1, ?_⟩
  rintro rfl
  exact hkey (List.mem_map_of_mem he)

theorem LinkedBy.keys' : (cs.map Prod.snd).Nodup := (h.order.map Prod.snd).nodup_iff.mp h.keys

theorem LinkedBy.lookup (key : List UInt8) :
    KeyedList.lookup Prod.snd key cs = KeyedList.lookup Prod.snd key es :=
  (KeyedList.lookup_perm Prod.snd key es cs h.order h.keys).symm

/-- The chain of a key, cut at the item that has it. -/
theorem LinkedBy.cut (key : List UInt8) (e : ℕ × List UInt8)
    (he : KeyedList.lookup Prod.snd key es = some e) : ∃ cs1 cs2, cs = cs1 ++ e :: cs2 ∧ e.2 = key ∧
      chainOf hash cs (bucketOf hash key) =
        chainOf hash cs2 (bucketOf hash key) ++ e.1 :: chainOf hash cs1 (bucketOf hash key) ∧
      key ∉ cs1.map Prod.snd ∧ key ∉ cs2.map Prod.snd := by
  have hn := h.keys' hash s es cs
  rw [← h.lookup hash s es cs key] at he
  rcases KeyedList.lookup_some Prod.snd key cs e he with ⟨hk,cs1,cs2,rfl⟩
  refine ⟨cs1, cs2, rfl, hk, ?_, ?_, ?_⟩
  · rw [chainOf_append, chainOf_cons, if_pos (by rw [hk]), List.append_assoc, List.singleton_append]
  all_goals
    intro hm
    rw [(List.perm_middle.map Prod.snd).nodup_iff, List.map_cons, List.nodup_cons, hk] at hn
    apply hn.1
    rw [List.map_append, List.mem_append]
    tauto

theorem LinkedBy.find (fuel : ℕ) (hf : es.length < fuel) (key : List UInt8) :
    walkChain s.heap key fuel (s.ht.primaryHashtable (bucketOf hash key)) =
      some (((KeyedList.lookup Prod.snd key es).map Prod.fst).getD nullptr) := by
  have hlen := chainOf_length hash cs (bucketOf hash key)
  rw [← h.order.length_eq] at hlen
  cases hl : KeyedList.lookup Prod.snd key es with
  | none =>
    have hkey : key ∉ cs.map Prod.snd := by
      apply KeyedList.absent Prod.snd key cs
      rwa [h.lookup hash s es cs key]
    apply walkChain_absent s.heap key (chainOf hash cs (bucketOf hash key)) _ _ (by omega)
      (h.chains _)
    exact fun q hq => h.passed hash s es cs key cs _ (fun e he => he) hkey q hq
  | some e =>
    have hmem := List.mem_of_find?_eq_some hl
    rcases h.cut hash s es cs key e hl with ⟨cs1,cs2,rfl,hk,hchain,-,h2⟩
    have hc := h.chains (bucketOf hash key)
    rw [hchain] at hc hlen
    rw [List.length_append] at hlen
    apply walkChain_found s.heap key _ _ e.1 _ _ (by omega) hc
    · exact fun q hq => h.passed hash s es _ key cs2 _ (by simp +contextual) h2 q hq
    · rw [← hk]
      exact (h.items e hmem).1

/-- A change of the memory that no linked item sees. -/
theorem LinkedBy.congr (heap : Heap HashItem)
    (hsame : ∀ p ∈ es.map Prod.fst, nextOf heap p = nextOf s.heap p ∧
      prevOf heap p = prevOf s.heap p ∧ dataOf heap p = dataOf s.heap p) :
    LinkedBy hash ⟨s.ht,heap⟩ es cs := by
  refine ⟨?_, ?_, h.keys, ?_, h.count, h.order⟩
  · exact h.ring.congr s.heap _ _ _ heap (fun p hp => ⟨(hsame p hp).1, (hsame p hp).2.1⟩)
  · intro e he
    have hd := (hsame e.1 (List.mem_map_of_mem he)).2.2
    have hi := h.items e he
    rw [ItemAt, contentsOf] at hi ⊢
    rwa [hd]
  · intro b
    apply (h.chains b).congr
    intro p hp
    rcases mem_chainOf hash cs b p hp with ⟨e,he,rfl,-⟩
    have hm := List.mem_map_of_mem (f := Prod.fst) (h.order.mem_iff.mpr he)
    rw [chainNext, chainNext, hNextOf, hNextOf, (hsame e.1 hm).2.2]

/-- An item belongs to one bucket. -/
theorem LinkedBy.bucket_unique (b b' p : ℕ) (hb : p ∈ chainOf hash cs b)
    (hb' : p ∈ chainOf hash cs b') : b = b' := by
  rcases mem_chainOf hash cs b p hb with ⟨e,he,hep,rfl⟩
  rcases mem_chainOf hash cs b' p hb' with ⟨e',he',hep',rfl⟩
  have hd := (h.order.map Prod.fst).nodup_iff.mp (List.nodup_cons.mp h.ring.nodup).2
  have heq := List.inj_on_of_nodup_map hd he he' (hep.trans hep'.symm)
  rw [heq]

theorem LinkedBy.insert_exists (fuel : ℕ) (hf : es.length < fuel) (hi : ℕ) (d : HashItem)
    (hd : dataOf s.heap hi = some d) (hhi : hi ≠ nullptr) (hkey : itemKey d ∈ es.map Prod.snd) :
    hashtableInsert hash fuel s hi = some (s,.htExists) := by
  have hfind := h.find hash s es cs fuel hf (itemKey d)
  cases hl : KeyedList.lookup Prod.snd (itemKey d) es with
  | none => exact absurd hkey (KeyedList.absent Prod.snd _ es hl)
  | some e =>
    have hnull := h.ne_null hash s es cs e (List.mem_of_find?_eq_some hl)
    rw [hl, Option.map_some, Option.getD_some] at hfind
    simp only [hashtableInsert, if_neg hhi, dataOf_eq_some s.heap hi d hd, Option.bind_eq_bind,
      Option.bind_some, hfind, ne_eq, hnull, not_false_eq_true, if_true]

/-- What an insertion writes when no item has the key, also for an empty key. -/
theorem LinkedBy.insert_writes (fuel : ℕ) (hf : es.length < fuel) (hi : ℕ) (d : HashItem)
    (hd : dataOf s.heap hi = some d) (hout : hi ∉ nullptr :: es.map Prod.fst)
    (hkey : itemKey d ∉ es.map Prod.snd) :
    ∃ head h', hashtableInsert hash fuel s hi = some (⟨⟨s.ht.hashItems+1,
        Function.update s.ht.primaryHashtable (bucketOf hash (itemKey d)) hi,head,hi⟩,h'⟩,.htOk) ∧
      ItemRing h' head hi (es.map Prod.fst ++ [hi]) ∧ contentsOf h' = contentsOf s.heap ∧
      hNextOf h' = Function.update (hNextOf s.heap) hi
        (s.ht.primaryHashtable (bucketOf hash (itemKey d))) := by
  have hfind := h.find hash s es cs fuel hf (itemKey d)
  rw [KeyedList.lookup_none Prod.snd _ es hkey] at hfind
  -- the old first item of the bucket becomes the next one of the new item
  rcases setHNext_spec s.heap hi (s.ht.primaryHashtable (bucketOf hash (itemKey d))) d hd with
    ⟨h0,hs0,hh0,hc0,hn0,hp0⟩
  have hlive (p : ℕ) (hp : p ∈ hi :: es.map Prod.fst) : dataOf h0 p ≠ none := by
    rw [live_congr s.heap h0 hc0]
    rcases List.mem_cons.mp hp with rfl | hm
    · rw [hd]
      exact Option.some_ne_none d
    · exact h.live hash s es cs p hm
  have hring0 := h.ring.congr s.heap _ _ _ h0 (fun p _ => ⟨by rw [hn0], by rw [hp0]⟩)
  -- then the new item goes to the end of the list of all items
  rcases hring0.link h0 _ _ _ hi hout hlive with ⟨h1,h2,h3,hs1,hs2,hs3,hring,hd3⟩
  rcases views_congr h0 h3 hd3 with ⟨hh3,hc3⟩
  have hhi : hi ≠ nullptr := fun he => hout (by simp [he])
  refine ⟨if s.ht.head = nullptr then hi else s.ht.head, h3, ?_, hring, hc3.trans hc0,
    hh3.trans hh0⟩
  simp only [hashtableInsert, if_neg hhi, dataOf_eq_some s.heap hi d hd, Option.bind_eq_bind,
    Option.bind_some, hfind, Option.map_none, Option.getD_none, ne_eq, not_true_eq_false, if_false,
    hs0, hs1, hs2, hs3]

/-- Inserting an item that the caller filled, when no item has its key. -/
theorem LinkedBy.insert (fuel : ℕ) (hf : es.length < fuel) (hi : ℕ) (d : HashItem)
    (hd : dataOf s.heap hi = some d) (hout : hi ∉ nullptr :: es.map Prod.fst)
    (hne : itemKey d ≠ []) (hkey : itemKey d ∉ es.map Prod.snd) :
    ∃ s', hashtableInsert hash fuel s hi = some (s',.htOk) ∧
      LinkedBy hash s' (es ++ [(hi,itemKey d)]) (cs ++ [(hi,itemKey d)]) := by
  rcases h.insert_writes hash s es cs fuel hf hi d hd hout hkey with ⟨head,h3,hs,hring,hc,hh⟩
  have hhi : hi ≠ nullptr := fun he => hout (by simp [he])
  refine ⟨_, hs, ?_, ?_, ?_, ?_, ?_, h.order.append_right _⟩
  · rw [List.map_append]
    exact hring
  · intro e he
    rw [ItemAt, hc]
    rcases List.mem_append.mp he with he | he
    · exact h.items e he
    · rw [List.mem_singleton.mp he]
      exact ⟨⟨_, by rw [contentsOf, hd, Option.map_some], rfl⟩, hne⟩
  · rw [List.map_append, List.nodup_append']
    refine ⟨h.keys, List.nodup_singleton _, ?_⟩
    rw [List.disjoint_comm]
    exact List.singleton_disjoint.mpr hkey
  -- only the chain of the bucket of the new key gets longer, at its front
  · intro b
    have hold : Chain (chainNext h3) (chainPtr (s.ht.primaryHashtable b)) (chainOf hash cs b) := by
      apply (h.chains b).congr
      intro p hp
      rcases mem_chainOf hash cs b p hp with ⟨e,he,rfl,-⟩
      have hpe : e.1 ≠ hi := by
        intro heq
        apply hout
        rw [← heq]
        exact List.mem_cons_of_mem _ (List.mem_map_of_mem (h.order.mem_iff.mpr he))
      rw [chainNext, chainNext, hh, Function.update_of_ne hpe]
    change Chain (chainNext h3)
      (chainPtr (Function.update s.ht.primaryHashtable (bucketOf hash (itemKey d)) hi b)) _
    rw [chainOf_append, chainOf_cons]
    by_cases hb : bucketOf hash (itemKey d) = b
    · rw [if_pos hb]
      refine ⟨?_, ?_⟩
      · rw [← hb, Function.update_self, chainPtr, if_neg hhi]
      · rwa [chainNext, hh, Function.update_self, hb]
    · rw [if_neg hb, Function.update_of_ne (Ne.symm hb)]
      exact hold
  · rw [h.count, List.length_append, List.length_singleton, UInt32.ofNat_add]
    rfl

end linked

/-- The chains without an item, after its predecessor or its bucket was led past it. -/
theorem LinkedBy.unhook (hash : List UInt8 → UInt32) (s : State) (key : List UInt8) (es es1 es2 : Items)
    (e : ℕ × List UInt8) (h : LinkedBy hash s es (es1 ++ e :: es2))
    (hchain : chainOf hash (es1 ++ e :: es2) (bucketOf hash key) =
      chainOf hash es2 (bucketOf hash key) ++ e.1 :: chainOf hash es1 (bucketOf hash key))
    (hk : e.2 = key) (h' : Heap HashItem) (buckets : ℕ → ℕ)
    (hnext : ∀ p, hNextOf h' p = if p = e.1 then nullptr
      else if (chainOf hash es2 (bucketOf hash key)).getLast? = some p then hNextOf s.heap e.1
      else hNextOf s.heap p)
    (hbuckets : buckets = if chainOf hash es2 (bucketOf hash key) = [] then
      Function.update s.ht.primaryHashtable (bucketOf hash key) (hNextOf s.heap e.1)
      else s.ht.primaryHashtable) (b : ℕ) :
    Chain (chainNext h') (chainPtr (buckets b)) (chainOf hash (es1 ++ es2) b) := by
  rw [hbuckets]
  by_cases hb : bucketOf hash key = b
  -- the chain that the item was in
  · subst hb
    have hc := h.chains (bucketOf hash key)
    rw [hchain] at hc
    have hout := (List.nodup_cons.mp (List.perm_middle.nodup_iff.mp hc.nodup)).1
    have hun := @Chain.unlink _ _ (chainNext h') _ _ _ _ hc (by
      intro p hp
      have hpe : p ≠ e.1 := fun he => hout (he ▸ List.mem_append_left _ (List.mem_of_getLast? hp))
      rw [chainNext, chainNext, hnext, if_neg hpe, if_pos (Option.mem_def.mp hp)]) (by
      intro p hp hlast
      have hpe : p ≠ e.1 := fun he => hout (he ▸ hp)
      rw [chainNext, chainNext, hnext, if_neg hpe, if_neg hlast])
    rw [chainOf_append]
    split_ifs at hun ⊢ with hl
    · rwa [Function.update_self]
    · exact hun
  -- no other chain contains an item that was written
  · have hsame : chainOf hash (es1 ++ es2) b = chainOf hash (es1 ++ e :: es2) b := by
      rw [chainOf_append, chainOf_append, chainOf_cons, hk, if_neg hb]
    have hkeep : (if chainOf hash es2 (bucketOf hash key) = [] then
        Function.update s.ht.primaryHashtable (bucketOf hash key) (hNextOf s.heap e.1)
        else s.ht.primaryHashtable) b = s.ht.primaryHashtable b := by
      split_ifs
      · exact Function.update_of_ne (Ne.symm hb) _ _
      · rfl
    rw [hsame, hkeep]
    apply (h.chains b).congr
    intro p hp
    have hother : p ∉ chainOf hash (es1 ++ e :: es2) (bucketOf hash key) :=
      fun hm => hb (h.bucket_unique hash s es _ _ b p hm hp)
    rw [hchain, List.mem_append, List.mem_cons, not_or, not_or] at hother
    rw [chainNext, chainNext, hnext, if_neg hother.2.1,
      if_neg (fun hl => hother.1 (List.mem_of_getLast? hl))]

section operations
variable (hash : List UInt8 → UInt32) (s : State) (es cs : Items) (h : LinkedBy hash s es cs)
include h

/-- What a removal writes when `e` is the item that has the key, and `l` are those behind which
it is in its bucket. -/
theorem LinkedBy.remove_writes (fuel : ℕ) (hf : es.length < fuel) (key : List UInt8)
    (es1 es2 cs2 : Items) (e : ℕ × List UInt8) (l k : List ℕ) (hes : es = es1 ++ e :: es2)
    (hk : e.2 = key) (hne : key ≠ []) (hcs2 : cs2 ⊆ cs) (hkey2 : key ∉ cs2.map Prod.snd)
    (hl : l = chainOf hash cs2 (bucketOf hash key))
    (hchain : chainOf hash cs (bucketOf hash key) = l ++ e.1 :: k) :
    ∃ head tail h', hashtableRemove hash fuel s (some key) true =
        some (⟨⟨s.ht.hashItems-1, if l = [] then
          Function.update s.ht.primaryHashtable (bucketOf hash key) (hNextOf s.heap e.1)
          else s.ht.primaryHashtable,head,tail⟩,h'⟩,.htOk,some e.1) ∧
      ItemRing h' head tail ((es1 ++ es2).map Prod.fst) ∧ contentsOf h' = contentsOf s.heap ∧
      ∀ p, hNextOf h' p = if p = e.1 then nullptr
        else if l.getLast? = some p then hNextOf s.heap e.1 else hNextOf s.heap p := by
  subst hes hl
  have hlen := chainOf_length hash cs (bucketOf hash key)
  rw [← h.order.length_eq, hchain, List.length_append] at hlen
  have hc := h.chains (bucketOf hash key)
  rw [hchain] at hc
  have hitem := (h.items e (by simp)).1
  -- the walk stops at the place that holds the item
  rcases walkPlaces_found key _ _ s (.bucket (bucketOf hash key)) e.1 _ fuel (by omega) rfl hc
    (fun q hq => h.passed hash s _ _ key cs2 _ (fun f hf => hcs2 hf) hkey2 q hq) (hk ▸ hitem) with
    ⟨hplace,hread⟩
  have hnull := h.ne_null hash s _ _ e (by simp)
  rcases hitem.node with ⟨d,hd,hnode,hnext,-⟩
  -- first the place is led past the item, then the item loses its next one
  rcases write_spec s (bucketOf hash key) d.hNext (chainOf hash cs2 (bucketOf hash key)) (by
    intro p hp
    apply h.live hash s
    rcases mem_chainOf hash cs2 _ p hp with ⟨f,hf2,rfl,-⟩
    exact List.mem_map_of_mem (h.order.mem_iff.mpr (hcs2 hf2))) with
    ⟨s1,hw,hcount1,hhead1,htail1,hprim1,hn1,hp1,hc1,hh1⟩
  have hlive1 (p : ℕ) (hp : p ∈ (es1 ++ e :: es2).map Prod.fst) : dataOf s1.heap p ≠ none :=
    (live_congr s.heap s1.heap hc1 p).mpr (h.live hash s _ _ p hp)
  rcases Option.ne_none_iff_exists'.mp (hlive1 e.1 (by simp)) with ⟨d1,hd1⟩
  rcases setHNext_spec s1.heap e.1 nullptr d1 hd1 with ⟨h2,hs2,hh2,hc2,hn2,hp2⟩
  have hlive2 (p : ℕ) (hp : p ∈ (es1 ++ e :: es2).map Prod.fst) : dataOf h2 p ≠ none :=
    (live_congr s1.heap h2 hc2 p).mpr (hlive1 p hp)
  rcases Option.ne_none_iff_exists'.mp (hlive2 e.1 (by simp)) with ⟨d2,hd2⟩
  have hring2 := h.ring.congr s.heap _ _ _ h2 (fun p _ => ⟨by rw [hn2, hn1], by rw [hp2, hp1]⟩)
  rw [List.map_append, List.map_cons] at hring2 hlive2
  -- last the item leaves the list of all items
  rcases hring2.unlink h2 _ _ _ _ e.1 hlive2 with ⟨h3,hs3,hring3,hd3⟩
  rcases views_congr h2 h3 hd3 with ⟨hh3,hc3⟩
  rw [hnext] at hprim1
  refine ⟨if e.1 = s.ht.head then nextOf h2 e.1 else s.ht.head,
    if e.1 = s.ht.tail then prevOf h2 e.1 else s.ht.tail, h3, ?_, ?_, ?_, ?_⟩
  · simp only [hashtableRemove, hashitemBefore, hne, Bool.true_eq_false, or_self, if_false, hplace,
      Option.bind_eq_bind, Option.bind_some, hread, hnull, hnode, hw, hs2, hs3,
      dataOf_eq_some h2 e.1 d2 hd2, hhead1, htail1, hcount1, hprim1]
  · rw [List.map_append]
    exact hring3
  · rw [hc3, hc2, hc1]
  · intro p
    rw [hh3, hh2, Function.update_apply, hh1, hnext]

/-- Removing the item that has the key. -/
theorem LinkedBy.remove (fuel : ℕ) (hf : es.length < fuel) (key : List UInt8) (e : ℕ × List UInt8)
    (he : KeyedList.lookup Prod.snd key es = some e) (hne : key ≠ []) :
    ∃ s', hashtableRemove hash fuel s (some key) true = some (s',.htOk,some e.1) ∧
      LinkedBy hash s' (KeyedList.erase Prod.snd key es) (KeyedList.erase Prod.snd key cs) := by
  have hkeys := h.keys' hash s es cs
  rcases KeyedList.lookup_some Prod.snd key es e he with ⟨-,es1,es2,rfl⟩
  rcases h.cut hash s _ cs key e he with ⟨cs1,cs2,rfl,hk,hchain,-,hkey2⟩
  have horder : (es1 ++ es2).Perm (cs1 ++ cs2) := by
    have hmid : (e :: (es1 ++ es2)).Perm (e :: (cs1 ++ cs2)) :=
      List.perm_middle.symm.trans (h.order.trans List.perm_middle)
    exact hmid.cons_inv
  have hcs2 : cs2 ⊆ cs1 ++ e :: cs2 := by
    intro f hf2
    simp [hf2]
  rw [KeyedList.erase_append Prod.snd key es1 es2 e hk h.keys,
    KeyedList.erase_append Prod.snd key cs1 cs2 e hk hkeys]
  rcases h.remove_writes hash s _ _ fuel hf key es1 es2 cs2 e _ _ rfl hk hne hcs2 hkey2 rfl hchain
    with ⟨head,tail,h',hs,hring,hc,hnext⟩
  refine ⟨_, hs, hring, ?_, ?_, ?_, ?_, horder⟩
  · intro f hf
    rw [ItemAt, hc]
    apply h.items f
    simp only [List.mem_append, List.mem_cons] at hf ⊢
    tauto
  · have hsub : (es1 ++ es2).Sublist (es1 ++ e :: es2) :=
      List.Sublist.append_left (List.sublist_cons_self e es2) es1
    exact List.Nodup.sublist (hsub.map _) h.keys
  · exact h.unhook hash s key _ cs1 cs2 e hchain hk h' _ hnext rfl
  · show s.ht.hashItems-1 = _
    rw [h.count, List.length_append, List.length_append, List.length_cons, ← Nat.add_assoc,
      UInt32.ofNat_add]
    grind

theorem LinkedBy.remove_absent (fuel : ℕ) (hf : es.length < fuel) (key : List UInt8)
    (hl : KeyedList.lookup Prod.snd key es = none) (hne : key ≠ []) :
    hashtableRemove hash fuel s (some key) true = some (s,.htNotFound,none) := by
  have hlen := chainOf_length hash cs (bucketOf hash key)
  rw [← h.order.length_eq] at hlen
  have habsent : key ∉ cs.map Prod.snd := by
    apply KeyedList.absent Prod.snd key cs
    rwa [h.lookup hash s es cs key]
  rcases walkPlaces_absent key (chainOf hash cs (bucketOf hash key)) s (.bucket (bucketOf hash key))
    _ fuel (by omega) rfl (h.chains _) (fun q hq => h.passed hash s es cs key cs _ (fun e he => he)
      habsent q hq) with ⟨hplace,hread⟩
  simp only [hashtableRemove, hashitemBefore, hne, Bool.true_eq_false, or_self, if_false, hplace,
    Option.bind_eq_bind, Option.bind_some, hread, if_true]

theorem LinkedBy.clear (fuel : ℕ) (hf : es.length < fuel) (hne : es ≠ []) :
    ∃ s', hashtableClear fuel s = some (s',0) ∧ LinkedBy hash s' [] [] := by
  have hends := h.ring.empty_iff s.heap _ _ _
  rw [List.map_eq_nil_iff] at hends
  rcases h.ring.clear s.heap _ _ _ s.ht.hashItems fuel (by rwa [List.length_map])
    (h.live hash s es cs) with ⟨h',hs⟩
  refine ⟨hashtableInit h', ?_, (linkedBy_self_iff hash _ []).mpr (linked_init hash h')⟩
  rw [hashtableClear, hashtableClearFreed, if_neg (by rw [hends.1, hends.2, or_self]; exact hne), hs, List.length_map,
    h.count, UInt32.sub_self]
  rfl

end operations

end Cclab.Hashtable
