import Cclab.Hashtable
import Cclab.IntrusiveLists

/-! What the link operations of the hash table do, in terms of the bucket chains and of the
ring that the item list makes through the null pointer, its `next` being `head` and its `prev`
being `tail`. -/
namespace Cclab.Hashtable
open ByteMemory IntrusiveLists NodeHeap

variable (h : Heap HashItem)

def hNextOf (p : ℕ) : ℕ := (dataOf h p).elim nullptr HashItem.hNext

/-- An item besides its links: what no operation of the table writes. -/
def contentsOf (p : ℕ) : Option (ℤ × ℕ × Mem) :=
  (dataOf h p).map fun d => (d.keyLength, d.keyOffset, d.bytes)

/-- There is an item at `p`, and `key` is its key. -/
def ItemAt (p : ℕ) (key : List UInt8) : Prop :=
  ∃ c, contentsOf h p = some c ∧ load c.2.2 c.2.1 (sizeT c.1) = key

/-- Where the chains continue, a null pointer being their end. -/
def chainPtr (p : ℕ) : Option ℕ := if p = nullptr then none else some p

def chainNext (p : ℕ) : Option ℕ := chainPtr (hNextOf h p)

theorem ItemAt.unique (p : ℕ) (key key' : List UInt8) (hp : ItemAt h p key)
    (hp' : ItemAt h p key') : key = key' := by
  obtain ⟨c,hc,hk⟩ := hp
  obtain ⟨c',hc',hk'⟩ := hp'
  obtain rfl := Option.some.inj (hc.symm.trans hc')
  exact hk.symm.trans hk'

theorem ItemAt.node (p : ℕ) (key : List UInt8) (hp : ItemAt h p key) :
    ∃ d, dataOf h p = some d ∧ h p = some ⟨d, prevOf h p, nextOf h p⟩ ∧ d.hNext = hNextOf h p ∧
      itemKey d = key := by
  rcases hp with ⟨c,hc,rfl⟩
  rcases Option.map_eq_some_iff.mp hc with ⟨d,hd,rfl⟩
  refine ⟨d, hd, dataOf_eq_some h p d hd, ?_, rfl⟩
  rw [hNextOf, hd, Option.elim_some]

theorem keyIs_iff (key : List UInt8) (d : HashItem) : keyIs key d = true ↔ itemKey d = key := by
  rw [keyIs, decide_eq_true_iff]
  simp only [itemKey, hashitemKey]
  constructor
  · rintro ⟨hlen,hkey⟩
    rw [← hlen, ← hkey]
  · intro he
    have hlen : key.length = sizeT d.keyLength := by rw [← he, load_length]
    exact ⟨hlen, by rw [hlen, he]⟩

theorem views_congr (h' : Heap HashItem) (hd : dataOf h' = dataOf h) :
    hNextOf h' = hNextOf h ∧ contentsOf h' = contentsOf h := by
  constructor
  · ext p
    rw [hNextOf, hNextOf, hd]
  · ext p : 1
    rw [contentsOf, contentsOf, hd]

theorem live_congr (h' : Heap HashItem) (hc : contentsOf h' = contentsOf h) (p : ℕ) :
    dataOf h' p ≠ none ↔ dataOf h p ≠ none := by
  have hp := congrFun hc p
  rw [contentsOf, contentsOf] at hp
  rw [ne_eq, ne_eq, ← Option.map_eq_none_iff, hp, Option.map_eq_none_iff]

theorem setHNext_spec (p q : ℕ) (d : HashItem) (hd : dataOf h p = some d) :
    ∃ h', setHNext h p q = some h' ∧ hNextOf h' = Function.update (hNextOf h) p q ∧
      contentsOf h' = contentsOf h ∧ nextOf h' = nextOf h ∧ prevOf h' = prevOf h := by
  rcases setData_spec h p d { d with hNext := q } hd with ⟨h',hs,hd',hn,hp⟩
  refine ⟨h', ?_, ?_, ?_, hn, hp⟩
  · simp only [setHNext, dataOf_eq_some h p d hd, Option.bind_eq_bind, Option.bind_some, hs]
  · ext r
    by_cases hr : r = p
    · subst hr
      rw [hNextOf, hd', Function.update_self, Function.update_self, Option.elim_some]
    · rw [hNextOf, hd', Function.update_of_ne hr, Function.update_of_ne hr, hNextOf]
  · ext r : 1
    by_cases hr : r = p
    · subst hr
      rw [contentsOf, contentsOf, hd', Function.update_self, hd]
      rfl
    · rw [contentsOf, contentsOf, hd', Function.update_of_ne hr]

theorem chainPtr_cons (pos p : ℕ) (l : List ℕ) (hc : Chain (chainNext h) (chainPtr pos) (p :: l)) :
    pos = p ∧ p ≠ nullptr := by
  have hpos := hc.1
  unfold chainPtr at hpos
  split_ifs at hpos with hnull
  have he := Option.some.inj hpos
  exact ⟨he, he ▸ hnull⟩

theorem chainPtr_nil (pos : ℕ) (hc : Chain (chainNext h) (chainPtr pos) []) : pos = nullptr := by
  by_contra hne
  have hnone : chainPtr pos = none := hc
  rw [chainPtr, if_neg hne] at hnone
  exact Option.some_ne_none pos hnone

section walk
variable (key : List UInt8) (l k : List ℕ)

/-- The walk passes the items that have another key. -/
theorem walkChain_skip (pos : ℕ) (hc : Chain (chainNext h) (chainPtr pos) (l ++ k))
    (hl : ∀ q ∈ l, ∃ other, ItemAt h q other ∧ other ≠ key) :
    ∃ pos', Chain (chainNext h) (chainPtr pos') k ∧
      ∀ fuel, walkChain h key (l.length+fuel) pos = walkChain h key fuel pos' := by
  induction l generalizing pos with
  | nil =>
    refine ⟨pos, hc, ?_⟩
    intro fuel
    rw [List.length_nil, Nat.zero_add]
  | cons q l ih =>
    obtain ⟨rfl,hq0⟩ := chainPtr_cons h pos q (l ++ k) hc
    rcases hl pos List.mem_cons_self with ⟨other,hq,hne⟩
    rcases hq.node with ⟨d,-,hnode,hnext,hkey⟩
    have hmiss : ¬ keyIs key d = true := by rwa [keyIs_iff, hkey]
    rcases ih (hNextOf h pos) hc.2 (fun r hr => hl r (List.mem_cons_of_mem pos hr)) with
      ⟨pos',hc',hw⟩
    refine ⟨pos', hc', ?_⟩
    intro fuel
    rw [List.length_cons, Nat.add_right_comm, walkChain, if_neg hq0, hnode, Option.bind_some,
      if_neg hmiss, hnext, hw]

theorem walkChain_found (p pos fuel : ℕ) (hf : l.length < fuel)
    (hc : Chain (chainNext h) (chainPtr pos) (l ++ p :: k))
    (hl : ∀ q ∈ l, ∃ other, ItemAt h q other ∧ other ≠ key) (hp : ItemAt h p key) :
    walkChain h key fuel pos = some p := by
  obtain ⟨f,rfl⟩ : ∃ f, fuel = l.length+(f+1) := ⟨fuel-l.length-1, by omega⟩
  rcases walkChain_skip h key l (p :: k) pos hc hl with ⟨pos',hc',hw⟩
  rcases chainPtr_cons h pos' p k hc' with ⟨rfl,hp0⟩
  rcases hp.node with ⟨d,-,hnode,-,hkey⟩
  rw [hw, walkChain, if_neg hp0, hnode, Option.bind_some, if_pos ((keyIs_iff key d).mpr hkey)]

theorem walkChain_absent (pos fuel : ℕ) (hf : l.length < fuel)
    (hc : Chain (chainNext h) (chainPtr pos) l)
    (hl : ∀ q ∈ l, ∃ other, ItemAt h q other ∧ other ≠ key) :
    walkChain h key fuel pos = some nullptr := by
  obtain ⟨f,rfl⟩ : ∃ f, fuel = l.length+(f+1) := ⟨fuel-l.length-1, by omega⟩
  rcases walkChain_skip h key l [] pos (by rwa [List.append_nil]) hl with ⟨pos',hc',hw⟩
  rw [hw, walkChain, if_pos (chainPtr_nil h pos' hc')]

/-- What a walk finds has the key. -/
theorem walkChain_sound (pos p fuel : ℕ) (hw : walkChain h key fuel pos = some p)
    (hp : p ≠ nullptr) : ItemAt h p key := by
  induction fuel generalizing pos with
  | zero => exact absurd hw (by simp [walkChain])
  | succ fuel ih =>
    rw [walkChain] at hw
    split_ifs at hw with hpos
    · exact absurd (Option.some.inj hw).symm hp
    · obtain ⟨it,hit,hw⟩ := Option.bind_eq_some_iff.mp hw
      split_ifs at hw with hkey
      · obtain rfl := Option.some.inj hw
        refine ⟨(it.data.keyLength,it.data.keyOffset,it.data.bytes), ?_,
          (keyIs_iff key it.data).mp hkey⟩
        rw [contentsOf, dataOf, hit, Option.map_some, Option.map_some]
      · exact ih it.data.hNext hw

variable (s : State)

/-- The place that points behind the items `l` of a chain. -/
def placeAfter (start : Place) (l : List ℕ) : Place := l.getLast?.elim start .hNext

theorem walkPlaces_skip (start : Place) (pos : ℕ) (hpos : s.read start = some pos)
    (hc : Chain (chainNext s.heap) (chainPtr pos) (l ++ k))
    (hl : ∀ q ∈ l, ∃ other, ItemAt s.heap q other ∧ other ≠ key) :
    ∃ pos', s.read (placeAfter start l) = some pos' ∧ Chain (chainNext s.heap) (chainPtr pos') k ∧
      ∀ fuel, walkPlaces s key (l.length+fuel) start =
        walkPlaces s key fuel (placeAfter start l) := by
  induction l generalizing start pos with
  | nil =>
    refine ⟨pos, hpos, hc, ?_⟩
    intro fuel
    rw [List.length_nil, Nat.zero_add]
    rfl
  | cons q l ih =>
    obtain ⟨rfl,hq0⟩ := chainPtr_cons s.heap pos q (l ++ k) hc
    rcases hl pos List.mem_cons_self with ⟨other,hq,hne⟩
    rcases hq.node with ⟨d,-,hnode,hnext,hkey⟩
    have hmiss : ¬ keyIs key d = true := by rwa [keyIs_iff, hkey]
    have hread : s.read (.hNext pos) = some (hNextOf s.heap pos) := by
      rw [State.read, hnode, Option.map_some, hnext]
    have hplace : placeAfter start (pos :: l) = placeAfter (.hNext pos) l := by
      rw [placeAfter, placeAfter, List.getLast?_cons]
      cases l.getLast? <;> rfl
    rcases ih (.hNext pos) (hNextOf s.heap pos) hread hc.2
      (fun r hr => hl r (List.mem_cons_of_mem pos hr)) with ⟨pos',hread',hc',hw⟩
    rw [hplace]
    refine ⟨pos', hread', hc', ?_⟩
    intro fuel
    rw [List.length_cons, Nat.add_right_comm, walkPlaces, hpos, Option.bind_some, if_neg hq0, hnode,
      Option.bind_some, if_neg hmiss, hw]

theorem walkPlaces_found (start : Place) (p pos fuel : ℕ) (hf : l.length < fuel)
    (hpos : s.read start = some pos) (hc : Chain (chainNext s.heap) (chainPtr pos) (l ++ p :: k))
    (hl : ∀ q ∈ l, ∃ other, ItemAt s.heap q other ∧ other ≠ key) (hp : ItemAt s.heap p key) :
    walkPlaces s key fuel start = some (placeAfter start l) ∧
      s.read (placeAfter start l) = some p := by
  obtain ⟨f,rfl⟩ : ∃ f, fuel = l.length+(f+1) := ⟨fuel-l.length-1, by omega⟩
  rcases walkPlaces_skip key l (p :: k) s start pos hpos hc hl with ⟨pos',hread,hc',hw⟩
  rcases chainPtr_cons s.heap pos' p k hc' with ⟨rfl,hp0⟩
  rcases hp.node with ⟨d,-,hnode,-,hkey⟩
  refine ⟨?_, hread⟩
  rw [hw, walkPlaces, hread, Option.bind_some, if_neg hp0, hnode, Option.bind_some,
    if_pos ((keyIs_iff key d).mpr hkey)]

theorem walkPlaces_absent (start : Place) (pos fuel : ℕ) (hf : l.length < fuel)
    (hpos : s.read start = some pos) (hc : Chain (chainNext s.heap) (chainPtr pos) l)
    (hl : ∀ q ∈ l, ∃ other, ItemAt s.heap q other ∧ other ≠ key) :
    walkPlaces s key fuel start = some (placeAfter start l) ∧
      s.read (placeAfter start l) = some nullptr := by
  obtain ⟨f,rfl⟩ : ∃ f, fuel = l.length+(f+1) := ⟨fuel-l.length-1, by omega⟩
  rcases walkPlaces_skip key l [] s start pos hpos (by rwa [List.append_nil]) hl with
    ⟨pos',hread,hc',hw⟩
  rw [chainPtr_nil s.heap pos' hc'] at hread
  refine ⟨?_, hread⟩
  rw [hw, walkPlaces, hread, Option.bind_some, if_pos rfl]

/-- Writing through the place behind the items `l` of a chain. -/
theorem write_spec (b q : ℕ) (l : List ℕ) (hlive : ∀ p ∈ l, dataOf s.heap p ≠ none) :
    ∃ s', s.write q (placeAfter (.bucket b) l) = some s' ∧ s'.ht.hashItems = s.ht.hashItems ∧
      s'.ht.head = s.ht.head ∧ s'.ht.tail = s.ht.tail ∧
      s'.ht.primaryHashtable =
        (if l = [] then Function.update s.ht.primaryHashtable b q else s.ht.primaryHashtable) ∧
      nextOf s'.heap = nextOf s.heap ∧ prevOf s'.heap = prevOf s.heap ∧
      contentsOf s'.heap = contentsOf s.heap ∧
      ∀ p, hNextOf s'.heap p = if l.getLast? = some p then q else hNextOf s.heap p := by
  -- the place is a bucket or the link of the last item that was passed
  rcases List.eq_nil_or_concat l with rfl | ⟨k,p,rfl⟩
  · refine ⟨_, rfl, rfl, rfl, rfl, ?_, rfl, rfl, rfl, ?_⟩
    · rw [if_pos rfl]
    · intro p
      rw [if_neg (by simp)]
  · rcases Option.ne_none_iff_exists'.mp (hlive p (by simp)) with ⟨d,hd⟩
    rcases setHNext_spec s.heap p q d hd with ⟨h',hs,hh,hc,hn,hp⟩
    refine ⟨⟨s.ht,h'⟩, ?_, rfl, rfl, rfl, ?_, hn, hp, hc, ?_⟩
    · rw [placeAfter, List.concat_eq_append, List.getLast?_concat, Option.elim_some, State.write, hs,
        Option.map_some]
    · rw [if_neg (by simp)]
    · intro r
      rw [hh, List.concat_eq_append, List.getLast?_concat, Function.update_apply]
      simp only [Option.some.injEq, eq_comm]

end walk

end Cclab.Hashtable
