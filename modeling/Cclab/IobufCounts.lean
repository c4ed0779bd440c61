import Cclab.IobufAtomic
import Cclab.IobufShared
import Mathlib.Data.Finset.Card

/-! The reference counts over whole runs, in the `int` that they are kept in: as long as no buffer
has 2^31 blocks, each count is the number of blocks on its buffer, and every block belongs to one
`IOBuf`. -/
namespace Cclab.Iobuf
open ByteMemory IntrusiveLists NodeHeap OperationRuns Relation

inductive Act where
  | create
  | destroy (i : ℕ)
  | op (o : Op)

def act [Counting] (s : Sys) : Act → Option Sys
  | .create => some s.create
  | .destroy i => s.destroy i
  | .op o => move s o

/-- The act is on an `IOBuf` that there is, and a write fits. -/
def Allowed (s : Sys) : Act → Prop
  | .create => True
  | .destroy i => i < s.bufs.length
  | .op o => Fits s o

/-- The blocks on the buffer `c`. -/
def users (st : Store) (c : ℕ) : Finset ℕ :=
  (Finset.range st.nextBlock).filter fun p => bufferOf st p = some c

/-- No buffer has as many blocks as make its count wrap. -/
def Few (st : Store) : Prop := ∀ c, (users st c).card < 2^31

/-- The act is allowed, and no buffer has too many blocks behind it. -/
def AllowedFew (s : Sys) (a : Act) : Prop :=
  Allowed s a ∧ ∀ t, @act atomicInt s a = some t → Few t.store

/-- The blocks and buffers there are were handed out. -/
def HandedOut (st : Store) : Prop :=
  ∀ p c, bufferOf st p = some c → p < st.nextBlock ∧ c < st.nextBuffer

/-- Every count is the number of the blocks on its buffer. -/
structure Counted (st : Store) : Prop where
  known : HandedOut st
  refs : ∀ c, st.refs c = (users st c).card

theorem mem_users (st : Store) (h : HandedOut st) (p c : ℕ) :
    p ∈ users st c ↔ bufferOf st p = some c := by
  rw [users, Finset.mem_filter, Finset.mem_range]
  exact ⟨fun hp => hp.2, fun hp => ⟨(h p c hp).1, hp⟩⟩

/-- The users of a buffer, before and after the block `p` is there. -/
theorem card_users_add (st st' : Store) (h : HandedOut st) (h' : HandedOut st') (p c : ℕ)
    (hp : bufferOf st p = none) (hsame : ∀ q, q ≠ p → bufferOf st' q = bufferOf st q) :
    (users st' c).card = (users st c).card + if bufferOf st' p = some c then 1 else 0 := by
  have hout : p ∉ users st c := by
    rw [mem_users st h, hp]
    exact Option.some_ne_none c |>.symm
  by_cases hc : bufferOf st' p = some c
  · have husers : users st' c = insert p (users st c) := by
      ext q
      rw [Finset.mem_insert, mem_users st' h', mem_users st h]
      by_cases hq : q = p
      · rw [hq]
        exact iff_of_true hc (Or.inl rfl)
      · rw [hsame q hq]
        exact (or_iff_right hq).symm
    rw [husers, Finset.card_insert_of_notMem hout, if_pos hc]
  · have husers : users st' c = users st c := by
      ext q
      rw [mem_users st' h', mem_users st h]
      by_cases hq : q = p
      · rw [hq, hp]
        exact iff_of_false hc (by simp)
      · rw [hsame q hq]
    rw [husers, if_neg hc, Nat.add_zero]

section counted
variable (st : Store) (h : Counted st)
include h

/-- A buffer is free exactly if no block is on it. -/
theorem Counted.refs_eq_zero_iff (c : ℕ) : st.refs c = 0 ↔ ∀ p, bufferOf st p ≠ some c := by
  rw [h.refs, Finset.card_eq_zero, Finset.eq_empty_iff_forall_notMem]
  apply forall_congr'
  intro p
  rw [mem_users st h.known]

/-- A change that leaves every block on its buffer. -/
theorem Counted.congr (st' : Store) (hb : bufferOf st' = bufferOf st) (hr : st'.refs = st.refs)
    (hn : st'.nextBlock = st.nextBlock) (hm : st'.nextBuffer = st.nextBuffer) : Counted st' := by
  refine ⟨?_, ?_⟩
  · intro p c hp
    rw [hn, hm]
    exact h.known p c (congrFun hb p ▸ hp)
  · intro c
    rw [hr, h.refs, users, users, hn, hb]

/-- One block more, on the buffer `b.buffer`. -/
theorem Counted.add (b : Block) (nextBuffer : ℕ) (hb : b.buffer < nextBuffer)
    (hle : st.nextBuffer ≤ nextBuffer) : Counted ⟨alloc st.heap st.nextBlock
      ⟨b,st.nextBlock,st.nextBlock⟩, st.mem,
      Function.update st.refs b.buffer (st.refs b.buffer+1), st.nextBlock+1, nextBuffer⟩ := by
  set st' : Store := ⟨alloc st.heap st.nextBlock ⟨b,st.nextBlock,st.nextBlock⟩, st.mem,
    Function.update st.refs b.buffer (st.refs b.buffer+1), st.nextBlock+1, nextBuffer⟩
  have hself : bufferOf st' st.nextBlock = some b.buffer := by
    rw [bufferOf, (alloc_self ..).2.2, Option.map_some]
  have hsame (q : ℕ) (hq : q ≠ st.nextBlock) : bufferOf st' q = bufferOf st q := by
    rw [bufferOf, (alloc_of_ne _ _ _ _ hq).2.2, bufferOf]
  have hknown : HandedOut st' := by
    intro p c hp
    by_cases hpn : p = st.nextBlock
    · rw [hpn, hself] at hp
      obtain rfl := Option.some.inj hp
      exact ⟨hpn ▸ Nat.lt_succ_self _, hb⟩
    · rw [hsame p hpn] at hp
      have hold := h.known p c hp
      exact ⟨Nat.lt_succ_of_lt hold.1, Nat.lt_of_lt_of_le hold.2 hle⟩
  have hnew : bufferOf st st.nextBlock = none := by
    by_contra hne
    obtain ⟨c,hc⟩ := Option.ne_none_iff_exists'.mp hne
    exact Nat.lt_irrefl _ (h.known _ c hc).1
  refine ⟨hknown, ?_⟩
  intro c
  rw [card_users_add st st' h.known hknown st.nextBlock c hnew hsame, ← h.refs, hself]
  change Function.update st.refs b.buffer (st.refs b.buffer+1) c = _
  by_cases hc : b.buffer = c
  · rw [hc, Function.update_self, if_pos rfl]
  · rw [Function.update_of_ne (Ne.symm hc), if_neg (fun he => hc (Option.some.inj he)), Nat.add_zero]

/-- One block less. -/
theorem Counted.delete (st' : Store) (p : ℕ) (hd : deleteBlock st p = some st') : Counted st' := by
  simp only [deleteBlock, Option.bind_eq_bind, Option.bind_eq_some_iff, Option.guard_eq_some'] at hd
  rcases hd with ⟨b,hb,-,-,he⟩
  have hst : { st with
    heap := free st.heap p
    refs := Function.update st.refs b.buffer (st.refs b.buffer-1) } = st' := Option.some.inj he
  have hself : bufferOf st' p = none := by
    rw [← hst, bufferOf, free_self, Option.map_none]
  have hsame (q : ℕ) (hq : q ≠ p) : bufferOf st' q = bufferOf st q := by
    rw [← hst, bufferOf, (free_of_ne _ _ _ hq).2.2, bufferOf]
  have hknown : HandedOut st' := by
    intro q c hq
    have hqp : q ≠ p := by
      rintro rfl
      rw [hself] at hq
      exact absurd hq (by simp)
    rw [hsame q hqp] at hq
    rw [← hst]
    exact h.known q c hq
  have hold : bufferOf st p = some b.buffer := by
    rw [bufferOf, hb, Option.map_some]
  refine ⟨hknown, ?_⟩
  intro c
  -- the same count from the other side
  have hcard := card_users_add st' st hknown h.known p c hself (fun q hq => (hsame q hq).symm)
  rw [← h.refs, hold] at hcard
  have hrefs : st'.refs = Function.update st.refs b.buffer (st.refs b.buffer-1) := by rw [← hst]
  rw [hrefs]
  by_cases hc : b.buffer = c
  · rw [← hc, if_pos rfl] at hcard
    rw [← hc, Function.update_self, hcard, Nat.add_sub_cancel]
  · rw [if_neg (fun he => hc (Option.some.inj he)), Nat.add_zero] at hcard
    rw [Function.update_of_ne (Ne.symm hc), hcard]

/-- A delete frees the buffer exactly if its block is the last one on it. -/
theorem Counted.delete_frees_iff (st' : Store) (p : ℕ) (b : Block) (hb : dataOf st.heap p = some b)
    (hd : deleteBlock st p = some st') :
    st'.refs b.buffer = 0 ↔ ∀ q, q ≠ p → bufferOf st q ≠ some b.buffer := by
  have hafter := h.delete st st' p hd
  rw [hafter.refs_eq_zero_iff]
  simp only [deleteBlock, Option.bind_eq_bind, Option.bind_eq_some_iff] at hd
  rcases hd with ⟨_,-,_,-,he⟩
  obtain rfl := Option.some.inj he
  apply forall_congr'
  intro q
  by_cases hq : q = p
  · subst hq
    have hnone : (dataOf (free st.heap q) q).map Block.buffer = none := by
      rw [free_self, Option.map_none]
    exact iff_of_true (by rw [bufferOf, hnone]; simp) (fun hne => absurd rfl hne)
  · have hsame : (dataOf (free st.heap p) q).map Block.buffer = bufferOf st q := by
      rw [(free_of_ne _ _ _ hq).2.2, bufferOf]
    rw [bufferOf, hsame]
    exact ⟨fun hne _ => hne, fun hne => hne hq⟩

end counted

/-- What one change does: it leaves every block on its buffer, adds a block, or deletes one. -/
theorem Change.cases [Counting] (f : Flow) (st st' : Store)
    (hc : Change SameBuffer f st st') :
    (bufferOf st' = bufferOf st ∧ st'.refs = st.refs ∧ st'.nextBlock = st.nextBlock ∧
      st'.nextBuffer = st.nextBuffer) ∨
    (f = .adds ∧ (st' = (newBlock st).1 ∨ ∃ p q, Iobuf.clone st p = some (st',q))) ∨
    (f = .deletes ∧ ∃ p, deleteBlock st p = some st') := by
  cases hc with
  | links _ _ h1 hd => exact Or.inl ⟨bufferOf_relink st h1 hd, rfl, rfl, rfl⟩
  | bytes _ _ mem => exact Or.inl ⟨rfl, rfl, rfl, rfl⟩
  | new => exact Or.inr (Or.inl ⟨rfl, Or.inl rfl⟩)
  | clone _ _ p q hc => exact Or.inr (Or.inl ⟨rfl, Or.inr ⟨p,q,hc⟩⟩)
  | delete _ _ p hd => exact Or.inr (Or.inr ⟨rfl, p, hd⟩)
  | window _ _ _ p b b' hb hw hset =>
    have hd := setBlock_data st st' p b' hset
    rcases Option.map_eq_some_iff.mp hset with ⟨h1,-,rfl⟩
    refine Or.inl ⟨?_, rfl, rfl, rfl⟩
    ext q : 1
    rw [bufferOf, bufferOf, hd]
    by_cases hq : q = p
    · rw [hq, Function.update_self, hb, Option.map_some, Option.map_some, hw]
    · rw [Function.update_of_ne hq]

/-- A change of an operation that adds blocks, whose counts do not fall. -/
theorem Counted.rises [Counting] (st st' : Store) (h : Counted st)
    (hc : Change SameBuffer .adds st st') : Counted st' ∧ st.refs ≤ st'.refs := by
  rcases hc.cases with ⟨hb,hr,hn,hm⟩ | ⟨-,rfl | ⟨p,q,hclone⟩⟩ | ⟨he,-⟩
  · exact ⟨h.congr st st' hb hr hn hm, le_of_eq hr.symm⟩
  · have hfree : st.refs st.nextBuffer = 0 := by
      rw [h.refs_eq_zero_iff]
      intro p hp
      exact Nat.lt_irrefl _ (h.known p _ hp).2
    have hadd := h.add st ⟨st.nextBuffer,0,0,kDefaultBufferSize-sizeofSharedInfo⟩ (st.nextBuffer+1)
      (Nat.lt_succ_self _) (Nat.le_succ _)
    rw [hfree] at hadd
    refine ⟨hadd, ?_⟩
    apply le_update_self_iff.mpr
    rw [hfree]
    exact Nat.zero_le 1
  · simp only [Iobuf.clone, Option.bind_eq_bind, Option.bind_eq_some_iff] at hclone
    rcases hclone with ⟨b,hb,-,-,he⟩
    obtain ⟨rfl,-⟩ := Prod.mk.inj (Option.some.inj he)
    have hon : bufferOf st p = some b.buffer := by rw [bufferOf, hb, Option.map_some]
    exact ⟨h.add st b st.nextBuffer (h.known p _ hon).2 (Nat.le_refl _),
      le_update_self_iff.mpr (Nat.le_succ _)⟩
  · exact absurd he (by simp)

theorem Counted.path [Counting] (st st' : Store) (h : Counted st) (hc : Changes SameBuffer .adds st st') :
    Counted st' :=
  Changes.invariant SameBuffer .adds Counted (fun a b hab ha => (ha.rises a b hab).1) st st' hc h

/-- No buffer has 2^31 references, said by the counts. -/
theorem Counted.low (st : Store) (h : Counted st) (hf : Few st) : st.Low := by
  intro c
  rw [h.refs]
  exact hf c

theorem Counted.few (st : Store) (h : Counted st) (hl : st.Low) : Few st := by
  intro c
  rw [← h.refs]
  exact hl c

/-- A change of an operation that deletes blocks, whose counts do not rise. -/
theorem Counted.falls (st st' : Store) (h : Counted st) (hf : Few st)
    (hc : @Change atomicInt SameBuffer .deletes st st') : Counted st' ∧ st'.refs ≤ st.refs := by
  rcases @Change.cases atomicInt .deletes st st' hc with ⟨hb,hr,hn,hm⟩ | ⟨he,-⟩ | ⟨-,p,hd⟩
  · exact ⟨h.congr st st' hb hr hn hm, le_of_eq hr⟩
  · exact absurd he (by simp)
  · rw [deleteBlock_atomicInt st (h.low st hf)] at hd
    exact ⟨h.delete st st' p hd, deleteBlock_refs st st' p hd⟩

/-- The states that an operation passes, while no buffer has 2^31 blocks. -/
def Moments [Counting] : Store → Store → Prop :=
  ReflTransGen fun st st' => Few st' ∧ ∃ f, Change SameBuffer f st st'

theorem Moments.counted (st st' : Store) (h : Counted st) (hf : Few st)
    (hm : @Moments atomicInt st st') : Counted st' ∧ Few st' := by
  induction hm with
  | refl => exact ⟨h, hf⟩
  | tail _ hc ih =>
    rcases hc with ⟨hfew,f,hc⟩
    refine ⟨?_, hfew⟩
    cases f with
    | adds => exact (@Counted.rises atomicInt _ _ ih.1 hc).1
    | deletes => exact (Counted.falls _ _ ih.1 ih.2 hc).1

/-- An operation goes one way only, so it passes no more blocks on a buffer than there are before
it or behind it. -/
theorem Changes.moments (f : Flow) (st st' : Store) (h : Counted st) (hf : Few st) (hf' : Few st')
    (hc : @Changes atomicInt SameBuffer f st st') : @Moments atomicInt st st' := by
  cases f with
  | adds =>
    have hall : Counted st' ∧ @Moments atomicInt st st' := by
      induction hc with
      | refl => exact ⟨h, .refl⟩
      | @tail st1 st2 hpath hone ih =>
        have hcounted := @Changes.invariant atomicInt SameBuffer .adds Counted
          (fun a b hab ha => (@Counted.rises atomicInt a b ha hab).1) st st1 hpath h
        rcases @Counted.rises atomicInt st1 st2 hcounted hone with ⟨hcounted2,hle⟩
        have hlow : st1.Low := (hcounted2.low st2 hf').of_le st2 st1 hle
        exact ⟨hcounted2, (ih (hcounted.few st1 hlow)).2.tail ⟨hf',_,hone⟩⟩
    exact hall.2
  | deletes =>
    have hall : Counted st' ∧ Few st' ∧ @Moments atomicInt st st' := by
      clear hf'
      induction hc with
      | refl => exact ⟨h, hf, .refl⟩
      | @tail st1 st2 _ hone ih =>
        rcases ih with ⟨hcounted,hfew,hm⟩
        rcases hcounted.falls st1 st2 hfew hone with ⟨hcounted2,hle⟩
        have hfew2 := hcounted2.few st2 ((hcounted.low st1 hfew).of_le st1 st2 hle)
        exact ⟨hcounted2, hfew2, hm.tail ⟨hfew2,_,hone⟩⟩
    exact hall.2.2

/-- Every act is made of changes that leave the blocks on their buffers. -/
theorem act_changes [Counting] (s t : Sys) (a : Act) (h : act s a = some t) :
    ∃ f, Changes SameBuffer f s.store t.store := by
  cases a with
  | create =>
    obtain rfl := Option.some.inj h
    exact ⟨.adds, .refl⟩
  | destroy i => exact ⟨.deletes, (s.destroy_changes t i h).of_cut⟩
  | op o =>
    by_cases ho : ∃ i bs, o = .write i bs
    · rcases ho with ⟨i,bs,rfl⟩
      exact ⟨.adds, move_write_changes s t i bs h⟩
    · obtain ⟨f,hc⟩ := move_changes s t o h (fun i bs he => ho ⟨i,bs,he⟩)
      exact ⟨f, hc.of_cut⟩

theorem act_atomicInt (s : Sys) (h : s.store.Low) (a : Act) : @act atomicInt s a = act s a := by
  cases a with
  | create => simp only [act]
  | destroy i => exact s.destroy_atomicInt h i
  | op o => exact move_atomicInt s h o

/-- The blocks of the `IOBuf`s are all blocks that there are: both make up the same counts. -/
theorem mem_blocks_of_live (st : Store) (all : List ℕ) (hs : Sound st all) (h : Counted st) (p : ℕ)
    (hp : dataOf st.heap p ≠ none) : p ∈ all := by
  obtain ⟨b,hb⟩ := Option.ne_none_iff_exists'.mp hp
  have hon : bufferOf st p = some b.buffer := by rw [bufferOf, hb, Option.map_some]
  have hsub : (all.filter fun q => bufferOf st q = some b.buffer).toFinset ⊆ users st b.buffer := by
    intro q hq
    rw [List.mem_toFinset, List.mem_filter, decide_eq_true_eq] at hq
    exact (mem_users st h.known q _).mpr hq.2
  have hcard : (users st b.buffer).card =
      (all.filter fun q => bufferOf st q = some b.buffer).toFinset.card := by
    rw [List.toFinset_card_of_nodup (hs.nodup.filter _), ← List.countP_eq_length_filter, ← hs.refs,
      h.refs]
  have heq := Finset.eq_of_subset_of_card_le hsub (Nat.le_of_eq hcard)
  have hm : p ∈ users st b.buffer := (mem_users st h.known p _).mpr hon
  rw [← heq, List.mem_toFinset, List.mem_filter] at hm
  exact hm.1

/-- A block of the `IOBuf`s is in one of them only. -/
theorem Layout.owner (s : Sys) (es : Chains) (h : Layout s es) (p : ℕ) (hp : p ∈ blocks es) :
    ∃! i : ℕ, ∃ buf, s.bufs[i]? = some buf ∧ p ∈ blocksOf s.store buf := by
  obtain ⟨e,he,hpe⟩ := List.mem_flatMap.mp hp
  obtain ⟨i,hi,rfl⟩ := List.mem_iff_getElem.mp he
  rcases h.toString_eq s es i es[i] (List.getElem?_eq_getElem hi) with ⟨-,hbuf,hblocks⟩
  refine ⟨i, ⟨es[i].1, hbuf, by rwa [hblocks]⟩, ?_⟩
  rintro j ⟨buf,hbufj,hpj⟩
  have hj : j < es.length := by
    have hlen := (List.getElem?_eq_some_iff.mp hbufj).1
    rwa [h.bufs, List.length_map] at hlen
  -- the chain at `j` holds the block as well, and different chains have none in common
  rcases h.toString_eq s es j es[j] (List.getElem?_eq_getElem hj) with ⟨-,hbuf',hblocks'⟩
  obtain rfl := Option.some.inj (hbuf'.symm.trans hbufj)
  rw [hblocks'] at hpj
  have hdis := List.pairwise_iff_getElem.mp (List.nodup_flatMap.mp h.sound.nodup).2
  rcases Nat.lt_trichotomy j i with hlt | heq | hgt
  · exact absurd hpe (hdis j i hj hi hlt hpj)
  · exact heq
  · exact absurd hpj (hdis i j hi hj hgt hpe)

/-- The counts are exact in the state and at every moment of a later act that leaves no buffer with
2^31 blocks, and every block has one owner. `copyTo`, `clone` and `deleteBlock` fail on a free
buffer, so an act that returns has touched none. -/
structure Exact [Counting] (s : Sys) : Prop where
  moments : ∀ a t, act s a = some t → Few t.store → Moments s.store t.store
  counted : ∀ st, Moments s.store st → ∀ c, sharedInfo (st.refs c) = (users st c).card
  freed : ∀ st, Moments s.store st → ∀ c, st.refs c = 0 ↔ ∀ p, bufferOf st p ≠ some c
  last : ∀ st p b st', Moments s.store st → dataOf st.heap p = some b →
    deleteBlock st p = some st' →
      (st'.refs b.buffer = 0 ↔ ∀ q, q ≠ p → bufferOf st q ≠ some b.buffer)
  owned : ∀ p, dataOf s.store.heap p ≠ none →
    ∃! i : ℕ, ∃ buf, s.bufs[i]? = some buf ∧ p ∈ blocksOf s.store buf
  rings : ∀ buf ∈ s.bufs, (blocksOf s.store buf).Nodup ∧
    ∀ p ∈ blocksOf s.store buf, dataOf s.store.heap p ≠ none
  returns : ∀ a, Allowed s a → ∃ t, act s a = some t
  reads : ∀ buf ∈ s.bufs, ∃ t, Reads s.store buf t

/-- What every act keeps. -/
def Held (s : Sys) : Prop := (∃ es, Layout s es) ∧ Counted s.store ∧ Few s.store

theorem held_start (mem : ℕ → ByteMemory.Mem) : Held (start mem) := by
  have hcounted : Counted (start mem).store := by
    refine ⟨?_, ?_⟩
    · intro p c hp
      exact absurd hp (by simp [bufferOf, start, dataOf])
    · intro c
      rfl
  refine ⟨⟨_,layout_start mem⟩, hcounted, ?_⟩
  intro c
  exact Nat.two_pow_pos 31

section held
variable (s : Sys) (h : Held s)
include h

/-- An allowed act returns, however many blocks it leaves. -/
theorem Held.returns (a : Act) (ha : Allowed s a) :
    ∃ t, @act atomicInt s a = some t ∧ ∃ es, Layout t es := by
  rcases h with ⟨⟨es,hl⟩,hc,hf⟩
  rw [act_atomicInt s (hc.low s.store hf)]
  cases a with
  | create => exact ⟨_, rfl, _, hl.create s es⟩
  | destroy i =>
    rcases hl.destroy_step s es i ha with ⟨t,es',ht,hl'⟩
    exact ⟨t, ht, es', hl'⟩
  | op o =>
    rcases hl.step s es o ha with ⟨_,_,_,_,t,es',-,-,ht,hl',-⟩
    exact ⟨t, ht, es', hl'⟩

theorem Held.moments (t : Sys) (a : Act) (ht : @act atomicInt s a = some t) (hf : Few t.store) :
    @Moments atomicInt s.store t.store := by
  obtain ⟨f,hchanges⟩ := @act_changes atomicInt s t a ht
  exact Changes.moments f s.store t.store h.2.1 h.2.2 hf hchanges

theorem Held.step (a : Act) (ha : AllowedFew s a) : ∃ t, @act atomicInt s a = some t ∧ Held t := by
  rcases h.returns s a ha.1 with ⟨t,ht,hl⟩
  have hmoments := h.moments s t a ht (ha.2 t ht)
  exact ⟨t, ht, hl, hmoments.counted s.store t.store h.2.1 h.2.2⟩

theorem Held.exact : @Exact atomicInt s := by
  rcases h with ⟨⟨es,hl⟩,hc,hf⟩
  have hat (buf : IOBuf) (hbuf : buf ∈ s.bufs) : ∃ (i : ℕ) (e : IOBuf × List ℕ),
      es[i]? = some e ∧ e.1 = buf := by
    rw [hl.bufs] at hbuf
    obtain ⟨e,he,rfl⟩ := List.mem_map.mp hbuf
    obtain ⟨i,hi⟩ := List.mem_iff_getElem?.mp he
    exact ⟨i, e, hi, rfl⟩
  have hlater (st : Store) (hst : @Moments atomicInt s.store st) : Counted st ∧ Few st :=
    hst.counted s.store st hc hf
  refine @Exact.mk atomicInt s ?_ ?_ ?_ ?_ ?_ ?_ ?_ ?_
  · intro a t ht hfew
    exact Held.moments s ⟨⟨es,hl⟩,hc,hf⟩ t a ht hfew
  · intro st hst c
    rcases hlater st hst with ⟨hcounted,hfew⟩
    rw [sharedInfo_eq _ (hcounted.low st hfew c), hcounted.refs]
  · intro st hst
    exact (hlater st hst).1.refs_eq_zero_iff st
  · intro st p b st' hst hb hd
    rcases hlater st hst with ⟨hcounted,hfew⟩
    rw [deleteBlock_atomicInt st (hcounted.low st hfew)] at hd
    exact hcounted.delete_frees_iff st st' p b hb hd
  · intro p hp
    exact hl.owner s es p (mem_blocks_of_live s.store _ hl.sound hc p hp)
  · intro buf hbuf
    rcases hat buf hbuf with ⟨i,e,hi,rfl⟩
    rcases hl.toString_eq s es i e hi with ⟨-,-,hblocks⟩
    have he := List.mem_of_getElem? hi
    rw [hblocks]
    exact ⟨(List.nodup_flatMap.mp hl.sound.nodup).1 e he,
      fun p hp => hl.sound.alive s.store _ p (mem_blocks es e he p hp)⟩
  · intro a ha
    rcases Held.returns s ⟨⟨es,hl⟩,hc,hf⟩ a ha with ⟨t,ht,-⟩
    exact ⟨t, ht⟩
  · intro buf hbuf
    rcases hat buf hbuf with ⟨i,e,hi,rfl⟩
    rcases hl.toString_eq s es i e hi with ⟨-,hbufi,-⟩
    refine ⟨text s.store e.2, hl.reads s es i e.1 _ hbufi ?_⟩
    rw [texts, List.getElem?_map, hi, Option.map_some]

end held

/-- In every run of constructions, writes, trims, splits and destructions in which no buffer comes
to have 2^31 blocks the reference counts are exact and no free buffer is touched. -/
theorem counts_exact (mem : ℕ → ByteMemory.Mem) (as : List Act)
    (h : Permitted (@act atomicInt) AllowedFew (start mem) as) :
    ∃ s, as.foldlM (@act atomicInt) (start mem) = some s ∧ @Exact atomicInt s := by
  rcases foldlM_refines (@act atomicInt) AllowedFew (fun s (_ : Unit) => Held s) (fun t _ => t)
    (fun s _ a hs ha => hs.step s a ha) (start mem) () as (held_start mem) h with ⟨s,hrun,hs⟩
  exact ⟨s, hrun, hs.exact⟩

/-- There are no more blocks than were handed out. -/
theorem few_of_nextBlock (st : Store) (h : st.nextBlock < 2^31) : Few st := by
  intro c
  have hcard := Finset.card_filter_le (Finset.range st.nextBlock) fun p => bufferOf st p = some c
  rw [Finset.card_range] at hcard
  exact Nat.lt_of_le_of_lt hcard h

/-- "ab" is written, "a" is split off, and the rest goes with its `IOBuf`. -/
theorem counts_exact_split : ∃ s, [.op (.write 0 [97,98]), .op (.split 0 1), .destroy 0].foldlM
    (@act atomicInt) (start fun _ _ => 0) = some s ∧ @Exact atomicInt s := by
  apply counts_exact (fun _ _ => 0) [.op (.write 0 [97,98]), .op (.split 0 1), .destroy 0]
  refine ⟨⟨⟨Nat.one_pos, ?_⟩, ?_⟩, ?_⟩
  · intro i bs hop buf r hbuf hpre
    obtain ⟨rfl,rfl⟩ : 0 = i ∧ [97,98] = bs := by simpa using hop
    obtain rfl := Option.some.inj hbuf
    obtain rfl := Option.some.inj hpre
    decide
  · intro t ht
    obtain rfl := Option.some.inj ht
    exact few_of_nextBlock _ (by decide)
  · intro t ht
    obtain rfl := Option.some.inj ht
    refine ⟨⟨⟨Nat.one_pos, fun i bs hop => absurd hop (by simp)⟩, ?_⟩, ?_⟩
    · intro u hu
      obtain rfl := Option.some.inj hu
      exact few_of_nextBlock _ (by decide)
    intro u hu
    obtain rfl := Option.some.inj hu
    refine ⟨⟨Nat.two_pos, ?_⟩, fun _ _ => trivial⟩
    intro v hv
    obtain rfl := Option.some.inj hv
    exact few_of_nextBlock _ (by decide)
/-- "ab" is written and "a" split off; then, again and again, one byte is written to the last piece
and the byte before it split off. -/
def forks : ℕ → List Act
  | 0 => [.op (.write 0 [97,98]), .op (.split 0 1)]
  | n+1 => forks n ++ [.op (.write (n+1) [98]), .op (.split (n+1) 1)]

/-- A block of one byte in a ring of its own. -/
def oneByte (p data : ℕ) : Node Block :=
  ⟨⟨0,data,1,kDefaultBufferSize-sizeofSharedInfo⟩,p,p⟩

/-- What the run of `forks n` leaves: all blocks are on the first buffer. -/
structure Forked (n : ℕ) (s : Sys) : Prop where
  bufs : ∃ bufs, s.bufs = ⟨1,1⟩ :: bufs ++ [⟨1,n+2⟩] ∧ bufs.length = n
  first : s.store.heap 1 = some (oneByte 1 1)
  last : s.store.heap (n+2) = some (oneByte (n+2) 0)
  refs : s.store.refs 0 = n+2
  nextBlock : s.store.nextBlock = n+3

/-- The byte goes behind the one that the last piece has. -/
theorem Forked.write (n : ℕ) (s : Sys) (h : Forked n s) : ∃ bufs mem, bufs.length = n ∧
    s.bufs = ⟨1,1⟩ :: bufs ++ [⟨1,n+2⟩] ∧ Fits s (.write (n+1) [98]) ∧
    move s (.write (n+1) [98]) = some ⟨{ s.store with
      heap := Function.update s.store.heap (n+2) (some
        ⟨⟨0,0,2,kDefaultBufferSize-sizeofSharedInfo⟩,n+2,n+2⟩)
      mem := mem }, ⟨1,1⟩ :: bufs ++ [⟨2,n+2⟩]⟩ := by
  rcases h.bufs with ⟨bufs,hbufs,hlen⟩
  have hget : s.bufs[n+1]? = some ⟨1,n+2⟩ := by
    rw [hbufs, List.getElem?_append_right (by simp [hlen])]
    simp [hlen]
  have hset (b : IOBuf) : s.bufs.set (n+1) b = ⟨1,1⟩ :: bufs ++ [b] := by
    rw [hbufs, List.set_append_right _ _ (by simp [hlen])]
    simp [hlen]
  have hspace : Block.space ⟨0,0,1,kDefaultBufferSize-sizeofSharedInfo⟩ = 524283 := by decide
  have hpre : preAllocate s.store ⟨1,n+2⟩ = some (s.store,⟨1,n+2⟩,(0,1),524283) := by
    simp [preAllocate, dataOf, h.last, oneByte, hspace, nullptr, Block.tail]
  refine ⟨bufs, Function.update s.store.mem 0 (store (s.store.mem 0) 1 [98]), hlen, hbufs, ⟨?_, ?_⟩, ?_⟩
  · rw [Op.target, hbufs]
    simp [hlen]
  · intro i bs hop buf r hbuf hr
    obtain ⟨rfl,rfl⟩ : n+1 = i ∧ [98] = bs := by simpa using hop
    obtain rfl := Option.some.inj (hget.symm.trans hbuf)
    obtain rfl := Option.some.inj (hpre.symm.trans hr)
    exact Nat.le_of_ble_eq_true rfl
  · have hroom : 2 ≤ kDefaultBufferSize-sizeofSharedInfo := by decide
    simp [move, Iobuf.write, hget, hpre, copyTo, h.refs, guard, postAllocate, nullptr, h.last, oneByte,
      blockAppend, dataOf, hroom, Store.setBlock, setData, NodeHeap.modify, hset]

/-- A split in the middle of two bytes, block by block. -/
theorem splitBlock_two (st : Store) (p cap : ℕ) (hp : st.heap p = some ⟨⟨0,0,2,cap⟩,p,p⟩)
    (hne : p ≠ st.nextBlock) (hrefs : st.refs 0 ≠ 0) :
    splitBlock st ⟨2,p⟩ ⟨0,nullptr⟩ 1 = some ({ st with
      heap := Function.update (Function.update st.heap st.nextBlock
        (some ⟨⟨0,0,1,cap⟩,st.nextBlock,st.nextBlock⟩)) p (some ⟨⟨0,1,1,cap⟩,p,p⟩)
      refs := Function.update st.refs 0 (st.refs 0+1)
      nextBlock := st.nextBlock+1 }, ⟨1,p⟩, ⟨1,st.nextBlock⟩) := by
  have hone : 1 ≤ 2 := Nat.le_succ 1
  set q := st.nextBlock
  let st1 : Store := { st with
    heap := Function.update st.heap q (some ⟨⟨0,0,2,cap⟩,q,q⟩)
    refs := Function.update st.refs 0 (st.refs 0+1)
    nextBlock := q+1 }
  let st2 : Store := { st1 with heap := Function.update st.heap q (some ⟨⟨0,0,1,cap⟩,q,q⟩) }
  have hclone : clone st p = some (st1,q) := by
    simp only [Iobuf.clone, dataOf, hp, Option.map_some, Option.bind_eq_bind, Option.bind_some, guard,
      if_pos hrefs, Option.pure_def, alloc]
    rfl
  have hdata : dataOf st1.heap q = some ⟨0,0,2,cap⟩ := by
    simp only [st1, dataOf, Function.update_self, Option.map_some]
  have hend : blockTrimEnd st1 q 1 = some st2 := by
    simp only [blockTrimEnd, hdata, Option.bind_eq_bind, Option.bind_some, guard, if_pos hone,
      Option.pure_def, Store.setBlock, setData, NodeHeap.modify, st1, st2,
      Function.update_self, Option.map_some, Function.update_idem]
  have happ : appendBlock st2 ⟨0,nullptr⟩ q = some (st2,⟨1,q⟩) := by
    simp only [appendBlock, dataOf, st2, Function.update_self, Option.map_some, Option.bind_eq_bind,
      Option.bind_some, if_true]
  have hstart : blockTrimStart st2 p 1 = some { st2 with
      heap := Function.update st2.heap p (some ⟨⟨0,1,1,cap⟩,p,p⟩) } := by
    simp only [blockTrimStart, dataOf, st2, Function.update_of_ne hne, hp, Option.map_some,
      Option.bind_eq_bind, Option.bind_some, guard, if_pos hone, Option.pure_def,
      Store.setBlock, setData, NodeHeap.modify]
  simp only [splitBlock, hclone, hdata, Option.bind_eq_bind, Option.bind_some, hend, happ, hstart,
    Option.pure_def]
  rfl

/-- The split makes one block more, and the new piece has the byte in front. -/
theorem Forked.split (n : ℕ) (s : Sys) (h : Forked n s) (bufs : List IOBuf) (mem : ℕ → Mem)
    (hlen : bufs.length = n) : ∃ u, move ⟨{ s.store with
      heap := Function.update s.store.heap (n+2) (some
        ⟨⟨0,0,2,kDefaultBufferSize-sizeofSharedInfo⟩,n+2,n+2⟩)
      mem := mem }, ⟨1,1⟩ :: bufs ++ [⟨2,n+2⟩]⟩ (.split (n+1) 1) = some u ∧ Forked (n+1) u := by
  set all : List IOBuf := ⟨1,1⟩ :: bufs ++ [⟨2,n+2⟩]
  have hget : all[n+1]? = some ⟨2,n+2⟩ := by
    rw [List.getElem?_append_right (by simp [hlen])]
    simp [hlen]
  have hset (b : IOBuf) : all.set (n+1) b = ⟨1,1⟩ :: bufs ++ [b] := by
    rw [List.set_append_right _ _ (by simp [hlen])]
    simp [hlen]
  set st : Store := { s.store with
    heap := Function.update s.store.heap (n+2) (some
      ⟨⟨0,0,2,kDefaultBufferSize-sizeofSharedInfo⟩,n+2,n+2⟩)
    mem := mem }
  have hp : st.heap (n+2) = some ⟨⟨0,0,2,kDefaultBufferSize-sizeofSharedInfo⟩,n+2,n+2⟩ :=
    Function.update_self ..
  have hnext : st.nextBlock = n+3 := h.nextBlock
  have hrefs : st.refs 0 = n+2 := h.refs
  have hblock := splitBlock_two st (n+2) _ hp (by omega) (by omega)
  have hsplit : Iobuf.split st.fuel st ⟨2,n+2⟩ 1 = splitBlock st ⟨2,n+2⟩ ⟨0,nullptr⟩ 1 := by
    simp [Iobuf.split, Store.fuel, splitLoop, nullptr, dataOf, hp]
  have hmove : move ⟨st,all⟩ (.split (n+1) 1) = (splitBlock st ⟨2,n+2⟩ ⟨0,nullptr⟩ 1).map
      fun r => ⟨r.1, all.set (n+1) r.2.1 ++ [r.2.2]⟩ := by
    simp only [move, hget, Option.bind_eq_bind, Option.bind_some, hsplit, Option.pure_def]
    rw [Option.map_eq_bind]
    rfl
  rw [hblock, Option.map_some, hset] at hmove
  refine ⟨_, hmove, ⟨⟨bufs ++ [⟨1,n+2⟩], ?_, ?_⟩, ?_, ?_, ?_, ?_⟩⟩
  · simp [hnext]
  · simp [hlen]
  · have hp1 : 1 ≠ n+2 := by omega
    have hfirst : st.heap 1 = some (oneByte 1 1) := by
      simp only [st]
      rw [Function.update_of_ne hp1, h.first]
    have hq1 : 1 ≠ st.nextBlock := by omega
    dsimp only
    rw [Function.update_of_ne hp1, Function.update_of_ne hq1, hfirst]
  · simp [hnext, oneByte]
  · simp [hrefs]
  · simp [hnext]

theorem act_write (s : Sys) (i : ℕ) (bs : List UInt8) :
    @act atomicInt s (.op (.write i bs)) = move s (.write i bs) := by simp only [act, move]

theorem act_split (s : Sys) (i n : ℕ) :
    @act atomicInt s (.op (.split i n)) = move s (.split i n) := by simp only [act, move]

/-- A write to a piece and a split of it, behind a permitted run. -/
theorem forks_step (as : List Act) (r s t u : Sys) (i : ℕ) (bs : List UInt8) (hc : Counted s.store)
    (hperm : Permitted (@act atomicInt) Allowed r as) (hrun : as.foldlM (@act atomicInt) r = some s)
    (hfits : Fits s (.write i bs)) (hi : i < t.bufs.length) (hw : move s (.write i bs) = some t)
    (hs : move t (.split i 1) = some u) :
    Permitted (@act atomicInt) Allowed r (as ++ [.op (.write i bs), .op (.split i 1)]) ∧
      (as ++ [Act.op (.write i bs), Act.op (.split i 1)]).foldlM (@act atomicInt) r = some u ∧
      Counted u.store := by
  have hcw := hc.path _ _ (move_write_changes s t i bs hw)
  refine ⟨?_, ?_, hcw.path _ _ ((move_split_changes t u i 1 hs).of_cut)⟩
  · apply permitted_concat _ _ _ s _ _ hperm hrun
    refine ⟨hfits, ?_⟩
    intro v hv
    rw [act_write, hw] at hv
    obtain rfl := Option.some.inj hv
    exact ⟨⟨hi, fun j cs hop => absurd hop (by simp)⟩, fun _ _ => trivial⟩
  · rw [List.foldlM_append, hrun, Option.bind_eq_bind, Option.bind_some, List.foldlM_cons, act_write,
      hw, Option.bind_eq_bind, Option.bind_some, List.foldlM_cons, act_split, hs]
    rfl

theorem forked_run (n : ℕ) : Permitted (@act atomicInt) Allowed (start fun _ _ => 0) (forks n) ∧
    ∃ s, (forks n).foldlM (@act atomicInt) (start fun _ _ => 0) = some s ∧ Forked n s ∧
      Counted s.store := by
  induction n with
  | zero =>
    have hfits : Fits (start fun _ _ => 0) (.write 0 [97,98]) := by
      refine ⟨Nat.one_pos, ?_⟩
      intro i bs hop buf r hbuf hpre
      obtain ⟨rfl,rfl⟩ : 0 = i ∧ [97,98] = bs := by simpa using hop
      obtain rfl := Option.some.inj hbuf
      obtain rfl := Option.some.inj hpre
      decide
    have hfirst : ∃ t u, move (start fun _ _ => 0) (.write 0 [97,98]) = some t ∧ 0 < t.bufs.length ∧
        move t (.split 0 1) = some u ∧ Forked 0 u :=
      ⟨_, _, rfl, Nat.one_pos, rfl, ⟨[],rfl,rfl⟩, rfl, rfl, rfl, rfl⟩
    rcases hfirst with ⟨t,u,hwrite,hlen,hsplit,hforked⟩
    rcases forks_step [] _ _ t u 0 [97,98] (held_start _).2.1 trivial rfl hfits hlen hwrite hsplit with
      ⟨hperm,hrun,hc⟩
    exact ⟨hperm, u, hrun, hforked, hc⟩
  | succ n ih =>
    rcases ih with ⟨hperm,s,hrun,h,hc⟩
    rcases h.write n s with ⟨bufs,mem,hlen,hbufs,hfits,hwrite⟩
    rcases h.split n s bufs mem hlen with ⟨u,hsplit,hforked⟩
    have htarget : n+1 < (⟨1,1⟩ :: bufs ++ [(⟨2,n+2⟩ : IOBuf)]).length := by simp [hlen]
    rcases forks_step (forks n) _ s _ u (n+1) [98] hc hperm hrun hfits htarget hwrite hsplit with
      ⟨hperm',hrun',hc'⟩
    exact ⟨hperm', u, hrun', hforked, hc'⟩

/-- With 2^31 blocks on one buffer the count is negative, and the first block that is deleted takes
the buffer from the others. -/
theorem counts_wrap : ∃ s t, Permitted (@act atomicInt) Allowed (start fun _ _ => 0) (forks (2^31-2)) ∧
    (forks (2^31-2)).foldlM (@act atomicInt) (start fun _ _ => 0) = some s ∧
    (users s.store 0).card = 2^31 ∧ sharedInfo (s.store.refs 0) = -2^31 ∧
    @act atomicInt s (.destroy 0) = some t ∧ t.store.refs 0 = 0 ∧
    ∃ p, bufferOf t.store p = some 0 := by
  generalize hn : 2^31-2 = n
  rcases forked_run n with ⟨hperm,s,hrun,h,hc⟩
  have hrefs : s.store.refs 0 = 2^31 := by
    rw [h.refs]
    omega
  have hneg : sharedInfo (2^31) = -2^31 := by decide
  rcases h.bufs with ⟨bufs,hbufs,hlen⟩
  have hpop : pop s.store ⟨1,1⟩ = some (s.store,⟨0,nullptr⟩,1) := by
    simp only [pop, nullptr, Nat.one_ne_zero, if_false, h.first, oneByte, Option.bind_eq_bind,
      Option.bind_some, if_true, Nat.sub_self]
  have hdata : dataOf s.store.heap 1 = some ⟨0,1,1,kDefaultBufferSize-sizeofSharedInfo⟩ := by
    rw [dataOf, h.first]
    rfl
  -- the count that `Unref` reads is not above 1
  have hunref : @Counting.unref atomicInt (2^31) = 0 := by
    change (if sharedInfo (2^31) > 1 then 2^31-1 else 0) = 0
    rw [hneg]
    rfl
  have hdel : @deleteBlock atomicInt s.store 1 = some { s.store with
      heap := free s.store.heap 1
      refs := Function.update s.store.refs 0 0 } := by
    have hne : (2^31 : ℕ) ≠ 0 := Nat.two_pow_pos 31 |>.ne'
    simp only [deleteBlock, hdata, Option.bind_eq_bind, Option.bind_some, guard, if_pos hne, hrefs,
      hunref, Option.pure_def]
  have hdestroy : @act atomicInt s (.destroy 0) = some ⟨{ s.store with
      heap := free s.store.heap 1
      refs := Function.update s.store.refs 0 0 }, bufs ++ [⟨1,n+2⟩]⟩ := by
    have hloop (fuel : ℕ) : @destroy atomicInt (fuel+2) s.store ⟨1,1⟩ = some { s.store with
        heap := free s.store.heap 1
        refs := Function.update s.store.refs 0 0 } := by
      simp only [destroy, nullptr, Nat.one_ne_zero, if_false, if_true, hpop, hdel, Option.bind_eq_bind,
        Option.bind_some]
    simp only [act, Sys.destroy, hbufs, List.cons_append, List.getElem?_cons_zero, Store.fuel,
      h.nextBlock, hloop, Option.bind_eq_bind, Option.bind_some, List.eraseIdx_cons_zero, Option.pure_def]
  refine ⟨s, _, hperm, hrun, ?_, ?_, hdestroy, ?_, n+2, ?_⟩
  · rw [← hc.refs, hrefs]
  · rw [hrefs, hneg]
  · change Function.update s.store.refs 0 0 0 = 0
    exact Function.update_self ..
  · rw [bufferOf]
    change (dataOf (free s.store.heap 1) (n+2)).map _ = _
    rw [(free_of_ne s.store.heap 1 (n+2) (by omega)).2.2, dataOf, h.last]
    rfl

end Cclab.Iobuf
