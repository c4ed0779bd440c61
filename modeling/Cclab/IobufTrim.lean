import Cclab.IobufBlocks
import Mathlib.Data.List.Induction

/-! What each operation of `IOBuf` does to the bytes that its blocks show. -/
namespace Cclab.Iobuf
open ByteMemory IntrusiveLists NodeHeap

/-- `buf` consists of the blocks `l`, which are on different buffers. -/
structure Holds (st : Store) (buf : IOBuf) (l : List ℕ) : Prop where
  ring : BlockRing st.heap buf.head l
  length : buf.length = (text st l).length
  distinct : (l.map (bufferOf st)).Nodup

theorem text_cons (st : Store) (p : ℕ) (l : List ℕ) :
    text st (p :: l) = bytesOf st p ++ text st l := List.flatMap_cons

theorem text_single (st : Store) (p : ℕ) : text st [p] = bytesOf st p := by
  rw [text_cons]
  exact List.append_nil _

theorem text_append (st : Store) (l k : List ℕ) : text st (l ++ k) = text st l ++ text st k :=
  List.flatMap_append

theorem bytesOf_eq (st : Store) (p : ℕ) (b : Block) (hb : dataOf st.heap p = some b) :
    bytesOf st p = load (st.mem b.buffer) b.data b.length := by
  rw [bytesOf, hb, Option.elim_some]

theorem bytesOf_length (st : Store) (p : ℕ) (b : Block) (hb : dataOf st.heap p = some b) :
    (bytesOf st p).length = b.length := by
  rw [bytesOf_eq st p b hb, load_length]

section relink
variable (st : Store) (h : Heap Block) (hd : dataOf h = dataOf st.heap) (l : List ℕ)
include hd

theorem text_relink : text { st with heap := h } l = text st l := by
  apply List.flatMap_congr
  intro p _
  simp only [bytesOf, hd]

theorem bufferOf_relink : bufferOf { st with heap := h } = bufferOf st := by
  ext p : 1
  rw [bufferOf, bufferOf, hd]

end relink

section links
variable (st : Store) (buf : IOBuf) (l rest : List ℕ)

theorem pop_spec (p : ℕ) (hs : Sound st (p :: l ++ rest)) (hb : Holds st buf (p :: l)) :
    ∃ h buf', pop st buf = some ({ st with heap := h }, buf', p) ∧ dataOf h = dataOf st.heap ∧
      Holds { st with heap := h } buf' l ∧ nextOf h p = p ∧ prevOf h p = p ∧
      ∀ q, q ∉ p :: l → h q = st.heap q := by
  rcases hs.live p (by simp) with ⟨b,hdp,-⟩
  have hnull := (hs.known p (by simp)).1
  have hlength : (text st l).length = buf.length-b.length := by
    rw [hb.length, text_cons, List.length_append, bytesOf_length st p b hdp, Nat.add_sub_cancel_left]
  have hdistinct : (l.map (bufferOf st)).Nodup := (List.nodup_cons.mp hb.distinct).2
  have hnode := dataOf_eq_some st.heap p b hdp
  rcases hb.ring with ⟨hhead,hring⟩
  -- a single block is in a ring of its own, and nothing is written
  cases l with
  | nil =>
    have hlinks := hring.seg
    refine ⟨st.heap, ⟨buf.length-b.length,nullptr⟩, ?_, rfl, ⟨rfl,?_,hdistinct⟩, hlinks.1, hlinks.2,
      fun _ _ => rfl⟩
    · simp only [pop, hhead, if_neg hnull, hnode, hlinks.2, Option.bind_eq_bind, Option.bind_some,
        if_true]
    · exact hlength.symm
  | cons q l =>
    have hlive (r : ℕ) (hr : r ∈ p :: q :: l) : dataOf st.heap r ≠ none :=
      hs.alive st _ r (List.mem_append_left rest hr)
    rcases unlinkHead_spec st.heap p q l hring hlive with ⟨h,hu,hnext,hprev,hring',hn,hp,hd,hkeep⟩
    refine ⟨h, ⟨buf.length-b.length,q⟩, ?_, hd, ⟨⟨rfl,hring'⟩,?_,?_⟩, hn, hp, hkeep⟩
    · simp only [pop, hhead, if_neg hnull, hnode, Option.bind_eq_bind, Option.bind_some, if_neg hprev,
        hu, Option.map_some, hnext]
    · rw [text_relink st h hd]
      exact hlength.symm
    · rwa [bufferOf_relink st h hd]

theorem appendBlock_spec (p : ℕ) (hs : Sound st (l ++ p :: rest)) (hb : Holds st buf l)
    (hn : nextOf st.heap p = p) (hp : prevOf st.heap p = p)
    (hfresh : bufferOf st p ∉ l.map (bufferOf st)) :
    ∃ h buf', appendBlock st buf p = some ({ st with heap := h }, buf') ∧ dataOf h = dataOf st.heap ∧
      Holds { st with heap := h } buf' (l ++ [p]) ∧ ∀ q, q ∉ p :: l → h q = st.heap q := by
  have hperm : (l ++ p :: rest).Perm (p :: (l ++ rest)) := List.perm_middle
  have hs' := hs.perm st _ _ hperm
  rcases hs'.live p (by simp) with ⟨b,hdp,-⟩
  have hout : p ∉ l := by
    have hn := (List.nodup_cons.mp hs'.nodup).1
    exact fun hm => hn (List.mem_append_left rest hm)
  have hlength : buf.length+b.length = (text st (l ++ [p])).length := by
    rw [text_append, List.length_append, text_cons, List.length_append, bytesOf_length st p b hdp,
      hb.length]
    rfl
  have hdistinct : ((l ++ [p]).map (bufferOf st)).Nodup := by
    rw [List.map_append, List.nodup_append']
    refine ⟨hb.distinct, List.nodup_singleton _, ?_⟩
    rw [List.disjoint_comm]
    exact List.singleton_disjoint.mpr hfresh
  -- the first block of an `IOBuf` becomes its head without a write
  cases l with
  | nil =>
    refine ⟨st.heap, ⟨buf.length+b.length,p⟩, ?_, rfl, ⟨⟨rfl,Ring.singleton p hn hp⟩,hlength,hdistinct⟩,
      fun _ _ => rfl⟩
    have hhead : buf.head = nullptr := hb.ring
    simp only [appendBlock, hdp, hhead, Option.bind_eq_bind, Option.bind_some, if_true]
  | cons q l =>
    rcases hb.ring with ⟨hhead,hring⟩
    have hlive (r : ℕ) (hr : r ∈ p :: q :: l) : dataOf st.heap r ≠ none := by
      have hm : r ∈ p :: (q :: l ++ rest) := by
        rw [List.mem_cons] at hr ⊢
        exact hr.imp id (List.mem_append_left rest)
      exact hs'.alive st _ r hm
    have hnull := (hs.known q (by simp)).1
    rcases linkRear_spec st.heap q p l hring hout hlive with ⟨h,hl,hring',hd,hkeep⟩
    refine ⟨h, ⟨buf.length+b.length,buf.head⟩, ?_, hd, ⟨⟨hhead,hring'⟩,?_,?_⟩, hkeep⟩
    · simp only [appendBlock, hdp, Option.bind_eq_bind, Option.bind_some, if_neg hnull, hhead, hl,
        Option.map_some]
    · rw [text_relink st h hd]
      exact hlength
    · rwa [bufferOf_relink st h hd]

end links

/-- The window of a block shrinks within its buffer. -/
def Within (b' b : Block) : Prop := b'.buffer = b.buffer ∧ b.data ≤ b'.data ∧ b'.tail ≤ b.tail

/-- The blocks `l'` are among `l`, with no larger windows. -/
def Shrunk (st st' : Store) (l l' : List ℕ) : Prop :=
  ∀ p ∈ l', p ∈ l ∧ ∃ b b', dataOf st.heap p = some b ∧ dataOf st'.heap p = some b' ∧ Within b' b

theorem Within.refl (b : Block) : Within b b := ⟨rfl, Nat.le_refl _, Nat.le_refl _⟩

theorem within_start (b : Block) (n : ℕ) (h : n ≤ b.length) :
    Within ⟨b.buffer,b.data+n,b.length-n,b.capacity⟩ b := by
  refine ⟨rfl, Nat.le_add_right _ _, ?_⟩
  simp only [Block.tail]
  omega

theorem within_end (b : Block) (n : ℕ) (h : n ≤ b.length) :
    Within ⟨b.buffer,b.data,n,b.capacity⟩ b := by
  refine ⟨rfl, Nat.le_refl _, ?_⟩
  simp only [Block.tail]
  omega

theorem Within.trans (b b' b'' : Block) (h : Within b' b) (h' : Within b'' b') : Within b'' b :=
  ⟨h'.1.trans h.1, Nat.le_trans h.2.1 h'.2.1, Nat.le_trans h'.2.2 h.2.2⟩

/-- What a trimming operation leaves of the blocks `l` of one `IOBuf` and of the others. -/
structure Trims (st st' : Store) (buf' : IOBuf) (l l' rest : List ℕ) : Prop where
  sound : Sound st' (l' ++ rest)
  holds : Holds st' buf' l'
  kept : Kept st st' rest
  shrunk : Shrunk st st' l l'

theorem Trims.refl (st : Store) (buf : IOBuf) (l rest : List ℕ) (hs : Sound st (l ++ rest))
    (hb : Holds st buf l) : Trims st st buf l l rest := by
  refine ⟨hs, hb, Kept.refl st rest, ?_⟩
  intro p hp
  rcases hs.live p (List.mem_append_left rest hp) with ⟨b,hb,-⟩
  exact ⟨hp, b, b, hb, hb, Within.refl b⟩

section block
variable (st : Store) (all : List ℕ) (hs : Sound st all) (p amount : ℕ) (b : Block)
  (hb : dataOf st.heap p = some b) (ha : amount ≤ b.length) (hp : p ∈ all)
include hs hb ha hp

theorem blockTrimStart_spec : ∃ st', blockTrimStart st p amount = some st' ∧ Sound st' all ∧
    st'.mem = st.mem ∧ dataOf st'.heap p = some ⟨b.buffer,b.data+amount,b.length-amount,b.capacity⟩ ∧
    bytesOf st' p = (bytesOf st p).drop amount ∧ nextOf st'.heap = nextOf st.heap ∧
    prevOf st'.heap = prevOf st.heap ∧ bufferOf st' = bufferOf st ∧
    ∀ q, q ≠ p → st'.heap q = st.heap q := by
  have hbound := (hs.valid st all p b hp hb).bound
  rcases hs.setBlock st all p b { b with data := b.data+amount, length := b.length-amount } hb rfl rfl
    (by unfold Block.tail at hbound ⊢; simp only; omega) with
    ⟨st',hset,hs',hmem,-,hd,hn,hp',hbuf,hkeep⟩
  have hself : dataOf st'.heap p = some ⟨b.buffer,b.data+amount,b.length-amount,b.capacity⟩ := by
    rw [hd, Function.update_self]
  refine ⟨st', ?_, hs', hmem, hself, ?_, hn, hp', hbuf, hkeep⟩
  · simp only [blockTrimStart, hb, guard, if_pos ha, Option.bind_eq_bind, Option.bind_some,
      Option.pure_def, hset]
  · rw [bytesOf_eq st' p _ hself, bytesOf_eq st p b hb, hmem, load_drop]

theorem blockTrimEnd_spec : ∃ st', blockTrimEnd st p amount = some st' ∧ Sound st' all ∧
    st'.mem = st.mem ∧ dataOf st'.heap p = some ⟨b.buffer,b.data,b.length-amount,b.capacity⟩ ∧
    bytesOf st' p = (bytesOf st p).take (b.length-amount) ∧ nextOf st'.heap = nextOf st.heap ∧
    prevOf st'.heap = prevOf st.heap ∧ bufferOf st' = bufferOf st ∧
    ∀ q, q ≠ p → st'.heap q = st.heap q := by
  have hbound := (hs.valid st all p b hp hb).bound
  rcases hs.setBlock st all p b { b with length := b.length-amount } hb rfl rfl
    (by unfold Block.tail at hbound ⊢; simp only; omega) with
    ⟨st',hset,hs',hmem,-,hd,hn,hp',hbuf,hkeep⟩
  have hself : dataOf st'.heap p = some ⟨b.buffer,b.data,b.length-amount,b.capacity⟩ := by
    rw [hd, Function.update_self]
  refine ⟨st', ?_, hs', hmem, hself, ?_, hn, hp', hbuf, hkeep⟩
  · simp only [blockTrimEnd, hb, guard, if_pos ha, Option.bind_eq_bind, Option.bind_some,
      Option.pure_def, hset]
  · rw [bytesOf_eq st' p _ hself, bytesOf_eq st p b hb, hmem, load_take, Nat.min_eq_left (Nat.sub_le _ _)]

end block

/-- The blocks of a ring after the window of one of them changed. -/
theorem Holds.changed (st st' : Store) (buf : IOBuf) (l : List ℕ) (n : ℕ) (h : Holds st buf l)
    (hn : nextOf st'.heap = nextOf st.heap) (hp : prevOf st'.heap = prevOf st.heap)
    (hb : bufferOf st' = bufferOf st) (hlen : n = (text st' l).length) :
    Holds st' { buf with length := n } l :=
  ⟨h.ring.congr_links st.heap st'.heap _ _ hn hp, hlen, by rw [hb]; exact h.distinct⟩

theorem text_length_kept (st st' : Store) (l : List ℕ) (hl : ∀ p ∈ l, st'.heap p = st.heap p) :
    (text st' l).length = (text st l).length := by
  rw [text, text, List.length_flatMap, List.length_flatMap]
  congr 1
  apply List.map_congr_left
  intro p hp
  have hd : dataOf st'.heap p = dataOf st.heap p := congrArg _ (hl p hp)
  rw [bytesOf, bytesOf, hd]
  cases dataOf st.heap p with
  | none => rfl
  | some b => simp only [Option.elim_some, load_length]

theorem Holds.kept (st st' : Store) (buf : IOBuf) (l : List ℕ) (h : Holds st buf l)
    (hl : ∀ p ∈ l, st'.heap p = st.heap p) : Holds st' buf l := by
  refine ⟨h.ring.congr st.heap st'.heap _ _ hl, ?_, ?_⟩
  · rw [text_length_kept st st' l hl]
    exact h.length
  · have hsame : l.map (bufferOf st') = l.map (bufferOf st) := by
      apply List.map_congr_left
      intro p hp
      rw [bufferOf, bufferOf, dataOf, dataOf, hl p hp]
    rw [hsame]
    exact h.distinct

/-- Cutting the window of one block is a trimming of its `IOBuf`. -/
theorem Trims.cut (st st' : Store) (buf : IOBuf) (l rest : List ℕ) (p : ℕ) (b b' : Block)
    (hs : Sound st (l ++ rest)) (hb : Holds st buf l) (hp : p ∈ l)
    (hd : dataOf st.heap p = some b) (hd' : dataOf st'.heap p = some b') (hw : Within b' b)
    (hs' : Sound st' (l ++ rest)) (hmem : st'.mem = st.mem)
    (hn : nextOf st'.heap = nextOf st.heap) (hpv : prevOf st'.heap = prevOf st.heap)
    (hbuf : bufferOf st' = bufferOf st) (hkeep : ∀ q, q ≠ p → st'.heap q = st.heap q) :
    Trims st st' { buf with length := (text st' l).length } l l rest := by
  refine ⟨hs', hb.changed st st' buf l _ hn hpv hbuf rfl, ⟨hmem,?_⟩, ?_⟩
  · intro q hq
    apply hkeep
    rintro rfl
    exact (List.nodup_append'.mp hs.nodup).2.2 hp hq
  · intro q hq
    refine ⟨hq, ?_⟩
    by_cases hqp : q = p
    · rw [hqp]
      exact ⟨b, b', hd, hd', hw⟩
    · rcases hs.live q (List.mem_append_left rest hq) with ⟨d,hdq,-⟩
      refine ⟨d, d, hdq, ?_, Within.refl d⟩
      rw [dataOf, hkeep q hqp]
      exact hdq

/-- Trimming on after other blocks of the same `IOBuf` are gone. -/
theorem Trims.after (st st1 st' : Store) (buf' : IOBuf) (l l1 l' rest : List ℕ)
    (h : Trims st1 st' buf' l1 l' rest) (hk : Kept st st1 rest) (hsub : ∀ p ∈ l1, p ∈ l)
    (hd : ∀ p ∈ l1, dataOf st1.heap p = dataOf st.heap p) : Trims st st' buf' l l' rest := by
  refine ⟨h.sound, h.holds, hk.trans st st1 st' rest h.kept, ?_⟩
  intro p hp
  rcases h.shrunk p hp with ⟨hp1,b,b',hb,hb',hw⟩
  exact ⟨hsub p hp1, b, b', (hd p hp1) ▸ hb, hb', hw⟩

/-- Popping and deleting the first block. -/
theorem pop_delete_spec (st : Store) (buf : IOBuf) (p : ℕ) (l rest : List ℕ)
    (hs : Sound st (p :: l ++ rest)) (hb : Holds st buf (p :: l)) : ∃ st1 st2 buf',
      pop st buf = some (st1,buf',p) ∧ deleteBlock st1 p = some st2 ∧ Sound st2 (l ++ rest) ∧
      Holds st2 buf' l ∧ Kept st st2 rest ∧ (∀ q ∈ l, dataOf st2.heap q = dataOf st.heap q) ∧
      text st2 l = text st l := by
  rcases pop_spec st buf l rest p hs hb with ⟨h,buf',hpop,hd,hb1,-,-,hkeep⟩
  rcases (hs.relink st _ h hd).deleteBlock _ p (l ++ rest) with ⟨st2,hdel,hs2,hmem2,hkeep2⟩
  have hne (q : ℕ) (hq : q ∈ l ++ rest) : q ≠ p := fun he => (List.nodup_cons.mp hs.nodup).1 (he ▸ hq)
  have hk1 : Kept { st with heap := h } st2 (l ++ rest) := ⟨hmem2, fun q hq => hkeep2 q (hne q hq)⟩
  have hdata (q : ℕ) (hq : q ∈ l ++ rest) : dataOf st2.heap q = dataOf st.heap q := by
    rw [dataOf, hk1.heap q hq, ← hd]
    rfl
  refine ⟨_, st2, buf', hpop, hdel, hs2, ?_, ⟨hmem2,?_⟩, ?_, ?_⟩
  · exact hb1.kept _ _ _ _ (fun q hq => hk1.heap q (List.mem_append_left rest hq))
  · intro q hq
    rw [hk1.heap q (List.mem_append_right l hq)]
    apply hkeep
    intro hm
    have hdis := (List.nodup_append'.mp hs.nodup).2.2
    exact hdis hm hq
  · intro q hq
    exact hdata q (List.mem_append_left rest hq)
  · rw [hk1.text _ _ _ l (fun q hq => List.mem_append_left rest hq), text_relink st h hd]

theorem destroy_spec (fuel : ℕ) (st : Store) (buf : IOBuf) (l rest : List ℕ) (hf : l.length < fuel)
    (hs : Sound st (l ++ rest)) (hb : Holds st buf l) :
    ∃ st', destroy fuel st buf = some st' ∧ Sound st' rest ∧ Kept st st' rest := by
  induction l generalizing fuel st buf with
  | nil =>
    obtain ⟨f,rfl⟩ := Nat.exists_eq_succ_of_ne_zero (Nat.ne_of_gt hf)
    have hhead : buf.head = nullptr := hb.ring
    refine ⟨st, ?_, hs, Kept.refl st rest⟩
    rw [destroy, if_pos hhead]
  | cons p l ih =>
    obtain ⟨f,rfl⟩ := Nat.exists_eq_succ_of_ne_zero (Nat.ne_of_gt (Nat.zero_lt_of_lt hf))
    have hhead : buf.head = p := hb.ring.1
    have hnull := (hs.known p (by simp)).1
    rcases pop_delete_spec st buf p l rest hs hb with ⟨st1,st2,buf2,hpop,hdel,hs2,hb2,hk2,-⟩
    rcases ih f st2 buf2 (Nat.lt_of_succ_lt_succ hf) hs2 hb2 with ⟨st',hd,hs',hk⟩
    refine ⟨st', ?_, hs', hk2.trans st st2 st' rest hk⟩
    simp only [destroy, hhead, if_neg hnull, hpop, hdel, hd, Option.bind_eq_bind, Option.bind_some]

/-- Cutting the first block at its start. -/
theorem cutFirst_spec (st : Store) (buf : IOBuf) (p : ℕ) (l rest : List ℕ) (n : ℕ) (b : Block)
    (hs : Sound st (p :: l ++ rest)) (hb : Holds st buf (p :: l)) (hd : dataOf st.heap p = some b)
    (hn : n ≤ b.length) : ∃ st', blockTrimStart st p n = some st' ∧
      Trims st st' { buf with length := buf.length-n } (p :: l) (p :: l) rest ∧
      text st' (p :: l) = (text st (p :: l)).drop n ∧ st'.mem = st.mem ∧
      dataOf st'.heap p = some ⟨b.buffer,b.data+n,b.length-n,b.capacity⟩ ∧
      ∀ q, q ≠ p → st'.heap q = st.heap q := by
  have hlen := bytesOf_length st p b hd
  rcases blockTrimStart_spec st _ hs p n b hd hn (by simp) with
    ⟨st',ht,hs',hmem,hself,hbytes,hnx,hpv,hbuf,hkeep⟩
  have htrims := Trims.cut st st' buf (p :: l) rest p b _ hs hb List.mem_cons_self hd hself
    (within_start b n hn) hs' hmem hnx hpv hbuf hkeep
  have hout : p ∉ l := fun hm => (List.nodup_cons.mp hs.nodup).1 (List.mem_append_left rest hm)
  have hrest : text st' l = text st l := Kept.text st st' l l
    ⟨hmem, fun q hq => hkeep q (fun he => hout (he ▸ hq))⟩ (fun _ hq => hq)
  have htext : text st' (p :: l) = (text st (p :: l)).drop n := by
    rw [text_cons, text_cons, hbytes, hrest, List.drop_append_of_le_length (by omega)]
  rw [htext, List.length_drop, ← hb.length] at htrims
  exact ⟨st', ht, htrims, htext, hmem, hself, hkeep⟩

/-- What `TrimStart` leaves of the blocks `l`: a last part of them, as they were or with the first
of them cut, which then still shows something. -/
structure Remains (st st' : Store) (l l' : List ℕ) : Prop where
  suffix : l' <:+ l
  tail : ∀ p ∈ l', (dataOf st'.heap p).map Block.tail = (dataOf st.heap p).map Block.tail
  whole : (∀ p ∈ l', dataOf st'.heap p = dataOf st.heap p) ∨ text st' l' ≠ []

theorem trimStart_remains (fuel : ℕ) (st : Store) (buf : IOBuf) (l rest : List ℕ) (n : ℕ)
    (hf : l.length < fuel) (hs : Sound st (l ++ rest)) (hb : Holds st buf l) : ∃ st' buf' l',
      trimStart fuel st buf n = some (st',buf') ∧ Trims st st' buf' l l' rest ∧
      text st' l' = (text st l).drop n ∧ Remains st st' l l' := by
  induction l generalizing fuel st buf n with
  | nil =>
    obtain ⟨f,rfl⟩ := Nat.exists_eq_succ_of_ne_zero (Nat.ne_of_gt hf)
    have hhead : buf.head = nullptr := hb.ring
    refine ⟨st, buf, [], ?_, Trims.refl st buf [] rest hs hb, List.drop_nil.symm,
      List.suffix_refl _, fun _ _ => rfl, Or.inl fun _ _ => rfl⟩
    rw [trimStart, if_pos (Or.inr hhead)]
  | cons p l ih =>
    obtain ⟨f,rfl⟩ := Nat.exists_eq_succ_of_ne_zero (Nat.ne_of_gt (Nat.zero_lt_of_lt hf))
    by_cases hn : n = 0
    · refine ⟨st, buf, p :: l, ?_, Trims.refl st buf _ rest hs hb, by rw [hn, List.drop_zero],
        List.suffix_refl _, fun _ _ => rfl, Or.inl fun _ _ => rfl⟩
      rw [trimStart, if_pos (Or.inl hn)]
    have hhead : buf.head = p := hb.ring.1
    have hstop : ¬(n = 0 ∨ p = nullptr) := by
      rw [not_or]
      exact ⟨hn,(hs.known p (by simp)).1⟩
    rcases hs.live p (by simp) with ⟨b,hdp,-⟩
    have hlen := bytesOf_length st p b hdp
    by_cases hlong : b.length > n
    -- the last cut, inside the first block
    · rcases cutFirst_spec st buf p l rest n b hs hb hdp (Nat.le_of_lt hlong) with
        ⟨st',ht,htrims,htext,-,hself,hkeep⟩
      -- a cut at the start moves no end of a block
      have htail (q : ℕ) (_ : q ∈ p :: l) :
          (dataOf st'.heap q).map Block.tail = (dataOf st.heap q).map Block.tail := by
        by_cases hq : q = p
        · have hsame : b.data+n+(b.length-n) = b.data+b.length := by omega
          rw [hq, hself, hdp]
          exact congrArg some hsame
        · rw [dataOf, hkeep q hq, dataOf]
      -- the block that was cut still shows a byte
      have hshown : text st' (p :: l) ≠ [] := by
        have hpos : (bytesOf st' p).length = b.length-n := bytesOf_length st' p _ hself
        rw [text_cons]
        intro he
        rw [(List.append_eq_nil_iff.mp he).1, List.length_nil] at hpos
        omega
      refine ⟨st', ⟨buf.length-n,buf.head⟩, p :: l, ?_, htrims, htext, List.suffix_refl _, htail,
        Or.inr hshown⟩
      simp only [trimStart, hhead, if_neg hstop, hdp, Option.bind_eq_bind, Option.bind_some,
        if_pos hlong, ht, Option.pure_def]
    -- the first block goes as a whole
    · rcases pop_delete_spec st buf p l rest hs hb with ⟨st1,st2,buf2,hpop,hdel,hs2,hb2,hk2,hd2,ht2⟩
      rcases ih f st2 buf2 (n-b.length) (Nat.lt_of_succ_lt_succ hf) hs2 hb2 with
        ⟨st',buf',l',htrim,htrims,htext,hsuf,htail,hwhole⟩
      have hold (q : ℕ) (hq : q ∈ l') : dataOf st2.heap q = dataOf st.heap q := hd2 q (hsuf.subset hq)
      refine ⟨st', buf', l', ?_, ?_, ?_, hsuf.trans (List.suffix_cons p l), ?_, ?_⟩
      · simp only [trimStart, hhead, if_neg hstop, hdp, Option.bind_eq_bind, Option.bind_some,
          if_neg hlong, hpop, hdel, htrim]
      · exact htrims.after st st2 st' buf' (p :: l) l l' rest hk2
          (fun q hq => List.mem_cons_of_mem p hq) hd2
      · have hdrop : (bytesOf st p).drop n = [] := List.drop_of_length_le (by omega)
        rw [htext, ht2, text_cons, List.drop_append, hdrop, hlen, List.nil_append]
      · intro q hq
        rw [htail q hq, hold q hq]
      · apply hwhole.imp_left
        intro h q hq
        rw [h q hq, hold q hq]

theorem trimStart_spec (fuel : ℕ) (st : Store) (buf : IOBuf) (l rest : List ℕ) (n : ℕ)
    (hf : l.length < fuel) (hs : Sound st (l ++ rest)) (hb : Holds st buf l) : ∃ st' buf' l',
      trimStart fuel st buf n = some (st',buf') ∧ Trims st st' buf' l l' rest ∧
      text st' l' = (text st l).drop n := by
  rcases trimStart_remains fuel st buf l rest n hf hs hb with ⟨st',buf',l',htrim,htrims,htext,-⟩
  exact ⟨st', buf', l', htrim, htrims, htext⟩

/-- The last block of an `IOBuf`. -/
theorem Holds.rear (st : Store) (buf : IOBuf) (l : List ℕ) (r : ℕ) (all : List ℕ)
    (hs : Sound st all) (hall : ∀ p ∈ l ++ [r], p ∈ all) (hb : Holds st buf (l ++ [r])) :
    buf.head ≠ nullptr ∧ ∃ node, st.heap buf.head = some node ∧ node.prev = r := by
  have hhead (p : ℕ) (k : List ℕ) (hl : l ++ [r] = p :: k) : buf.head = p ∧ prevOf st.heap p = r := by
    have hring := hb.ring
    rw [hl] at hring
    refine ⟨hring.1, ?_⟩
    rw [hring.2.prev_head]
    simp only [← hl, List.getLast_append, List.getLast_singleton, List.isEmpty_cons, Bool.false_eq_true,
      dite_false]
  rcases List.exists_cons_of_ne_nil (l := l ++ [r]) (by simp) with ⟨p,k,hl⟩
  rcases hhead p k hl with ⟨hp,hprev⟩
  have hmem : p ∈ all := hall p (by rw [hl]; exact List.mem_cons_self)
  rcases hs.live p hmem with ⟨b,hd,-⟩
  rw [hp]
  exact ⟨(hs.known p hmem).1, _, dataOf_eq_some st.heap p b hd, hprev⟩

theorem removeRear_spec (st : Store) (buf : IOBuf) (l rest : List ℕ) (r : ℕ)
    (hs : Sound st (l ++ [r] ++ rest)) (hb : Holds st buf (l ++ [r])) : ∃ st' buf',
      removeRear st buf = some (st',buf') ∧ Sound st' (l ++ rest) ∧ Holds st' buf' l ∧
      Kept st st' rest ∧ (∀ q ∈ l, dataOf st'.heap q = dataOf st.heap q) ∧ text st' l = text st l := by
  have hperm : (l ++ [r] ++ rest).Perm (r :: (l ++ rest)) := by
    rw [List.append_assoc, List.singleton_append]
    exact List.perm_middle
  have hs' := hs.perm st _ _ hperm
  rcases hs'.live r (by simp) with ⟨b,hdr,-⟩
  have hlength : buf.length-b.length = (text st l).length := by
    rw [hb.length, text_append, List.length_append, text_cons, List.length_append,
      bytesOf_length st r b hdr]
    exact Nat.add_sub_cancel ..
  have hne (q : ℕ) (hq : q ∈ l ++ rest) : q ≠ r := fun he => (List.nodup_cons.mp hs'.nodup).1 (he ▸ hq)
  have hnode := dataOf_eq_some st.heap r b hdr
  have hdistinct : (l.map (bufferOf st)).Nodup := by
    have hd := hb.distinct
    rw [List.map_append, List.nodup_append'] at hd
    exact hd.1
  -- the block is the only one, or the one before it becomes the last
  cases l with
  | nil =>
    rcases hb.ring with ⟨hhead,hring⟩
    rcases hs'.deleteBlock st r rest with ⟨st',hdel,hs1,hmem,hkeep⟩
    refine ⟨st', ⟨buf.length-b.length,nullptr⟩, ?_, hs1, ⟨rfl,hlength,List.nodup_nil⟩,
      ⟨hmem,fun q hq => hkeep q (hne q hq)⟩, fun q hq => absurd hq (by simp), rfl⟩
    simp only [removeRear, hhead, hnode, hring.seg.2, Option.bind_eq_bind, Option.bind_some, if_true,
      hdel, Option.map_some]
  | cons p k =>
    rcases hb.ring with ⟨hhead,hring⟩
    have hlive (q : ℕ) (hq : q ∈ p :: (k ++ [r])) : dataOf st.heap q ≠ none :=
      hs.alive st _ q (List.mem_append_left rest hq)
    rcases unlinkRear_spec st.heap p r k hring hlive with
      ⟨hprev,hnext,hrp,h1,h2,hs1,hn1,hp1,hs2,hring2,hd1,hd2,hkeep2⟩
    rcases hs.live p (by simp) with ⟨bp,hdp,-⟩
    have hnode1 : h1 r = some ⟨b, prevOf st.heap r, p⟩ := by
      rw [dataOf_eq_some h1 r b (by rw [hd1, hdr]), hp1, hn1]
    -- it is deleted when no link of the chain points to it
    rcases (hs'.relink st _ h2 hd2).deleteBlock _ r (p :: k ++ rest) with ⟨st',hdel,hs3,hmem3,hkeep3⟩
    have hk : Kept { st with heap := h2 } st' (p :: k ++ rest) :=
      ⟨hmem3, fun q hq => hkeep3 q (hne q hq)⟩
    have hholds : Holds { st with heap := h2 } { buf with length := buf.length-b.length } (p :: k) := by
      refine ⟨⟨hhead,hring2⟩, ?_, ?_⟩
      · rw [text_relink st h2 hd2]
        exact hlength
      · rwa [bufferOf_relink st h2 hd2]
    refine ⟨st', { buf with length := buf.length-b.length }, ?_, hs3,
      hholds.kept _ _ _ _ (fun q hq => hk.heap q (List.mem_append_left rest hq)), ⟨hmem3,?_⟩,
      ?_, ?_⟩
    · simp only [removeRear, hhead, dataOf_eq_some st.heap p bp hdp, hprev, hnode, hnext, if_neg hrp,
        Option.bind_eq_bind, Option.bind_some, hs1, hnode1, hs2, hdel, Option.map_some]
    · intro q hq
      rw [hk.heap q (List.mem_append_right (p :: k) hq)]
      apply hkeep2
      intro hm
      exact (List.nodup_append'.mp hs.nodup).2.2 hm hq
    · intro q hq
      rw [dataOf, hk.heap q (List.mem_append_left rest hq), ← hd2]
      rfl
    · rw [hk.text _ _ _ (p :: k) (fun q hq => List.mem_append_left rest hq), text_relink st h2 hd2]

theorem trimEnd_spec (fuel : ℕ) (st : Store) (buf : IOBuf) (l rest : List ℕ) (n : ℕ)
    (hf : l.length < fuel) (hs : Sound st (l ++ rest)) (hb : Holds st buf l) : ∃ st' buf' l',
      trimEnd fuel st buf n = some (st',buf') ∧ Trims st st' buf' l l' rest ∧
      text st' l' = (text st l).take ((text st l).length-n) := by
  -- the loop takes blocks from the end, so the induction does
  induction l using List.reverseRecOn generalizing fuel st buf n with
  | nil =>
    obtain ⟨f,rfl⟩ := Nat.exists_eq_succ_of_ne_zero (Nat.ne_of_gt hf)
    have hhead : buf.head = nullptr := hb.ring
    refine ⟨st, buf, [], ?_, Trims.refl st buf [] rest hs hb, List.take_nil.symm⟩
    rw [trimEnd, if_pos (Or.inr hhead)]
  | append_singleton l r ih =>
    obtain ⟨f,rfl⟩ := Nat.exists_eq_succ_of_ne_zero (Nat.ne_of_gt (Nat.zero_lt_of_lt hf))
    by_cases hn : n = 0
    · refine ⟨st, buf, l ++ [r], ?_, Trims.refl st buf _ rest hs hb, ?_⟩
      · rw [trimEnd, if_pos (Or.inl hn)]
      · rw [hn, Nat.sub_zero, List.take_length]
    rcases hb.rear st buf l r _ hs (fun p hp => List.mem_append_left rest hp) with ⟨hnull,node,hnode,hprev⟩
    have hstop : ¬(n = 0 ∨ buf.head = nullptr) := by
      rw [not_or]
      exact ⟨hn,hnull⟩
    rcases hs.live r (by simp) with ⟨b,hdr,-⟩
    have hlen := bytesOf_length st r b hdr
    have htotal : (text st (l ++ [r])).length = (text st l).length+b.length := by
      rw [text_append, List.length_append, text_single, hlen]
    by_cases hlong : b.length > n
    -- the last cut, inside the last block
    · rcases blockTrimEnd_spec st _ hs r n b hdr (Nat.le_of_lt hlong) (by simp) with
        ⟨st',ht,hs',hmem,hself,hbytes,hnx,hpv,hbuf,hkeep⟩
      have htrims := Trims.cut st st' buf (l ++ [r]) rest r b _ hs hb (by simp) hdr hself
        (within_end b _ (Nat.sub_le _ _)) hs' hmem hnx hpv hbuf hkeep
      have htext : text st' (l ++ [r]) =
          (text st (l ++ [r])).take ((text st (l ++ [r])).length-n) := by
        have hout : r ∉ l := by
          have hn := (List.nodup_append'.mp hs.nodup).1
          intro hm
          exact (List.nodup_append'.mp hn).2.2 hm (by simp)
        have hrest : text st' l = text st l := Kept.text st st' l l
          ⟨hmem, fun q hq => hkeep q (fun he => hout (he ▸ hq))⟩ (fun _ hq => hq)
        have hsplit : (text st l).length+b.length-n = (text st l).length+(b.length-n) := by omega
        rw [htotal, hsplit, text_append, text_append, hrest, text_single, text_single, hbytes,
          List.take_length_add_append]
      have hleft : (text st' (l ++ [r])).length = buf.length-n := by
        rw [htext, List.length_take, hb.length]
        omega
      rw [hleft] at htrims
      refine ⟨st', ⟨buf.length-n,buf.head⟩, l ++ [r], ?_, htrims, htext⟩
      simp only [trimEnd, if_neg hstop, hnode, hprev, hdr, Option.bind_eq_bind, Option.bind_some,
        if_pos hlong, ht, Option.pure_def]
    -- the last block goes as a whole
    · rcases removeRear_spec st buf l rest r hs hb with ⟨st2,buf2,hrem,hs2,hb2,hk2,hd2,ht2⟩
      rw [List.length_append, List.length_singleton] at hf
      rcases ih f st2 buf2 (n-b.length) (Nat.lt_of_succ_lt_succ hf) hs2 hb2 with
        ⟨st',buf',l',htrim,htrims,htext⟩
      refine ⟨st', buf', l', ?_, ?_, ?_⟩
      · simp only [trimEnd, if_neg hstop, hnode, hprev, hdr, Option.bind_eq_bind, Option.bind_some,
          if_neg hlong, hrem, htrim]
      · exact htrims.after st st2 st' buf' (l ++ [r]) l l' rest hk2
          (fun q hq => List.mem_append_left _ hq) hd2
      · have hleft : (text st l).length+b.length-n = (text st l).length-(n-b.length) := by omega
        rw [htext, ht2, htotal, hleft, text_append, List.take_append_of_le_length (Nat.sub_le _ _)]

end Cclab.Iobuf
