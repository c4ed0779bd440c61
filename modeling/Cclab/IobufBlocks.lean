import Cclab.IobufLinks
import Mathlib.Data.List.Perm.Subperm

/-! The blocks of all `IOBuf`s together: each is live and inside its buffer, and the reference
count of a buffer is the number of blocks on it. -/
namespace Cclab.Iobuf
open ByteMemory IntrusiveLists NodeHeap

def bufferOf (st : Store) (p : ℕ) : Option ℕ := (dataOf st.heap p).map Block.buffer

/-- The bytes that a block shows. -/
def bytesOf (st : Store) (p : ℕ) : List UInt8 :=
  (dataOf st.heap p).elim [] fun b => load (st.mem b.buffer) b.data b.length

def text (st : Store) (l : List ℕ) : List UInt8 := l.flatMap (bytesOf st)

/-- A block of `new Block` or `Clone` that is trimmed and filled within its bounds. -/
structure Block.Valid (b : Block) (nextBuffer : ℕ) : Prop where
  bound : b.tail ≤ b.capacity
  capacity : b.capacity = kDefaultBufferSize-sizeofSharedInfo
  known : b.buffer < nextBuffer

/-- `all` are the blocks of all `IOBuf`s. -/
structure Sound (st : Store) (all : List ℕ) : Prop where
  pos : 0 < st.nextBlock
  nodup : all.Nodup
  known : ∀ p ∈ all, p ≠ nullptr ∧ p < st.nextBlock
  live : ∀ p ∈ all, ∃ b, dataOf st.heap p = some b ∧ b.Valid st.nextBuffer
  refs : ∀ c, st.refs c = all.countP fun p => bufferOf st p = some c

/-- What an operation on one `IOBuf` leaves of the others. -/
structure Kept (st st' : Store) (rest : List ℕ) : Prop where
  mem : st'.mem = st.mem
  heap : ∀ p ∈ rest, st'.heap p = st.heap p

theorem Kept.refl (st : Store) (rest : List ℕ) : Kept st st rest := ⟨rfl, fun _ _ => rfl⟩

theorem Kept.trans (st st' st'' : Store) (rest : List ℕ) (h : Kept st st' rest)
    (h' : Kept st' st'' rest) : Kept st st'' rest :=
  ⟨h'.mem.trans h.mem, fun p hp => (h'.heap p hp).trans (h.heap p hp)⟩

theorem Kept.text (st st' : Store) (rest l : List ℕ) (h : Kept st st' rest) (hl : ∀ p ∈ l, p ∈ rest) :
    text st' l = text st l := by
  apply List.flatMap_congr
  intro p hp
  rw [bytesOf, bytesOf, dataOf, dataOf, h.mem, h.heap p (hl p hp)]

theorem users_cons (st st' : Store) (p b c : ℕ) (all : List ℕ) (hp : bufferOf st' p = some b)
    (hsame : ∀ q ∈ all, bufferOf st' q = bufferOf st q) :
    (p :: all).countP (fun q => bufferOf st' q = some c) =
      all.countP (fun q => bufferOf st q = some c) + if b = c then 1 else 0 := by
  rw [List.countP_cons]
  congr 1
  · apply List.countP_congr
    intro q hq
    rw [hsame q hq]
  · simp [hp]

section sound
variable (st : Store) (all : List ℕ) (hs : Sound st all)
include hs

theorem Sound.alive (p : ℕ) (hp : p ∈ all) : dataOf st.heap p ≠ none := by
  rcases hs.live p hp with ⟨b,hb,-⟩
  rw [hb]
  exact Option.some_ne_none b

theorem Sound.valid (p : ℕ) (b : Block) (hp : p ∈ all) (hb : dataOf st.heap p = some b) :
    b.Valid st.nextBuffer := by
  rcases hs.live p hp with ⟨d,hd,hv⟩
  rwa [Option.some.inj (hb.symm.trans hd)]

theorem Sound.perm (all' : List ℕ) (hp : all.Perm all') : Sound st all' := by
  refine ⟨hs.pos, hp.nodup_iff.mp hs.nodup, ?_, ?_, ?_⟩
  · intro p hm
    exact hs.known p (hp.mem_iff.mpr hm)
  · intro p hm
    exact hs.live p (hp.mem_iff.mpr hm)
  · intro c
    rw [hs.refs c, hp.countP_eq]

/-- New links alone change nothing here. -/
theorem Sound.relink (h : Heap Block) (hd : dataOf h = dataOf st.heap) :
    Sound { st with heap := h } all := by
  refine ⟨hs.pos, hs.nodup, hs.known, ?_, ?_⟩
  · intro p hp
    rw [hd]
    exact hs.live p hp
  · intro c
    have hsame : bufferOf { st with heap := h } = bufferOf st := by
      ext p : 1
      rw [bufferOf, bufferOf, hd]
    rw [hs.refs c, hsame]

theorem Sound.refs_ne_zero (p : ℕ) (b : Block) (hp : p ∈ all) (hb : dataOf st.heap p = some b) :
    st.refs b.buffer ≠ 0 := by
  rw [hs.refs]
  apply Nat.ne_of_gt
  apply List.countP_pos_iff.mpr
  exact ⟨p, hp, by simp [bufferOf, hb]⟩

/-- A list of blocks is shorter than the loops are given. -/
theorem Sound.fuel (l : List ℕ) (hl : ∀ p ∈ l, p ∈ all) (hn : l.Nodup) : l.length < st.fuel := by
  have hsub : l ⊆ List.range st.nextBlock := by
    intro p hp
    exact List.mem_range.mpr (hs.known p (hl p hp)).2
  have hlen := (List.Nodup.subperm hn hsub).length_le
  rw [List.length_range] at hlen
  exact Nat.lt_succ_of_le hlen

/-- Moving the window of a block within its buffer. -/
theorem Sound.setBlock (p : ℕ) (b b' : Block) (hb : dataOf st.heap p = some b)
    (hbuf : b'.buffer = b.buffer) (hcap : b'.capacity = b.capacity) (htail : b'.tail ≤ b.capacity) :
    ∃ st', st.setBlock p b' = some st' ∧ Sound st' all ∧ st'.mem = st.mem ∧
      st'.refs = st.refs ∧ dataOf st'.heap = Function.update (dataOf st.heap) p (some b') ∧
      nextOf st'.heap = nextOf st.heap ∧ prevOf st'.heap = prevOf st.heap ∧
      bufferOf st' = bufferOf st ∧ ∀ q, q ≠ p → st'.heap q = st.heap q := by
  rcases setData_spec st.heap p b b' hb with ⟨h,hset,hd,hn,hp⟩
  -- the block stays on its buffer, so no count changes
  have hsame : bufferOf { st with heap := h } = bufferOf st := by
    ext q : 1
    by_cases hq : q = p
    · simp only [bufferOf, hd, hq, Function.update_self, hb, Option.map_some, hbuf]
    · simp only [bufferOf, hd, Function.update_of_ne hq]
  refine ⟨{ st with heap := h }, ?_, ?_, rfl, rfl, hd, hn, hp, hsame, ?_⟩
  · rw [Store.setBlock, hset, Option.map_some]
  · refine ⟨hs.pos, hs.nodup, hs.known, ?_, ?_⟩
    · intro q hq
      by_cases hqp : q = p
      · rcases hs.live q hq with ⟨d,hd',hv⟩
        obtain rfl : d = b := by
          rw [hqp, hb] at hd'
          exact (Option.some.inj hd').symm
        refine ⟨b', by rw [hd, hqp, Function.update_self], ?_, hcap.trans hv.capacity, ?_⟩
        · rw [hcap]
          exact htail
        · rw [hbuf]
          exact hv.known
      · rw [hd, Function.update_of_ne hqp]
        exact hs.live q hq
    · intro c
      rw [hsame]
      exact hs.refs c
  · intro q hq
    exact node_ext st.heap h q (by rw [hd, Function.update_of_ne hq]) (by rw [hp]) (by rw [hn])

/-- A buffer that is not yet handed out has no users. -/
theorem Sound.refs_fresh : st.refs st.nextBuffer = 0 := by
  rw [hs.refs, List.countP_eq_zero]
  intro p hp he
  rcases hs.live p hp with ⟨b,hb,hv⟩
  have hlt := hv.known
  rw [decide_eq_true_eq, bufferOf, hb, Option.map_some, Option.some.injEq] at he
  omega

theorem Sound.not_mem : st.nextBlock ∉ all := by
  intro hm
  exact Nat.lt_irrefl _ (hs.known _ hm).2

/-- A new block `b` that counts as one more user of its buffer. -/
theorem Sound.add (b : Block) (nextBuffer : ℕ) (hv : b.Valid nextBuffer)
    (hle : st.nextBuffer ≤ nextBuffer) : Sound ⟨alloc st.heap st.nextBlock ⟨b,st.nextBlock,st.nextBlock⟩,
      st.mem, Function.update st.refs b.buffer (st.refs b.buffer+1), st.nextBlock+1, nextBuffer⟩
      (st.nextBlock :: all) := by
  have hout := hs.not_mem st all
  have hself := alloc_self st.heap st.nextBlock (⟨b,st.nextBlock,st.nextBlock⟩ : Node Block)
  have hsame (q : ℕ) (hq : q ≠ st.nextBlock) := (alloc_of_ne st.heap st.nextBlock q
    (⟨b,st.nextBlock,st.nextBlock⟩ : Node Block) hq).2.2
  refine ⟨Nat.succ_pos _, List.nodup_cons.mpr ⟨hout,hs.nodup⟩, ?_, ?_, ?_⟩
  · intro q hq
    rcases List.mem_cons.mp hq with rfl | hm
    · exact ⟨Nat.ne_of_gt hs.pos, Nat.lt_succ_self _⟩
    · exact ⟨(hs.known q hm).1, Nat.lt_succ_of_lt (hs.known q hm).2⟩
  · intro q hq
    by_cases hqn : q = st.nextBlock
    · rw [hqn]
      exact ⟨b, hself.2.2, hv⟩
    · rcases hs.live q ((List.mem_cons.mp hq).resolve_left hqn) with ⟨d,hd,hd'⟩
      exact ⟨d, (hsame q hqn).trans hd, hd'.bound, hd'.capacity, Nat.lt_of_lt_of_le hd'.known hle⟩
  -- only the count of the buffer of the new block grows
  · intro c
    rw [users_cons st _ st.nextBlock b.buffer c all (by rw [bufferOf, hself.2.2]; rfl) (by
      intro q hq
      rw [bufferOf, bufferOf, hsame q (fun he => hout (he ▸ hq))]), ← hs.refs c]
    by_cases hc : b.buffer = c
    · rw [if_pos hc, ← hc]
      exact Function.update_self ..
    · rw [if_neg hc]
      exact Function.update_of_ne (Ne.symm hc) _ _

theorem Sound.newBlock : ∃ st', newBlock st = (st',st.nextBlock) ∧
    Sound st' (st.nextBlock :: all) ∧ st'.mem = st.mem ∧
    dataOf st'.heap st.nextBlock =
      some ⟨st.nextBuffer,0,0,kDefaultBufferSize-sizeofSharedInfo⟩ ∧
    nextOf st'.heap st.nextBlock = st.nextBlock ∧ prevOf st'.heap st.nextBlock = st.nextBlock ∧
    ∀ q, q ≠ st.nextBlock → st'.heap q = st.heap q := by
  have hadd := hs.add st all ⟨st.nextBuffer,0,0,kDefaultBufferSize-sizeofSharedInfo⟩
    (st.nextBuffer+1) ⟨Nat.zero_le _, rfl, Nat.lt_succ_self _⟩ (Nat.le_succ _)
  rw [hs.refs_fresh] at hadd
  exact ⟨_, rfl, hadd, rfl, (alloc_self ..).2.2, (alloc_self ..).1, (alloc_self ..).2.1,
    fun q hq => Function.update_of_ne hq _ _⟩

theorem Sound.clone (p : ℕ) (b : Block) (hp : p ∈ all) (hb : dataOf st.heap p = some b) :
    ∃ st', clone st p = some (st',st.nextBlock) ∧ Sound st' (st.nextBlock :: all) ∧
      st'.mem = st.mem ∧ dataOf st'.heap st.nextBlock = some b ∧
      nextOf st'.heap st.nextBlock = st.nextBlock ∧ prevOf st'.heap st.nextBlock = st.nextBlock ∧
      ∀ q, q ≠ st.nextBlock → st'.heap q = st.heap q := by
  have hvalid := hs.valid st all p b hp hb
  refine ⟨_, ?_, hs.add st all b st.nextBuffer hvalid (Nat.le_refl _), rfl, (alloc_self ..).2.2,
    (alloc_self ..).1, (alloc_self ..).2.1, fun q hq => Function.update_of_ne hq _ _⟩
  simp only [Iobuf.clone, hb, guard, if_pos (hs.refs_ne_zero st all p b hp hb), Option.bind_eq_bind,
    Option.bind_some, Option.pure_def]

end sound

/-- A chain is shorter than the loops over it are given. -/
theorem Sound.chain_fuel (st : Store) (l rest : List ℕ) (hs : Sound st (l ++ rest)) :
    l.length < st.fuel :=
  hs.fuel st _ l (fun _ hp => List.mem_append_left rest hp) (List.nodup_append'.mp hs.nodup).1

/-- Deleting a block gives up its reference. -/
theorem Sound.deleteBlock (st : Store) (p : ℕ) (all : List ℕ) (hs : Sound st (p :: all)) :
    ∃ st', deleteBlock st p = some st' ∧ Sound st' all ∧ st'.mem = st.mem ∧
      ∀ q, q ≠ p → st'.heap q = st.heap q := by
  rcases hs.live p List.mem_cons_self with ⟨b,hb,-⟩
  have hp := List.nodup_cons.mp hs.nodup
  have hsame (q : ℕ) (hq : q ∈ all) : dataOf (free st.heap p) q = dataOf st.heap q :=
    (free_of_ne st.heap p q (fun he => hp.1 (he ▸ hq))).2.2
  refine ⟨⟨free st.heap p, st.mem, Function.update st.refs b.buffer (st.refs b.buffer-1),
    st.nextBlock, st.nextBuffer⟩, ?_, ?_, rfl, fun q hq => Function.update_of_ne hq _ _⟩
  · simp only [Iobuf.deleteBlock, unref_counting, hb, guard, Option.bind_eq_bind, Option.bind_some,
      if_pos (hs.refs_ne_zero st _ p b List.mem_cons_self hb), Option.pure_def]
  · refine ⟨hs.pos, hp.2, ?_, ?_, ?_⟩
    · intro q hq
      exact hs.known q (List.mem_cons_of_mem p hq)
    · intro q hq
      rcases hs.live q (List.mem_cons_of_mem p hq) with ⟨d,hd,hv⟩
      exact ⟨d, (hsame q hq).trans hd, hv⟩
    -- only the count of the buffer of the deleted block shrinks
    · intro c
      change Function.update st.refs b.buffer (st.refs b.buffer-1) c = _
      have hsame' : all.countP (fun q => (dataOf (free st.heap p) q).map Block.buffer = some c) =
          all.countP (fun q => bufferOf st q = some c) := by
        apply List.countP_congr
        intro q hq
        rw [hsame q hq, bufferOf]
      have hcount := hs.refs c
      rw [users_cons st st p b.buffer c all (by rw [bufferOf, hb]; rfl) (fun _ _ => rfl)] at hcount
      refine Eq.trans ?_ hsame'.symm
      by_cases hc : b.buffer = c
      · rw [if_pos hc] at hcount
        rw [hc, Function.update_self, hcount, Nat.add_sub_cancel]
      · rw [if_neg hc] at hcount
        rw [Function.update_of_ne (Ne.symm hc), hcount, Nat.add_zero]

end Cclab.Iobuf
