import Cclab.IobufWrite
import Mathlib.Logic.Relation

/-! The changes of blocks and counts that the operations of `IOBuf` are made of, whatever the
links between the blocks are. -/
namespace Cclab.Iobuf
open ByteMemory NodeHeap Relation

section links
variable (h h' : Heap Block)

theorem dataOf_linkRear (head p : ℕ) (hl : linkRear h head p = some h') : dataOf h' = dataOf h := by
  simp only [linkRear, Option.bind_eq_bind, Option.bind_eq_some_iff] at hl
  rcases hl with ⟨_,-,_,-,h1,hs1,_,-,h2,hs2,h3,hs3,hs4⟩
  rw [dataOf_setNext _ _ _ _ hs4, dataOf_setPrev _ _ _ _ hs3, dataOf_setNext _ _ _ _ hs2,
    dataOf_setPrev _ _ _ _ hs1]

theorem dataOf_unlinkHead (head : ℕ) (hu : unlinkHead h head = some h') : dataOf h' = dataOf h := by
  simp only [unlinkHead, Option.bind_eq_bind, Option.bind_eq_some_iff] at hu
  rcases hu with ⟨_,-,h1,hs1,h2,hs2,h3,hs3,hs4⟩
  rw [dataOf_setPrev _ _ _ _ hs4, dataOf_setNext _ _ _ _ hs3, dataOf_setPrev _ _ _ _ hs2,
    dataOf_setNext _ _ _ _ hs1]

end links

theorem setBlock_data (st st' : Store) (p : ℕ) (b : Block) (h : st.setBlock p b = some st') :
    dataOf st'.heap = Function.update (dataOf st.heap) p (some b) := by
  rcases Option.map_eq_some_iff.mp h with ⟨h1,hset,rfl⟩
  exact dataOf_setData _ _ _ _ hset

/-- What `PostAllocate` does to the last block. -/
theorem postAllocate_data (st st' : Store) (buf buf' : IOBuf) (k : ℕ)
    (h : postAllocate st buf k = some (st',buf')) : ∃ p b, rearBlock st buf = some b ∧
      dataOf st.heap p = some b ∧ (b.length+k)%2^64 ≤ b.capacity ∧
      st.setBlock p { b with length := (b.length+k)%2^64 } = some st' := by
  simp only [postAllocate, blockAppend, Option.bind_eq_bind, Option.bind_eq_some_iff,
    Option.guard_eq_some'] at h
  rcases h with ⟨-,hnull,hd,hhead,st1,⟨b,hb,-,hroom,hset⟩,he⟩
  obtain ⟨rfl,-⟩ := Prod.mk.inj (Option.some.inj he)
  refine ⟨hd.prev, b, ?_, hb, hroom, hset⟩
  rw [rearBlock, if_neg hnull, hhead, Option.bind_some, hb]

variable [Counting]

/-- No operation both adds and deletes blocks. -/
inductive Flow where
  | adds
  | deletes

/-- One change of the store; `W` says how the window of a block may move. -/
inductive Change (W : Block → Block → Prop) : Flow → Store → Store → Prop
  | links (f : Flow) (st : Store) (h : Heap Block) (hd : dataOf h = dataOf st.heap) :
      Change W f st { st with heap := h }
  | bytes (f : Flow) (st : Store) (mem : ℕ → Mem) : Change W f st { st with mem := mem }
  | new (st : Store) : Change W .adds st (newBlock st).1
  | clone (st st' : Store) (p q : ℕ) (h : clone st p = some (st',q)) : Change W .adds st st'
  | delete (st st' : Store) (p : ℕ) (h : deleteBlock st p = some st') : Change W .deletes st st'
  | window (f : Flow) (st st' : Store) (p : ℕ) (b b' : Block) (hb : dataOf st.heap p = some b)
      (hw : W b b') (h : st.setBlock p b' = some st') : Change W f st st'

abbrev Changes (W : Block → Block → Prop) (f : Flow) := ReflTransGen (Change W f)

/-- A block that is trimmed. -/
def Cut (b b' : Block) : Prop := Within b' b ∧ b'.capacity = b.capacity

/-- What `Append` may make of a block as well. -/
def SameBuffer (b b' : Block) : Prop := b'.buffer = b.buffer

theorem Change.mono (W V : Block → Block → Prop) (hwv : ∀ b b', W b b' → V b b') (f : Flow)
    (st st' : Store) (h : Change W f st st') : Change V f st st' := by
  cases h with
  | links _ _ h hd => exact .links f st h hd
  | bytes _ _ mem => exact .bytes f st mem
  | new => exact .new st
  | clone _ _ p q h => exact .clone st st' p q h
  | delete _ _ p h => exact .delete st st' p h
  | window _ _ _ p b b' hb hw h => exact .window f st st' p b b' hb (hwv b b' hw) h

theorem Changes.of_cut (f : Flow) (st st' : Store) (h : Changes Cut f st st') :
    Changes SameBuffer f st st' := by
  apply ReflTransGen.mono _ st st' h
  intro st st' hc
  exact hc.mono Cut SameBuffer (fun _ _ hw => hw.1.1) f st st'

/-- What every change preserves, an operation preserves. -/
theorem Changes.invariant (W : Block → Block → Prop) (f : Flow) (Inv : Store → Prop)
    (hstep : ∀ st st', Change W f st st' → Inv st → Inv st') (st st' : Store)
    (h : Changes W f st st') (hi : Inv st) : Inv st' := by
  induction h with
  | refl => exact hi
  | tail _ hc ih => exact hstep _ _ hc ih

section operations
variable (f : Flow) (st st' : Store) (buf buf' : IOBuf)

theorem appendBlock_changes (p : ℕ) (h : appendBlock st buf p = some (st',buf')) :
    Changes Cut f st st' := by
  simp only [appendBlock, Option.bind_eq_bind, Option.bind_eq_some_iff] at h
  rcases h with ⟨b,-,h⟩
  split_ifs at h with hhead
  · obtain ⟨rfl,-⟩ := Prod.mk.inj (Option.some.inj h)
    exact .refl
  · rcases Option.map_eq_some_iff.mp h with ⟨h1,hl,he⟩
    obtain ⟨rfl,-⟩ := Prod.mk.inj he
    exact .single (.links f st h1 (dataOf_linkRear _ _ _ _ hl))

theorem pop_changes (p : ℕ) (h : pop st buf = some (st',buf',p)) : Changes Cut f st st' := by
  unfold pop at h
  split_ifs at h with hhead
  · obtain ⟨rfl,-⟩ := Prod.mk.inj (Option.some.inj h)
    exact .refl
  · simp only [Option.bind_eq_bind, Option.bind_eq_some_iff] at h
    rcases h with ⟨hd,-,h⟩
    split_ifs at h with hsingle
    · obtain ⟨rfl,-⟩ := Prod.mk.inj (Option.some.inj h)
      exact .refl
    · rcases Option.map_eq_some_iff.mp h with ⟨h1,hu,he⟩
      obtain ⟨rfl,-⟩ := Prod.mk.inj he
      exact .single (.links f st h1 (dataOf_unlinkHead _ _ _ hu))

theorem blockTrimStart_changes (p n : ℕ) (h : blockTrimStart st p n = some st') :
    Changes Cut f st st' := by
  simp only [blockTrimStart, Option.bind_eq_bind, Option.bind_eq_some_iff, Option.guard_eq_some'] at h
  rcases h with ⟨b,hb,-,hle,h⟩
  have hcut : Cut b { b with data := b.data+n, length := b.length-n } := ⟨within_start b n hle, rfl⟩
  exact .single (.window f st st' p b _ hb hcut h)

theorem blockTrimEnd_changes (p n : ℕ) (h : blockTrimEnd st p n = some st') : Changes Cut f st st' := by
  simp only [blockTrimEnd, Option.bind_eq_bind, Option.bind_eq_some_iff, Option.guard_eq_some'] at h
  rcases h with ⟨b,hb,-,-,h⟩
  have hcut : Cut b { b with length := b.length-n } := ⟨within_end b _ (Nat.sub_le _ _), rfl⟩
  exact .single (.window f st st' p b _ hb hcut h)

theorem trimStart_changes (fuel n : ℕ) (h : trimStart fuel st buf n = some (st',buf')) :
    Changes Cut .deletes st st' := by
  induction fuel generalizing st buf n with
  | zero => exact absurd h (by simp [trimStart])
  | succ fuel ih =>
    unfold trimStart at h
    split_ifs at h with hstop
    · obtain ⟨rfl,-⟩ := Prod.mk.inj (Option.some.inj h)
      exact .refl
    simp only [Option.bind_eq_bind, Option.bind_eq_some_iff] at h
    rcases h with ⟨b,-,h⟩
    split_ifs at h with hlong
    · rcases Option.bind_eq_some_iff.mp h with ⟨st1,ht,he⟩
      obtain ⟨rfl,-⟩ := Prod.mk.inj (Option.some.inj he)
      exact blockTrimStart_changes _ st st1 _ n ht
    · simp only [Option.bind_eq_some_iff] at h
      rcases h with ⟨⟨st1,buf1,p⟩,hpop,st2,hdel,hloop⟩
      exact ((pop_changes _ st st1 buf buf1 p hpop).tail (.delete st1 st2 p hdel)).trans
        (ih st2 buf1 _ hloop)

theorem destroy_changes (fuel : ℕ) (h : destroy fuel st buf = some st') : Changes Cut .deletes st st' := by
  induction fuel generalizing st buf with
  | zero => exact absurd h (by simp [destroy])
  | succ fuel ih =>
    unfold destroy at h
    split_ifs at h with hstop
    · obtain rfl := Option.some.inj h
      exact .refl
    simp only [Option.bind_eq_bind, Option.bind_eq_some_iff] at h
    rcases h with ⟨⟨st1,buf1,p⟩,hpop,st2,hdel,hloop⟩
    exact ((pop_changes _ st st1 buf buf1 p hpop).tail (.delete st1 st2 p hdel)).trans
      (ih st2 buf1 hloop)

theorem removeRear_changes (h : removeRear st buf = some (st',buf')) : Changes Cut .deletes st st' := by
  simp only [removeRear, Option.bind_eq_bind, Option.bind_eq_some_iff] at h
  rcases h with ⟨hd,-,rear,-,h⟩
  split_ifs at h with hsingle
  · rcases Option.map_eq_some_iff.mp h with ⟨st1,hdel,he⟩
    obtain ⟨rfl,-⟩ := Prod.mk.inj he
    exact .single (.delete st st1 _ hdel)
  · simp only [Option.bind_eq_some_iff, Option.map_eq_some_iff] at h
    rcases h with ⟨h1,hs1,_,-,h2,hs2,st1,hdel,he⟩
    obtain ⟨rfl,-⟩ := Prod.mk.inj he
    have hlinks : Change Cut .deletes st { st with heap := h2 } := by
      apply Change.links
      rw [dataOf_setPrev _ _ _ _ hs2, dataOf_setNext _ _ _ _ hs1]
    exact (ReflTransGen.single hlinks).tail (.delete _ st1 _ hdel)

theorem trimEnd_changes (fuel n : ℕ) (h : trimEnd fuel st buf n = some (st',buf')) :
    Changes Cut .deletes st st' := by
  induction fuel generalizing st buf n with
  | zero => exact absurd h (by simp [trimEnd])
  | succ fuel ih =>
    unfold trimEnd at h
    split_ifs at h with hstop
    · obtain ⟨rfl,-⟩ := Prod.mk.inj (Option.some.inj h)
      exact .refl
    simp only [Option.bind_eq_bind, Option.bind_eq_some_iff] at h
    rcases h with ⟨hd,-,b,-,h⟩
    split_ifs at h with hlong
    · rcases Option.bind_eq_some_iff.mp h with ⟨st1,ht,he⟩
      obtain ⟨rfl,-⟩ := Prod.mk.inj (Option.some.inj he)
      exact blockTrimEnd_changes _ st st1 _ n ht
    · simp only [Option.bind_eq_some_iff] at h
      rcases h with ⟨⟨st1,buf1⟩,hrem,hloop⟩
      exact (removeRear_changes st st1 buf buf1 hrem).trans (ih st1 buf1 _ hloop)

theorem preAllocate_changes (place : ℕ × ℕ) (n : ℕ)
    (h : preAllocate st buf = some (st',buf',place,n)) : Changes Cut .adds st st' := by
  unfold preAllocate at h
  split_ifs at h with hhead
  · simp only [Option.bind_eq_bind, Option.bind_eq_some_iff] at h
    rcases h with ⟨b,-,he⟩
    obtain ⟨rfl,-⟩ := Prod.mk.inj (Option.some.inj he)
    exact .single (.new st)
  · simp only [Option.bind_eq_bind, Option.bind_eq_some_iff] at h
    rcases h with ⟨hd,-,rear,-,h⟩
    split_ifs at h with hspace
    · obtain ⟨rfl,-⟩ := Prod.mk.inj (Option.some.inj h)
      exact .refl
    · simp only [Option.bind_eq_some_iff] at h
      rcases h with ⟨b,-,⟨st1,buf1⟩,happ,he⟩
      obtain ⟨rfl,-⟩ := Prod.mk.inj (Option.some.inj he)
      exact (ReflTransGen.single (.new st)).trans (appendBlock_changes _ _ st1 buf buf1 _ happ)

end operations

section split
variable (st st' : Store) (buf buf' piece piece' : IOBuf) (n : ℕ)

theorem splitBlock_changes (h : splitBlock st buf piece n = some (st',buf',piece')) :
    Changes Cut .adds st st' := by
  simp only [splitBlock, Option.bind_eq_bind, Option.bind_eq_some_iff] at h
  rcases h with ⟨⟨st1,p⟩,hc,b,-,st2,hend,⟨st3,piece3⟩,happ,st4,hstart,he⟩
  obtain ⟨rfl,-⟩ := Prod.mk.inj (Option.some.inj he)
  have hclone : Changes Cut .adds st st1 := .single (.clone st st1 _ p hc)
  exact ((hclone.trans (blockTrimEnd_changes _ st1 st2 p _ hend)).trans
    (appendBlock_changes _ st2 st3 piece piece3 p happ)).trans
    (blockTrimStart_changes _ st3 st4 _ n hstart)

theorem splitLoop_changes (fuel : ℕ) (h : splitLoop fuel st buf piece n = some (st',buf',piece')) :
    Changes Cut .adds st st' := by
  induction fuel generalizing st buf piece n with
  | zero => exact absurd h (by simp [splitLoop])
  | succ fuel ih =>
    unfold splitLoop at h
    split_ifs at h with hstop
    · obtain ⟨rfl,-⟩ := Prod.mk.inj (Option.some.inj h)
      exact .refl
    simp only [Option.bind_eq_bind, Option.bind_eq_some_iff] at h
    rcases h with ⟨b,-,h⟩
    split_ifs at h with hwhole
    · simp only [Option.bind_eq_some_iff] at h
      rcases h with ⟨⟨st1,buf1,p⟩,hpop,⟨st2,piece2⟩,happ,hloop⟩
      exact ((pop_changes _ st st1 buf buf1 p hpop).trans
        (appendBlock_changes _ st1 st2 piece piece2 p happ)).trans (ih st2 buf1 piece2 _ hloop)
    · exact splitBlock_changes st st' buf buf' piece piece' n h

end split

theorem write_changes (st st' : Store) (buf buf' : IOBuf) (bs : List UInt8)
    (h : write st buf bs = some (st',buf')) : Changes SameBuffer .adds st st' := by
  simp only [write, copyTo, Option.bind_eq_bind, Option.bind_eq_some_iff] at h
  rcases h with ⟨⟨st1,buf1,place,n⟩,hpre,st2,⟨-,-,hcopy⟩,hpost⟩
  obtain rfl := Option.some.inj hcopy
  rcases postAllocate_data _ st' buf1 buf' _ hpost with ⟨p,b,-,hb,-,hset⟩
  have hsame : SameBuffer b { b with length := (b.length+bs.length)%2^64 } := rfl
  exact (((preAllocate_changes st st1 buf buf1 place n hpre).of_cut .adds st st1).tail
    (.bytes _ st1 _)).tail (.window _ _ st' p b _ hb hsame hset)

section system
variable (s t : Sys)

theorem Sys.destroy_changes (i : ℕ) (h : s.destroy i = some t) : Changes Cut .deletes s.store t.store := by
  simp only [Sys.destroy, Option.bind_eq_bind, Option.bind_eq_some_iff] at h
  rcases h with ⟨buf,-,st,hd,he⟩
  obtain rfl := Option.some.inj he
  exact destroy_changes s.store st buf _ hd

theorem move_split_changes (i n : ℕ) (h : move s (.split i n) = some t) :
    Changes Cut .adds s.store t.store := by
  simp only [move, split, Option.bind_eq_bind, Option.bind_eq_some_iff] at h
  rcases h with ⟨buf,-,⟨st,buf',piece⟩,hsp,he⟩
  obtain rfl := Option.some.inj he
  exact splitLoop_changes s.store st buf buf' ⟨0,nullptr⟩ piece n _ hsp

theorem move_changes (o : Op) (h : move s o = some t) (ho : ∀ i bs, o ≠ .write i bs) :
    ∃ f, Changes Cut f s.store t.store := by
  cases o with
  | write i bs => exact absurd rfl (ho i bs)
  | trimStart i n =>
    simp only [move, Option.bind_eq_bind, Option.bind_eq_some_iff] at h
    rcases h with ⟨buf,-,⟨st,buf'⟩,ht,he⟩
    obtain rfl := Option.some.inj he
    exact ⟨.deletes, trimStart_changes s.store st buf buf' _ n ht⟩
  | trimEnd i n =>
    simp only [move, Option.bind_eq_bind, Option.bind_eq_some_iff] at h
    rcases h with ⟨buf,-,⟨st,buf'⟩,ht,he⟩
    obtain rfl := Option.some.inj he
    exact ⟨.deletes, trimEnd_changes s.store st buf buf' _ n ht⟩
  | split i n => exact ⟨.adds, move_split_changes s t i n h⟩

theorem move_write_changes (i : ℕ) (bs : List UInt8) (h : move s (.write i bs) = some t) :
    Changes SameBuffer .adds s.store t.store := by
  simp only [move, Option.bind_eq_bind, Option.bind_eq_some_iff] at h
  rcases h with ⟨buf,-,⟨st,buf'⟩,hw,he⟩
  obtain rfl := Option.some.inj he
  exact write_changes s.store st buf buf' bs hw

end system

end Cclab.Iobuf
