import Cclab.IobufTrim

/-! Writing: the place that `PreAllocate` returns, and what the copy to it changes. -/
namespace Cclab.Iobuf
open ByteMemory IntrusiveLists NodeHeap

/-- The last block. -/
def rearBlock (st : Store) (buf : IOBuf) : Option Block :=
  if buf.head = nullptr then none
  else (st.heap buf.head).bind fun hd => dataOf st.heap hd.prev

/-- The end of the last block, if its buffer has space behind it. -/
def writePlace (st : Store) (buf : IOBuf) : Option (ℕ × ℕ) :=
  (rearBlock st buf).bind fun b => if b.space > 0 then some (b.buffer,b.tail) else none

/-- Inside its buffer a block has no underflow. -/
theorem space_inside (b : Block) (hb : b.tail ≤ b.capacity)
    (hc : b.capacity = kDefaultBufferSize-sizeofSharedInfo) : b.space = b.capacity-b.tail := by
  have hcap : b.capacity < 2^64 := by
    rw [hc]
    decide
  unfold Block.space Block.tail at *
  omega

theorem space_eq (b : Block) (n : ℕ) (hv : b.Valid n) : b.space = b.capacity-b.tail :=
  space_inside b hv.bound hv.capacity

theorem rearBlock_spec (st : Store) (buf : IOBuf) (l : List ℕ) (r : ℕ) (all : List ℕ) (hs : Sound st all)
    (hall : ∀ p ∈ l ++ [r], p ∈ all) (hb : Holds st buf (l ++ [r])) (b : Block)
    (hd : dataOf st.heap r = some b) : rearBlock st buf = some b := by
  rcases hb.rear st buf l r all hs hall with ⟨hnull,node,hnode,hprev⟩
  rw [rearBlock, if_neg hnull, hnode, Option.bind_some, hprev, hd]

/-- The place is behind one of the blocks. -/
theorem writePlace_spec (st : Store) (buf : IOBuf) (l rest : List ℕ) (hs : Sound st (l ++ rest))
    (hb : Holds st buf l) (c off : ℕ) (hp : writePlace st buf = some (c,off)) :
    ∃ r ∈ l, ∃ b, dataOf st.heap r = some b ∧ c = b.buffer ∧ off = b.tail := by
  rcases List.eq_nil_or_concat l with rfl | ⟨m,r,rfl⟩
  · have hhead : buf.head = nullptr := hb.ring
    rw [writePlace, rearBlock, if_pos hhead, Option.bind_none] at hp
    exact absurd hp (by simp)
  · rw [List.concat_eq_append] at *
    rcases hs.live r (by simp) with ⟨b,hd,-⟩
    have hrear := rearBlock_spec st buf m r _ hs (fun p hp => List.mem_append_left rest hp) hb b hd
    rw [writePlace, hrear, Option.bind_some] at hp
    split_ifs at hp with hspace
    obtain ⟨rfl,rfl⟩ := Prod.mk.inj (Option.some.inj hp)
    exact ⟨r, by simp, b, hd, rfl, rfl⟩

/-- After `PreAllocate` the last block is `q`, with the data `b`. -/
structure Reserves (st st' : Store) (buf buf' : IOBuf) (l m rest : List ℕ) (q : ℕ) (b : Block) : Prop where
  sound : Sound st' (m ++ [q] ++ rest)
  holds : Holds st' buf' (m ++ [q])
  kept : Kept st st' rest
  rear : dataOf st'.heap q = some b
  place : writePlace st buf = some (b.buffer,b.tail) ∨
    (writePlace st buf = none ∧ b.buffer = st.nextBuffer)
  starts : ∀ p ∈ m ++ [q], (p ∈ l ∧ dataOf st'.heap p = dataOf st.heap p) ∨
    bufferOf st' p = some st.nextBuffer
  text : text st' (m ++ [q]) = text st l

/-- `st1` is the store with a new block, which is beside the blocks `all`. -/
structure NewBlock (st st1 : Store) (all : List ℕ) : Prop where
  new : newBlock st = (st1,st.nextBlock)
  sound : Sound st1 (st.nextBlock :: all)
  mem : st1.mem = st.mem
  data : dataOf st1.heap st.nextBlock =
    some ⟨st.nextBuffer,0,0,kDefaultBufferSize-sizeofSharedInfo⟩
  next : nextOf st1.heap st.nextBlock = st.nextBlock
  prev : prevOf st1.heap st.nextBlock = st.nextBlock
  same : ∀ q ∈ all, st1.heap q = st.heap q
  buffer : bufferOf st1 st.nextBlock = some st.nextBuffer
  bytes : bytesOf st1 st.nextBlock = []

theorem Sound.newBlock_new (st : Store) (all : List ℕ) (hs : Sound st all) :
    ∃ st1, NewBlock st st1 all := by
  rcases hs.newBlock st all with ⟨st1,hnew,hs1,hmem1,hd1,hn1,hp1,hkeep1⟩
  have hout := hs.not_mem st all
  refine ⟨st1, hnew, hs1, hmem1, hd1, hn1, hp1, ?_, ?_, ?_⟩
  · intro q hq
    exact hkeep1 q (fun he => hout (he ▸ hq))
  · rw [bufferOf, hd1]
    rfl
  · rw [bytesOf_eq st1 _ _ hd1]
    rfl

/-- The buffer of a new block is newer than those of all others. -/
theorem NewBlock.buffer_new (st st1 : Store) (all : List ℕ) (h : NewBlock st st1 all)
    (hs : Sound st all) (l : List ℕ) (hl : l ⊆ all) :
    bufferOf st1 st.nextBlock ∉ l.map (bufferOf st1) := by
  intro hm
  rcases List.mem_map.mp hm with ⟨q,hq,he⟩
  rcases hs.live q (hl hq) with ⟨d,hdq,hvq⟩
  have hlt := hvq.known
  rw [h.buffer, bufferOf, dataOf, h.same q (hl hq)] at he
  rw [dataOf] at hdq
  rw [hdq, Option.map_some, Option.some.injEq] at he
  omega

section preAllocate
variable (st : Store) (buf : IOBuf) (rest : List ℕ)

/-- The chain of an empty `IOBuf` begins with a new block. -/
theorem preAllocate_empty (hs : Sound st rest) (hb : Holds st buf []) :
    ∃ st' buf' m q b, preAllocate st buf =
      some (st',buf',(b.buffer,b.tail),b.capacity-b.tail) ∧
        Reserves st st' buf buf' [] m rest q b := by
  rcases hs.newBlock_new st rest with ⟨st1,h1⟩
  have hhead : buf.head = nullptr := hb.ring
  have htext : text st1 ([] ++ [st.nextBlock]) = text st [] := by
    rw [List.nil_append, text_cons, h1.bytes]
    rfl
  refine ⟨st1, ⟨buf.length,st.nextBlock⟩, [], st.nextBlock, _, ?_, h1.sound, ⟨⟨rfl,?_⟩,?_,?_⟩,
    ⟨h1.mem,h1.same⟩, h1.data, Or.inr ⟨?_,rfl⟩, ?_, htext⟩
  · simp only [preAllocate, hhead, if_true, h1.new, h1.data, Option.bind_eq_bind,
      Option.bind_some, Option.pure_def]
    rfl
  · exact Ring.singleton _ h1.next h1.prev
  · rw [htext]
    exact hb.length
  · exact List.nodup_singleton _
  · rw [writePlace, rearBlock, if_pos hhead, Option.bind_none]
  · intro p hp
    rw [List.mem_singleton.mp hp]
    exact Or.inr h1.buffer

section rear
variable (m : List ℕ) (r : ℕ) (hs : Sound st (m ++ [r] ++ rest)) (hb : Holds st buf (m ++ [r]))
  (b : Block) (hdr : dataOf st.heap r = some b)
include hs hb hdr

/-- A last block that has room is kept, and nothing is written. -/
theorem preAllocate_keeps (hspace : b.space > 0) : preAllocate st buf =
      some (st,buf,(b.buffer,b.tail),b.capacity-b.tail) ∧
        Reserves st st buf buf (m ++ [r]) m rest r b := by
  have hall (p : ℕ) (hp : p ∈ m ++ [r]) : p ∈ m ++ [r] ++ rest := List.mem_append_left rest hp
  rcases hb.rear st buf m r _ hs hall with ⟨hnull,node,hnode,hprev⟩
  have hrear := rearBlock_spec st buf m r _ hs hall hb b hdr
  have hv := hs.valid st _ r b (by simp) hdr
  refine ⟨?_, hs, hb, Kept.refl st rest, hdr, Or.inl ?_, fun p hp => Or.inl ⟨hp,rfl⟩, rfl⟩
  · rw [← space_eq b _ hv]
    simp only [preAllocate, if_neg hnull, hnode, hprev, hdr, Option.bind_eq_bind, Option.bind_some,
      if_pos hspace]
  · rw [writePlace, hrear, Option.bind_some, if_pos hspace]

/-- Behind a full last block comes a new one. -/
theorem preAllocate_full (hspace : ¬ b.space > 0) : ∃ st' buf' q b', preAllocate st buf =
      some (st',buf',(b'.buffer,b'.tail),b'.capacity-b'.tail) ∧
        Reserves st st' buf buf' (m ++ [r]) (m ++ [r]) rest q b' := by
  have hall (p : ℕ) (hp : p ∈ m ++ [r]) : p ∈ m ++ [r] ++ rest := List.mem_append_left rest hp
  rcases hb.rear st buf m r _ hs hall with ⟨hnull,node,hnode,hprev⟩
  have hrear := rearBlock_spec st buf m r _ hs hall hb b hdr
  rcases hs.newBlock_new st _ with ⟨st1,h1⟩
  have hout := hs.not_mem st _
  have hperm : (st.nextBlock :: (m ++ [r] ++ rest)).Perm (m ++ [r] ++ st.nextBlock :: rest) :=
    List.perm_middle.symm
  have hb1 := hb.kept st st1 buf _ (fun q hq => h1.same q (hall q hq))
  rcases appendBlock_spec st1 buf (m ++ [r]) rest st.nextBlock (h1.sound.perm _ _ _ hperm) hb1
    h1.next h1.prev (h1.buffer_new st st1 _ hs (m ++ [r]) (List.subset_append_left _ rest)) with
    ⟨h2,buf2,happ,hd2,hb2,hkeep2⟩
  have hs2 := (h1.sound.perm _ _ _ hperm).relink st1 _ h2 hd2
  have hperm2 : (m ++ [r] ++ st.nextBlock :: rest) = m ++ [r] ++ [st.nextBlock] ++ rest := by simp
  rw [hperm2] at hs2
  refine ⟨{ st1 with heap := h2 }, buf2, st.nextBlock,
    ⟨st.nextBuffer,0,0,kDefaultBufferSize-sizeofSharedInfo⟩, ?_, hs2, hb2, ⟨h1.mem,?_⟩, ?_,
    Or.inr ⟨?_,rfl⟩, ?_, ?_⟩
  · simp only [preAllocate, if_neg hnull, hnode, hprev, hdr, Option.bind_eq_bind, Option.bind_some,
      if_neg hspace, h1.new, h1.data, happ, Option.pure_def]
    rfl
  -- the blocks of the other chains are not linked to the new one
  · intro q hq
    have hne : q ∉ st.nextBlock :: (m ++ [r]) := by
      intro hm
      rcases List.mem_cons.mp hm with rfl | hm
      · exact hout (List.mem_append_right _ hq)
      · exact (List.nodup_append'.mp hs.nodup).2.2 hm hq
    exact (hkeep2 q hne).trans (h1.same q (List.mem_append_right _ hq))
  · rw [hd2, h1.data]
  · rw [writePlace, hrear, Option.bind_some, if_neg hspace]
  · intro p hp
    rcases List.mem_append.mp hp with hp | hp
    · refine Or.inl ⟨hp, ?_⟩
      rw [hd2, dataOf, h1.same p (hall p hp), dataOf]
    · rw [List.mem_singleton.mp hp, bufferOf_relink st1 h2 hd2]
      exact Or.inr h1.buffer
  · have hold : text st1 (m ++ [r]) = text st (m ++ [r]) :=
      Kept.text st st1 (m ++ [r]) _ ⟨h1.mem, fun q hq => h1.same q (hall q hq)⟩ (fun _ hq => hq)
    rw [text_relink st1 h2 hd2, text_append, hold, text_cons, h1.bytes]
    exact List.append_nil _

end rear

end preAllocate

theorem preAllocate_spec (st : Store) (buf : IOBuf) (l rest : List ℕ) (hs : Sound st (l ++ rest))
    (hb : Holds st buf l) : ∃ st' buf' m q b, preAllocate st buf =
      some (st',buf',(b.buffer,b.tail),b.capacity-b.tail) ∧
        Reserves st st' buf buf' l m rest q b := by
  rcases List.eq_nil_or_concat l with rfl | ⟨m,r,rfl⟩
  · exact preAllocate_empty st buf rest hs hb
  · rw [List.concat_eq_append] at *
    rcases hs.live r (by simp) with ⟨b,hdr,-⟩
    by_cases hspace : b.space > 0
    · exact ⟨st, buf, m, r, b, preAllocate_keeps st buf rest m r hs hb b hdr hspace⟩
    · rcases preAllocate_full st buf rest m r hs hb b hdr hspace with ⟨st',buf',q,b',h⟩
      exact ⟨st', buf', m ++ [r], q, b', h⟩

/-- What a write of `bs` through one `IOBuf` does to the store. -/
structure Writes (st st' : Store) (buf buf' : IOBuf) (l l' rest : List ℕ) (bs : List UInt8) : Prop where
  sound : Sound st' (l' ++ rest)
  holds : Holds st' buf' l'
  heap : ∀ p ∈ rest, st'.heap p = st.heap p
  mem : ∃ c off, st'.mem = Function.update st.mem c (store (st.mem c) off bs) ∧
    (writePlace st buf = some (c,off) ∨ (writePlace st buf = none ∧ c = st.nextBuffer))
  starts : ∀ p ∈ l', (p ∈ l ∧ ∃ b b', dataOf st.heap p = some b ∧ dataOf st'.heap p = some b' ∧
    b'.buffer = b.buffer ∧ b'.data = b.data) ∨ bufferOf st' p = some st.nextBuffer
  text : text st' l' = text st l ++ bs

/-- A block of another `IOBuf` shows the copy where it is on the buffer that was written to. -/
theorem Writes.bytesOf (st st' : Store) (buf buf' : IOBuf) (l l' rest : List ℕ) (bs : List UInt8)
    (hs : Sound st (l ++ rest)) (hw : Writes st st' buf buf' l l' rest bs) (p : ℕ) (hp : p ∈ rest)
    (d : Block) (hd : dataOf st.heap p = some d) :
    bytesOf st' p = match writePlace st buf with
      | none => bytesOf st p
      | some (c,off) => if d.buffer = c then load (store (st.mem c) off bs) d.data d.length
        else bytesOf st p := by
  rcases hw.mem with ⟨c,off,hmem,hplace⟩
  have hd' : dataOf st'.heap p = some d := by
    rw [dataOf, hw.heap p hp]
    exact hd
  have hother (hne : d.buffer ≠ c) : Iobuf.bytesOf st' p = Iobuf.bytesOf st p := by
    rw [bytesOf_eq st' p d hd', bytesOf_eq st p d hd, hmem, Function.update_of_ne hne]
  rcases hplace with hplace | ⟨hplace,hfresh⟩
  · rw [hplace]
    by_cases hc : d.buffer = c
    · simp only [if_pos hc]
      rw [bytesOf_eq st' p d hd', hmem, hc, Function.update_self]
    · simp only [if_neg hc]
      exact hother hc
  -- the copy went to a new buffer, which no old block is on
  · rw [hplace]
    apply hother
    intro he
    have hlt := (hs.valid st _ p d (List.mem_append_right l hp) hd).known
    omega

theorem Sound.copy (st : Store) (all : List ℕ) (hs : Sound st all) (mem : ℕ → Mem) :
    Sound { st with mem := mem } all := ⟨hs.pos, hs.nodup, hs.known, hs.live, hs.refs⟩

/-- The copy adds its bytes to the last block and changes no other block, which are all on
other buffers. -/
theorem text_written (st st2 : Store) (buf : IOBuf) (m rest : List ℕ) (q : ℕ) (b : Block)
    (bs : List UInt8) (hs : Sound st (m ++ [q] ++ rest)) (hb : Holds st buf (m ++ [q]))
    (hd : dataOf st.heap q = some b)
    (hmem2 : st2.mem = Function.update st.mem b.buffer (store (st.mem b.buffer) b.tail bs))
    (hd2 : dataOf st2.heap =
      Function.update (dataOf st.heap) q (some { b with length := b.length+bs.length })) :
    text st2 (m ++ [q]) = text st (m ++ [q]) ++ bs := by
  -- the blocks in front are on other buffers
  have hfront : text st2 m = text st m := by
    apply List.flatMap_congr
    intro p hp
    have hdis := hb.distinct
    rw [List.map_append, List.nodup_append'] at hdis
    rcases hs.live p (by simp [hp]) with ⟨d,hdp,-⟩
    have hne : d.buffer ≠ b.buffer := by
      intro he
      apply hdis.2.2 (List.mem_map_of_mem hp)
      have hsame : bufferOf st p = bufferOf st q := by
        rw [bufferOf, bufferOf, hdp, hd, Option.map_some, Option.map_some, he]
      rw [hsame]
      exact List.mem_singleton_self _
    have hpq : p ≠ q := by
      rintro rfl
      rw [hd] at hdp
      exact hne (by rw [Option.some.inj hdp])
    have hdp2 : dataOf st2.heap p = some d := by
      rw [hd2, Function.update_of_ne hpq]
      exact hdp
    rw [bytesOf_eq st2 p d hdp2, bytesOf_eq st p d hdp, hmem2, Function.update_of_ne hne]
  -- the window of the last block grows by what was copied behind it
  have hlast : bytesOf st2 q = bytesOf st q ++ bs := by
    have hself : dataOf st2.heap q = some { b with length := b.length+bs.length } := by
      rw [hd2, Function.update_self]
    rw [bytesOf_eq st2 q _ hself, bytesOf_eq st q b hd, hmem2]
    change load (Function.update st.mem b.buffer (store (st.mem b.buffer) b.tail bs) b.buffer)
      b.data (b.length+bs.length) = _
    rw [Function.update_self, load_add, Block.tail, load_store_same, load_store_disjoint]
    unfold Apart
    omega
  rw [text_append, text_append, hfront, text_single, text_single, hlast, List.append_assoc]

/-- `PostAllocate` after a copy to the place behind the last block. -/
theorem postAllocate_spec (st : Store) (buf : IOBuf) (m rest : List ℕ) (q : ℕ) (b : Block)
    (bs : List UInt8) (hs : Sound st (m ++ [q] ++ rest)) (hb : Holds st buf (m ++ [q]))
    (hd : dataOf st.heap q = some b) (hfit : bs.length ≤ b.capacity-b.tail) : ∃ st1 st2 buf2,
      copyTo st (b.buffer,b.tail) bs = some st1 ∧
      postAllocate st1 buf bs.length = some (st2,buf2) ∧ Sound st2 (m ++ [q] ++ rest) ∧
      Holds st2 buf2 (m ++ [q]) ∧ (∀ p, p ≠ q → st2.heap p = st.heap p) ∧
      st2.mem = Function.update st.mem b.buffer (store (st.mem b.buffer) b.tail bs) ∧
      dataOf st2.heap q = some { b with length := b.length+bs.length } ∧
      text st2 (m ++ [q]) = text st (m ++ [q]) ++ bs := by
  have hq : q ∈ m ++ [q] ++ rest := by simp
  have hrefs := hs.refs_ne_zero st _ q b hq hd
  have hvalid := hs.valid st _ q b hq hd
  have hbound := hvalid.bound
  have hroom : b.length+bs.length ≤ b.capacity := by
    unfold Block.tail at hbound hfit
    omega
  -- so the sum of `Append` does not wrap
  have hsum : (b.length+bs.length)%2^64 = b.length+bs.length := by
    apply Nat.mod_eq_of_lt
    have hcap := hvalid.capacity
    unfold kDefaultBufferSize sizeofSharedInfo at hcap
    omega
  have hs1 := hs.copy st _ (Function.update st.mem b.buffer (store (st.mem b.buffer) b.tail bs))
  rcases hb.rear st buf m q _ hs (fun p hp => List.mem_append_left rest hp) with ⟨hnull,node,hnode,hprev⟩
  rcases hs1.setBlock _ _ q b { b with length := b.length+bs.length } hd rfl rfl
    (by unfold Block.tail at hbound hfit ⊢; simp only; omega) with
    ⟨st2,hset,hs2,hmem2,-,hd2,hn2,hp2,hbuf2,hkeep2⟩
  have hself : dataOf st2.heap q = some { b with length := b.length+bs.length } := by
    rw [hd2, Function.update_self]
  have htext := text_written st st2 buf m rest q b bs hs hb hd hmem2 hd2
  refine ⟨{ st with mem := Function.update st.mem b.buffer (store (st.mem b.buffer) b.tail bs) }, st2,
    { buf with length := buf.length+bs.length }, ?_, ?_, hs2, ?_, hkeep2, hmem2, hself, htext⟩
  · simp only [copyTo, guard, if_pos hrefs, Option.bind_eq_bind, Option.bind_some, Option.pure_def]
  · simp only [postAllocate, guard, if_pos hnull, hnode, hprev, blockAppend, hd, hsum, if_pos hroom,
      hset, Option.bind_eq_bind, Option.bind_some, Option.pure_def]
  · refine ⟨hb.ring.congr_links st.heap st2.heap _ _ hn2 hp2, ?_, ?_⟩
    · rw [htext, List.length_append, ← hb.length]
    · rw [hbuf2]
      exact hb.distinct

theorem write_spec (st : Store) (buf : IOBuf) (l rest : List ℕ) (bs : List UInt8)
    (hs : Sound st (l ++ rest)) (hb : Holds st buf l)
    (hfit : ∀ r, preAllocate st buf = some r → bs.length ≤ r.2.2.2) : ∃ st' buf' l',
      write st buf bs = some (st',buf') ∧ Writes st st' buf buf' l l' rest bs := by
  rcases preAllocate_spec st buf l rest hs hb with ⟨st1,buf1,m,q,b,hpre,hres⟩
  have hroom := hfit _ hpre
  rcases postAllocate_spec st1 buf1 m rest q b bs hres.sound hres.holds hres.rear hroom with
    ⟨st2,st3,buf3,hcopy,hpost,hs3,hb3,hkeep3,hmem3,hself3,htext3⟩
  have hout : q ∉ rest := by
    intro hm
    exact (List.nodup_append'.mp hres.sound.nodup).2.2 (by simp) hm
  refine ⟨st3, buf3, m ++ [q], ?_, hs3, hb3, ?_, ⟨b.buffer, b.tail, ?_, ?_⟩, ?_, ?_⟩
  · simp only [write, hpre, hcopy, hpost, Option.bind_eq_bind, Option.bind_some]
  · intro p hp
    rw [hkeep3 p (fun he => hout (he ▸ hp)), hres.kept.heap p hp]
  · rw [hmem3, hres.kept.mem]
  · exact hres.place
  · intro p hp
    -- only the last block grows, and it keeps its start
    by_cases hpq : p = q
    · subst hpq
      rcases hres.starts p hp with ⟨hpl,hd⟩ | hnew
      · exact Or.inl ⟨hpl, b, _, hd ▸ hres.rear, hself3, rfl, rfl⟩
      · refine Or.inr ?_
        rw [bufferOf, hres.rear] at hnew
        rw [bufferOf, hself3]
        exact hnew
    · have hd3 : dataOf st3.heap p = dataOf st1.heap p := by rw [dataOf, dataOf, hkeep3 p hpq]
      rcases hres.starts p hp with ⟨hpl,hd⟩ | hnew
      · rcases hs.live p (List.mem_append_left rest hpl) with ⟨d,hdp,-⟩
        exact Or.inl ⟨hpl, d, d, hdp, hd3.trans (hd.trans hdp), rfl, rfl⟩
      · refine Or.inr ?_
        rwa [bufferOf, hd3]
  · rw [htext3, hres.text]

end Cclab.Iobuf
