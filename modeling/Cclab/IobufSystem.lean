import Cclab.IobufRead
import Cclab.IobufSplit
import Cclab.IobufWrite

/-! One step of a system of `IOBuf`s, seen through the blocks that each of them has. -/
namespace Cclab.Iobuf
open NodeHeap

def Op.target : Op → ℕ
  | .write i _ => i
  | .trimStart i _ => i
  | .trimEnd i _ => i
  | .split i _ => i

/-- The operation is on an `IOBuf` that there is, and writes at most the size that `PreAllocate`
returns. -/
def Fits (s : Sys) (op : Op) : Prop :=
  op.target < s.bufs.length ∧ ∀ i bs, op = .write i bs → ∀ buf r, s.bufs[i]? = some buf →
    preAllocate s.store buf = some r → bs.length ≤ r.2.2.2

/-- The `IOBuf`s of a system with their blocks. -/
abbrev Chains := List (IOBuf × List ℕ)

def blocks (es : Chains) : List ℕ := es.flatMap Prod.snd

structure Layout (s : Sys) (es : Chains) : Prop where
  bufs : s.bufs = es.map Prod.fst
  sound : Sound s.store (blocks es)
  holds : ∀ e ∈ es, Holds s.store e.1 e.2

theorem blocks_cons (e : IOBuf × List ℕ) (es : Chains) : blocks (e :: es) = e.2 ++ blocks es :=
  List.flatMap_cons

theorem blocks_append (es fs : Chains) : blocks (es ++ fs) = blocks es ++ blocks fs :=
  List.flatMap_append

theorem blocks_middle (pre post : Chains) (e : IOBuf × List ℕ) :
    (blocks (pre ++ e :: post)).Perm (e.2 ++ blocks (pre ++ post)) := by
  rw [blocks_append, blocks_cons, blocks_append]
  exact List.perm_append_comm_assoc (blocks pre) e.2 (blocks post)

theorem mem_blocks (es : Chains) (e : IOBuf × List ℕ) (he : e ∈ es) (p : ℕ) (hp : p ∈ e.2) :
    p ∈ blocks es := List.mem_flatMap.mpr ⟨e,he,hp⟩

/-- The strings that the blocks of each `IOBuf` show. -/
def texts (st : Store) (es : Chains) : List (List UInt8) := es.map fun e => text st e.2

theorem texts_at (st : Store) (pre post : Chains) (buf : IOBuf) (l : List ℕ) :
    (texts st (pre ++ (buf,l) :: post))[pre.length]? = some (text st l) := by
  rw [texts, List.map_append, List.getElem?_append_right (by simp), List.length_map, Nat.sub_self]
  rfl

/-- What a reader sees of an `IOBuf` that stands for the string `t`: its ring is closed, and
`ToString`, `length` and `ByteAt` are those of the string. -/
structure Reads (st : Store) (buf : IOBuf) (t : List UInt8) : Prop where
  ring : ∃ l, BlockRing st.heap buf.head l ∧ text st l = t
  toString : toString st.fuel st buf = some t
  length : buf.length = t.length
  byteAt : ∀ i < buf.length, byteAt st.fuel st buf i = t[i]?

theorem layout_start (mem : ℕ → ByteMemory.Mem) : Layout (start mem) [(⟨0,nullptr⟩,[])] := by
  refine ⟨rfl, ⟨Nat.one_pos, List.nodup_nil, ?_, ?_, fun _ => rfl⟩, ?_⟩
  · intro p hp
    exact absurd hp (by simp [blocks])
  · intro p hp
    exact absurd hp (by simp [blocks])
  · intro e he
    rw [List.mem_singleton.mp he]
    exact ⟨rfl, rfl, List.nodup_nil⟩

section layout
variable (s : Sys) (es : Chains) (h : Layout s es)
include h

/-- The `IOBuf` that an operation is on, between the others. -/
theorem Layout.at (i : ℕ) (hi : i < s.bufs.length) : ∃ pre buf l post,
    es = pre ++ (buf,l) :: post ∧ pre.length = i ∧ s.bufs[i]? = some buf ∧
    Sound s.store (l ++ blocks (pre ++ post)) ∧ Holds s.store buf l := by
  have hlen : i < es.length := by rwa [h.bufs, List.length_map] at hi
  have hes : es = es.take i ++ es[i] :: es.drop (i+1) := by
    rw [← List.drop_eq_getElem_cons hlen, List.take_append_drop]
  refine ⟨es.take i, es[i].1, es[i].2, es.drop (i+1), hes, ?_, ?_, ?_, ?_⟩
  · rw [List.length_take, Nat.min_eq_left (Nat.le_of_lt hlen)]
  · rw [h.bufs, List.getElem?_map, List.getElem?_eq_getElem hlen, Option.map_some]
  · apply h.sound.perm
    have hperm := blocks_middle (es.take i) (es.drop (i+1)) es[i]
    rwa [← hes] at hperm
  · exact h.holds _ (List.getElem_mem hlen)

theorem Layout.reads (i : ℕ) (buf : IOBuf) (t : List UInt8) (hbuf : s.bufs[i]? = some buf)
    (ht : (texts s.store es)[i]? = some t) : Reads s.store buf t := by
  rcases List.getElem?_eq_some_iff.mp hbuf with ⟨hi,-⟩
  rcases h.at s es i hi with ⟨pre,buf',l,post,rfl,rfl,hbuf',hs,hb⟩
  obtain rfl : buf' = buf := Option.some.inj (hbuf'.symm.trans hbuf)
  obtain rfl : text s.store l = t :=
    Option.some.inj ((texts_at s.store pre post buf' l).symm.trans ht)
  exact ⟨⟨l,hb.ring,rfl⟩, toString_spec s.store buf' l _ hs hb, hb.length,
    fun j hj => byteAt_spec s.store buf' l _ hs hb j hj⟩

end layout

section replace
variable (s : Sys) (pre post : Chains) (buf : IOBuf) (l : List ℕ)
  (h : Layout s (pre ++ (buf,l) :: post)) (st' : Store) (buf' : IOBuf) (l' : List ℕ)
  (hb' : Holds st' buf' l') (hkeep : ∀ p ∈ blocks (pre ++ post), st'.heap p = s.store.heap p)
include h hb' hkeep

theorem Layout.holds_replace (e : IOBuf × List ℕ) (he : e ∈ pre ++ (buf',l') :: post) :
    Holds st' e.1 e.2 := by
  have hcases : e ∈ pre ++ post ∨ e = (buf',l') := by
    simp only [List.mem_append, List.mem_cons] at he ⊢
    tauto
  rcases hcases with hm | rfl
  · have hold : e ∈ pre ++ (buf,l) :: post := by
      simp only [List.mem_append, List.mem_cons] at hm ⊢
      tauto
    exact (h.holds e hold).kept s.store st' e.1 e.2 (fun p hp => hkeep p (mem_blocks _ e hm p hp))
  · exact hb'

/-- The layout after an operation on one `IOBuf`. -/
theorem Layout.replace (hs' : Sound st' (l' ++ blocks (pre ++ post))) :
    Layout ⟨st', s.bufs.set pre.length buf'⟩ (pre ++ (buf',l') :: post) := by
  refine ⟨?_, hs'.perm _ _ _ (blocks_middle pre post (buf',l')).symm,
    h.holds_replace s pre post buf l st' buf' l' hb' hkeep⟩
  change s.bufs.set pre.length buf' = _
  rw [h.bufs, List.map_append, List.map_append, List.map_cons, List.map_cons]
  have hset := List.set_append_right (s := pre.map Prod.fst) (t := buf :: post.map Prod.fst)
    pre.length buf' (by simp)
  rw [hset]
  simp

/-- The layout after a split, which adds an `IOBuf`. -/
theorem Layout.extend (piece : IOBuf) (k : List ℕ) (hk : Holds st' piece k)
    (hs' : Sound st' (l' ++ (k ++ blocks (pre ++ post)))) :
    Layout ⟨st', s.bufs.set pre.length buf' ++ [piece]⟩ (pre ++ (buf',l') :: post ++ [(piece,k)]) := by
  have hbufs : s.bufs.set pre.length buf' = (pre ++ (buf',l') :: post).map Prod.fst := by
    rw [h.bufs, List.map_append, List.map_append, List.map_cons, List.map_cons]
    have hset := List.set_append_right (s := pre.map Prod.fst) (t := buf :: post.map Prod.fst)
      pre.length buf' (by simp)
    rw [hset]
    simp
  -- the blocks of the piece may stand anywhere in the list of all blocks
  have hperm : (l' ++ (k ++ blocks (pre ++ post))).Perm
      (blocks (pre ++ (buf',l') :: post ++ [(piece,k)])) := by
    have hlast : blocks [(piece,k)] = k := by
      rw [blocks_cons]
      exact List.append_nil k
    have h1 : (l' ++ (k ++ blocks (pre ++ post))).Perm ((l' ++ blocks (pre ++ post)) ++ k) := by
      rw [List.append_assoc]
      exact List.perm_append_comm.append_left l'
    rw [blocks_append (pre ++ (buf',l') :: post), hlast]
    exact h1.trans ((blocks_middle pre post (buf',l')).symm.append_right k)
  refine ⟨?_, hs'.perm _ _ _ hperm, ?_⟩
  · rw [List.map_append, ← hbufs]
    rfl
  · intro e he
    rcases List.mem_append.mp he with he | he
    · exact h.holds_replace s pre post buf l st' buf' l' hb' hkeep e he
    · rw [List.mem_singleton.mp he]
      exact hk

end replace

section step
variable (s : Sys) (es : Chains) (h : Layout s es) (i n : ℕ) (bs : List UInt8)
include h

theorem Layout.write_step (hf : Fits s (.write i bs)) : ∃ pre buf l post st' buf' l',
    es = pre ++ (buf,l) :: post ∧ pre.length = i ∧
    move s (.write i bs) = some ⟨st', s.bufs.set i buf'⟩ ∧
    Layout ⟨st', s.bufs.set i buf'⟩ (pre ++ (buf',l') :: post) ∧
    Writes s.store st' buf buf' l l' (blocks (pre ++ post)) bs ∧ s.bufs[i]? = some buf := by
  rcases h.at s es i hf.1 with ⟨pre,buf,l,post,rfl,rfl,hbuf,hs,hb⟩
  rcases write_spec s.store buf l _ bs hs hb (fun r hr => hf.2 _ bs rfl buf r hbuf hr) with
    ⟨st',buf',l',hw,hwrites⟩
  refine ⟨pre, buf, l, post, st', buf', l', rfl, rfl, ?_,
    h.replace s pre post buf l st' buf' l' hwrites.holds hwrites.heap hwrites.sound, hwrites, hbuf⟩
  simp only [move, hbuf, Option.bind_eq_bind, Option.bind_some, hw, Option.pure_def]

theorem Layout.trimStart_step (hf : Fits s (.trimStart i n)) : ∃ pre buf l post st' buf' l',
    es = pre ++ (buf,l) :: post ∧ pre.length = i ∧
    move s (.trimStart i n) = some ⟨st', s.bufs.set i buf'⟩ ∧
    Layout ⟨st', s.bufs.set i buf'⟩ (pre ++ (buf',l') :: post) ∧
    Trims s.store st' buf' l l' (blocks (pre ++ post)) ∧ text st' l' = (text s.store l).drop n := by
  rcases h.at s es i hf.1 with ⟨pre,buf,l,post,rfl,rfl,hbuf,hs,hb⟩
  have hfuel := hs.chain_fuel s.store l _
  rcases trimStart_spec s.store.fuel s.store buf l _ n hfuel hs hb with ⟨st',buf',l',ht,htrims,htext⟩
  refine ⟨pre, buf, l, post, st', buf', l', rfl, rfl, ?_, h.replace s pre post buf l st' buf' l'
    htrims.holds htrims.kept.heap htrims.sound, htrims, htext⟩
  simp only [move, hbuf, Option.bind_eq_bind, Option.bind_some, ht, Option.pure_def]

theorem Layout.trimEnd_step (hf : Fits s (.trimEnd i n)) : ∃ pre buf l post st' buf' l',
    es = pre ++ (buf,l) :: post ∧ pre.length = i ∧
    move s (.trimEnd i n) = some ⟨st', s.bufs.set i buf'⟩ ∧
    Layout ⟨st', s.bufs.set i buf'⟩ (pre ++ (buf',l') :: post) ∧
    Trims s.store st' buf' l l' (blocks (pre ++ post)) ∧
    text st' l' = (text s.store l).take ((text s.store l).length-n) := by
  rcases h.at s es i hf.1 with ⟨pre,buf,l,post,rfl,rfl,hbuf,hs,hb⟩
  have hfuel := hs.chain_fuel s.store l _
  rcases trimEnd_spec s.store.fuel s.store buf l _ n hfuel hs hb with ⟨st',buf',l',ht,htrims,htext⟩
  refine ⟨pre, buf, l, post, st', buf', l', rfl, rfl, ?_, h.replace s pre post buf l st' buf' l'
    htrims.holds htrims.kept.heap htrims.sound, htrims, htext⟩
  simp only [move, hbuf, Option.bind_eq_bind, Option.bind_some, ht, Option.pure_def]

theorem Layout.split_step (hf : Fits s (.split i n)) : ∃ pre buf l post st' buf' piece l' k,
    es = pre ++ (buf,l) :: post ∧ pre.length = i ∧
    move s (.split i n) = some ⟨st', s.bufs.set i buf' ++ [piece]⟩ ∧
    Layout ⟨st', s.bufs.set i buf' ++ [piece]⟩ (pre ++ (buf',l') :: post ++ [(piece,k)]) ∧
    Splits s.store st' buf' piece l l' [] k (blocks (pre ++ post)) n := by
  rcases h.at s es i hf.1 with ⟨pre,buf,l,post,rfl,rfl,hbuf,hs,hb⟩
  have hfuel := hs.chain_fuel s.store l _
  rcases splitLoop_spec s.store.fuel s.store buf ⟨0,nullptr⟩ l [] _ n hfuel hs hb
    ⟨rfl, rfl, List.nodup_nil⟩ hb.distinct with ⟨st',buf',piece,l',k,hsplit,hsp⟩
  refine ⟨pre, buf, l, post, st', buf', piece, l', k, rfl, rfl, ?_, h.extend s pre post buf l st' buf' l'
    hsp.holds hsp.kept.heap piece k hsp.piece hsp.sound, hsp⟩
  simp only [move, split, hbuf, Option.bind_eq_bind, Option.bind_some, hsplit, Option.pure_def]

theorem Layout.create : Layout s.create (es ++ [(⟨0,nullptr⟩,[])]) := by
  have hblocks : blocks (es ++ [(⟨0,nullptr⟩,[])]) = blocks es := by
    rw [blocks_append, blocks_cons]
    exact List.append_nil _
  refine ⟨?_, ?_, ?_⟩
  · rw [Sys.create, h.bufs, List.map_append]
    rfl
  · rw [hblocks]
    exact h.sound
  · intro e he
    rcases List.mem_append.mp he with he | he
    · exact h.holds e he
    · rw [List.mem_singleton.mp he]
      exact ⟨rfl, rfl, List.nodup_nil⟩

theorem Layout.destroy_step (hi : i < s.bufs.length) : ∃ s' es', s.destroy i = some s' ∧
    Layout s' es' := by
  rcases h.at s es i hi with ⟨pre,buf,l,post,rfl,rfl,hbuf,hs,hb⟩
  have hfuel := hs.chain_fuel s.store l _
  rcases destroy_spec s.store.fuel s.store buf l _ hfuel hs hb with ⟨st',hd,hs',hk⟩
  refine ⟨⟨st', s.bufs.eraseIdx pre.length⟩, pre ++ post, ?_, ?_, hs', ?_⟩
  · simp only [Sys.destroy, hbuf, Option.bind_eq_bind, Option.bind_some, hd, Option.pure_def]
  · have hlen : (pre.map Prod.fst).length ≤ pre.length := Nat.le_of_eq (List.length_map _)
    rw [h.bufs, List.map_append, List.map_append, List.eraseIdx_append_of_length_le hlen,
      List.length_map, Nat.sub_self]
    rfl
  -- the other chains are as they were
  · intro e he
    have hold : e ∈ pre ++ (buf,l) :: post := by
      simp only [List.mem_append, List.mem_cons] at he ⊢
      tauto
    exact (h.holds e hold).kept s.store st' e.1 e.2 (fun p hp => hk.heap p (mem_blocks _ e he p hp))

end step

end Cclab.Iobuf
