import Cclab.IobufSystem
import Cclab.OperationRuns

/-! With one writer the `IOBuf`s refine byte strings: what was split off ends before the place
where the writer goes on. -/
namespace Cclab.Iobuf
open ByteMemory NodeHeap OperationRuns

/-- On a common buffer the blocks `others` show nothing behind the start of a block of `l`. -/
def Ahead (st : Store) (l others : List ℕ) : Prop :=
  ∀ p ∈ l, ∀ q ∈ others, ∀ b c, dataOf st.heap p = some b → dataOf st.heap q = some c →
    c.buffer = b.buffer → c.tail ≤ b.data

/-- Every block of `l'` comes from one of `l` on the same buffer and does not start before it. -/
def Later (st st' : Store) (l l' : List ℕ) : Prop :=
  ∀ p ∈ l', ∃ r ∈ l, ∃ b b', dataOf st.heap r = some b ∧ dataOf st'.heap p = some b' ∧
    b'.buffer = b.buffer ∧ b.data ≤ b'.data

/-- Every block of `m'` comes from one of `m` on the same buffer and does not end after it. -/
def Earlier (st st' : Store) (m m' : List ℕ) : Prop :=
  ∀ p ∈ m', ∃ r ∈ m, ∃ b b', dataOf st.heap r = some b ∧ dataOf st'.heap p = some b' ∧
    b'.buffer = b.buffer ∧ b'.tail ≤ b.tail

theorem Ahead.mono (st st' : Store) (l l' m m' : List ℕ) (h : Ahead st l m) (hl : Later st st' l l')
    (hm : Earlier st st' m m') : Ahead st' l' m' := by
  intro p hp q hq b c hb hc hbuf
  rcases hl p hp with ⟨r,hr,br,b',hbr,hb',hbuf1,hdata⟩
  rcases hm q hq with ⟨t,ht,ct,c',hct,hc',hbuf2,htail⟩
  obtain rfl : b' = b := Option.some.inj (hb'.symm.trans hb)
  obtain rfl : c' = c := Option.some.inj (hc'.symm.trans hc)
  have hold := h r hr t ht br ct hbr hct (hbuf2.symm.trans (hbuf.trans hbuf1))
  omega

theorem Shrunk.later (st st' : Store) (l l' : List ℕ) (h : Shrunk st st' l l') : Later st st' l l' := by
  intro p hp
  rcases h p hp with ⟨hpl,b,b',hb,hb',hw⟩
  exact ⟨p, hpl, b, b', hb, hb', hw.1, hw.2.1⟩

theorem Shrunk.earlier (st st' : Store) (l l' : List ℕ) (h : Shrunk st st' l l') :
    Earlier st st' l l' := by
  intro p hp
  rcases h p hp with ⟨hpl,b,b',hb,hb',hw⟩
  exact ⟨p, hpl, b, b', hb, hb', hw.1, hw.2.2⟩

section kept
variable (st st' : Store) (all m : List ℕ) (hs : Sound st all) (hm : ∀ p ∈ m, p ∈ all)
  (hkeep : ∀ p ∈ m, st'.heap p = st.heap p)
include hs hm hkeep

theorem shrunk_of_kept : Shrunk st st' m m := by
  intro p hp
  rcases hs.live p (hm p hp) with ⟨b,hb,-⟩
  refine ⟨hp, b, b, hb, ?_, Within.refl b⟩
  rw [dataOf, hkeep p hp]
  exact hb

end kept

theorem Earlier.append (st st' : Store) (m m' k k' : List ℕ) (h : Earlier st st' m m')
    (hk : Earlier st st' k k') : Earlier st st' (m ++ k) (m' ++ k') := by
  intro p hp
  rcases List.mem_append.mp hp with hp | hp
  · rcases h p hp with ⟨r,hr,hrest⟩
    exact ⟨r, List.mem_append_left k hr, hrest⟩
  · rcases hk p hp with ⟨r,hr,hrest⟩
    exact ⟨r, List.mem_append_right m hr, hrest⟩

theorem Earlier.subset (st st' : Store) (m m' k k' : List ℕ) (h : Earlier st st' m m')
    (hm : ∀ p ∈ m, p ∈ k) (hk : ∀ p ∈ k', p ∈ m') : Earlier st st' k k' := by
  intro p hp
  rcases h p (hk p hp) with ⟨r,hr,hrest⟩
  exact ⟨r, hm r hr, hrest⟩

/-- The abstract `IOBuf`s, a list of byte strings. -/
def spec (ts : List (List UInt8)) : Op → List (List UInt8)
  | .write i bs => ts.modify i fun t => t ++ bs
  | .trimStart i n => ts.modify i fun t => t.drop n
  | .trimEnd i n => ts.modify i fun t => t.take (t.length-n)
  | .split i n => (ts.modify i fun t => t.drop n) ++ ts[i]?.toList.map fun t => t.take n

theorem Earlier.union (st st' : Store) (m m' k' : List ℕ) (h : Earlier st st' m m')
    (hk : Earlier st st' m k') : Earlier st st' m (m' ++ k') := by
  intro p hp
  rcases List.mem_append.mp hp with hp | hp
  · exact h p hp
  · exact hk p hp

theorem Ahead.union (st : Store) (l m k : List ℕ) (h : Ahead st l m) (hk : Ahead st l k) :
    Ahead st l (m ++ k) := by
  intro p hp q hq
  rcases List.mem_append.mp hq with hq | hq
  · exact h p hp q hq
  · exact hk p hp q hq

/-- What a split took does not reach what it left, the blocks being on different buffers. -/
theorem Splits.ahead (st st' : Store) (buf buf' piece : IOBuf) (l l' k rest : List ℕ) (n : ℕ)
    (h : Splits st st' buf' piece l l' [] k rest n) (hb : Holds st buf l) : Ahead st' l' k := by
  intro p hp q hq b c hb' hc hbuf
  rcases h.taken q hq with ⟨hnil,-⟩ | ⟨r,hr,d,c',hd,hc',hw,hcut⟩
  · exact absurd hnil (by simp)
  obtain rfl : c' = c := Option.some.inj (hc'.symm.trans hc)
  rcases h.shrunk p hp with ⟨hpl,e,b',he,hb'',hw'⟩
  obtain rfl : b' = b := Option.some.inj (hb''.symm.trans hb')
  have hsame : bufferOf st r = bufferOf st p := by
    rw [bufferOf, bufferOf, hd, he, Option.map_some, Option.map_some, ← hw.1, hbuf, hw'.1]
  obtain rfl : r = p := List.inj_on_of_nodup_map hb.distinct hr hpl hsame
  exact hcut hp b' hb'

theorem Splits.earlier (st st' : Store) (buf' piece : IOBuf) (l l' k rest : List ℕ) (n : ℕ)
    (h : Splits st st' buf' piece l l' [] k rest n) : Earlier st st' l k := by
  intro q hq
  rcases h.taken q hq with ⟨hnil,-⟩ | ⟨r,hr,d,c,hd,hc,hw,-⟩
  · exact absurd hnil (by simp)
  · exact ⟨r, hr, d, c, hd, hc, hw.1, hw.2.2⟩

theorem modify_middle {α : Type*} (f : α → α) (a : α) (l k : List α) :
    (l ++ a :: k).modify l.length f = l ++ f a :: k := by
  rw [List.modify_eq_take_drop, List.take_left, List.drop_left]
  rfl

theorem texts_replace (st st' : Store) (pre post : Chains) (buf buf' : IOBuf) (l l' : List ℕ)
    (f : List UInt8 → List UInt8) (hl : text st' l' = f (text st l))
    (hothers : ∀ e ∈ pre ++ post, text st' e.2 = text st e.2) :
    texts st' (pre ++ (buf',l') :: post) =
      (texts st (pre ++ (buf,l) :: post)).modify pre.length f := by
  have hsame (es : Chains) (hes : ∀ e ∈ es, e ∈ pre ++ post) : texts st' es = texts st es :=
    List.map_congr_left fun e he => hothers e (hes e he)
  have hpre := hsame pre (fun e he => List.mem_append_left post he)
  have hpost := hsame post (fun e he => List.mem_append_right pre he)
  have hlen : (texts st pre).length = pre.length := List.length_map _
  have hmiddle := modify_middle f (text st l) (texts st pre) (texts st post)
  unfold texts at *
  rw [List.map_append, List.map_append, List.map_cons, List.map_cons, hpre, hpost, ← hlen, hmiddle, hl]

/-- The first `IOBuf` is the only one that was written to; `ts` are the strings of all. -/
def Owner (s : Sys) (ts : List (List UInt8)) : Prop :=
  ∃ buf l pieces, Layout s ((buf,l) :: pieces) ∧ Ahead s.store l (blocks pieces) ∧
    ts = texts s.store ((buf,l) :: pieces)

/-- Only the first `IOBuf` is written to. -/
def OneWriter (s : Sys) (op : Op) : Prop := Fits s op ∧ ∀ i bs, op = .write i bs → i = 0

theorem owner_start (mem : ℕ → Mem) : Owner (start mem) [[]] := by
  refine ⟨_, _, _, layout_start mem, ?_, rfl⟩
  intro p hp
  exact absurd hp (by simp)

/-- The blocks of the others after one of them was trimmed. -/
theorem earlier_middle (st st' : Store) (pre post : Chains) (buf buf' : IOBuf) (l l' : List ℕ)
    (hl : Earlier st st' l l') (hpre : Earlier st st' (blocks pre) (blocks pre))
    (hpost : Earlier st st' (blocks post) (blocks post)) :
    Earlier st st' (blocks (pre ++ (buf,l) :: post)) (blocks (pre ++ (buf',l') :: post)) := by
  rw [blocks_append, blocks_append, blocks_cons, blocks_cons]
  exact hpre.append st st' _ _ _ _ (hl.append st st' _ _ _ _ hpost)

section owner
variable (s s' : Sys) (main : IOBuf × List ℕ) (pieces pre post : Chains) (buf buf' : IOBuf)
  (l l' : List ℕ) (h : Layout s (main :: pieces)) (ha : Ahead s.store main.2 (blocks pieces))
  (hes : main :: pieces = pre ++ (buf,l) :: post)
  (hkeep : ∀ p ∈ blocks (pre ++ post), s'.store.heap p = s.store.heap p)
include h hes hkeep

theorem shrunk_others (fs : Chains) (hsub : ∀ e ∈ fs, e ∈ pre ++ post) :
    Shrunk s.store s'.store (blocks fs) (blocks fs) := by
  have hin (p : ℕ) (hp : p ∈ blocks fs) : p ∈ blocks (pre ++ post) := by
    rcases List.mem_flatMap.mp hp with ⟨e,he,hpe⟩
    exact mem_blocks _ e (hsub e he) p hpe
  have hsound := h.sound
  rw [hes] at hsound
  apply shrunk_of_kept s.store s'.store _ _ (hsound.perm _ _ _ (blocks_middle pre post (buf,l)))
  · intro p hp
    exact List.mem_append_right l (hin p hp)
  · intro p hp
    exact hkeep p (hin p hp)

include ha

/-- After a step on one `IOBuf` the writer is still ahead of all others. -/
theorem ahead_replace (hshrunk : Shrunk s.store s'.store l l') : ∃ main' pieces',
    pre ++ (buf',l') :: post = main' :: pieces' ∧ Ahead s'.store main'.2 (blocks pieces') ∧
    (pre = [] → main' = (buf',l')) ∧ (pre ≠ [] → main' = main ∧
      Later s.store s'.store main.2 main'.2 ∧ ∀ p ∈ l, p ∈ blocks pieces) := by
  -- the `IOBuf` of the step is the writer's or one of the pieces
  cases pre with
  | nil =>
    obtain ⟨rfl,rfl⟩ := List.cons.inj hes
    have hothers := shrunk_others s s' _ _ [] pieces buf l h rfl hkeep pieces (fun e he => he)
    exact ⟨_, _, rfl, ha.mono s.store s'.store _ _ _ _ (hshrunk.later _ _ _ _)
      (hothers.earlier _ _ _ _), fun _ => rfl, fun hne => absurd rfl hne⟩
  | cons e pre =>
    obtain ⟨rfl,rfl⟩ := List.cons.inj hes
    have hothers := shrunk_others s s' _ _ (main :: pre) post buf l h rfl hkeep
    have hmain : Shrunk s.store s'.store main.2 main.2 := by
      have hm := hothers [main] (by simp)
      simpa [blocks] using hm
    have hlater := hmain.later _ _ _ _
    refine ⟨main, _, rfl, ?_, fun hnil => absurd hnil (by simp), fun _ => ⟨rfl,hlater,?_⟩⟩
    · apply ha.mono s.store s'.store _ _ _ _ hlater
      exact earlier_middle s.store s'.store pre post buf buf' l l' (hshrunk.earlier _ _ _ _)
        ((hothers pre (fun e he => by simp [he])).earlier _ _ _ _)
        ((hothers post (fun e he => by simp [he])).earlier _ _ _ _)
    · intro p hp
      exact mem_blocks _ (buf,l) (by simp) p hp

end owner

section owner
variable (s s' : Sys) (main : IOBuf × List ℕ) (pieces pre post : Chains) (buf buf' : IOBuf)
  (l l' : List ℕ) (h : Layout s (main :: pieces)) (ha : Ahead s.store main.2 (blocks pieces))
  (hes : main :: pieces = pre ++ (buf,l) :: post)
include h ha hes

theorem Owner.trim (f : List UInt8 → List UInt8) (hl : Layout s' (pre ++ (buf',l') :: post))
    (ht : Trims s.store s'.store buf' l l' (blocks (pre ++ post)))
    (hf : text s'.store l' = f (text s.store l)) :
    Owner s' ((texts s.store (main :: pieces)).modify pre.length f) := by
  have htexts := texts_replace s.store s'.store pre post buf buf' l l' f hf (by
    intro e he
    exact ht.kept.text s.store s'.store _ e.2 (fun p hp => mem_blocks _ e he p hp))
  rcases ahead_replace s s' main pieces pre post buf buf' l l' h ha hes ht.kept.heap ht.shrunk with
    ⟨main',pieces',heq,hahead,-,-⟩
  rw [hes, ← htexts, heq]
  rw [heq] at hl
  exact ⟨main'.1, main'.2, pieces', hl, hahead, rfl⟩

theorem Owner.split (n : ℕ) (piece : IOBuf) (k : List ℕ)
    (hl : Layout s' (pre ++ (buf',l') :: post ++ [(piece,k)]))
    (ht : Splits s.store s'.store buf' piece l l' [] k (blocks (pre ++ post)) n) :
    Owner s' (spec (texts s.store (main :: pieces)) (.split pre.length n)) := by
  have htexts := texts_replace s.store s'.store pre post buf buf' l l' (fun t => t.drop n) ht.left (by
    intro e he
    exact ht.kept.text s.store s'.store _ e.2 (fun p hp => mem_blocks _ e he p hp))
  have hspec : spec (texts s.store (main :: pieces)) (.split pre.length n) =
      texts s'.store (pre ++ (buf',l') :: post ++ [(piece,k)]) := by
    have hnew : text s'.store k = (text s.store l).take n := ht.first
    have hsum : texts s'.store (pre ++ (buf',l') :: post ++ [(piece,k)]) =
        texts s'.store (pre ++ (buf',l') :: post) ++ [text s'.store k] := List.map_append
    rw [hes, spec, ← htexts, texts_at, hsum, hnew]
    rfl
  rcases ahead_replace s s' main pieces pre post buf buf' l l' h ha hes ht.kept.heap ht.shrunk with
    ⟨main',pieces',heq,hahead,hfront,hback⟩
  rw [heq, List.cons_append] at hl
  -- what is split off is behind the writer, whoever it was taken from
  have hnew : Ahead s'.store main'.2 k := by
    by_cases hpre : pre = []
    · rw [hfront hpre]
      have hhold := h.holds (buf,l) (by rw [hes]; simp)
      exact ht.ahead s.store s'.store buf buf' piece l l' k _ n hhold
    -- what is taken from a piece is behind the writer as the piece was
    · rcases hback hpre with ⟨rfl,hlater,hsub⟩
      apply ha.mono s.store s'.store _ _ _ _ hlater
      exact (ht.earlier s.store s'.store buf' piece l l' k _ n).subset _ _ _ _ _ _ hsub (fun p hp => hp)
  have hk : blocks [(piece,k)] = k := by
    rw [blocks_cons]
    exact List.append_nil k
  rw [hspec, heq, List.cons_append]
  refine ⟨main'.1, main'.2, pieces' ++ [(piece,k)], hl, ?_, rfl⟩
  rw [blocks_append, hk]
  exact hahead.union s'.store _ _ _ hnew

end owner

/-- The writer's copy does not touch what the blocks behind it show. -/
theorem text_behind (st st' : Store) (buf buf' : IOBuf) (l l' rest m : List ℕ) (bs : List UInt8)
    (hs : Sound st (l ++ rest)) (hb : Holds st buf l) (hw : Writes st st' buf buf' l l' rest bs)
    (ha : Ahead st l rest) (hm : ∀ p ∈ m, p ∈ rest) : text st' m = text st m := by
  apply List.flatMap_congr
  intro p hp
  rcases hs.live p (List.mem_append_right l (hm p hp)) with ⟨d,hd,-⟩
  rw [hw.bytesOf st st' buf buf' l l' rest bs hs p (hm p hp) d hd]
  cases hplace : writePlace st buf with
  | none => rfl
  | some place =>
    rcases place with ⟨c,off⟩
    -- the writer's last block ends before what the others show of its buffer
    simp only
    split_ifs with hc
    · rcases writePlace_spec st buf l rest hs hb c off hplace with ⟨r,hr,b,hbr,rfl,rfl⟩
      have hbehind := ha r hr p (hm p hp) b d hbr hd hc
      rw [load_store_disjoint, bytesOf_eq st p d hd, hc]
      unfold Apart Block.tail at *
      omega
    · rfl

theorem Owner.write (s : Sys) (s' : Sys) (buf buf' : IOBuf) (l l' : List ℕ) (pieces : Chains)
    (bs : List UInt8) (h : Layout s ((buf,l) :: pieces)) (ha : Ahead s.store l (blocks pieces))
    (hl : Layout s' ((buf',l') :: pieces))
    (hw : Writes s.store s'.store buf buf' l l' (blocks pieces) bs) :
    Owner s' (spec (texts s.store ((buf,l) :: pieces)) (.write 0 bs)) := by
  have hs := h.sound
  rw [blocks_cons] at hs
  have hb := h.holds (buf,l) List.mem_cons_self
  have htexts := texts_replace s.store s'.store [] pieces buf buf' l l' (fun t => t ++ bs) hw.text (by
    intro e he
    exact text_behind s.store s'.store buf buf' l l' _ e.2 bs hs hb hw ha (fun p hp => mem_blocks _ e he p hp))
  rw [List.nil_append, List.nil_append] at htexts
  refine ⟨buf', l', pieces, hl, ?_, htexts.symm⟩
  intro p hp q hq b c hb' hc hbuf
  have hcq : dataOf s.store.heap q = some c := by
    rw [← hc, dataOf, dataOf, hw.heap q hq]
  -- an old block starts where it started, and starts are what the others are measured by
  rcases hw.starts p hp with ⟨hpl,b0,b1,hb0,hb1,hsame,hstart⟩ | hnew
  · obtain rfl : b1 = b := Option.some.inj (hb1.symm.trans hb')
    have hold := ha p hpl q hq b0 c hb0 hcq (hbuf.trans hsame)
    omega
  -- a new block has a buffer that no other block is on
  · rcases hs.live q (List.mem_append_right l hq) with ⟨e,he,hv⟩
    have hlt := hv.known
    rw [hcq] at he
    rw [bufferOf, hb', Option.map_some, Option.some.injEq] at hnew
    rw [← Option.some.inj he, hbuf, hnew] at hlt
    exact absurd hlt (Nat.lt_irrefl _)

theorem Owner.step (s : Sys) (ts : List (List UInt8)) (op : Op) (h : Owner s ts)
    (hok : OneWriter s op) : ∃ s', move s op = some s' ∧ Owner s' (spec ts op) := by
  rcases h with ⟨buf0,l0,pieces,hl,ha,rfl⟩
  cases op with
  | write i bs =>
    obtain rfl := hok.2 i bs rfl
    rcases hl.write_step s _ 0 bs hok.1 with ⟨pre,buf,l,post,st',buf',l',hes,hpre,hm,hl',hw,-⟩
    obtain rfl := List.length_eq_zero_iff.mp hpre
    rw [List.nil_append] at hes
    obtain ⟨hhead,rfl⟩ := List.cons.inj hes
    obtain ⟨rfl,rfl⟩ := Prod.mk.inj hhead
    exact ⟨_, hm, Owner.write s _ _ _ _ _ pieces bs hl ha hl' hw⟩
  | trimStart i n =>
    rcases hl.trimStart_step s _ i n hok.1 with ⟨pre,buf,l,post,st',buf',l',hes,rfl,hm,hl',ht,htext⟩
    exact ⟨_, hm, Owner.trim s _ _ pieces pre post buf buf' l l' hl ha hes _ hl' ht htext⟩
  | trimEnd i n =>
    rcases hl.trimEnd_step s _ i n hok.1 with ⟨pre,buf,l,post,st',buf',l',hes,rfl,hm,hl',ht,htext⟩
    exact ⟨_, hm, Owner.trim s _ _ pieces pre post buf buf' l l' hl ha hes
      (fun t => t.take (t.length-n)) hl' ht htext⟩
  | split i n =>
    rcases hl.split_step s _ i n hok.1 with ⟨pre,buf,l,post,st',buf',piece,l',k,hes,rfl,hm,hl',ht⟩
    exact ⟨_, hm, Owner.split s _ _ pieces pre post buf buf' l l' hl ha hes n piece k hl' ht⟩

/-- With one writer, and the `IOBuf`s that `Split` returns only trimmed or split further, every
run leaves each `IOBuf` with the string that the operations make on byte strings. -/
theorem iobuf_refines (mem : ℕ → Mem) (ops : List Op)
    (h : Permitted move OneWriter (start mem) ops) : ∃ s : Sys, ops.foldlM move (start mem) = some s ∧
      s.bufs.length = (ops.foldl spec [[]]).length ∧
      ∀ (i : ℕ) (buf : IOBuf) (t : List UInt8), s.bufs[i]? = some buf →
        (ops.foldl spec [[]])[i]? = some t → Reads s.store buf t := by
  rcases foldlM_refines move OneWriter Owner spec (fun s ts op hR hok => hR.step s ts op hok)
    (start mem) [[]] ops (owner_start mem) h with ⟨s,hrun,buf,l,pieces,hl,-,hts⟩
  refine ⟨s, hrun, ?_, ?_⟩
  · rw [hts, hl.bufs, texts, List.length_map, List.length_map]
  · intro i buf' t hbuf ht
    rw [hts] at ht
    exact hl.reads s _ i buf' t hbuf ht

/-- Two bytes are written, and the first is split off. -/
theorem iobuf_refines_split : ∃ s : Sys,
    [.write 0 [97,98], .split 0 1].foldlM move (start fun _ _ => 0) = some s ∧ s.bufs.length = 2 ∧
    ∀ buf, s.bufs[1]? = some buf → Reads s.store buf [97] := by
  rcases iobuf_refines (fun _ _ => 0) [.write 0 [97,98], .split 0 1] (by
    refine ⟨⟨⟨Nat.one_pos, ?_⟩, ?_⟩, ?_⟩
    · intro i bs hop buf r hbuf hpre
      obtain ⟨rfl,rfl⟩ : 0 = i ∧ [97,98] = bs := by simpa using hop
      obtain rfl := Option.some.inj hbuf
      obtain rfl := Option.some.inj hpre
      decide
    · intro i bs hop
      obtain ⟨rfl,-⟩ : 0 = i ∧ [97,98] = bs := by simpa using hop
      rfl
    · intro t ht
      obtain rfl := Option.some.inj ht
      refine ⟨⟨⟨Nat.one_pos, ?_⟩, ?_⟩, fun _ _ => trivial⟩
      · intro i bs hop
        exact absurd hop (by simp)
      · intro i bs hop
        exact absurd hop (by simp)) with ⟨s,hrun,hlen,hreads⟩
  exact ⟨s, hrun, hlen, fun buf hbuf => hreads 1 buf [97] hbuf rfl⟩

end Cclab.Iobuf
