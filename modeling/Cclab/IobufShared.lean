import Cclab.IobufSystem
import Cclab.OperationRuns

/-! When the `IOBuf` that `Split` returns and the one that it was split from stay independent,
although their blocks share a buffer at the place of the cut. -/
namespace Cclab.Iobuf
open ByteMemory IntrusiveLists NodeHeap OperationRuns

/-- The blocks on the way from `p` around to `head`. -/
def blocksFrom (h : Heap Block) (head : ℕ) : ℕ → ℕ → List ℕ
  | 0, _ => []
  | fuel+1, p =>
    if p = nullptr then []
    else p :: if nextOf h p = head then [] else blocksFrom h head fuel (nextOf h p)

def blocksOf (st : Store) (buf : IOBuf) : List ℕ := blocksFrom st.heap buf.head st.fuel buf.head

/-- Where a copy of `bs` through `buf` meets a byte that `other` shows, it puts the same byte. -/
def Unseen (st : Store) (buf other : IOBuf) (bs : List UInt8) : Prop :=
  ∀ c off, writePlace st buf = some (c,off) → ∀ q ∈ blocksOf st other, ∀ d,
    dataOf st.heap q = some d → d.buffer = c →
    ∀ a, d.data ≤ a → a < d.tail → off ≤ a → a < off+bs.length → bs[a-off]? = some (st.mem c a)

def Sys.toString (s : Sys) (i : ℕ) : Option (List UInt8) :=
  s.bufs[i]?.bind fun buf => Iobuf.toString s.store.fuel s.store buf

/-- An operation on one of the two `IOBuf`s leaves the string of the other. -/
def Independent (i j : ℕ) (s : Sys) (op : Op) (s' : Sys) : Prop :=
  (op.target = i → s'.toString j = s.toString j) ∧ (op.target = j → s'.toString i = s.toString i)

/-- No copy through one of the two `IOBuf`s is seen by the other. -/
def CopiesUnseen (i j : ℕ) (s : Sys) (op : Op) (_ : Sys) : Prop :=
  ∀ k bs, op = .write k bs → ∀ buf other, s.bufs[k]? = some buf →
    (k = i → s.bufs[j]? = some other → Unseen s.store buf other bs) ∧
    (k = j → s.bufs[i]? = some other → Unseen s.store buf other bs)

theorem blocksFrom_spec (h : Heap Block) (head p fuel : ℕ) (l : List ℕ) (hf : l.length < fuel)
    (hseg : Seg (nextOf h) (prevOf h) p l head) (hout : head ∉ l) (hnull : ∀ q ∈ p :: l, q ≠ nullptr) :
    blocksFrom h head fuel p = p :: l := by
  induction l generalizing p fuel with
  | nil =>
    obtain ⟨f,rfl⟩ := Nat.exists_eq_succ_of_ne_zero (Nat.ne_of_gt hf)
    rw [blocksFrom, if_neg (hnull p (by simp)), if_pos hseg.1]
  | cons x l ih =>
    obtain ⟨f,rfl⟩ := Nat.exists_eq_succ_of_ne_zero (Nat.ne_of_gt (Nat.zero_lt_of_lt hf))
    have hx : x ≠ head := fun he => hout (by simp [he])
    have hrest := ih x f (Nat.lt_of_succ_lt_succ hf) hseg.2.2
      (fun hm => hout (List.mem_cons_of_mem x hm)) (fun q hq => hnull q (List.mem_cons_of_mem p hq))
    rw [blocksFrom, if_neg (hnull p (by simp)), hseg.1, if_neg hx, hrest]

theorem blocksOf_eq (st : Store) (buf : IOBuf) (l rest : List ℕ) (hs : Sound st (l ++ rest))
    (hb : Holds st buf l) : blocksOf st buf = l := by
  cases l with
  | nil =>
    have hhead : buf.head = nullptr := hb.ring
    rw [blocksOf, hhead, Store.fuel, blocksFrom, if_pos rfl]
  | cons p k =>
    rcases hb.walk st buf _ rest hs p k rfl with ⟨hhead,hf,hseg,hout,hlive⟩
    rw [blocksOf, hhead]
    exact blocksFrom_spec st.heap p p st.fuel k hf hseg hout (fun q hq => (hlive q hq).1)

theorem text_eq_iff (st st' : Store) (m : List ℕ)
    (hlen : ∀ q ∈ m, (bytesOf st' q).length = (bytesOf st q).length) :
    text st' m = text st m ↔ ∀ q ∈ m, bytesOf st' q = bytesOf st q := by
  induction m with
  | nil => exact ⟨fun _ q hq => absurd hq (by simp), fun _ => rfl⟩
  | cons p m ih =>
    have hrest := ih (fun q hq => hlen q (List.mem_cons_of_mem p hq))
    rw [text_cons, text_cons, List.forall_mem_cons, ← hrest]
    constructor
    · intro h
      exact List.append_inj h (hlen p List.mem_cons_self)
    · rintro ⟨h1,h2⟩
      rw [h1, h2]

/-- The blocks `m` of another `IOBuf` show the same after a write exactly if it is unseen. -/
theorem unseen_iff (st st' : Store) (buf buf' other : IOBuf) (l l' rest m : List ℕ)
    (bs : List UInt8) (hs : Sound st (l ++ rest)) (hw : Writes st st' buf buf' l l' rest bs)
    (hm : ∀ q ∈ m, q ∈ rest) (hother : blocksOf st other = m) :
    text st' m = text st m ↔ Unseen st buf other bs := by
  -- no window moves, so the texts agree exactly if they do block by block
  have hlen (q : ℕ) (hq : q ∈ m) : (bytesOf st' q).length = (bytesOf st q).length := by
    have hd : dataOf st'.heap q = dataOf st.heap q := congrArg _ (hw.heap q (hm q hq))
    rcases hs.live q (List.mem_append_right l (hm q hq)) with ⟨d,hd0,-⟩
    rw [bytesOf_length st' q d (hd.trans hd0), bytesOf_length st q d hd0]
  rw [text_eq_iff st st' m hlen, Unseen, hother]
  cases hplace : writePlace st buf with
  | none =>
    constructor
    -- the copy went to a new buffer: nobody else is on it
    · intro _ c off he
      exact absurd he (by simp)
    · intro _ q hq
      rcases hs.live q (List.mem_append_right l (hm q hq)) with ⟨d,hd,-⟩
      rw [hw.bytesOf st st' buf buf' l l' rest bs hs q (hm q hq) d hd, hplace]
  | some place =>
    rcases place with ⟨c,off⟩
    -- the copy went to a shared buffer: the bytes that both cover must be the same
    have hblock (q : ℕ) (hq : q ∈ m) (d : Block) (hd : dataOf st.heap q = some d) :
        bytesOf st' q = bytesOf st q ↔ (d.buffer = c → ∀ a, d.data ≤ a → a < d.tail →
          off ≤ a → a < off+bs.length → bs[a-off]? = some (st.mem c a)) := by
      rw [hw.bytesOf st st' buf buf' l l' rest bs hs q (hm q hq) d hd, hplace]
      simp only
      by_cases hc : d.buffer = c
      · rw [if_pos hc, bytesOf_eq st q d hd, hc, load_eq_iff]
        simp only [store_eq_iff, true_imp_iff, Block.tail]
      · rw [if_neg hc]
        exact ⟨fun _ he => absurd he hc, fun _ => rfl⟩
    constructor
    · intro h c' off' he q hq d hd hc
      obtain ⟨rfl,rfl⟩ := Prod.mk.inj (Option.some.inj he)
      exact (hblock q hq d hd).mp (h q hq) hc
    · intro h q hq
      rcases hs.live q (List.mem_append_right l (hm q hq)) with ⟨d,hd,-⟩
      exact (hblock q hq d hd).mpr (h c off rfl q hq d hd)

theorem getElem?_middle {α : Type*} (pre post : List α) (a b : α) (j : ℕ) (hj : j ≠ pre.length) :
    (pre ++ b :: post)[j]? = (pre ++ a :: post)[j]? := by
  rcases Nat.lt_or_gt_of_ne hj with hlt | hgt
  · rw [List.getElem?_append_left hlt, List.getElem?_append_left hlt]
  · obtain ⟨d,rfl⟩ : ∃ d, j = pre.length+(d+1) := ⟨j-pre.length-1, by omega⟩
    rw [List.getElem?_append_right (by omega), List.getElem?_append_right (by omega),
      Nat.add_sub_cancel_left, List.getElem?_cons_succ, List.getElem?_cons_succ]

theorem mem_of_getElem?_middle {α : Type*} (pre post : List α) (a e : α) (j : ℕ) (hj : j ≠ pre.length)
    (he : (pre ++ a :: post)[j]? = some e) : e ∈ pre ++ post := by
  rcases Nat.lt_or_gt_of_ne hj with hlt | hgt
  · rw [List.getElem?_append_left hlt] at he
    exact List.mem_append_left post (List.mem_of_getElem? he)
  · obtain ⟨d,rfl⟩ : ∃ d, j = pre.length+(d+1) := ⟨j-pre.length-1, by omega⟩
    rw [List.getElem?_append_right (by omega), Nat.add_sub_cancel_left, List.getElem?_cons_succ] at he
    exact List.mem_append_right pre (List.mem_of_getElem? he)

/-- What every step leaves of the `IOBuf`s that it is not on. -/
theorem Layout.step (s : Sys) (es : Chains) (op : Op) (h : Layout s es) (hf : Fits s op) :
    ∃ pre buf l post s' es', es = pre ++ (buf,l) :: post ∧ pre.length = op.target ∧
      move s op = some s' ∧ Layout s' es' ∧ s.bufs.length ≤ s'.bufs.length ∧
      (∀ j < es.length, j ≠ op.target → es'[j]? = es[j]?) ∧
      ((∀ k bs, op ≠ .write k bs) → Kept s.store s'.store (blocks (pre ++ post))) ∧
      ∀ k bs, op = .write k bs → ∃ buf' l',
        Writes s.store s'.store buf buf' l l' (blocks (pre ++ post)) bs := by
  -- a split adds its piece at the end, so the numbers stay
  have hset (pre post : Chains) (e e' : IOBuf × List ℕ) (ext : Chains) (j : ℕ)
      (hj : j < (pre ++ e :: post).length) (hne : j ≠ pre.length) :
      (pre ++ e' :: post ++ ext)[j]? = (pre ++ e :: post)[j]? := by
    rw [List.length_append, List.length_cons] at hj
    rw [List.getElem?_append_left (by simp; omega)]
    exact getElem?_middle pre post e e' j hne
  cases op with
  | write i bs =>
    rcases h.write_step s es i bs hf with ⟨pre,buf,l,post,st',buf',l',rfl,rfl,hm,hl,hw,-⟩
    refine ⟨pre, buf, l, post, _, _, rfl, rfl, hm, hl, by simp,
      fun j _ hne => getElem?_middle pre post _ _ j hne,
      fun hne => absurd rfl (hne _ bs), ?_⟩
    intro k bs' hop
    obtain ⟨-,rfl⟩ := Op.write.inj hop
    exact ⟨buf', l', hw⟩
  | trimStart i n =>
    rcases h.trimStart_step s es i n hf with ⟨pre,buf,l,post,st',buf',l',rfl,rfl,hm,hl,ht,-⟩
    exact ⟨pre, buf, l, post, _, _, rfl, rfl, hm, hl, by simp,
      fun j _ hne => getElem?_middle pre post _ _ j hne, fun _ => ht.kept,
      fun k bs hop => absurd hop (by simp)⟩
  | trimEnd i n =>
    rcases h.trimEnd_step s es i n hf with ⟨pre,buf,l,post,st',buf',l',rfl,rfl,hm,hl,ht,-⟩
    exact ⟨pre, buf, l, post, _, _, rfl, rfl, hm, hl, by simp,
      fun j _ hne => getElem?_middle pre post _ _ j hne, fun _ => ht.kept,
      fun k bs hop => absurd hop (by simp)⟩
  | split i n =>
    rcases h.split_step s es i n hf with ⟨pre,buf,l,post,st',buf',piece,l',k,rfl,rfl,hm,hl,ht⟩
    exact ⟨pre, buf, l, post, _, _, rfl, rfl, hm, hl, by simp, hset pre post _ _ _, fun _ => ht.kept,
      fun k bs hop => absurd hop (by simp)⟩

theorem Layout.toString_eq (s : Sys) (es : Chains) (h : Layout s es) (j : ℕ) (e : IOBuf × List ℕ)
    (he : es[j]? = some e) : s.toString j = some (text s.store e.2) ∧ s.bufs[j]? = some e.1 ∧
      blocksOf s.store e.1 = e.2 := by
  have hbuf : s.bufs[j]? = some e.1 := by rw [h.bufs, List.getElem?_map, he, Option.map_some]
  have htext : (texts s.store es)[j]? = some (text s.store e.2) := by
    rw [texts, List.getElem?_map, he, Option.map_some]
  rcases List.getElem?_eq_some_iff.mp he with ⟨hj,hej⟩
  rcases List.append_of_mem (hej ▸ List.getElem_mem hj) with ⟨pre,post,hes⟩
  have hs := h.sound
  rw [hes] at hs
  refine ⟨?_, hbuf, ?_⟩
  · rw [Sys.toString, hbuf, Option.bind_some]
    exact (h.reads s es j e.1 _ hbuf htext).toString
  · exact blocksOf_eq s.store e.1 e.2 _ (hs.perm _ _ _ (blocks_middle pre post e))
      (h.holds e (hej ▸ List.getElem_mem hj))

/-- One step on the `IOBuf` `k`, seen from another one. -/
theorem Layout.unseen_step (s s' : Sys) (es : Chains) (op : Op) (h : Layout s es) (hf : Fits s op)
    (hm : move s op = some s') (j : ℕ) (hj : j < s.bufs.length) (hne : op.target ≠ j) :
    s'.toString j = s.toString j ↔ ∀ k bs, op = .write k bs → ∀ buf other, s.bufs[k]? = some buf →
      s.bufs[j]? = some other → Unseen s.store buf other bs := by
  rcases h.step s es op hf with ⟨pre,buf,l,post,s1,es',rfl,htarget,hm1,hl,-,hsame,hkept,hwrites⟩
  obtain rfl : s1 = s' := Option.some.inj (hm1.symm.trans hm)
  have hj' : j < (pre ++ (buf,l) :: post).length := by rwa [h.bufs, List.length_map] at hj
  obtain ⟨e,he⟩ : ∃ e, (pre ++ (buf,l) :: post)[j]? = some e := ⟨_, List.getElem?_eq_getElem hj'⟩
  have hne' : j ≠ pre.length := by
    rw [htarget]
    exact hne.symm
  have hmem := mem_of_getElem?_middle pre post _ e j hne' he
  rcases h.toString_eq s _ j e he with ⟨hbefore,hbufj,hblocks⟩
  have he' := hsame j hj' hne.symm
  rw [he] at he'
  rw [hbefore, (hl.toString_eq s1 es' j e he').1, Option.some.injEq]
  have hin (q : ℕ) (hq : q ∈ e.2) : q ∈ blocks (pre ++ post) := mem_blocks _ e hmem q hq
  -- the other text can only change through the bytes of a buffer
  by_cases hwrite : ∃ k bs, op = .write k bs
  · rcases hwrite with ⟨k,bs,rfl⟩
    rcases hwrites k bs rfl with ⟨buf',l',hw⟩
    have hs := h.sound.perm _ _ _ (blocks_middle pre post (buf,l))
    have hbufk : s.bufs[k]? = some buf := by
      have htarget' : pre.length = k := htarget
      rw [h.bufs, List.map_append, ← htarget', List.getElem?_append_right (by simp), List.length_map,
        Nat.sub_self]
      rfl
    rw [unseen_iff s.store s1.store buf buf' e.1 l l' _ e.2 bs hs hw hin hblocks]
    constructor
    · intro hunseen k' bs' hop buf1 other hbuf1 hother
      obtain ⟨rfl,rfl⟩ := Op.write.inj hop
      obtain rfl := Option.some.inj (hbufk.symm.trans hbuf1)
      obtain rfl := Option.some.inj (hbufj.symm.trans hother)
      exact hunseen
    · intro hall
      exact hall k bs rfl buf e.1 hbufk hbufj
  -- only a write touches the bytes of a buffer
  · have hk := hkept (fun k bs hop => hwrite ⟨k,bs,hop⟩)
    refine ⟨fun _ k bs hop => absurd ⟨k,bs,hop⟩ hwrite, fun _ => ?_⟩
    exact hk.text s.store s1.store _ e.2 hin

theorem Layout.run (s : Sys) (es : Chains) (ops : List Op) (h : Layout s es)
    (hp : Permitted move Fits s ops) : ∃ s' es', ops.foldlM move s = some s' ∧ Layout s' es' := by
  rcases foldlM_refines move Fits (fun s (_ : Unit) => ∃ es, Layout s es) (fun t _ => t) (by
    rintro s t op ⟨es,hl⟩ hf
    rcases hl.step s es op hf with ⟨_,_,_,_,s1,es',-,-,hm1,hl',-⟩
    exact ⟨s1, hm1, es', hl'⟩) s () ops ⟨es,h⟩ hp with ⟨s',hrun,es',hl'⟩
  exact ⟨s', es', hrun, hl'⟩

/-- Both `IOBuf`s of the pair are there. -/
def Pair (i j : ℕ) (s : Sys) : Prop := (∃ es, Layout s es) ∧ i < s.bufs.length ∧ j < s.bufs.length

theorem Pair.step (i j : ℕ) (hij : i ≠ j) (s s' : Sys) (op : Op) (h : Pair i j s) (hf : Fits s op)
    (hm : move s op = some s') :
    Pair i j s' ∧ (Independent i j s op s' ↔ CopiesUnseen i j s op s') := by
  rcases h with ⟨⟨es,hl⟩,hi,hj⟩
  rcases hl.step s es op hf with ⟨_,_,_,_,s1,es',-,-,hm1,hl',hlen,-⟩
  obtain rfl : s1 = s' := Option.some.inj (hm1.symm.trans hm)
  refine ⟨⟨⟨es',hl'⟩, by omega, by omega⟩, ?_⟩
  -- one direction of the pair, from the number `x` to the number `y`
  have hside (x y : ℕ) (hxy : x ≠ y) (hy : y < s.bufs.length) :
      (op.target = x → s1.toString y = s.toString y) ↔ ∀ k bs, op = .write k bs → ∀ buf other,
        s.bufs[k]? = some buf → k = x → s.bufs[y]? = some other → Unseen s.store buf other bs := by
    constructor
    · intro hsame k bs hop buf other hbuf hk hother
      subst hk
      have htarget : op.target = k := by rw [hop]; rfl
      have hne : op.target ≠ y := by rwa [htarget]
      exact (hl.unseen_step s s1 es op hf hm y hy hne).mp (hsame htarget) k bs hop buf other hbuf hother
    · intro hall htarget
      have hne : op.target ≠ y := by rwa [htarget]
      apply (hl.unseen_step s s1 es op hf hm y hy hne).mpr
      intro k bs hop buf other hbuf hother
      apply hall k bs hop buf other hbuf _ hother
      rw [← htarget, hop]
      rfl
  rw [Independent, hside i j hij hj, hside j i hij.symm hi, CopiesUnseen]
  constructor
  · rintro ⟨h1,h2⟩ k bs hop buf other hbuf
    exact ⟨h1 k bs hop buf other hbuf, h2 k bs hop buf other hbuf⟩
  · intro hall
    exact ⟨fun k bs hop buf other hbuf => (hall k bs hop buf other hbuf).1,
      fun k bs hop buf other hbuf => (hall k bs hop buf other hbuf).2⟩

/-- A copy behind all that the other shows. -/
theorem unseen_behind (st : Store) (buf other : IOBuf) (bs : List UInt8) (c off : ℕ)
    (hplace : writePlace st buf = some (c,off))
    (htails : ∀ q ∈ blocksOf st other, ∀ b, dataOf st.heap q = some b → b.tail ≤ off) :
    Unseen st buf other bs := by
  intro c' off' hplace' q hq b hb _ a _ htail hoff _
  obtain ⟨rfl,rfl⟩ := Prod.mk.inj (Option.some.inj (hplace.symm.trans hplace'))
  have hle := htails q hq b hb
  omega

/-- "ab" is written, and "a" is split off. -/
def twoPieces : Sys :=
  (([.write 0 [97,98], .split 0 1] : List Op).foldlM move (start fun _ _ => 0)).getD
    (start fun _ _ => 0)

end Cclab.Iobuf
