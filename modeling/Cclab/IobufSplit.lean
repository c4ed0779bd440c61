import Cclab.IobufTrim

/-! `Split`: the blocks, or parts of a block, that go over to the new `IOBuf`. -/
namespace Cclab.Iobuf
open ByteMemory IntrusiveLists NodeHeap

section chains
variable {A : Type} (x : A) (l k rest : List A)

/-- A block in front of all chains comes behind the chain `k`. -/
theorem perm_front_middle : (x :: (l ++ (k ++ rest))).Perm (k ++ x :: (l ++ rest)) :=
  ((List.perm_append_comm_assoc l k rest).cons x).trans List.perm_middle.symm

/-- It is the last one of the chain `k` then. -/
theorem perm_middle_last : (k ++ x :: (l ++ rest)).Perm (l ++ (k ++ [x] ++ rest)) := by
  have hlast : k ++ x :: (l ++ rest) = k ++ [x] ++ (l ++ rest) := by simp
  rw [hlast]
  exact List.perm_append_comm_assoc (k ++ [x]) l rest

end chains

/-- The block `q` shows a part of what one of the blocks `l` showed, and nothing behind the start
of what that block still shows. -/
def Taken (st st' : Store) (l l' : List ℕ) (q : ℕ) : Prop :=
  ∃ p ∈ l, ∃ b b', dataOf st.heap p = some b ∧ dataOf st'.heap q = some b' ∧ Within b' b ∧
    (p ∈ l' → ∀ c, dataOf st'.heap p = some c → b'.tail ≤ c.data)

/-- What `Split` makes of the blocks `l` when its new `IOBuf` already has the blocks `k`. -/
structure Splits (st st' : Store) (buf' piece' : IOBuf) (l l' k k' rest : List ℕ) (n : ℕ) : Prop where
  sound : Sound st' (l' ++ (k' ++ rest))
  holds : Holds st' buf' l'
  piece : Holds st' piece' k'
  kept : Kept st st' rest
  shrunk : Shrunk st st' l l'
  taken : ∀ q ∈ k', (q ∈ k ∧ dataOf st'.heap q = dataOf st.heap q) ∨ Taken st st' l l' q
  left : text st' l' = (text st l).drop n
  first : text st' k' = text st k ++ (text st l).take n

section split
variable (st : Store) (buf piece : IOBuf) (l k rest : List ℕ) (n : ℕ)

theorem Splits.refl (hs : Sound st (l ++ (k ++ rest))) (hb : Holds st buf l) (hk : Holds st piece k)
    (hn : n = 0 ∨ l = []) : Splits st st buf piece l l k k rest n := by
  have htrims := Trims.refl st buf l (k ++ rest) hs hb
  refine ⟨hs, hb, hk, Kept.refl st rest, htrims.shrunk, fun q hq => Or.inl ⟨hq,rfl⟩, ?_, ?_⟩
  · rcases hn with rfl | rfl
    · rw [List.drop_zero]
    · exact List.drop_nil.symm
  · rcases hn with rfl | rfl
    · rw [List.take_zero, List.append_nil]
    · have hnil : (text st []).take n = [] := List.take_nil
      rw [hnil, List.append_nil]

/-- The first part of the block `p` as a block of its own behind the blocks `k`. -/
theorem cloneFirst_spec (p : ℕ) (b : Block) (hs : Sound st (p :: l ++ (k ++ rest)))
    (hk : Holds st piece k) (hdis : bufferOf st p ∉ k.map (bufferOf st))
    (hd : dataOf st.heap p = some b) (hn : n ≤ b.length) : ∃ st1 st2 st3 piece',
      clone st p = some (st1,st.nextBlock) ∧ dataOf st1.heap st.nextBlock = some b ∧
      blockTrimEnd st1 st.nextBlock (b.length-n) = some st2 ∧
      appendBlock st2 piece st.nextBlock = some (st3,piece') ∧
      Sound st3 (p :: l ++ (k ++ [st.nextBlock] ++ rest)) ∧ Holds st3 piece' (k ++ [st.nextBlock]) ∧
      Kept st st3 (p :: l ++ rest) ∧ (∀ q ∈ k, dataOf st3.heap q = dataOf st.heap q) ∧
      dataOf st3.heap st.nextBlock = some ⟨b.buffer,b.data,n,b.capacity⟩ ∧
      text st3 (k ++ [st.nextBlock]) = text st k ++ (bytesOf st p).take n := by
  have hout := hs.not_mem st _
  -- the copy of the first block is cut to the bytes that are taken
  rcases hs.clone st _ p b (by simp) hd with ⟨st1,hc,hs1,hmem1,hd1,hn1,hp1,hkeep1⟩
  rcases blockTrimEnd_spec st1 _ hs1 st.nextBlock (b.length-n) b hd1 (Nat.sub_le _ _) List.mem_cons_self
    with ⟨st2,ht2,hs2,hmem2,hd2,hbytes2,hnx2,hpv2,hbuf2,hkeep2⟩
  have hlen : b.length-(b.length-n) = n := by omega
  rw [hlen] at hd2 hbytes2
  have hsame2 (q : ℕ) (hq : q ∈ p :: l ++ (k ++ rest)) : st2.heap q = st.heap q := by
    have hne : q ≠ st.nextBlock := fun he => hout (he ▸ hq)
    rw [hkeep2 q hne, hkeep1 q hne]
  have hink (q : ℕ) (hq : q ∈ k) : q ∈ p :: l ++ (k ++ rest) :=
    List.mem_append_right _ (List.mem_append_left rest hq)
  have hkeptk : Kept st st2 k := ⟨hmem2.trans hmem1, fun q hq => hsame2 q (hink q hq)⟩
  -- the copy is not yet in a chain, and the other blocks are the rest for it
  have hs2' := hs2.perm _ _ _ (perm_front_middle st.nextBlock (p :: l) k rest)
  -- only `p` shares its buffer with the copy
  have hfresh : bufferOf st2 st.nextBlock ∉ k.map (bufferOf st2) := by
    have hsame : k.map (bufferOf st2) = k.map (bufferOf st) := by
      apply List.map_congr_left
      intro q hq
      rw [bufferOf, bufferOf, dataOf, dataOf, hsame2 q (hink q hq)]
    have hb2 : bufferOf st2 st.nextBlock = bufferOf st p := by
      rw [bufferOf, hd2, bufferOf, hd]
      rfl
    rwa [hsame, hb2]
  rcases appendBlock_spec st2 piece k (p :: l ++ rest) st.nextBlock hs2' (hk.kept st st2 piece k hkeptk.heap)
    (by rw [hnx2, hn1]) (by rw [hpv2, hp1]) hfresh with ⟨h3,piece3,ha3,hd3,hk3,hkeep3⟩
  have hs3 := (hs2'.relink st2 _ h3 hd3).perm _ _ _ (perm_middle_last st.nextBlock (p :: l) k rest)
  refine ⟨st1, st2, { st2 with heap := h3 }, piece3, hc, hd1, ht2, ha3, hs3, hk3, ⟨hkeptk.mem,?_⟩,
    ?_, ?_, ?_⟩
  · intro q hq
    have hq' : q ∈ p :: l ++ (k ++ rest) := by
      simp only [List.mem_append] at hq ⊢
      tauto
    have hne : q ∉ st.nextBlock :: k := by
      intro hm
      rcases List.mem_cons.mp hm with rfl | hm
      · exact hout hq'
      · exact (List.nodup_append'.mp hs2'.nodup).2.2 hm (List.mem_cons_of_mem _ hq)
    exact (hkeep3 q hne).trans (hsame2 q hq')
  · intro q hq
    rw [hd3, dataOf, hsame2 q (hink q hq), dataOf]
  · rw [hd3]
    exact hd2
  · have hsource : bytesOf st1 st.nextBlock = bytesOf st p := by
      rw [bytesOf_eq st1 _ b hd1, bytesOf_eq st p b hd, hmem1]
    rw [text_relink st2 h3 hd3, text_append, text_single, hbytes2, hsource,
      hkeptk.text st st2 k k (fun _ hq => hq)]

theorem splitBlock_spec (p : ℕ) (b : Block) (hs : Sound st (p :: l ++ (k ++ rest)))
    (hb : Holds st buf (p :: l)) (hk : Holds st piece k) (hdis : bufferOf st p ∉ k.map (bufferOf st))
    (hd : dataOf st.heap p = some b) (hn : n < b.length) : ∃ st' buf' piece' k',
      splitBlock st buf piece n = some (st',buf',piece') ∧
      Splits st st' buf' piece' (p :: l) (p :: l) k k' rest n := by
  have hhead : buf.head = p := hb.ring.1
  rcases cloneFirst_spec st piece l k rest n p b hs hk hdis hd (Nat.le_of_lt hn) with
    ⟨st1,st2,st3,piece3,hc,hd1,ht2,ha3,hs3,hk3,hkept3,hdk,hdnew,htext3⟩
  have hd3 : dataOf st3.heap p = some b := by
    rw [dataOf, hkept3.heap p (by simp)]
    exact hd
  have hb3 := hb.kept st st3 buf (p :: l)
    (fun q hq => hkept3.heap q (List.mem_append_left rest hq))
  -- the old first block keeps the rest of its window
  rcases cutFirst_spec st3 buf p l (k ++ [st.nextBlock] ++ rest) n b hs3 hb3 hd3 (Nat.le_of_lt hn) with
    ⟨st4,ht4,htrims,htext4,hmem4,hself4,-⟩
  have hlen := bytesOf_length st p b hd
  have hleft : text st4 (p :: l) = (text st (p :: l)).drop n := by
    rw [htext4, hkept3.text st st3 _ (p :: l) (fun q hq => List.mem_append_left rest hq)]
  have hkeptk : Kept st3 st4 (k ++ [st.nextBlock]) :=
    ⟨hmem4, fun q hq => htrims.kept.heap q (List.mem_append_left rest hq)⟩
  refine ⟨st4, ⟨buf.length-n,buf.head⟩, piece3, k ++ [st.nextBlock], ?_, htrims.sound, htrims.holds,
    hk3.kept st3 st4 piece3 _ hkeptk.heap, ?_, ?_, ?_, hleft, ?_⟩
  · simp only [splitBlock, hhead, hc, hd1, ht2, ha3, ht4, Option.bind_eq_bind, Option.bind_some,
      Option.pure_def]
  · refine Kept.trans st st3 st4 rest ⟨hkept3.mem, fun q hq => ?_⟩ ⟨hmem4, fun q hq => ?_⟩
    · exact hkept3.heap q (List.mem_append_right _ hq)
    · exact htrims.kept.heap q (List.mem_append_right _ hq)
  · intro q hq
    rcases htrims.shrunk q hq with ⟨-,c,c',hc,hc',hw⟩
    refine ⟨hq, c, c', ?_, hc', hw⟩
    rw [← hc, dataOf, dataOf, hkept3.heap q (List.mem_append_left rest hq)]
  · intro q hq
    have hd4 : dataOf st4.heap q = dataOf st3.heap q := by
      rw [dataOf, dataOf, hkeptk.heap q hq]
    rcases List.mem_append.mp hq with hq | hq
    · exact Or.inl ⟨hq, hd4.trans (hdk q hq)⟩
    · obtain rfl := List.mem_singleton.mp hq
      refine Or.inr ⟨p, List.mem_cons_self, b, _, hd, hd4.trans hdnew,
        within_end b n (Nat.le_of_lt hn), ?_⟩
      intro _ c hc
      rw [hself4] at hc
      rw [← Option.some.inj hc]
      exact Nat.le_refl _
  · rw [hkeptk.text st3 st4 _ _ (fun _ hq => hq), htext3, text_cons,
      List.take_append_of_le_length (by omega)]

end split

/-- The first block, moved as a whole behind the blocks `k`. -/
theorem moveFirst_spec (st : Store) (buf piece : IOBuf) (p : ℕ) (l k rest : List ℕ)
    (hs : Sound st (p :: l ++ (k ++ rest))) (hb : Holds st buf (p :: l)) (hk : Holds st piece k)
    (hdis : bufferOf st p ∉ k.map (bufferOf st)) : ∃ st1 h buf' piece',
      pop st buf = some (st1,buf',p) ∧ appendBlock st1 piece p = some ({ st with heap := h },piece') ∧
      dataOf h = dataOf st.heap ∧ Sound { st with heap := h } (l ++ (k ++ [p] ++ rest)) ∧
      Holds { st with heap := h } buf' l ∧ Holds { st with heap := h } piece' (k ++ [p]) ∧
      ∀ q ∈ rest, h q = st.heap q := by
  rcases pop_spec st buf l (k ++ rest) p hs hb with ⟨h1,buf1,hpop,hd1,hb1,hn1,hp1,hkeep1⟩
  have hnd := (List.nodup_append'.mp hs.nodup).2.2
  have hrest := (List.nodup_append'.mp ((List.nodup_append'.mp hs.nodup).2.1)).2.2
  -- the blocks behind which it goes are in no link of the chain that it leaves
  have hk1 : Holds { st with heap := h1 } piece k := hk.kept _ _ _ _
    (fun q hq => hkeep1 q (fun hm => hnd hm (List.mem_append_left rest hq)))
  have hs1 := (hs.relink st _ h1 hd1).perm _ _ _ (perm_front_middle p l k rest)
  rcases appendBlock_spec { st with heap := h1 } piece k (l ++ rest) p hs1 hk1 hn1 hp1
    (by rwa [bufferOf_relink st h1 hd1]) with ⟨h2,piece2,happ,hd2,hk2,hkeep2⟩
  -- no block of the other chains is written by the second step
  have hpk (q : ℕ) (hq : q ∈ l ++ rest) : q ∉ p :: k := by
    intro hm
    rcases List.mem_cons.mp hm with rfl | hm
    · exact (List.nodup_cons.mp (List.perm_middle.nodup_iff.mp hs1.nodup)).1
        (List.mem_append_right k hq)
    · exact (List.nodup_append'.mp hs1.nodup).2.2 hm (List.mem_cons_of_mem p hq)
  have hs2 := (hs1.relink _ _ h2 hd2).perm _ _ _ (perm_middle_last p l k rest)
  refine ⟨_, h2, buf1, piece2, hpop, happ, hd2.trans hd1, hs2, ?_, hk2, ?_⟩
  · exact hb1.kept _ _ _ _ (fun q hq => hkeep2 q (hpk q (List.mem_append_left rest hq)))
  · intro q hq
    rw [hkeep2 q (hpk q (List.mem_append_right l hq))]
    exact hkeep1 q (fun hm => hnd hm (List.mem_append_right k hq))

theorem splitLoop_spec (fuel : ℕ) (st : Store) (buf piece : IOBuf) (l k rest : List ℕ) (n : ℕ)
    (hf : l.length < fuel) (hs : Sound st (l ++ (k ++ rest))) (hb : Holds st buf l)
    (hk : Holds st piece k) (hdis : ((k ++ l).map (bufferOf st)).Nodup) :
    ∃ st' buf' piece' l' k', splitLoop fuel st buf piece n = some (st',buf',piece') ∧
      Splits st st' buf' piece' l l' k k' rest n := by
  induction l generalizing fuel st buf piece k n with
  | nil =>
    obtain ⟨f,rfl⟩ := Nat.exists_eq_succ_of_ne_zero (Nat.ne_of_gt hf)
    have hhead : buf.head = nullptr := hb.ring
    refine ⟨st, buf, piece, [], k, ?_, Splits.refl st buf piece [] k rest n hs hb hk (Or.inr rfl)⟩
    rw [splitLoop, if_pos (Or.inr hhead)]
  | cons p l ih =>
    obtain ⟨f,rfl⟩ := Nat.exists_eq_succ_of_ne_zero (Nat.ne_of_gt (Nat.zero_lt_of_lt hf))
    by_cases hn : n = 0
    · refine ⟨st, buf, piece, p :: l, k, ?_, Splits.refl st buf piece _ k rest n hs hb hk (Or.inl hn)⟩
      rw [splitLoop, if_pos (Or.inl hn)]
    have hhead : buf.head = p := hb.ring.1
    have hstop : ¬(n = 0 ∨ p = nullptr) := by
      rw [not_or]
      exact ⟨hn,(hs.known p (by simp)).1⟩
    rcases hs.live p (by simp) with ⟨b,hdp,-⟩
    have hlen := bytesOf_length st p b hdp
    have hfresh : bufferOf st p ∉ k.map (bufferOf st) := by
      intro hm
      rw [List.map_append, List.nodup_append'] at hdis
      exact hdis.2.2 hm (by simp)
    by_cases hwhole : b.length ≤ n
    -- the first block belongs to the piece as a whole: `ih` on what is left of the chain
    · rcases moveFirst_spec st buf piece p l k rest hs hb hk hfresh with
        ⟨st1,h,buf2,piece2,hpop,happ,hd2,hs2,hb2,hk2,hkeep2⟩
      have hdis2 : ((k ++ [p] ++ l).map (bufferOf { st with heap := h })).Nodup := by
        rwa [bufferOf_relink st h hd2, List.append_assoc, List.singleton_append]
      rcases ih f { st with heap := h } buf2 piece2 (k ++ [p]) (n-b.length)
        (Nat.lt_of_succ_lt_succ hf) hs2 hb2 hk2 hdis2 with ⟨st',buf',piece',l',k',hloop,hsp⟩
      refine ⟨st', buf', piece', l', k', ?_, hsp.sound, hsp.holds, hsp.piece, ?_, ?_, ?_, ?_, ?_⟩
      · simp only [splitLoop, hhead, if_neg hstop, hdp, Option.bind_eq_bind, Option.bind_some,
          if_pos hwhole, hpop, happ, hloop]
      · exact Kept.trans st { st with heap := h } st' rest ⟨rfl,hkeep2⟩ hsp.kept
      · intro q hq
        rcases hsp.shrunk q hq with ⟨hql,c,c',hc,hc',hw⟩
        exact ⟨List.mem_cons_of_mem p hql, c, c', hd2 ▸ hc, hc', hw⟩
      -- the moved block shows what it showed, and is gone from the old chain
      · intro q hq
        rcases hsp.taken q hq with ⟨hqk,hdq⟩ | ⟨r,hr,c,c',hc,hc',hw,hcut⟩
        · rw [show dataOf ({ st with heap := h } : Store).heap q = dataOf st.heap q from
            congrFun hd2 q] at hdq
          rcases List.mem_append.mp hqk with hqk | hqp
          · exact Or.inl ⟨hqk,hdq⟩
          · obtain rfl := List.mem_singleton.mp hqp
            refine Or.inr ⟨q, List.mem_cons_self, b, b, hdp, hdq.trans hdp, Within.refl b, ?_⟩
            intro hm
            have hql := (hsp.shrunk q hm).1
            exact absurd (List.mem_append_left (k ++ rest) hql) (List.nodup_cons.mp hs.nodup).1
        · exact Or.inr ⟨r, List.mem_cons_of_mem p hr, c, c', hd2 ▸ hc, hc', hw, hcut⟩
      · have hdrop : (bytesOf st p).drop n = [] := List.drop_of_length_le (by omega)
        rw [hsp.left, text_relink st h hd2, text_cons, List.drop_append, hdrop, hlen, List.nil_append]
      · have htake : (bytesOf st p).take n = bytesOf st p := List.take_of_length_le (by omega)
        rw [hsp.first, text_relink st h hd2, text_relink st h hd2, text_append, text_single, text_cons,
          List.take_append, htake, hlen, List.append_assoc]
    -- the split is inside the first block, and the loop ends
    · rcases splitBlock_spec st buf piece l k rest n p b hs hb hk hfresh hdp (by omega) with
        ⟨st',buf',piece',k',hsplit,hsp⟩
      refine ⟨st', buf', piece', p :: l, k', ?_, hsp⟩
      simp only [splitLoop, hhead, if_neg hstop, hdp, Option.bind_eq_bind, Option.bind_some,
        if_neg hwhole, hsplit]

end Cclab.Iobuf
