import Cclab.IobufChanges
import Cclab.IobufShared

/-! Which commits keep every block inside its buffer, when `PreAllocate` and `PostAllocate` are
called in any order with any sizes and only the assertions stop a call. -/
namespace Cclab.Iobuf
open ByteMemory NodeHeap OperationRuns

/-- The calls of a user, with the size of a commit as the `size_t` that it is. -/
inductive UserCall where
  | create
  | destroy (i : ℕ)
  | preAllocate (i : ℕ)
  | postAllocate (i : ℕ) (size : UInt64)
  | trimStart (i n : ℕ)
  | trimEnd (i n : ℕ)
  | split (i n : ℕ)

def perform (s : Sys) : UserCall → Option Sys
  | .create => some s.create
  | .destroy i => s.destroy i
  | .preAllocate i => do
    let buf ← s.bufs[i]?
    let r ← preAllocate s.store buf
    return ⟨r.1, s.bufs.set i r.2.1⟩
  | .postAllocate i size => do
    let buf ← s.bufs[i]?
    let r ← postAllocate s.store buf size.toNat
    return ⟨r.1, s.bufs.set i r.2⟩
  | .trimStart i n => move s (.trimStart i n)
  | .trimEnd i n => move s (.trimEnd i n)
  | .split i n => move s (.split i n)

/-- Every block there is has the property. -/
def Store.Every (st : Store) (P : Block → Prop) : Prop := ∀ p b, dataOf st.heap p = some b → P b

def Block.Sized (b : Block) : Prop := b.capacity = kDefaultBufferSize-sizeofSharedInfo

/-- Every block ends inside its buffer, `Space` is what is left behind it, and what `PreAllocate`
offers ends before the reference count. -/
structure Confined (st : Store) : Prop where
  inside : st.Every fun b => b.tail ≤ b.capacity
  space : st.Every fun b => b.tail+b.space = b.capacity
  offer : ∀ buf st' buf' place n, preAllocate st buf = some (st',buf',place,n) →
    place.2+n ≤ kDefaultBufferSize-sizeofSharedInfo

/-- What is committed fits in the space of the last block, or makes its length wrap. -/
def CommitFits (s : Sys) (c : UserCall) (_ : Sys) : Prop :=
  ∀ i size, c = .postAllocate i size → ∀ buf b, s.bufs[i]? = some buf →
    rearBlock s.store buf = some b → size.toNat ≤ b.space ∨ 2^64 ≤ b.length+size.toNat

theorem alloc_every (st : Store) (p : ℕ) (n : Node Block) (P : Block → Prop) (hn : P n.data)
    (h : st.Every P) (q : ℕ) (b : Block) (hb : dataOf (alloc st.heap p n) q = some b) : P b := by
  by_cases hq : q = p
  · rw [hq, (alloc_self st.heap p n).2.2] at hb
    rwa [← Option.some.inj hb]
  · rw [(alloc_of_ne st.heap p q n hq).2.2] at hb
    exact h q b hb

/-- A property of new blocks that no move of a window takes away is kept by every change. -/
theorem Change.every (W : Block → Block → Prop) (P : Block → Prop)
    (hW : ∀ b b', W b b' → P b → P b') (hnew : ∀ c, P ⟨c,0,0,kDefaultBufferSize-sizeofSharedInfo⟩)
    (f : Flow) (st st' : Store) (hc : Change W f st st') (h : st.Every P) : st'.Every P := by
  cases hc with
  | links _ _ h1 hd =>
    intro p b hb
    exact h p b (congrFun hd p ▸ hb)
  | bytes => exact h
  | new => exact alloc_every st _ _ P (hnew st.nextBuffer) h
  | clone _ _ p q hc =>
    simp only [Iobuf.clone, Option.bind_eq_bind, Option.bind_eq_some_iff, Option.guard_eq_some'] at hc
    rcases hc with ⟨b,hb,-,-,he⟩
    obtain ⟨rfl,-⟩ := Prod.mk.inj (Option.some.inj he)
    exact alloc_every st _ _ P (h p b hb) h
  | delete _ _ p hd =>
    simp only [Iobuf.deleteBlock, Option.bind_eq_bind, Option.bind_eq_some_iff, Option.guard_eq_some'] at hd
    rcases hd with ⟨b,-,-,-,he⟩
    obtain rfl := Option.some.inj he
    intro q d hq
    by_cases hqp : q = p
    · have hgone : dataOf (free st.heap p) q = some d := hq
      rw [hqp, free_self] at hgone
      exact absurd hgone (by simp)
    · exact h q d ((free_of_ne st.heap p q hqp).2.2.symm.trans hq)
  | window _ _ _ p b b' hb hw hset =>
    intro q d hq
    rw [setBlock_data st st' p b' hset] at hq
    by_cases hqp : q = p
    · rw [hqp, Function.update_self] at hq
      rw [← Option.some.inj hq]
      exact hW b b' hw (h p b hb)
    · rw [Function.update_of_ne hqp] at hq
      exact h q d hq

theorem Changes.sized (f : Flow) (st st' : Store) (hc : Changes Cut f st st') (h : st.Every Block.Sized) :
    st'.Every Block.Sized := by
  apply Changes.invariant Cut f (fun st => st.Every Block.Sized) _ st st' hc h
  refine Change.every Cut Block.Sized ?_ ?_ f
  · intro b b' hw hb
    exact hw.2.trans hb
  · intro c
    rfl

theorem Changes.inside (f : Flow) (st st' : Store) (hc : Changes Cut f st st')
    (h : st.Every fun b => b.tail ≤ b.capacity) : st'.Every fun b => b.tail ≤ b.capacity := by
  apply Changes.invariant Cut f (fun st => st.Every fun b => b.tail ≤ b.capacity) _ st st' hc h
  refine Change.every Cut _ ?_ ?_ f
  · intro b b' hw hb
    rw [hw.2]
    exact Nat.le_trans hw.1.2.2 hb
  · intro c
    exact Nat.zero_le _

/-- The place that `PreAllocate` returns is behind the last block or in a new buffer. -/
theorem preAllocate_place (st st' : Store) (buf buf' : IOBuf) (place : ℕ × ℕ) (n : ℕ)
    (h : preAllocate st buf = some (st',buf',place,n)) :
    (∃ p b, dataOf st.heap p = some b ∧ place.2 = b.tail ∧ n = b.space) ∨
      (place.2 = 0 ∧ n = kDefaultBufferSize-sizeofSharedInfo) := by
  have hnew (b : Block) (hb : dataOf (newBlock st).1.heap (newBlock st).2 = some b) :
      b.capacity = kDefaultBufferSize-sizeofSharedInfo := by
    have hself := (alloc_self st.heap st.nextBlock (⟨⟨st.nextBuffer,0,0,
      kDefaultBufferSize-sizeofSharedInfo⟩,st.nextBlock,st.nextBlock⟩ : Node Block)).2.2
    rw [← Option.some.inj (hself.symm.trans hb)]
  unfold preAllocate at h
  split_ifs at h with hhead
  · simp only [Option.bind_eq_bind, Option.bind_eq_some_iff] at h
    rcases h with ⟨b,hb,he⟩
    simp only [Option.pure_def, Option.some.injEq, Prod.mk.injEq] at he
    rcases he with ⟨-,-,rfl,rfl⟩
    exact Or.inr ⟨rfl, hnew b hb⟩
  · simp only [Option.bind_eq_bind, Option.bind_eq_some_iff] at h
    rcases h with ⟨hd,-,rear,hrear,h⟩
    split_ifs at h with hspace
    · simp only [Option.some.injEq, Prod.mk.injEq] at h
      rcases h with ⟨-,-,rfl,rfl⟩
      exact Or.inl ⟨hd.prev, rear, hrear, rfl, rfl⟩
    · simp only [Option.bind_eq_some_iff] at h
      rcases h with ⟨b,hb,q,-,he⟩
      simp only [Option.pure_def, Option.some.injEq, Prod.mk.injEq] at he
      rcases he with ⟨-,-,rfl,rfl⟩
      exact Or.inr ⟨rfl, hnew b hb⟩

/-- That all blocks are inside is all that there is to it. -/
theorem confined_of_inside (st : Store) (hs : st.Every Block.Sized)
    (h : st.Every fun b => b.tail ≤ b.capacity) : Confined st := by
  have hspace : st.Every fun b => b.tail+b.space = b.capacity := by
    intro p b hb
    have heq := space_inside b (h p b hb) (hs p b hb)
    have hle := h p b hb
    omega
  refine ⟨h, hspace, ?_⟩
  intro buf st' buf' place n hpre
  rcases preAllocate_place st st' buf buf' place n hpre with ⟨p,b,hb,hplace,hn⟩ | ⟨hplace,hn⟩
  · have hsum := hspace p b hb
    have hcap := hs p b hb
    unfold Block.Sized at hcap
    omega
  · omega

/-- All calls but a commit trim, copy and add blocks only. -/
theorem perform_changes (s t : Sys) (c : UserCall) (h : perform s c = some t)
    (hc : ∀ i size, c ≠ .postAllocate i size) : ∃ f, Changes Cut f s.store t.store := by
  cases c with
  | create =>
    obtain rfl := Option.some.inj h
    exact ⟨.adds, .refl⟩
  | destroy i => exact ⟨.deletes, s.destroy_changes t i h⟩
  | preAllocate i =>
    simp only [perform, Option.bind_eq_bind, Option.bind_eq_some_iff] at h
    rcases h with ⟨buf,-,⟨st,buf',place,n⟩,hpre,he⟩
    obtain rfl := Option.some.inj he
    exact ⟨.adds, preAllocate_changes s.store st buf buf' place n hpre⟩
  | postAllocate i size => exact absurd rfl (hc i size)
  | trimStart i n => exact move_changes s t (.trimStart i n) h (fun _ _ he => absurd he (by simp))
  | trimEnd i n => exact move_changes s t (.trimEnd i n) h (fun _ _ he => absurd he (by simp))
  | split i n => exact move_changes s t (.split i n) h (fun _ _ he => absurd he (by simp))

/-- Where the end of a block is after a commit that its assertion lets pass. -/
theorem commit_inside_iff (b : Block) (size : UInt64) (hb : b.tail ≤ b.capacity) (hs : b.Sized) :
    b.data+(b.length+size.toNat)%2^64 ≤ b.capacity ↔
      size.toNat ≤ b.space ∨ 2^64 ≤ b.length+size.toNat := by
  have hspace := space_inside b hb hs
  have hsize : size.toNat < 2^64 := size.toNat_lt
  unfold Block.Sized kDefaultBufferSize sizeofSharedInfo at hs
  unfold Block.tail at hb hspace
  omega

theorem commit_confined_iff (s t : Sys) (i : ℕ) (size : UInt64) (hs : s.store.Every Block.Sized)
    (hp : s.store.Every fun b => b.tail ≤ b.capacity) (h : perform s (.postAllocate i size) = some t) :
    t.store.Every Block.Sized ∧ ((t.store.Every fun b => b.tail ≤ b.capacity) ↔
      CommitFits s (.postAllocate i size) t) := by
  simp only [perform, Option.bind_eq_bind, Option.bind_eq_some_iff] at h
  rcases h with ⟨buf,hbuf,⟨st,buf'⟩,hpost,he⟩
  obtain rfl := Option.some.inj he
  rcases postAllocate_data s.store st buf buf' _ hpost with ⟨p,b,hrear,hb,-,hset⟩
  have hd := setBlock_data s.store st p _ hset
  have hself : dataOf st.heap p = some { b with length := (b.length+size.toNat)%2^64 } := by
    rw [hd, Function.update_self]
  have hiff := commit_inside_iff b size (hp p b hb) (hs p b hb)
  refine ⟨?_, ?_, ?_⟩
  · have hone : Change (fun b b' => b'.capacity = b.capacity) .adds s.store st :=
      .window _ s.store st p b _ hb (by rfl) hset
    exact Change.every _ _ (fun b b' hw h => hw.trans h) (fun c => rfl) _ s.store st hone hs
  · intro hin j k hcall buf1 b1 hbuf1 hrear1
    obtain ⟨rfl,rfl⟩ := UserCall.postAllocate.inj hcall
    obtain rfl := Option.some.inj (hbuf.symm.trans hbuf1)
    obtain rfl := Option.some.inj (hrear.symm.trans hrear1)
    exact hiff.mp (hin p _ hself)
  -- the other blocks are as they were
  · intro hfits q d hq
    by_cases hqp : q = p
    · rw [hqp, hself] at hq
      rw [← Option.some.inj hq]
      exact hiff.mpr (hfits i size rfl buf b hbuf hrear)
    · have hold : dataOf s.store.heap q = some d := by
        rw [← hq]
        exact (congrFun hd q ▸ Function.update_of_ne hqp _ _).symm
      exact hp q d hold

theorem confined_step (s : Sys) (c : UserCall) (t : Sys) (hs : s.store.Every Block.Sized)
    (hp : Confined s.store) (h : perform s c = some t) :
    t.store.Every Block.Sized ∧ (Confined t.store ↔ CommitFits s c t) := by
  by_cases hc : ∃ i size, c = .postAllocate i size
  · rcases hc with ⟨i,size,rfl⟩
    rcases commit_confined_iff s t i size hs hp.inside h with ⟨hst,hiff⟩
    refine ⟨hst, ?_⟩
    rw [← hiff]
    exact ⟨fun hin => hin.inside, confined_of_inside t.store hst⟩
  · obtain ⟨f,hchanges⟩ := perform_changes s t c h (fun i size he => hc ⟨i,size,he⟩)
    have hst := hchanges.sized f s.store t.store hs
    refine ⟨hst, ?_, ?_⟩
    · intro _ i size he
      exact absurd ⟨i,size,he⟩ hc
    · intro _
      exact confined_of_inside t.store hst (hchanges.inside f s.store t.store hp.inside)

theorem start_every (mem : ℕ → Mem) (P : Block → Prop) : (start mem).store.Every P := by
  intro p b hb
  exact absurd hb (by simp [start, dataOf])

/-- In every sequence of calls the blocks stay inside their buffers exactly if every commit fits
in the space of the last block (or takes bytes back by a wrap). -/
theorem confined_iff (mem : ℕ → Mem) (cs : List UserCall) :
    Along perform (fun _ _ t => Confined t.store) (start mem) cs ↔
      Along perform CommitFits (start mem) cs := by
  apply along_state_iff perform (fun s => s.store.Every Block.Sized) (fun s => Confined s.store)
  · intro s c t hs hp h
    exact confined_step s c t hs hp h
  · exact start_every mem _
  · exact confined_of_inside _ (start_every mem _) (start_every mem _)

/-- Two bytes are committed, one of them is trimmed off at the start, and then as many bytes are
committed as the assertion lets pass: the block ends behind the start of the reference count. -/
theorem commit_passes_end : ∃ (s : Sys) (buf : IOBuf) (b : Block),
    [.preAllocate 0, .postAllocate 0 2, .trimStart 0 1, .postAllocate 0 524283].foldlM perform
      (start fun _ _ => 0) = some s ∧ s.bufs = [buf] ∧ dataOf s.store.heap 1 = some b ∧
    b.tail = b.capacity+1 ∧ b.space = 2^64-1 ∧
    (preAllocate s.store buf).map (fun r => r.2.2) = some ((0,b.capacity+1),2^64-1) ∧
    ¬ Confined s.store := by
  refine ⟨_, _, _, rfl, rfl, rfl, by decide, by decide, by decide, ?_⟩
  intro h
  exact absurd (h.inside 1 _ rfl) (by decide)

/-- The call is on an `IOBuf` that there is, and commits at most the space of its last block. -/
def Fitting (s : Sys) : UserCall → Prop
  | .create => True
  | .destroy i => i < s.bufs.length
  | .preAllocate i => i < s.bufs.length
  | .postAllocate i size => ∃ buf b, s.bufs[i]? = some buf ∧ rearBlock s.store buf = some b ∧
    size.toNat ≤ b.space
  | .trimStart i _ => i < s.bufs.length
  | .trimEnd i _ => i < s.bufs.length
  | .split i _ => i < s.bufs.length

theorem Fitting.commitFits (s t : Sys) (c : UserCall) (h : Fitting s c) : CommitFits s c t := by
  rintro i size rfl buf b hbuf hrear
  rcases h with ⟨buf',b',hbuf',hrear',hsize⟩
  obtain rfl := Option.some.inj (hbuf.symm.trans hbuf')
  obtain rfl := Option.some.inj (hrear.symm.trans hrear')
  exact Or.inl hsize

/-- A commit without a copy leaves what is in the buffer. -/
theorem postAllocate_returns (st : Store) (buf : IOBuf) (l rest : List ℕ) (b : Block) (k : ℕ)
    (hs : Sound st (l ++ rest)) (hb : Holds st buf l) (hrear : rearBlock st buf = some b)
    (hk : k ≤ b.space) : ∃ st' buf', postAllocate st buf k = some (st',buf') ∧
      Sound st' (l ++ rest) ∧ Holds st' buf' l ∧ ∀ p ∈ rest, st'.heap p = st.heap p := by
  rcases List.eq_nil_or_concat l with rfl | ⟨m,r,rfl⟩
  · have hhead : buf.head = nullptr := hb.ring
    rw [rearBlock, if_pos hhead] at hrear
    exact absurd hrear (by simp)
  rw [List.concat_eq_append] at *
  rcases hs.live r (by simp) with ⟨d,hd,hv⟩
  have hlast := rearBlock_spec st buf m r _ hs (fun p hp => List.mem_append_left rest hp) hb d hd
  obtain rfl : d = b := Option.some.inj (hlast.symm.trans hrear)
  rw [space_eq d _ hv] at hk
  rcases postAllocate_spec st buf m rest r d (load (st.mem d.buffer) d.tail k) hs hb hd
    (by rwa [load_length]) with ⟨st1,st2,buf2,hcopy,hpost,hs2,hb2,hkeep2,-⟩
  -- what is copied is what is there already
  have hsame : st1 = st := by
    simp only [copyTo, Option.bind_eq_bind, Option.bind_eq_some_iff] at hcopy
    rcases hcopy with ⟨-,-,he⟩
    rw [store_load, Function.update_eq_self] at he
    exact (Option.some.inj he).symm
  rw [hsame, load_length] at hpost
  refine ⟨st2, buf2, hpost, hs2, hb2, ?_⟩
  intro p hp
  apply hkeep2
  rintro rfl
  exact (List.nodup_append'.mp hs.nodup).2.2 (by simp) hp

theorem Layout.perform (s : Sys) (es : Chains) (c : UserCall) (h : Layout s es) (hf : Fitting s c) :
    ∃ t es', perform s c = some t ∧ Layout t es' := by
  have hmove (o : Op) (ho : o.target < s.bufs.length) (hw : ∀ i bs, o ≠ .write i bs) :
      ∃ t es', move s o = some t ∧ Layout t es' := by
    rcases h.step s es o ⟨ho, fun i bs he => absurd he (hw i bs)⟩ with
      ⟨_,_,_,_,t,es',-,-,ht,hl,-⟩
    exact ⟨t, es', ht, hl⟩
  cases c with
  | create => exact ⟨_, _, rfl, h.create s es⟩
  | destroy i =>
    rcases h.destroy_step s es i hf with ⟨t,es',ht,hl⟩
    exact ⟨t, es', ht, hl⟩
  | preAllocate i =>
    rcases h.at s es i hf with ⟨pre,buf,l,post,rfl,rfl,hbuf,hs,hb⟩
    rcases preAllocate_spec s.store buf l _ hs hb with ⟨st',buf',m,q,b,hpre,hres⟩
    refine ⟨_, _, ?_, h.replace s pre post buf l st' buf' _ hres.holds hres.kept.heap hres.sound⟩
    simp only [Iobuf.perform, hbuf, hpre, Option.bind_eq_bind, Option.bind_some, Option.pure_def]
  | postAllocate i size =>
    rcases hf with ⟨buf1,b,hbuf1,hrear,hsize⟩
    rcases h.at s es i (List.getElem?_eq_some_iff.mp hbuf1).1 with
      ⟨pre,buf,l,post,rfl,rfl,hbuf,hs,hb⟩
    obtain rfl := Option.some.inj (hbuf.symm.trans hbuf1)
    rcases postAllocate_returns s.store buf l _ b _ hs hb hrear hsize with
      ⟨st',buf',hpost,hs',hb',hkeep⟩
    refine ⟨_, _, ?_, h.replace s pre post buf l st' buf' l hb' hkeep hs'⟩
    simp only [Iobuf.perform, hbuf, hpost, Option.bind_eq_bind, Option.bind_some, Option.pure_def]
  | trimStart i n => exact hmove (.trimStart i n) hf (fun _ _ he => absurd he (by simp))
  | trimEnd i n => exact hmove (.trimEnd i n) hf (fun _ _ he => absurd he (by simp))
  | split i n => exact hmove (.split i n) hf (fun _ _ he => absurd he (by simp))

/-- If every commit is of at most the space there is, no call fails and the blocks stay inside
their buffers. -/
theorem fitting_run (mem : ℕ → Mem) (cs : List UserCall)
    (h : Permitted perform Fitting (start mem) cs) :
    ∃ s, cs.foldlM perform (start mem) = some s ∧ Confined s.store := by
  have hrun := foldlM_refines perform Fitting (fun s (_ : Unit) => (∃ es, Layout s es) ∧
    s.store.Every Block.Sized ∧ Confined s.store) (fun t _ => t) (by
      rintro s t c ⟨⟨es,hl⟩,hs,hp⟩ hf
      rcases hl.perform s es c hf with ⟨s',es',ht,hl'⟩
      rcases confined_step s c s' hs hp ht with ⟨hs',hiff⟩
      exact ⟨s', ht, ⟨es',hl'⟩, hs', hiff.mpr (hf.commitFits s s' c)⟩) (start mem) () cs
  rcases hrun ⟨⟨_,layout_start mem⟩, start_every mem _,
    confined_of_inside _ (start_every mem _) (start_every mem _)⟩ h with ⟨s,hs,-,-,hp⟩
  exact ⟨s, hs, hp⟩

end Cclab.Iobuf
