import Cclab.IobufChanges
import Mathlib.Order.Basic

/-! The `int` of the reference count: below 2^31 references it makes no difference that it wraps,
and no operation that deletes blocks takes a reference. -/
namespace Cclab.Iobuf
open NodeHeap

theorem sharedInfo_eq (refs : ℕ) (h : refs < 2^31) : sharedInfo refs = refs := by
  apply Int.bmod_eq_of_le_mul_two <;> omega

theorem unref_atomicInt (refs : ℕ) (h : refs < 2^31) :
    @Counting.unref atomicInt refs = Counting.unref refs := by
  change (if sharedInfo refs > 1 then refs-1 else 0) = refs-1
  rw [sharedInfo_eq refs h]
  split_ifs with hlast
  · rfl
  · omega

section deletes
variable (st st' : Store) (buf buf' : IOBuf) (p : ℕ)

theorem deleteBlock_refs (hd : deleteBlock st p = some st') : st'.refs ≤ st.refs := by
  simp only [deleteBlock, Option.bind_eq_bind, Option.bind_eq_some_iff] at hd
  rcases hd with ⟨b,-,-,-,he⟩
  obtain rfl := Option.some.inj he
  exact update_le_self_iff.mpr (Nat.sub_le _ 1)

theorem pop_refs (hp : pop st buf = some (st',buf',p)) : st'.refs = st.refs := by
  unfold pop at hp
  split_ifs at hp with hhead
  · obtain ⟨rfl,-⟩ := Prod.mk.inj (Option.some.inj hp)
    rfl
  simp only [Option.bind_eq_bind, Option.bind_eq_some_iff] at hp
  rcases hp with ⟨hd,-,hp⟩
  split_ifs at hp with hsingle
  · obtain ⟨rfl,-⟩ := Prod.mk.inj (Option.some.inj hp)
    rfl
  · rcases Option.map_eq_some_iff.mp hp with ⟨h1,-,he⟩
    obtain ⟨rfl,-⟩ := Prod.mk.inj he
    rfl

theorem removeRear_refs (h : removeRear st buf = some (st',buf')) : st'.refs ≤ st.refs := by
  simp only [removeRear, Option.bind_eq_bind, Option.bind_eq_some_iff] at h
  rcases h with ⟨hd,-,rear,-,h⟩
  split_ifs at h with hsingle
  · rcases Option.map_eq_some_iff.mp h with ⟨st1,hdel,he⟩
    obtain ⟨rfl,-⟩ := Prod.mk.inj he
    exact deleteBlock_refs st st1 _ hdel
  · simp only [Option.bind_eq_some_iff, Option.map_eq_some_iff] at h
    rcases h with ⟨h1,-,_,-,h2,-,st1,hdel,he⟩
    obtain ⟨rfl,-⟩ := Prod.mk.inj he
    exact deleteBlock_refs { st with heap := h2 } st1 _ hdel

end deletes

/-- Every count is below the numbers that wrap. -/
def Store.Low (st : Store) : Prop := ∀ c, st.refs c < 2^31

theorem Store.Low.of_le (st st' : Store) (h : st.Low) (hle : st'.refs ≤ st.refs) : st'.Low :=
  fun c => Nat.lt_of_le_of_lt (hle c) (h c)

section low
variable (st : Store) (h : st.Low)
include h

theorem deleteBlock_atomicInt (p : ℕ) : @deleteBlock atomicInt st p = deleteBlock st p := by
  unfold deleteBlock
  apply Option.bind_congr
  intro b _
  rw [unref_atomicInt _ (h b.buffer)]

theorem removeRear_atomicInt (buf : IOBuf) : @removeRear atomicInt st buf = removeRear st buf := by
  unfold removeRear
  apply Option.bind_congr
  intro hd _
  apply Option.bind_congr
  intro rear _
  dsimp only
  split
  · rw [deleteBlock_atomicInt st h]
  apply Option.bind_congr
  intro h1 _
  apply Option.bind_congr
  intro rear1 _
  apply Option.bind_congr
  intro h2 _
  rw [deleteBlock_atomicInt { st with heap := h2 } h]

theorem trimStart_atomicInt (fuel : ℕ) (buf : IOBuf) (n : ℕ) :
    @trimStart atomicInt fuel st buf n = trimStart fuel st buf n := by
  induction fuel generalizing st buf n with
  | zero => simp only [trimStart]
  | succ fuel ih =>
    unfold trimStart
    split
    · rfl
    apply Option.bind_congr
    intro b _
    split
    · rfl
    apply Option.bind_congr
    rintro ⟨st1,buf1,p⟩ hpop
    have hlow : st1.Low := h.of_le st st1 (le_of_eq (pop_refs st st1 buf buf1 p hpop))
    change (@deleteBlock atomicInt st1 p).bind _ = (deleteBlock st1 p).bind _
    rw [deleteBlock_atomicInt st1 hlow]
    apply Option.bind_congr
    intro st2 hdel
    exact ih st2 (hlow.of_le st1 st2 (deleteBlock_refs st1 st2 p hdel)) buf1 (n-b.length)

theorem destroy_atomicInt (fuel : ℕ) (buf : IOBuf) :
    @destroy atomicInt fuel st buf = destroy fuel st buf := by
  induction fuel generalizing st buf with
  | zero => simp only [destroy]
  | succ fuel ih =>
    unfold destroy
    split
    · rfl
    apply Option.bind_congr
    rintro ⟨st1,buf1,p⟩ hpop
    have hlow : st1.Low := h.of_le st st1 (le_of_eq (pop_refs st st1 buf buf1 p hpop))
    change (@deleteBlock atomicInt st1 p).bind _ = (deleteBlock st1 p).bind _
    rw [deleteBlock_atomicInt st1 hlow]
    apply Option.bind_congr
    intro st2 hdel
    exact ih st2 (hlow.of_le st1 st2 (deleteBlock_refs st1 st2 p hdel)) buf1

theorem trimEnd_atomicInt (fuel : ℕ) (buf : IOBuf) (n : ℕ) :
    @trimEnd atomicInt fuel st buf n = trimEnd fuel st buf n := by
  induction fuel generalizing st buf n with
  | zero => simp only [trimEnd]
  | succ fuel ih =>
    unfold trimEnd
    split
    · rfl
    apply Option.bind_congr
    intro hd _
    apply Option.bind_congr
    intro b _
    split
    · rfl
    rw [removeRear_atomicInt st h]
    apply Option.bind_congr
    rintro ⟨st1,buf1⟩ hrem
    exact ih st1 (h.of_le st st1 (removeRear_refs st st1 buf buf1 hrem)) buf1 (n-b.length)

end low

section system
variable (s : Sys) (h : s.store.Low)
include h

theorem Sys.destroy_atomicInt (i : ℕ) : @Sys.destroy atomicInt s i = s.destroy i := by
  apply Option.bind_congr
  intro buf _
  rw [Iobuf.destroy_atomicInt s.store h]

theorem move_atomicInt (o : Op) : @move atomicInt s o = move s o := by
  cases o with
  | write i bs => simp only [move]
  | split i n => simp only [move]
  | trimStart i n =>
    apply Option.bind_congr
    intro buf _
    rw [trimStart_atomicInt s.store h]
  | trimEnd i n =>
    apply Option.bind_congr
    intro buf _
    rw [trimEnd_atomicInt s.store h]

end system

end Cclab.Iobuf
