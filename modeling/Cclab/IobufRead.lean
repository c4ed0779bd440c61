import Cclab.IobufTrim

/-! Reading: `ToString` and `ByteAt` walk the ring once and see the bytes that its blocks show. -/
namespace Cclab.Iobuf
open ByteMemory IntrusiveLists NodeHeap

theorem bytesOf_getElem? (st : Store) (p : ℕ) (b : Block) (i : ℕ) (hd : dataOf st.heap p = some b)
    (hi : i < b.length) : (bytesOf st p)[i]? = some (st.mem b.buffer (b.data+i)) := by
  have hlt : i < (load (st.mem b.buffer) b.data b.length).length := by rwa [load_length]
  rw [bytesOf_eq st p b hd, List.getElem?_eq_getElem hlt, load_getElem]

section walk
variable (st : Store) (head p fuel : ℕ) (l : List ℕ) (hf : l.length < fuel)
  (hseg : Seg (nextOf st.heap) (prevOf st.heap) p l head) (hout : head ∉ l)
  (hlive : ∀ q ∈ p :: l, q ≠ nullptr ∧ ∃ b, dataOf st.heap q = some b ∧ st.refs b.buffer ≠ 0)
include hf hseg hout hlive

theorem toStringFrom_spec : toStringFrom st head fuel p = some (text st (p :: l)) := by
  induction l generalizing p fuel with
  | nil =>
    obtain ⟨f,rfl⟩ := Nat.exists_eq_succ_of_ne_zero (Nat.ne_of_gt hf)
    rcases hlive p (by simp) with ⟨hnull,b,hd,hrefs⟩
    simp only [toStringFrom, if_neg hnull, blockToString, hd, guard, if_pos hrefs,
      Option.bind_eq_bind, Option.bind_some, Option.pure_def, dataOf_eq_some st.heap p b hd, hseg.1,
      if_true]
    rw [text_cons, bytesOf_eq st p b hd]
    exact congrArg some (List.append_nil _).symm
  | cons x l ih =>
    obtain ⟨f,rfl⟩ := Nat.exists_eq_succ_of_ne_zero (Nat.ne_of_gt (Nat.zero_lt_of_lt hf))
    rcases hlive p (by simp) with ⟨hnull,b,hd,hrefs⟩
    have hx : x ≠ head := fun he => hout (by simp [he])
    have hrest := ih x f (Nat.lt_of_succ_lt_succ hf) hseg.2.2
      (fun hm => hout (List.mem_cons_of_mem x hm)) (fun q hq => hlive q (List.mem_cons_of_mem p hq))
    simp only [toStringFrom, if_neg hnull, blockToString, hd, guard, if_pos hrefs,
      Option.bind_eq_bind, Option.bind_some, Option.pure_def, dataOf_eq_some st.heap p b hd, hseg.1,
      if_neg hx, hrest, Option.map_some]
    rw [text_cons st p, bytesOf_eq st p b hd]

theorem byteAtFrom_spec (pos : ℕ) (hpos : pos < (text st (p :: l)).length) :
    byteAtFrom st head fuel p pos = (text st (p :: l))[pos]? := by
  induction l generalizing p fuel pos with
  | nil =>
    obtain ⟨f,rfl⟩ := Nat.exists_eq_succ_of_ne_zero (Nat.ne_of_gt hf)
    rcases hlive p (by simp) with ⟨hnull,b,hd,hrefs⟩
    rw [text_single, bytesOf_length st p b hd] at hpos
    simp only [byteAtFrom, if_neg hnull, dataOf_eq_some st.heap p b hd, guard, Option.bind_eq_bind,
      Option.bind_some, Option.pure_def, if_pos hpos, if_pos hrefs]
    rw [text_single, bytesOf_getElem? st p b pos hd hpos]
  | cons x l ih =>
    obtain ⟨f,rfl⟩ := Nat.exists_eq_succ_of_ne_zero (Nat.ne_of_gt (Nat.zero_lt_of_lt hf))
    rcases hlive p (by simp) with ⟨hnull,b,hd,hrefs⟩
    have hlen := bytesOf_length st p b hd
    rw [text_cons st p]
    by_cases hin : pos < b.length
    · simp only [byteAtFrom, if_neg hnull, dataOf_eq_some st.heap p b hd, guard, Option.bind_eq_bind,
        Option.bind_some, Option.pure_def, if_pos hin, if_pos hrefs]
      rw [List.getElem?_append_left (by omega), bytesOf_getElem? st p b pos hd hin]
    -- behind this block: the walk goes on with the offset from its end
    · have hx : x ≠ head := fun he => hout (by simp [he])
      rw [text_cons st p, List.length_append] at hpos
      have hrest := ih x f (Nat.lt_of_succ_lt_succ hf) hseg.2.2
        (fun hm => hout (List.mem_cons_of_mem x hm)) (fun q hq => hlive q (List.mem_cons_of_mem p hq))
        (pos-b.length) (by omega)
      simp only [byteAtFrom, if_neg hnull, dataOf_eq_some st.heap p b hd, Option.bind_eq_bind,
        Option.bind_some, if_neg hin, hseg.1, if_neg hx, hrest]
      rw [List.getElem?_append_right (by omega), hlen]

end walk

section read
variable (st : Store) (buf : IOBuf) (l rest : List ℕ) (hs : Sound st (l ++ rest)) (hb : Holds st buf l)
include hs hb

theorem Holds.walk (p : ℕ) (k : List ℕ) (hl : l = p :: k) : buf.head = p ∧ k.length < st.fuel ∧
    Seg (nextOf st.heap) (prevOf st.heap) p k p ∧ p ∉ k ∧
    ∀ q ∈ p :: k, q ≠ nullptr ∧ ∃ b, dataOf st.heap q = some b ∧ st.refs b.buffer ≠ 0 := by
  subst hl
  rcases hb.ring with ⟨hhead,hring⟩
  have hfuel := hs.fuel st _ (p :: k) (fun q hq => List.mem_append_left rest hq) hring.nodup
  refine ⟨hhead, Nat.lt_of_succ_lt hfuel, hring.seg, (List.nodup_cons.mp hring.nodup).1, ?_⟩
  intro q hq
  have hq' := List.mem_append_left rest hq
  rcases hs.live q hq' with ⟨b,hd,-⟩
  exact ⟨(hs.known q hq').1, b, hd, hs.refs_ne_zero st _ q b hq' hd⟩

theorem toString_spec : toString st.fuel st buf = some (text st l) := by
  cases l with
  | nil =>
    have hhead : buf.head = nullptr := hb.ring
    rw [toString, hhead, Store.fuel, toStringFrom, if_pos rfl]
    rfl
  | cons p k =>
    rcases hb.walk st buf _ rest hs p k rfl with ⟨hhead,hf,hseg,hout,hlive⟩
    rw [toString, hhead, toStringFrom_spec st p p st.fuel k hf hseg hout hlive]

theorem byteAt_spec (pos : ℕ) (hpos : pos < buf.length) :
    byteAt st.fuel st buf pos = (text st l)[pos]? := by
  have hlen : pos < (text st l).length := by rwa [← hb.length]
  cases l with
  | nil => exact absurd hlen (Nat.not_lt_zero pos)
  | cons p k =>
    rcases hb.walk st buf _ rest hs p k rfl with ⟨hhead,hf,hseg,hout,hlive⟩
    simp only [byteAt, guard, if_pos hpos, Option.bind_eq_bind, Option.bind_some, Option.pure_def, hhead]
    exact byteAtFrom_spec st p p st.fuel k hf hseg hout hlive pos hlen

end read

end Cclab.Iobuf
