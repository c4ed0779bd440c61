import Cclab.Iobuf
import Cclab.IntrusiveLists

/-! The link operations of `IOBuf`, as changes of its ring of blocks. -/
namespace Cclab.Iobuf
open IntrusiveLists NodeHeap

/-- The blocks `l` in the order of the ring through `head`. -/
def BlockRing (h : Heap Block) (head : ℕ) : List ℕ → Prop
  | [] => head = nullptr
  | p :: l => head = p ∧ Ring (nextOf h) (prevOf h) p l

variable (h : Heap Block)

theorem BlockRing.congr (h' : Heap Block) (head : ℕ) (l : List ℕ) (hr : BlockRing h head l)
    (hsame : ∀ p ∈ l, h' p = h p) : BlockRing h' head l := by
  cases l with
  | nil => exact hr
  | cons p l =>
    refine ⟨hr.1, hr.2.congr ?_ ?_⟩
    · intro q hq
      rw [nextOf, nextOf, hsame q hq]
    · intro q hq
      rw [prevOf, prevOf, hsame q hq]

theorem BlockRing.congr_links (h' : Heap Block) (head : ℕ) (l : List ℕ) (hr : BlockRing h head l)
    (hn : nextOf h' = nextOf h) (hp : prevOf h' = prevOf h) : BlockRing h' head l := by
  cases l with
  | nil => exact hr
  | cons p l => exact ⟨hr.1, by rw [hn, hp]; exact hr.2⟩

theorem linkRear_spec (p x : ℕ) (l : List ℕ) (hr : Ring (nextOf h) (prevOf h) p l)
    (hx : x ∉ p :: l) (hlive : ∀ q ∈ x :: p :: l, dataOf h q ≠ none) :
    ∃ h', linkRear h p x = some h' ∧ Ring (nextOf h') (prevOf h') p (l ++ [x]) ∧
      dataOf h' = dataOf h ∧ ∀ q, q ∉ x :: p :: l → h' q = h q := by
  have hrear := hr.prev_mem
  have hnext := (hr.next_prev p List.mem_cons_self).2
  rcases Option.ne_none_iff_exists'.mp (hlive p (by simp)) with ⟨dp,hdp⟩
  rcases Option.ne_none_iff_exists'.mp (hlive x (by simp)) with ⟨dx,hdx⟩
  rcases Option.ne_none_iff_exists'.mp (hlive _ (List.mem_cons_of_mem x hrear)) with ⟨dr,hdr⟩
  rcases setPrev_spec h p x dp hdp with ⟨h1,hs1,hp1,hn1,hd1⟩
  rcases setNext_spec h1 x p dx (by rw [hd1, hdx]) with ⟨h2,hs2,hn2,hp2,hd2⟩
  rcases setPrev_spec h2 x (prevOf h p) dx (by rw [hd2, hd1, hdx]) with ⟨h3,hs3,hp3,hn3,hd3⟩
  rcases setNext_spec h3 (prevOf h p) x dr (by rw [hd3, hd2, hd1, hdr]) with ⟨h4,hs4,hn4,hp4,hd4⟩
  -- the second read of `rear->next_` still finds the head
  have hrear1 : h1 (prevOf h p) = some ⟨dr, prevOf h1 (prevOf h p), p⟩ := by
    rw [dataOf_eq_some h1 (prevOf h p) dr (by rw [hd1, hdr]), hn1, hnext]
  have hdata : dataOf h4 = dataOf h := by rw [hd4, hd3, hd2, hd1]
  refine ⟨h4, ?_, ?_, hdata, ?_⟩
  · simp only [linkRear, dataOf_eq_some h p dp hdp, dataOf_eq_some h (prevOf h p) dr hdr, hnext,
      Option.bind_eq_bind, Option.bind_some, hs1, hrear1, hs2, hs3, hs4]
  · rw [hn4, hn3, hn2, hn1, hp4, hp3, hp2, hp1]
    exact hr.link_back hx
  · intro q hq
    have hne (r : ℕ) (hm : r ∈ x :: p :: l) : q ≠ r := fun he => hq (he ▸ hm)
    apply node_ext h h4 q (by rw [hdata])
    · rw [hp4, hp3, hp2, hp1, Function.update_of_ne (hne x (by simp)),
        Function.update_of_ne (hne p (by simp))]
    · rw [hn4, hn3, hn2, hn1, Function.update_of_ne (hne _ (List.mem_cons_of_mem x hrear)),
        Function.update_of_ne (hne x (by simp))]

/-- Taking the first of several blocks out of the ring. -/
theorem unlinkHead_spec (p q : ℕ) (l : List ℕ) (hr : Ring (nextOf h) (prevOf h) p (q :: l))
    (hlive : ∀ r ∈ p :: q :: l, dataOf h r ≠ none) :
    ∃ h', unlinkHead h p = some h' ∧ nextOf h p = q ∧ prevOf h p ≠ p ∧
      Ring (nextOf h') (prevOf h') q l ∧ nextOf h' p = p ∧ prevOf h' p = p ∧
      dataOf h' = dataOf h ∧ ∀ r, r ∉ p :: q :: l → h' r = h r := by
  have hnext : nextOf h p = q := hr.seg.1
  have hrot : Ring (nextOf h) (prevOf h) q (l ++ p :: []) := @Ring.rotate ℕ _ _ p q [] l hr
  have hprev := hrot.neighbours_ne.2
  have hrear := hr.prev_mem
  have hcut := hrot.cut
  rw [List.append_nil, hnext] at hcut
  rcases Option.ne_none_iff_exists'.mp (hlive p (by simp)) with ⟨dp,hdp⟩
  rcases Option.ne_none_iff_exists'.mp (hlive q (by simp)) with ⟨dq,hdq⟩
  rcases Option.ne_none_iff_exists'.mp (hlive _ hrear) with ⟨dr,hdr⟩
  -- the four writes of the source, in its order
  rcases setNext_spec h (prevOf h p) q dr hdr with ⟨h1,hs1,hn1,hp1,hd1⟩
  rcases setPrev_spec h1 q (prevOf h p) dq (by rw [hd1, hdq]) with ⟨h2,hs2,hp2,hn2,hd2⟩
  rcases setNext_spec h2 p p dp (by rw [hd2, hd1, hdp]) with ⟨h3,hs3,hn3,hp3,hd3⟩
  rcases setPrev_spec h3 p p dp (by rw [hd3, hd2, hd1, hdp]) with ⟨h4,hs4,hp4,hn4,hd4⟩
  have hdata : dataOf h4 = dataOf h := by rw [hd4, hd3, hd2, hd1]
  refine ⟨h4, ?_, hnext, hprev, ?_, ?_, ?_, hdata, ?_⟩
  · simp only [unlinkHead, dataOf_eq_some h p dp hdp, hnext, Option.bind_eq_bind, Option.bind_some,
      hs1, hs2, hs3, hs4]
  -- the last two writes are on `p`, which is no longer in the ring
  · have hne (r : ℕ) (hm : r ∈ q :: l) : r ≠ p := fun he => (List.nodup_cons.mp hr.nodup).1 (he ▸ hm)
    apply hcut.congr
    · intro r hm
      rw [hn4, hn3, hn2, hn1, Function.update_of_ne (hne r hm)]
    · intro r hm
      rw [hp4, hp3, hp2, hp1, Function.update_of_ne (hne r hm)]
  · rw [hn4, hn3, Function.update_self]
  · rw [hp4, Function.update_self]
  · intro r hm
    have hne (t : ℕ) (ht : t ∈ p :: q :: l) : r ≠ t := fun he => hm (he ▸ ht)
    apply node_ext h h4 r (by rw [hdata])
    · rw [hp4, hp3, hp2, hp1, Function.update_of_ne (hne p (by simp)),
        Function.update_of_ne (hne q (by simp))]
    · rw [hn4, hn3, hn2, hn1, Function.update_of_ne (hne p (by simp)),
        Function.update_of_ne (hne _ hrear)]

/-- The links around the last of several blocks, before and after `TrimEnd` takes it out. -/
theorem unlinkRear_spec (p r : ℕ) (l : List ℕ) (hr : Ring (nextOf h) (prevOf h) p (l ++ [r]))
    (hlive : ∀ q ∈ p :: (l ++ [r]), dataOf h q ≠ none) :
    prevOf h p = r ∧ nextOf h r = p ∧ r ≠ p ∧ ∃ h1 h2, setNext h (prevOf h r) p = some h1 ∧
      nextOf h1 r = p ∧ prevOf h1 r = prevOf h r ∧ setPrev h1 p (prevOf h r) = some h2 ∧
      Ring (nextOf h2) (prevOf h2) p l ∧ dataOf h1 = dataOf h ∧ dataOf h2 = dataOf h ∧
      ∀ q, q ∉ p :: (l ++ [r]) → h2 q = h q := by
  have hrear : prevOf h p = r := by
    rw [hr.prev_head]
    simp
  have hnext : nextOf h r = p := by
    rw [← hrear]
    exact (hr.next_prev p List.mem_cons_self).2
  have hrp : r ≠ p := by
    rintro rfl
    exact (List.nodup_cons.mp hr.nodup).1 (by simp)
  have hcut := hr.cut
  rw [List.append_nil, hnext] at hcut
  -- the block before the last one may be the first
  have hbefore : prevOf h r ∈ p :: (l ++ [r]) := by
    have hm := hr.rotate.prev_mem
    simp only [List.mem_cons, List.mem_append] at hm ⊢
    tauto
  rcases Option.ne_none_iff_exists'.mp (hlive p (by simp)) with ⟨dp,hdp⟩
  rcases Option.ne_none_iff_exists'.mp (hlive _ hbefore) with ⟨db,hdb⟩
  rcases setNext_spec h (prevOf h r) p db hdb with ⟨h1,hs1,hn1,hp1,hd1⟩
  rcases setPrev_spec h1 p (prevOf h r) dp (by rw [hd1, hdp]) with ⟨h2,hs2,hp2,hn2,hd2⟩
  refine ⟨hrear, hnext, hrp, h1, h2, hs1, ?_, by rw [hp1], hs2, ?_, hd1, hd2.trans hd1, ?_⟩
  · rw [hn1, Function.update_of_ne hr.neighbours_ne.2.symm, hnext]
  · rw [hn2, hn1, hp2, hp1]
    exact hcut
  · intro q hq
    have hne (t : ℕ) (ht : t ∈ p :: (l ++ [r])) : q ≠ t := fun he => hq (he ▸ ht)
    apply node_ext h h2 q (by rw [hd2, hd1])
    · rw [hp2, hp1, Function.update_of_ne (hne p (by simp))]
    · rw [hn2, hn1, Function.update_of_ne (hne _ hbefore)]

end Cclab.Iobuf
