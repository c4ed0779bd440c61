import Cclab.ResourceCache

/-! The link operations of the cache, as changes of the ring through `lru_head_`. -/
namespace Cclab.ResourceCache
open IntrusiveLists NodeHeap

variable {R : Type} (h : Heap (Item R))

theorem exists_node (p : ℕ) (hp : dataOf h p ≠ none) :
    ∃ d, dataOf h p = some d ∧ h p = some ⟨d, prevOf h p, nextOf h p⟩ := by
  obtain ⟨d,hd⟩ := Option.ne_none_iff_exists'.mp hp
  exact ⟨d, hd, dataOf_eq_some h p d hd⟩

theorem insertToLRU_spec (x : ℕ) (l : List ℕ) (hr : Ring (nextOf h) (prevOf h) lruHead l)
    (hx : x ∉ lruHead :: l) (hx0 : x ≠ nullptr)
    (hlive : ∀ p ∈ x :: lruHead :: l, dataOf h p ≠ none) :
    ∃ h', insertToLRU h x = some h' ∧ Ring (nextOf h') (prevOf h') lruHead (x :: l) ∧
      dataOf h' = dataOf h := by
  have hxh : lruHead ≠ x := fun he => hx (by simp [he])
  obtain ⟨dh,-,hhead⟩ := exists_node h lruHead (hlive _ (by simp))
  obtain ⟨dx,hdx,-⟩ := exists_node h x (hlive _ (by simp))
  obtain ⟨h1,hs1,hn1,hp1,hd1⟩ := setNext_spec h x (nextOf h lruHead) dx hdx
  obtain ⟨h2,hs2,hp2,hn2,hd2⟩ := setPrev_spec h1 x lruHead dx (by rw [hd1, hdx])
  -- the second read of `lru_head_.next` finds what the first one found
  have hnext2 : nextOf h2 lruHead = nextOf h lruHead := by
    rw [hn2, hn1, Function.update_of_ne hxh]
  have hhead2 : h2 lruHead = some ⟨dh, prevOf h2 lruHead, nextOf h lruHead⟩ := by
    rw [← hnext2]
    apply dataOf_eq_some
    rw [hd2, hd1, dataOf, hhead]
    rfl
  obtain ⟨dn,hdn,-⟩ := exists_node h (nextOf h lruHead)
    (hlive _ (List.mem_cons_of_mem x hr.next_mem))
  obtain ⟨h3,hs3,hp3,hn3,hd3⟩ := setPrev_spec h2 (nextOf h lruHead) x dn (by rw [hd2, hd1, hdn])
  obtain ⟨h4,hs4,hn4,hp4,hd4⟩ := setNext_spec h3 lruHead x dh (by
    rw [hd3, hd2, hd1, dataOf, hhead]
    rfl)
  refine ⟨h4, ?_, ?_, by rw [hd4, hd3, hd2, hd1]⟩
  · simp only [insertToLRU, guard, if_pos hx0, Option.pure_def, Option.bind_eq_bind,
      Option.bind_some, hhead, hs1, hs2, hhead2, hs3, hs4]
  · rw [hn4, hn3, hn2, hn1, hp4, hp3, hp2, hp1]
    exact hr.link_front hx

theorem unlinkItem_spec (x : ℕ) (l k : List ℕ)
    (hr : Ring (nextOf h) (prevOf h) lruHead (l ++ x :: k))
    (hlive : ∀ p ∈ lruHead :: (l ++ x :: k), p ≠ nullptr ∧ dataOf h p ≠ none) :
    ∃ h', unlinkItem h x = some h' ∧ Ring (nextOf h') (prevOf h') lruHead (l ++ k) ∧
      dataOf h' = dataOf h := by
  have hmem : x ∈ lruHead :: (l ++ x :: k) := by simp
  have hrot := hr.rotate
  have hback (p : ℕ) (hp : p ∈ x :: (k ++ lruHead :: l)) : p ∈ lruHead :: (l ++ x :: k) := by
    simp only [List.mem_cons, List.mem_append] at hp ⊢
    tauto
  have hnext := hlive _ (hback _ hrot.next_mem)
  have hprev := hlive _ (hback _ hrot.prev_mem)
  obtain ⟨dx,hdx,hnode⟩ := exists_node h x (hlive x hmem).2
  obtain ⟨dp,hdp,-⟩ := exists_node h (prevOf h x) hprev.2
  obtain ⟨dn,hdn,-⟩ := exists_node h (nextOf h x) hnext.2
  obtain ⟨h1,hs1,hn1,hp1,hd1⟩ := setNext_spec h (prevOf h x) (nextOf h x) dp hdp
  -- the item is not its own neighbour, so the first write leaves its links
  have hnode1 : h1 x = some ⟨dx, prevOf h x, nextOf h x⟩ := by
    have hn : nextOf h1 x = nextOf h x := by
      rw [hn1, Function.update_of_ne (Ne.symm hr.neighbours_ne.2)]
    rw [← hn, ← hp1]
    exact dataOf_eq_some h1 x dx (by rw [hd1, hdx])
  obtain ⟨h2,hs2,hp2,hn2,hd2⟩ := setPrev_spec h1 (nextOf h x) (prevOf h x) dn (by rw [hd1, hdn])
  refine ⟨h2, ?_, ?_, by rw [hd2, hd1]⟩
  · simp only [unlinkItem, hnode, guard, if_pos (And.intro hnext.1 hprev.1), Option.pure_def,
      Option.bind_eq_bind, Option.bind_some, hs1, hnode1, hs2]
  · rw [hn2, hn1, hp2, hp1]
    exact hr.cut

theorem moveToLRUHead_spec (x : ℕ) (l k : List ℕ)
    (hr : Ring (nextOf h) (prevOf h) lruHead (l ++ x :: k))
    (hlive : ∀ p ∈ lruHead :: (l ++ x :: k), p ≠ nullptr ∧ dataOf h p ≠ none) :
    ∃ h', moveToLRUHead h x = some h' ∧ Ring (nextOf h') (prevOf h') lruHead (x :: (l ++ k)) ∧
      dataOf h' = dataOf h := by
  obtain ⟨h1,hs1,hr1,hd1⟩ := unlinkItem_spec h x l k hr hlive
  have hx := (List.nodup_cons.mp hr.rotate.nodup).1
  have hout : x ∉ lruHead :: (l ++ k) := by
    intro hm
    apply hx
    simp only [List.mem_cons, List.mem_append] at hm ⊢
    tauto
  obtain ⟨h2,hs2,hr2,hd2⟩ := insertToLRU_spec h1 x (l ++ k) hr1 hout (hlive x (by simp)).1 (by
    intro p hp
    rw [hd1]
    apply (hlive p _).2
    simp only [List.mem_cons, List.mem_append] at hp ⊢
    tauto)
  refine ⟨h2, ?_, hr2, by rw [hd2, hd1]⟩
  simp only [moveToLRUHead, Option.bind_eq_bind, hs1, Option.bind_some, hs2]

theorem removeFromLRU_spec (x : ℕ) (l k : List ℕ)
    (hr : Ring (nextOf h) (prevOf h) lruHead (l ++ x :: k))
    (hlive : ∀ p ∈ lruHead :: (l ++ x :: k), p ≠ nullptr ∧ dataOf h p ≠ none) :
    ∃ h', removeFromLRU h x = some h' ∧ Ring (nextOf h') (prevOf h') lruHead (l ++ k) ∧
      dataOf h' = Function.update (dataOf h) x none := by
  obtain ⟨h1,hs1,hr1,hd1⟩ := unlinkItem_spec h x l k hr hlive
  refine ⟨free h1 x, ?_, ?_, ?_⟩
  · simp only [removeFromLRU, Option.bind_eq_bind, hs1, Option.bind_some, Option.pure_def]
  · have hx := (List.nodup_cons.mp hr.rotate.nodup).1
    have hne (p : ℕ) (hp : p ∈ lruHead :: (l ++ k)) : p ≠ x := by
      rintro rfl
      apply hx
      simp only [List.mem_cons, List.mem_append] at hp ⊢
      tauto
    apply hr1.congr
    · intro p hp
      exact (free_of_ne h1 x p (hne p hp)).1
    · intro p hp
      exact (free_of_ne h1 x p (hne p hp)).2.1
  · ext p : 1
    by_cases hp : p = x
    · rw [hp, free_self, Function.update_self]
    · rw [(free_of_ne h1 x p hp).2.2, hd1, Function.update_of_ne hp]

end Cclab.ResourceCache
