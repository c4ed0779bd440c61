import Cclab.HashtableRotation

/-! `hashtable_destroy`: what it releases of a table that any calls have left. -/
namespace Cclab.Hashtable
open NodeHeap

/-- What `hashtable_destroy` leaves. There is no bucket array where `primary_hashtable` is null. -/
structure Destroyed where
  ret : ℤ
  heap : Heap HashItem
  primaryHashtable : Option (ℕ → ℕ)
  arraysFreed : ℕ
  itemsFreed : List ℕ

def hashtableDestroy (fuel : ℕ) (s : State) : Option Destroyed :=
  (hashtableClearFreed fuel s).map fun r =>
    if r.2.1 = 0 then ⟨0,r.1.heap,none,1,r.2.2⟩
    else ⟨-1,r.1.heap,some r.1.ht.primaryHashtable,0,r.2.2⟩

/-- Everything is released, and every item once. -/
def ReleasesAll (fuel : ℕ) (s : State) (es : Items) : Prop :=
  ∃ r, hashtableDestroy fuel s = some r ∧ r.ret = 0 ∧
    (∀ p, r.itemsFreed.count p = if p ∈ es.map Prod.fst then 1 else 0) ∧
    r.arraysFreed = 1 ∧ r.primaryHashtable = none

/-- The guard of `hashtable_clear` answers for an empty table that it is not one. -/
theorem destroy_empty (fuel : ℕ) (s : State) (h : s.ht.head = nullptr) :
    hashtableDestroy fuel s = some ⟨-1,s.heap,some s.ht.primaryHashtable,0,[]⟩ := by
  rw [hashtableDestroy, hashtableClearFreed, if_pos (Or.inl h)]
  rfl

theorem LinkedBy.destroy (hash : List UInt8 → UInt32) (s : State) (es cs : Items)
    (h : LinkedBy hash s es cs) (fuel : ℕ) (hf : es.length < fuel) (hne : es ≠ []) :
    ∃ heap, hashtableDestroy fuel s = some ⟨0,heap,none,1,es.map Prod.fst⟩ := by
  have hends := h.ring.empty_iff s.heap _ _ _
  rw [List.map_eq_nil_iff] at hends
  rcases h.ring.clear s.heap _ _ _ s.ht.hashItems fuel (by rwa [List.length_map])
    (h.live hash s es cs) with ⟨h',hs⟩
  refine ⟨h', ?_⟩
  rw [hashtableDestroy, hashtableClearFreed,
    if_neg (by rw [hends.1, hends.2, or_self]; exact hne), hs]
  rfl

/-- Everything that a reachable table holds is released exactly when there is an item in it. For
an empty one -1 is returned, and the bucket array stays. -/
theorem destroy_releases_iff (hash : List UInt8 → UInt32) (s : State) (hs : Reachable hash s) :
    ∃ es cs, LinkedBy hash s es cs ∧
      ∀ fuel, es.length < fuel → (ReleasesAll fuel s es ↔ s.ht.head ≠ nullptr) := by
  rcases hs.linked hash s with ⟨es,cs,h⟩
  refine ⟨es, cs, h, ?_⟩
  intro fuel hf
  have hends := h.ring.empty_iff s.heap _ _ _
  rw [List.map_eq_nil_iff] at hends
  constructor
  · rintro ⟨r,hr,hret,-⟩ hnull
    obtain rfl := Option.some.inj ((destroy_empty fuel s hnull).symm.trans hr)
    have hminus : (-1 : ℤ) = 0 := hret
    omega
  · intro hhead
    rcases h.destroy hash s es cs fuel hf (fun he => hhead (hends.1.mpr he)) with ⟨heap,hr⟩
    refine ⟨_, hr, rfl, ?_, rfl, rfl⟩
    intro p
    exact List.Nodup.count (List.nodup_cons.mp h.ring.nodup).2

/-- The table behind `hashtable_init` keeps its bucket array. -/
theorem destroy_keeps_array : Reachable (fun _ => 0) (hashtableInit fun _ => none) ∧
    ¬ ReleasesAll 1 (hashtableInit fun _ => none) [] := by
  refine ⟨.init _, ?_⟩
  rintro ⟨r,hr,hret,-⟩
  obtain rfl := Option.some.inj hr
  exact absurd hret (by decide)

/-- Three items are released, and nothing of an empty table. -/
theorem destroy_releases_iff_three :
    ReleasesAll 4 threeItems [(5,[7]),(6,[8]),(7,[9])] ∧
    ¬ ReleasesAll 4 (hashtableInit fun _ => none) [] := by
  constructor
  · obtain ⟨hs,hl⟩ := reachable_threeItems
    obtain ⟨es,cs,h,hiff⟩ := destroy_releases_iff (fun _ => 0) threeItems hs
    obtain rfl := h.unique _ _ _ _ _ _ ((linkedBy_self_iff _ _ _).mpr hl)
    rw [hiff 4 (by decide)]
    decide
  · have hinit := linked_init (fun _ => 0) fun _ => none
    obtain ⟨es,cs,h,hiff⟩ := destroy_releases_iff (fun _ => 0) _ (.init fun _ => none)
    obtain rfl := h.unique _ _ _ _ _ _ ((linkedBy_self_iff _ _ _).mpr hinit)
    rw [hiff 4 (by decide)]
    decide

end Cclab.Hashtable
