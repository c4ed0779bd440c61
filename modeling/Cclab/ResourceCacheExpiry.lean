import Cclab.ResourceCacheRecency

/-! Expired entries of the cache. They are never purged, but with readings of a clock that
does not run backwards the ring is sorted by the times at which its items were set, so that
the expired ones are the first to be dropped. -/
namespace Cclab.ResourceCache
open IntrusiveLists NodeHeap OperationRuns

variable {R : Type}

/-- The reading of the clock in one call. -/
def reading : Op R → ℤ
  | .get _ now => now
  | .set _ _ now => now

/-- The whole seconds that `Get` compares with `expire_seconds_`. -/
def age (now : ℤ) (e : Item R) : ℤ := (now-e.lastModified).tdiv 1000000000

/-- The map leads to an item in a node of the heap. -/
def Entry (c : Cache R) (e : Item R) : Prop :=
  ∃ p, c.cacheMap.lookup e.key = some p ∧ dataOf c.heap p = some e

def NewestFirst (es : List (Item R)) : Prop :=
  es.Pairwise (fun d e => e.lastModified ≤ d.lastModified)

/-- From `lru_head_.next` to `lru_head_.prev` the items of the cache get older. -/
def SortedRing (c : Cache R) : Prop := ∃ es l, Represents c es l ∧ NewestFirst es

/-- Between `c` and `c'` no live entry is dropped while there is an expired one. -/
def DropsExpiredFirst (now : ℤ) (c c' : Cache R) : Prop :=
  ∀ d, Entry c d → ¬ Cached c' d.key → age now d < c.expireSeconds →
    ∀ e, Entry c e ∨ Entry c' e → age now e < c.expireSeconds

theorem age_antitone (now : ℤ) (d e : Item R) (h : d.lastModified ≤ e.lastModified) :
    age now e ≤ age now d := by
  apply Int.tdiv_le_tdiv (by decide)
  omega

theorem age_nonneg (now : ℤ) (e : Item R) (h : e.lastModified ≤ now) : 0 ≤ age now e := by
  apply Int.tdiv_nonneg
  · omega
  · decide

theorem age_self (e : Item R) : age e.lastModified e = 0 := by
  unfold age
  rw [sub_self]
  rfl

section represents
variable (c : Cache R) (es : List (Item R)) (l : List ℕ) (h : Represents c es l)
include h

theorem Represents.entry (e : Item R) (he : Entry c e) : e ∈ es := by
  obtain ⟨p,hp,hd⟩ := he
  have hm := List.mem_map_of_mem (f := dataOf c.heap) ((h.map e.key p).mp hp).1
  rw [h.data, hd] at hm
  obtain ⟨e',he',heq⟩ := List.mem_map.mp hm
  rwa [← Option.some.inj heq]

end represents

/-- The cache holds `es`, the newest item first, and none of them is from the future. -/
structure Timed (n : ℕ) (x now : ℤ) (c : Cache R) (es : List (Item R)) : Prop where
  holds : Holds n x c es
  sorted : NewestFirst es
  past : ∀ e ∈ es, e.lastModified ≤ now

theorem Timed.step (n : ℕ) (x now : ℤ) (hn : 1 ≤ n) (hn' : n ≤ 2^31-1) (c : Cache R)
    (es : List (Item R)) (op : Op R) (h : Timed n x now c es) (hnow : now ≤ reading op) :
    ∃ c', ResourceCache.step c op = some (c', (specStep n x es op).2) ∧
      Timed n x (reading op) c' (specStep n x es op).1 := by
  obtain ⟨c',hstep,hh⟩ := h.holds.step n x hn hn' c es op
  have hpast (e : Item R) (he : e ∈ es) : e.lastModified ≤ reading op :=
    Int.le_trans (h.past e he) hnow
  refine ⟨c', hstep, hh, ?_, ?_⟩
  · cases op with
    | get key now => exact h.sorted
    | set key res now =>
      obtain ⟨fs,hput,hsub⟩ := KeyedList.put_cons Item.key n ⟨key,res,now⟩ es
      show NewestFirst (KeyedList.put Item.key n ⟨key,res,now⟩ es)
      rw [hput]
      -- what is set comes to the front, and the rest keeps its order
      apply List.pairwise_cons.mpr
      exact ⟨fun e he => hpast e (hsub.subset he), h.sorted.sublist hsub⟩
  · cases op with
    | get key now => exact hpast
    | set key res now =>
      intro e he
      rcases KeyedList.put_subset Item.key n ⟨key,res,now⟩ es e he with rfl | ⟨hm,-⟩
      · exact Int.le_refl now
      · exact hpast e hm

theorem Timed.run (n : ℕ) (x : ℤ) (hn : 1 ≤ n) (hn' : n ≤ 2^31-1) (ops : List (Op R)) (now : ℤ)
    (c : Cache R) (es : List (Item R)) (h : Timed n x now c es)
    (hmono : (now :: ops.map reading).Pairwise (· ≤ ·)) :
    ∃ c' os es', OperationRuns.run ResourceCache.step c ops = some (c',os) ∧ Holds n x c' es' ∧
      NewestFirst es' ∧
      ∀ t, (∀ s ∈ now :: ops.map reading, s ≤ t) → ∀ e ∈ es', e.lastModified ≤ t := by
  induction ops generalizing now c es with
  | nil =>
    refine ⟨c, [], es, rfl, h.holds, h.sorted, ?_⟩
    intro t ht e he
    exact Int.le_trans (h.past e he) (ht now List.mem_cons_self)
  | cons op ops ih =>
    rw [List.map_cons, List.pairwise_cons] at hmono
    obtain ⟨c1,hstep,h1⟩ := h.step n x now hn hn' c es op (hmono.1 _ List.mem_cons_self)
    obtain ⟨c',os,es',hrun,hh,hs,hpast⟩ := ih (reading op) c1 _ h1 hmono.2
    refine ⟨c', (specStep n x es op).2 :: os, es', ?_, hh, hs, ?_⟩
    · rw [run_cons c c1 op ops _ hstep, hrun]
      rfl
    · intro t ht
      apply hpast
      exact fun s hs => ht s (List.mem_cons_of_mem now hs)

/-- When `Set` drops an item it is the oldest one, so every other has at most its age. -/
theorem Timed.drops (n : ℕ) (x now : ℤ) (hn : 1 ≤ n) (hn' : n ≤ 2^31-1) (c c' : Cache R)
    (es : List (Item R)) (h : Timed n x now c es) (key : String) (res : Option R) (ok : Bool)
    (hset : ResourceCache.set c key res now = some (c',ok)) : DropsExpiredFirst now c c' := by
  intro d hd hout hlive e he
  obtain ⟨l,hl⟩ := h.holds.represents
  obtain ⟨c1,hset1,h1⟩ := h.holds.set n x hn hn' c es key res now
  obtain rfl : c1 = c' := (Prod.mk.inj (Option.some.inj (hset1.symm.trans hset))).1
  obtain ⟨l',hl'⟩ := h1.represents
  have hdes := hl.entry c es l d hd
  rw [hl'.cached_iff c1 _ l'] at hout
  obtain ⟨-,-,fs,r,rfl,hr⟩ := put_drops n ⟨key,res,now⟩ es d.key (List.mem_map_of_mem hdes) hout
  -- the dropped item is the last of the ring
  obtain rfl : d = r := by
    by_contra hne
    have hfs : d ∈ fs := by
      rcases List.mem_append.mp hdes with hm | hm
      · exact hm
      · exact absurd (List.mem_singleton.mp hm) hne
    have hkeys := hl.keys
    rw [List.map_append, List.nodup_append'] at hkeys
    exact hkeys.2.2 (List.mem_map_of_mem hfs) (by simp [hr])
  have hold : ∀ e ∈ fs ++ [d], age now e ≤ age now d := by
    intro e he
    apply age_antitone
    rcases List.mem_append.mp he with hm | hm
    · exact (List.pairwise_append.mp h.sorted).2.2 e hm d (by simp)
    · obtain rfl := List.mem_singleton.mp hm
      exact Int.le_refl _
  have hnonneg := age_nonneg now d (h.past d hdes)
  rcases he with he | he
  · exact Int.lt_of_le_of_lt (hold e (hl.entry c _ l e he)) hlive
  · have hput := hl'.entry c1 _ l' e he
    rcases KeyedList.put_subset Item.key n ⟨key,res,now⟩ _ e hput with rfl | ⟨hm,-⟩
    -- the item that was just set
    · have hzero := age_self (⟨key,res,now⟩ : Item R)
      calc
        _ = 0 := hzero
        _ ≤ age now d := hnonneg
        _ < c.expireSeconds := hlive
    · exact Int.lt_of_le_of_lt (hold e hm) hlive

/-- In every run with readings that do not decrease the ring is sorted, and a `Set` drops no
live entry while an expired one is in the cache. -/
theorem live_entries_kept (n : ℕ) (hn : 1 ≤ n) (hn' : n ≤ 2^31-1) (x now : ℤ) (ops : List (Op R))
    (hmono : (ops.map reading).Pairwise (· ≤ ·)) :
    ∃ c os, run step (create (n:ℤ) x now) ops = some (c,os) ∧ SortedRing c ∧
      ∀ key res t, (∀ s ∈ ops.map reading, s ≤ t) → ∃ c', set c key res t = some (c',true) ∧
        DropsExpiredFirst t c c' := by
  have hrun : ∃ c os es, run step (create (n:ℤ) x now) ops = some (c,os) ∧ Holds n x c es ∧
      NewestFirst es ∧ ∀ t, (∀ s ∈ ops.map reading, s ≤ t) → ∀ e ∈ es, e.lastModified ≤ t := by
    cases ops with
    | nil => exact ⟨_, [], [], rfl, holds_create n x now, List.Pairwise.nil, by simp⟩
    | cons op ops =>
      have hstart : Timed n x (reading op) (create (n:ℤ) x now) ([] : List (Item R)) :=
        ⟨holds_create n x now, List.Pairwise.nil, by simp⟩
      have hall : (reading op :: (op :: ops).map reading).Pairwise (· ≤ ·) := by
        rw [List.pairwise_cons]
        refine ⟨?_, hmono⟩
        intro s hs
        rcases List.mem_cons.mp hs with rfl | hs
        · exact Int.le_refl _
        · exact (List.pairwise_cons.mp hmono).1 s hs
      obtain ⟨c,os,es,hrun,hh,hs,hpast⟩ := hstart.run n x hn hn' (op :: ops) _ _ _ hall
      refine ⟨c, os, es, hrun, hh, hs, ?_⟩
      intro t ht
      apply hpast
      intro s hs
      rcases List.mem_cons.mp hs with rfl | hs
      · exact ht _ List.mem_cons_self
      · exact ht s hs
  obtain ⟨c,os,es,hrun,hh,hs,hpast⟩ := hrun
  obtain ⟨l,hl⟩ := hh.represents
  refine ⟨c, os, hrun, ⟨es,l,hl,hs⟩, ?_⟩
  intro key res t ht
  have htimed : Timed n x t c es := ⟨hh, hs, hpast t ht⟩
  obtain ⟨c',hset,-⟩ := hh.set n x hn hn' c es key res t
  exact ⟨c', hset, htimed.drops n x t hn hn' c c' es key res true hset⟩

/-- Two items of a cache of two, the first of which expires before a third is set. -/
theorem live_entries_kept_two : ∃ (c : Cache ℕ) (os : List (Answer ℕ)),
    run step (create 2 1 0) [.set "a" (some 1) 0, .set "b" (some 2) 1500000000] = some (c,os) ∧
    SortedRing c ∧ ∀ key res t, (∀ s ∈ [(0:ℤ),1500000000], s ≤ t) →
      ∃ c', set c key res t = some (c',true) ∧ DropsExpiredFirst t c c' :=
  live_entries_kept 2 (by decide) (by decide) 1 0
    [.set "a" (some 1) 0, .set "b" (some 2) 1500000000] (by simp [reading])

end Cclab.ResourceCache
