import Mathlib.Data.List.Induction
import Mathlib.Data.List.Nodup
import Mathlib.Data.List.Perm.Basic
import Mathlib.Tactic.Common

/-! Lists of entries with distinct keys: looking a key up, erasing it, and putting an entry in
front of a list of bounded length. -/
namespace Cclab.KeyedList

variable {E K : Type*} [DecidableEq K] (key : E → K)

/-- Putting an entry: an entry with its key is replaced; without one, a full list loses
its last entry. -/
def put (c : ℕ) (e : E) (es : List E) : List E :=
  if key e ∈ es.map key then e :: es.filter (fun x => key x ≠ key e)
  else if es.length = c then e :: es.dropLast
  else e :: es

def lookup (k : K) (es : List E) : Option E := es.find? (fun x => key x = k)

theorem lookup_append (k : K) (es fs : List E) (e : E) (hk : key e = k)
    (hn : ((es ++ e :: fs).map key).Nodup) : lookup key k (es ++ e :: fs) = some e := by
  have hes : es.find? (fun x => key x = k) = none := by
    apply List.find?_eq_none.mpr
    intro x hx he
    rw [List.map_append, List.nodup_append'] at hn
    apply hn.2.2 (List.mem_map_of_mem hx)
    rw [of_decide_eq_true he, ← hk]
    exact List.mem_cons_self
  rw [lookup, List.find?_append, hes, Option.none_or, List.find?_cons_of_pos (by simpa using hk)]

theorem lookup_none (k : K) (es : List E) (h : k ∉ es.map key) : lookup key k es = none := by
  apply List.find?_eq_none.mpr
  intro x hx he
  exact h (of_decide_eq_true he ▸ List.mem_map_of_mem hx)

theorem absent (k : K) (es : List E) (h : lookup key k es = none) : k ∉ es.map key := by
  intro hm
  rcases List.mem_map.mp hm with ⟨e,he,rfl⟩
  have hne := List.find?_eq_none.mp h e he
  simp at hne

def erase (k : K) (es : List E) : List E := es.filter (fun x => key x ≠ k)

theorem lookup_snoc (k : K) (es : List E) (e : E) : lookup key k (es ++ [e]) =
    (lookup key k es).or (if key e = k then some e else none) := by
  rw [lookup, List.find?_append, lookup]
  congr 1
  by_cases he : key e = k
  · rw [List.find?_cons_of_pos (by simpa using he), if_pos he]
  · rw [List.find?_cons_of_neg (by simpa using he), if_neg he, List.find?_nil]

theorem lookup_some (k : K) (es : List E) (e : E) (h : lookup key k es = some e) :
    key e = k ∧ ∃ es1 es2, es = es1 ++ e :: es2 := by
  have hk := List.find?_some h
  have hm := List.mem_of_find?_eq_some h
  exact ⟨of_decide_eq_true hk, List.append_of_mem hm⟩

/-- Distinct keys: an entry is found wherever it stands. -/
theorem lookup_perm (k : K) (es fs : List E) (hp : es.Perm fs) (hn : (es.map key).Nodup) :
    lookup key k es = lookup key k fs := by
  cases h : lookup key k es with
  | none =>
    have habsent := absent key k es h
    rw [(hp.map key).mem_iff] at habsent
    exact (lookup_none key k fs habsent).symm
  | some e =>
    have hk := (lookup_some key k es e h).1
    obtain ⟨fs1,fs2,rfl⟩ := List.append_of_mem (hp.mem_iff.mp (List.mem_of_find?_eq_some h))
    exact (lookup_append key k fs1 fs2 e hk ((hp.map key).nodup_iff.mp hn)).symm

theorem erase_length (k : K) (es : List E) : (erase key k es).length ≤ es.length :=
  List.length_filter_le _ es

theorem lookup_erase (j k : K) (es : List E) :
    lookup key j (erase key k es) = if j = k then none else lookup key j es := by
  rw [lookup, erase, List.find?_filter]
  by_cases hjk : j = k
  -- an entry with the key would have been erased
  · rw [if_pos hjk]
    apply List.find?_eq_none.mpr
    intro x _ hx
    simp only [ne_eq, decide_not, Bool.not_eq_true', decide_eq_false_iff_not,
      decide_eq_true_eq] at hx
    exact hx.1 (hx.2.trans hjk)
  · rw [if_neg hjk, lookup]
    congr 1
    ext x
    by_cases hx : key x = j
    · simp [hx, hjk]
    · simp [hx]

theorem erase_append (k : K) (es fs : List E) (e : E) (hk : key e = k)
    (hn : ((es ++ e :: fs).map key).Nodup) : erase key k (es ++ e :: fs) = es ++ fs := by
  have hperm : (es ++ e :: fs).Perm (e :: (es ++ fs)) := List.perm_middle
  have hd := (hperm.map key).nodup_iff.mp hn
  rw [List.map_cons, List.nodup_cons] at hd
  rw [erase, List.filter_append, List.filter_cons_of_neg (by simp [hk]), ← List.filter_append]
  apply List.filter_eq_self.mpr
  intro x hx
  have hne : key x ≠ key e := fun he => hd.1 (he ▸ List.mem_map_of_mem hx)
  simpa [hk] using hne

/-- Putting an entry whose key is there moves it to the front. -/
theorem put_append (c : ℕ) (e d : E) (es fs : List E) (hk : key d = key e)
    (hn : ((es ++ d :: fs).map key).Nodup) : put key c e (es ++ d :: fs) = e :: (es ++ fs) := by
  rw [put, if_pos (by rw [← hk]; simp)]
  congr 1
  exact erase_append key (key e) es fs d hk hn

section put
variable (c : ℕ) (e : E) (es : List E)

theorem put_subset (x : E) (hx : x ∈ put key c e es) : x = e ∨ x ∈ es ∧ key x ≠ key e := by
  unfold put at hx
  split_ifs at hx with h1 h2
  · exact (List.mem_cons.mp hx).imp id (fun h => by simpa using h)
  · refine (List.mem_cons.mp hx).imp id (fun h => ?_)
    have hm := List.dropLast_subset es h
    exact ⟨hm, fun he => h1 (he ▸ List.mem_map_of_mem hm)⟩
  · refine (List.mem_cons.mp hx).imp id (fun h => ?_)
    exact ⟨h, fun he => h1 (he ▸ List.mem_map_of_mem h)⟩

/-- The new entry is in front, and behind it the order is kept. -/
theorem put_cons : ∃ fs, put key c e es = e :: fs ∧ fs.Sublist es := by
  unfold put
  split_ifs
  · exact ⟨_, rfl, List.filter_sublist⟩
  · exact ⟨_, rfl, List.dropLast_sublist es⟩
  · exact ⟨_, rfl, List.Sublist.refl es⟩

theorem put_length (hc : 0 < c) (h : es.length ≤ c) : (put key c e es).length ≤ c := by
  unfold put
  split_ifs with h1 h2
  · obtain ⟨x,hx,hk⟩ := List.mem_map.mp h1
    have hlt : (es.filter (fun x => key x ≠ key e)).length < es.length := by
      apply List.length_filter_lt_length_iff_exists.mpr
      exact ⟨x, hx, by simpa using hk⟩
    rw [List.length_cons]
    omega
  · rw [List.length_cons, List.length_dropLast]
    omega
  · rw [List.length_cons]
    omega

end put

/-- Every entry of the list is the last one put with its key. -/
theorem put_latest (c : ℕ) (xs : List E) (x : E)
    (hx : x ∈ xs.foldl (fun es e => put key c e es) []) :
    lookup key (key x) xs.reverse = some x := by
  induction xs using List.reverseRecOn with
  | nil => exact absurd hx (by simp)
  | append_singleton xs e ih =>
    rw [List.foldl_append] at hx
    rw [List.reverse_append, List.reverse_singleton, List.singleton_append]
    rcases put_subset key c e _ x hx with rfl | ⟨hm,hne⟩
    · exact List.find?_cons_of_pos (by simp)
    · exact (List.find?_cons_of_neg (by simpa using hne.symm)).trans (ih hm)

end Cclab.KeyedList
