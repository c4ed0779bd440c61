import Cclab.ResourceCacheRefines

/-! Which key a full cache drops, seen against the history of its uses. -/
namespace Cclab.ResourceCache
open IntrusiveLists NodeHeap OperationRuns

variable {R : Type}

inductive Use where
  | set (key : String)
  | hit (key : String)
deriving DecidableEq

/-- `Get` finds an item for the key that is not expired, and returns its value. -/
def hits (c : Cache R) (key : String) (now : ℤ) : Bool :=
  match c.cacheMap.lookup key with
  | none => false
  | some item => match c.heap item with
    | none => false
    | some it => (now-it.data.lastModified).tdiv 1000000000 < c.expireSeconds

def used (c : Cache R) : Op R → List Use
  | .get key now => if hits c key now then [.hit key] else []
  | .set key _ _ => [.set key]

/-- One call on a cache beside the uses so far, the last one in front. -/
def move (s : Cache R × List Use) (op : Op R) : Option (Cache R × List Use) :=
  (step s.1 op).map fun r => (r.1, used s.1 op ++ s.2)

/-- How many uses ago a key was set, returned by `Get`, and either of them. -/
def setAge (us : List Use) (key : String) : ℕ := us.idxOf (.set key)

def hitAge (us : List Use) (key : String) : ℕ := us.idxOf (.hit key)

def useAge (us : List Use) (key : String) : ℕ := min (setAge us key) (hitAge us key)

def Cached (c : Cache R) (key : String) : Prop := (c.cacheMap.lookup key).isSome

/-- A key that a call drops is used less recently than every other cached key. -/
def DropsLeastRecent (s : Cache R × List Use) (_ : Op R) (s' : Cache R × List Use) : Prop :=
  ∀ d, Cached s.1 d → ¬ Cached s'.1 d → ∀ j, Cached s.1 j → j ≠ d → useAge s.2 j < useAge s.2 d

/-- When a new key is set in a full cache, the key that was set longest ago was not returned by a
`Get` since the last use of some other cached key. -/
def OldestSetNotHit (s : Cache R × List Use) (op : Op R) (_ : Cache R × List Use) : Prop :=
  ∀ key res now, op = .set key res now → ¬ Cached s.1 key →
    (s.1.cacheMap.keys.length : ℤ) = s.1.capacity → ∀ d, Cached s.1 d →
    (∀ j, Cached s.1 j → j ≠ d → setAge s.2 j < setAge s.2 d) →
    ∀ j, Cached s.1 j → j ≠ d → useAge s.2 j < hitAge s.2 d

/-- The items `es` of the cache lie in the order in which their keys were set. -/
def Recent (n : ℕ) (x : ℤ) (s : Cache R × List Use) (es : List (Item R)) : Prop :=
  Holds n x s.1 es ∧ (es.map Item.key).Pairwise (fun a b => setAge s.2 a < setAge s.2 b)

section represents
variable (c : Cache R) (es : List (Item R)) (l : List ℕ) (h : Represents c es l)
include h

theorem Represents.cached_iff (k : String) : Cached c k ↔ k ∈ es.map Item.key := by
  constructor
  · intro hk
    rcases Option.isSome_iff_exists.mp hk with ⟨p,hp⟩
    rcases (h.map k p).mp hp with ⟨hpl,hkey⟩
    rcases h.split c es l p hpl with ⟨l1,l2,es1,es2,e,-,rfl,he,-,-⟩
    rw [he, Option.map_some, Option.some.injEq] at hkey
    rw [← hkey]
    simp
  · intro hk
    rw [Cached, Option.isSome_iff_ne_none]
    intro hnone
    exact h.absent c es l k hnone hk

end represents

theorem setAge_set (us : List Use) (k : String) : setAge (.set k :: us) k = 0 :=
  List.idxOf_cons_self

theorem setAge_set_ne (us : List Use) (k j : String) (h : j ≠ k) :
    setAge (.set k :: us) j = setAge us j+1 :=
  List.idxOf_cons_ne us (fun he => h (Use.set.inj he).symm)

theorem setAge_hit (us : List Use) (k j : String) : setAge (.hit k :: us) j = setAge us j+1 :=
  List.idxOf_cons_ne us (by simp)

/-- A new use in front keeps the order of the keys that it does not set. -/
theorem pairwise_used (us : List Use) (c : Cache R) (op : Op R) (ks : List String)
    (hset : ∀ key res now, op = .set key res now → key ∉ ks)
    (h : ks.Pairwise (fun a b => setAge us a < setAge us b)) :
    ks.Pairwise (fun a b => setAge (used c op ++ us) a < setAge (used c op ++ us) b) := by
  apply h.imp_of_mem
  intro a b ha hb hab
  cases op with
  | get key now =>
    rw [used]
    split_ifs
    · rw [List.singleton_append, setAge_hit, setAge_hit]
      omega
    · exact hab
  | set key res now =>
    have hne (j : String) (hj : j ∈ ks) : j ≠ key := fun he => hset key res now rfl (he ▸ hj)
    rw [used, List.singleton_append, setAge_set_ne us key a (hne a ha), setAge_set_ne us key b (hne b hb)]
    omega

/-- The keys behind a new one are those before, without it and perhaps the last. -/
theorem put_keys (n : ℕ) (e : Item R) (es : List (Item R)) : ∃ ks,
    (KeyedList.put Item.key n e es).map Item.key = e.key :: ks ∧ ks.Sublist (es.map Item.key) ∧
    e.key ∉ ks := by
  unfold KeyedList.put
  split_ifs with h1 h2
  · refine ⟨_, List.map_cons, List.filter_sublist.map Item.key, ?_⟩
    intro hm
    rcases List.mem_map.mp hm with ⟨d,hd,he⟩
    simp only [List.mem_filter, he] at hd
    simp at hd
  · refine ⟨_, List.map_cons, (List.dropLast_sublist es).map Item.key, ?_⟩
    exact fun hm => h1 (((List.dropLast_sublist es).map Item.key).subset hm)
  · exact ⟨_, List.map_cons, List.Sublist.refl _, h1⟩

theorem Recent.step (n : ℕ) (x : ℤ) (hn : 1 ≤ n) (hn' : n ≤ 2^31-1) (s : Cache R × List Use)
    (es : List (Item R)) (op : Op R) (h : Recent n x s es) :
    ∃ s', move s op = some s' ∧ Recent n x s' (specStep n x es op).1 := by
  rcases h with ⟨hh,hp⟩
  rcases hh.step n x hn hn' s.1 es op with ⟨c',hstep,hh'⟩
  refine ⟨(c',used s.1 op ++ s.2), by rw [move, hstep, Option.map_some], hh', ?_⟩
  cases op with
  | get key now => exact pairwise_used s.2 s.1 _ _ (by simp) hp
  | set key res now =>
    rcases put_keys n ⟨key,res,now⟩ es with ⟨ks,hks,hsub,hout⟩
    have hrest := pairwise_used s.2 s.1 (.set key res now) ks (by
      intro k r t hop
      obtain ⟨rfl,-,-⟩ := Op.set.inj hop
      exact hout) (hp.sublist hsub)
    change ((KeyedList.put Item.key n ⟨key,res,now⟩ es).map Item.key).Pairwise _
    rw [hks, List.pairwise_cons]
    refine ⟨?_, hrest⟩
    intro j hj
    have hne : j ≠ key := fun he => hout (he ▸ hj)
    rw [used, List.singleton_append, setAge_set, setAge_set_ne s.2 key j hne]
    exact Nat.succ_pos _

/-- A key is dropped only from a full list, where it is the last one. -/
theorem put_drops (n : ℕ) (e : Item R) (es : List (Item R)) (d : String)
    (hd : d ∈ es.map Item.key) (hout : d ∉ (KeyedList.put Item.key n e es).map Item.key) :
    e.key ∉ es.map Item.key ∧ es.length = n ∧ ∃ fs r, es = fs ++ [r] ∧ r.key = d := by
  rcases List.mem_map.mp hd with ⟨x,hx,rfl⟩
  unfold KeyedList.put at hout
  split_ifs at hout with h1 h2
  · rw [List.map_cons, List.mem_cons, not_or] at hout
    have hkept : x ∈ es.filter (fun y => y.key ≠ e.key) :=
      List.mem_filter.mpr ⟨hx, decide_eq_true hout.1⟩
    exact absurd (List.mem_map_of_mem hkept) hout.2
  · rcases List.eq_nil_or_concat es with rfl | ⟨fs,r,hes⟩
    · exact absurd hx (by simp)
    rw [List.concat_eq_append] at hes
    refine ⟨h1, h2, fs, r, hes, ?_⟩
    rw [hes, List.dropLast_concat, List.map_cons, List.mem_cons, not_or] at hout
    rw [hes] at hx
    rcases List.mem_append.mp hx with hx | hx
    · exact absurd (List.mem_map_of_mem hx) hout.2
    · rw [List.mem_singleton.mp hx]
  · exact absurd (List.mem_cons_of_mem _ (List.mem_map_of_mem hx)) hout

theorem put_drops_last (n : ℕ) (e r : Item R) (fs : List (Item R))
    (hnew : e.key ∉ (fs ++ [r]).map Item.key) (hfull : (fs ++ [r]).length = n)
    (hnodup : ((fs ++ [r]).map Item.key).Nodup) :
    r.key ∉ (KeyedList.put Item.key n e (fs ++ [r])).map Item.key := by
  rw [KeyedList.put, if_neg hnew, if_pos hfull, List.dropLast_concat, List.map_cons, List.mem_cons, not_or]
  rw [List.map_append] at hnew hnodup
  constructor
  · intro he
    exact hnew (by simp [he])
  · intro hm
    exact (List.nodup_append'.mp hnodup).2.2 hm (by simp)

/-- In the order in which the keys were set, the last one is the oldest. -/
theorem oldest_iff (us : List Use) (fs : List (Item R)) (r : Item R)
    (hp : ((fs ++ [r]).map Item.key).Pairwise (fun a b => setAge us a < setAge us b)) (d : String)
    (hd : d ∈ (fs ++ [r]).map Item.key) :
    (∀ j ∈ (fs ++ [r]).map Item.key, j ≠ d → setAge us j < setAge us d) ↔ d = r.key := by
  rw [List.map_append, List.pairwise_append] at hp
  have hbefore (j : String) (hj : j ∈ fs.map Item.key) : setAge us j < setAge us r.key :=
    hp.2.2 j hj r.key (by simp)
  constructor
  · intro h
    by_contra hne
    have hlt := h r.key (by simp) (fun he => hne he.symm)
    rw [List.map_append] at hd
    rcases List.mem_append.mp hd with hd | hd
    · exact absurd (hbefore d hd) (Nat.not_lt_of_gt hlt)
    · exact hne (List.mem_singleton.mp hd)
  · rintro rfl j hj hne
    rw [List.map_append] at hj
    rcases List.mem_append.mp hj with hj | hj
    · exact hbefore j hj
    · exact absurd (List.mem_singleton.mp hj) hne

/-- One call drops the least recently used key exactly if the key set longest ago was not hit
since the last use of another one. -/
theorem Recent.drops_iff (n : ℕ) (x : ℤ) (hn : 1 ≤ n) (hn' : n ≤ 2^31-1) (s s' : Cache R × List Use)
    (es : List (Item R)) (op : Op R) (h : Recent n x s es) (hm : move s op = some s') :
    DropsLeastRecent s op s' ↔ OldestSetNotHit s op s' := by
  rcases h.step n x hn hn' s es op with ⟨s1,hm1,h'⟩
  obtain rfl : s1 = s' := Option.some.inj (hm1.symm.trans hm)
  rcases h with ⟨hh,hp⟩
  rcases hh.represents with ⟨l,hl⟩
  rcases h'.1.represents with ⟨l',hl'⟩
  have hcached := hl.cached_iff s.1 es l
  have hcached' := hl'.cached_iff s1.1 _ l'
  have hfull : (s.1.cacheMap.keys.length : ℤ) = s.1.capacity ↔ es.length = n := by
    rw [hl.size, hl.length s.1 es l, hh.capacity]
    exact Int.natCast_inj
  simp only [DropsLeastRecent, OldestSetNotHit, hcached, hcached', hfull]
  constructor
  · rintro hdrop key res now rfl hnew hlen d hd hold j hj hne
    rcases List.eq_nil_or_concat es with rfl | ⟨fs,r,hes⟩
    · exact absurd hd (by simp)
    rw [List.concat_eq_append] at hes
    subst hes
    obtain rfl := (oldest_iff s.2 fs r hp d hd).mp hold
    have hout := put_drops_last n ⟨key,res,now⟩ r fs hnew hlen hl.keys
    exact Nat.lt_of_lt_of_le (hdrop r.key hd hout j hj hne) (Nat.min_le_right _ _)
  · intro hnot d hd hout j hj hne
    cases op with
    | get key now => exact absurd hd hout
    | set key res now =>
      rcases put_drops n ⟨key,res,now⟩ es d hd hout with ⟨hnew,hlen,fs,r,rfl,hr⟩
      have hold := (oldest_iff s.2 fs r hp d hd).mpr hr.symm
      have hhit := hnot key res now rfl hnew hlen d hd hold j hj hne
      have hset : useAge s.2 j < setAge s.2 d :=
        Nat.lt_of_le_of_lt (Nat.min_le_left _ _) (hold j hj hne)
      exact Nat.lt_min.mpr ⟨hset,hhit⟩

/-- In every run the cache drops least recently used keys only, exactly if no `Set` of a new key
meets a full cache whose oldest set key was hit since the last use of every other key. -/
theorem drops_least_recent_iff (n : ℕ) (hn : 1 ≤ n) (hn' : n ≤ 2^31-1) (x now : ℤ)
    (ops : List (Op R)) : (∃ s, ops.foldlM move (create (n:ℤ) x now,[]) = some s) ∧
      (Along move DropsLeastRecent (create (n:ℤ) x now,[]) ops ↔
        Along move OldestSetNotHit (create (n:ℤ) x now,[]) ops) := by
  have hstart : Recent n x (create (n:ℤ) x now,[]) ([] : List (Item R)) :=
    ⟨holds_create n x now, List.Pairwise.nil⟩
  have hpermitted (s : Cache R × List Use) : Permitted move (fun _ _ => True) s ops := by
    induction ops generalizing s with
    | nil => trivial
    | cons op ops ih => exact ⟨trivial, fun t _ => ih t⟩
  constructor
  · rcases foldlM_refines move (fun _ _ => True) (Recent n x) (fun es op => (specStep n x es op).1)
      (fun s es op h _ => h.step n x hn hn' s es op) _ [] ops hstart (hpermitted _) with ⟨s,hrun,-⟩
    exact ⟨s, hrun⟩
  · apply along_iff move (fun _ _ => True) (fun s => ∃ es, Recent n x s es) _ _ _ _ ops ⟨[],hstart⟩
      (hpermitted _)
    rintro s op s' ⟨es,h⟩ - hm
    rcases h.step n x hn hn' s es op with ⟨s1,hm1,h'⟩
    obtain rfl : s1 = s' := Option.some.inj (hm1.symm.trans hm)
    exact ⟨⟨_,h'⟩, h.drops_iff n x hn hn' s s1 es op hm⟩

theorem cached_iff_keys (c : Cache ℕ) (k : String) : Cached c k ↔ k ∈ c.cacheMap.keys :=
  AList.lookup_isSome.trans AList.mem_keys

/-- Set "a" and "b", get "b", set "c". -/
def evicting : List (Op ℕ) :=
  [.set "a" (some 1) 0, .set "b" (some 2) 0, .get "b" 0, .set "c" (some 3) 0]

/-- Of a cache of two, "a" is dropped, which was used before "b". -/
theorem drops_least_recent_iff_evicts : Along move DropsLeastRecent (create 2 30 0,[]) evicting ∧
    ∃ s, evicting.foldlM move (create 2 30 0,[]) = some s ∧ s.1.cacheMap.keys = ["c","b"] := by
  refine ⟨?_, _, rfl, by decide⟩
  apply (drops_least_recent_iff 2 (by decide) (by decide) 30 0 evicting).2.mpr
  rintro s1 ⟨⟩
  refine ⟨fun _ _ _ _ _ hfull => absurd hfull (by decide), ?_⟩
  rintro s2 ⟨⟩
  refine ⟨fun _ _ _ _ _ hfull => absurd hfull (by decide), ?_⟩
  intro s3 h3
  refine ⟨fun _ _ _ hop => absurd hop (by simp), ?_⟩
  have hkeys : s3.1.cacheMap.keys = ["b","a"] := by
    cases h3
    decide
  have hlog : s3.2 = [.hit "b",.set "b",.set "a"] := by
    cases h3
    decide
  intro s4 _
  refine ⟨?_, trivial⟩
  rintro key res now - - - d hd hold j hj hne
  rw [cached_iff_keys, hkeys] at hd hj
  simp only [cached_iff_keys, hkeys, hlog] at hold ⊢
  revert d j
  decide

/-- Set "a" and "b", get "a", set "c": of a cache of two, "a" is dropped, though "b" was used
before it. -/
theorem hit_key_dropped : ∃ s s' : Cache ℕ × List Use,
    [.set "a" (some 1) 0, .set "b" (some 2) 0, .get "a" 0].foldlM move (create 2 30 0,[]) = some s ∧
    move s (.set "c" (some 3) 0) = some s' ∧ Cached s.1 "a" ∧ ¬ Cached s'.1 "a" ∧ Cached s.1 "b" ∧
    useAge s.2 "a" < useAge s.2 "b" ∧ ¬ DropsLeastRecent s (.set "c" (some 3) 0) s' := by
  refine ⟨_, _, rfl, rfl, rfl, by unfold Cached; decide, rfl, by decide, ?_⟩
  intro h
  exact absurd (h "a" rfl (by unfold Cached; decide) "b" rfl (by decide)) (by decide)

end Cclab.ResourceCache
