import Cclab.AeDue

/-! A pass of `processTimeEvents`: which events it calls, what it leaves behind, and when it
comes to an end. -/
namespace Cclab.Ae
open LinkedCells

variable {σ : Type}

section clock
variable (env : Environment) (habits : Habits) (n : ℕ)

/-- The clock is never read backwards. -/
theorem readings_invariant :
    Invariant env habits (fun _ w => n ≤ w.readings : List ℕ → World σ → Prop) where
  setApp := fun _ _ _ hw => hw
  tick := fun _ _ hw => hw.trans (Nat.le_succ _)
  openFd := fun _ _ _ hw _ => hw
  dup := fun _ _ _ _ hw _ => hw
  close := fun _ _ _ hw _ => hw
  setStop := fun _ _ _ hw => hw
  setBeforeSleepProc := fun _ _ _ hw => hw
  createFileEvent := by
    intro _ w fd mask proc clientData hw _
    obtain ⟨-,adds,h⟩ | ⟨-,-,-,adds,h⟩ := aeCreateFileEvent_cases env w fd mask proc clientData
    · rw [h]
      exact hw
    · rw [h]
      exact hw
  deleteFileEvent := by
    intro _ w fd mask hw
    by_cases hm : (w.events fd).mask = aeNone
    · rw [aeDeleteFileEvent_none w fd mask hm]
      exact hw
    by_cases hfd : fd < aeSetsize
    · rw [aeDeleteFileEvent_eq w fd mask hfd hm]
      exact hw
    · unfold aeDeleteFileEvent
      rw [if_pos (not_lt.mp hfd)]
      exact hw
  createTimeEvent := fun _ _ _ _ _ _ hw _ => hw.trans (Nat.le_succ _)
  unlink := by
    intro _ w id v p te hw h
    obtain ⟨head,timers,rfl⟩ := unlinkTimeEvent_eq w v id p te h
    exact hw
  release := by
    intro _ w p v hw h
    obtain ⟨timers,-,rfl⟩ := zfreeTimeEvent_eq w v p h
    exact hw
  reschedule := by
    intro _ w te milliseconds v hw _ h
    obtain ⟨timers,-,rfl⟩ := reschedule_eq env w v te milliseconds h
    exact hw.trans (Nat.le_succ _)

theorem Acts.readings (w v : World σ) (h : Acts env habits w v) : w.readings ≤ v.readings :=
  (readings_invariant env habits w.readings).acts env habits _ w v h [] le_rfl

end clock

section call
variable (env : Environment) (habits : Habits) (prog : Program σ)
  (hb : Behaves env habits prog)
include hb

/-- What a call of a `timeProc` and the loop behind it leave of the older events: the others, as
they were, and the event itself with its new deadline. -/
theorem call_spec (w v u : World σ) (es : List (ℕ × AeTimeEvent)) (e : ℕ × AeTimeEvent)
    (retval : ℤ) (hw : Timers [] w es) (he : e ∈ es)
    (hcall : prog.timeProc e.2.timeProc w e.2.id e.2.clientData = some (v,retval))
    (hafter : afterTimeProc env prog v e.1 e.2.id retval = some u) :
    w.readings ≤ u.readings ∧ ∃ fs, Timers [] u fs ∧
      w.eventLoop.timeEventNextId ≤ u.eventLoop.timeEventNextId ∧
      ∀ f ∈ fs, f.2.id < w.eventLoop.timeEventNextId → f ∈ es ∧ f.2.id ≠ e.2.id ∨
        retval ≠ aeNomore ∧ ∃ n, w.readings ≤ n ∧
          f = setWhen e (addMilliseconds (reading env n) retval) := by
  obtain ⟨hact,-⟩ := hb.timeProc _ w _ _ v retval hcall
  have hread := hact.readings env habits w v
  obtain ⟨gs,hv,hle,hs,hevent⟩ := hact.event env habits w v es hw e he
  have hold (g : ℕ × AeTimeEvent) (hg : g ∈ gs) (hid : g.2.id < w.eventLoop.timeEventNextId) :
      g ∈ es := by
    apply hs.subset
    exact List.mem_filter.mpr ⟨hg,decide_eq_true hid⟩
  unfold afterTimeProc at hafter
  by_cases hr : retval ≠ aeNomore
  · rw [if_pos hr] at hafter
    rcases hevent with hin | ⟨-,hfree⟩
    · obtain ⟨before,after,rfl⟩ := List.append_of_mem hin
      obtain ⟨t,ht,hloop,-,hreadings,hu⟩ := hv.setWhen env [] v before after e retval
      obtain rfl : t = u := Option.some.inj (ht.symm.trans hafter)
      refine ⟨?_, _, hu, hloop ▸ hle, ?_⟩
      · rw [hreadings]
        exact hread.trans (Nat.le_succ _)
      · intro f hf hid
        have horder := List.pairwise_append.mp hv.order
        rcases List.mem_append.mp hf with hf | hf
        · refine Or.inl ⟨hold f (List.mem_append_left _ hf) hid, ?_⟩
          exact (horder.2.2 f hf e List.mem_cons_self).ne'
        rcases List.mem_cons.mp hf with rfl | hf
        · exact Or.inr ⟨hr, v.readings, hread, rfl⟩
        · refine Or.inl ⟨hold f (List.mem_append_right _ (List.mem_cons_of_mem e hf)) hid, ?_⟩
          exact ((List.pairwise_cons.mp horder.2.1).1 f hf).ne
    · rw [reschedule_none env v e.1 retval hfree] at hafter
      exact absurd hafter (by simp)
  · rw [if_neg hr] at hafter
    obtain ⟨⟨t,r⟩,hdel,rfl⟩ := Option.map_eq_some_iff.mp hafter
    have hact' := hb.delete env habits prog v t e.2.id r hdel
    refine ⟨hread.trans (hact'.readings env habits v t), ?_⟩
    rcases hevent with hin | ⟨hno,-⟩
    · obtain ⟨before,after,rfl⟩ := List.append_of_mem hin
      obtain ⟨c,-,hnone,hsome⟩ := hv.delete_some env habits prog hb v before after e
      cases hfin : finalize prog c e.2 with
      | none =>
        rw [hnone hfin] at hdel
        exact absurd hdel (by simp)
      | some c' =>
        obtain ⟨t',fs,hok,ht,hle',hs'⟩ := hsome c' hfin
        rw [hok] at hdel
        obtain ⟨rfl,-⟩ := Prod.mk.inj (Option.some.inj hdel)
        refine ⟨fs, ht, hle.trans hle', ?_⟩
        intro f hf hid
        have hfl : f ∈ before ++ after := by
          apply hs'.subset
          exact List.mem_filter.mpr ⟨hf,decide_eq_true (hid.trans_le hle)⟩
        have horder := List.pairwise_append.mp hv.order
        have hne : f.2.id ≠ e.2.id := by
          rcases List.mem_append.mp hfl with hf | hf
          · exact (horder.2.2 f hf e List.mem_cons_self).ne'
          · exact ((List.pairwise_cons.mp horder.2.1).1 f hf).ne
        have hsub : (before ++ after).Sublist (before ++ e :: after) :=
          (List.sublist_cons_self e after).append_left before
        exact Or.inl ⟨hold f (hsub.subset hfl) hid, hne⟩
    · rw [hv.delete_none prog v gs e.2.id hno] at hdel
      obtain ⟨rfl,-⟩ := Prod.mk.inj (Option.some.inj hdel)
      refine ⟨gs, hv, hle, ?_⟩
      intro f hf hid
      exact Or.inl ⟨hold f hf hid, hno f hf⟩

/-- A pass calls older events only, leaves the others that it finds not due, and the list has no
older event that it did not find so. `seen` are the events that the loop has been past since it last
began at the head. -/
theorem timeLoop_spec (maxId : ℤ) (n0 fuel : ℕ) (w v : World σ) (te : Option ℕ)
    (calls : List (ℤ × ℤ × ℤ)) (seen rest : List (ℕ × AeTimeEvent))
    (hw : Timers [] w (seen ++ rest)) (hrest : Span w.timers te rest none)
    (hmax : maxId < w.eventLoop.timeEventNextId) (hn0 : n0 ≤ w.readings)
    (hseen : ∀ e ∈ seen, e.2.id ≤ maxId → ∃ n, n0 ≤ n ∧ ¬ e.2.due (reading env n))
    (h : timeLoop env prog maxId fuel w te = some (v,calls)) :
    ∃ fs, Timers [] v fs ∧
      (∀ c ∈ calls, c.1 ≤ maxId ∧ ∃ e ∈ seen ++ rest, e.2.id = c.1) ∧
      (∀ f ∈ fs, f.2.id ≤ maxId → ∃ n, n0 ≤ n ∧ ¬ f.2.due (reading env n)) ∧
      ∀ f ∈ fs, f.2.id ≤ maxId → f.2.id ∉ calls.map Prod.fst → f ∈ seen ++ rest := by
  induction fuel generalizing w te calls seen rest with
  | zero => exact absurd h (by simp [timeLoop])
  | succ fuel ih =>
    cases rest with
    | nil =>
      obtain rfl : te = none := hrest
      obtain ⟨rfl,rfl⟩ := Prod.mk.inj (Option.some.inj h)
      rw [List.append_nil] at hw ⊢
      exact ⟨seen, hw, by simp, hseen, fun f hf _ _ => hf⟩
    | cons e rest =>
      obtain ⟨rfl,next,hc,htail⟩ := hrest
      obtain ⟨cell,hcell,hcases⟩ := timeLoop_cases env prog maxId fuel w v e.1 calls h
      obtain rfl : cell = ⟨e.2,next⟩ := Option.some.inj (hcell.symm.trans hc)
      have hsplit : seen ++ e :: rest = (seen ++ [e]) ++ rest := by
        rw [List.append_assoc, List.singleton_append]
      have htick : Timers [] w.tick (seen ++ e :: rest) := hw.congr [] w _ _ rfl rfl rfl rfl
      rcases hcases with ⟨hid,hloop⟩ | ⟨-,hdue,hloop⟩ | ⟨hid,-,w1,retval,w2,calls',hcall,hafter,hloop,rfl⟩
      -- a newer event
      · rw [hsplit] at hw ⊢
        apply ih w next calls _ rest hw htail hmax hn0 _ hloop
        intro d hd hdid
        rcases List.mem_append.mp hd with hd | hd
        · exact hseen d hd hdid
        · obtain rfl := List.mem_singleton.mp hd
          exact absurd hid (not_lt.mpr hdid)
      -- one that is not due
      · rw [hsplit] at htick ⊢
        apply ih w.tick next calls _ rest htick htail hmax (hn0.trans (Nat.le_succ _)) _ hloop
        intro d hd hdid
        rcases List.mem_append.mp hd with hd | hd
        · exact hseen d hd hdid
        · obtain rfl := List.mem_singleton.mp hd
          exact ⟨w.readings, hn0, hdue⟩
      -- a call, and the loop begins again
      · have he : e ∈ seen ++ e :: rest := List.mem_append_right seen List.mem_cons_self
        obtain ⟨hread,gs,h2,hle,hleft⟩ := call_spec env habits prog hb w.tick w1 w2 _ e retval
          htick he hcall hafter
        have hnext : w.tick.eventLoop.timeEventNextId = w.eventLoop.timeEventNextId := rfl
        rw [hnext] at hle hleft
        have hn2 : n0 ≤ w2.readings := (hn0.trans (Nat.le_succ _)).trans hread
        obtain ⟨fs,hv,hcalls,hnot,hkept⟩ := ih w2 _ calls' [] gs h2 h2.span (hmax.trans_le hle) hn2
          (by simp) hloop
        rw [List.nil_append] at hcalls hkept
        refine ⟨fs, hv, ?_, hnot, ?_⟩
        · intro c hc
          rcases List.mem_cons.mp hc with rfl | hc
          · exact ⟨hid, e, he, rfl⟩
          · obtain ⟨hcid,g,hg,hgc⟩ := hcalls c hc
            refine ⟨hcid, ?_⟩
            rcases hleft g hg (lt_of_le_of_lt (hgc.trans_le hcid) hmax) with ⟨hin,-⟩ | ⟨-,n,-,rfl⟩
            · exact ⟨g, hin, hgc⟩
            · exact ⟨e, he, hgc⟩
        · intro f hf hfid hout
          rw [List.map_cons, List.mem_cons, not_or] at hout
          have hg := hkept f hf hfid hout.2
          rcases hleft f hg (lt_of_le_of_lt hfid hmax) with ⟨hin,-⟩ | ⟨-,n,-,rfl⟩
          · exact hin
          · exact absurd rfl hout.1

/-- Where the clock does not go back, `processTimeEvents` leaves no event overdue that was there
when it began: each of those that were due then has been called, or deleted by a call. It calls
none that was created meanwhile. -/
theorem reachable_processTimeEvents (hclock : ∀ m n, m ≤ n → ¬ earlier (reading env n) (reading env m))
    (w v : World σ) (h : Reachable env habits prog w) (fuel : ℕ) (calls : List (ℤ × ℤ × ℤ))
    (hp : processTimeEvents env prog fuel w = some (v,calls)) :
    ∃ es fs, Timers [] w es ∧ Timers [] v fs ∧
      (∀ c ∈ calls, ∃ e ∈ es, e.2.id = c.1) ∧
      (∀ f ∈ fs, f.2.id < w.eventLoop.timeEventNextId → ¬ f.2.due (reading env w.readings)) ∧
      ∀ e ∈ es, e.2.due (reading env w.readings) →
        e.2.id ∈ calls.map Prod.fst ∨ ∀ f ∈ fs, f.2.id ≠ e.2.id := by
  obtain ⟨es,hw⟩ := reachable_list env habits prog hb w h
  obtain ⟨fs,hv,hcalls,hnot,hkept⟩ := timeLoop_spec env habits prog hb _ w.readings fuel w v _ calls []
    es hw hw.span (Int.sub_lt_self _ (by decide)) le_rfl (by simp) hp
  rw [List.nil_append] at hcalls hkept
  have hleft (f : ℕ × AeTimeEvent) (hf : f ∈ fs) (hid : f.2.id < w.eventLoop.timeEventNextId) :
      ¬ f.2.due (reading env w.readings) := by
    obtain ⟨n,hn,hdue⟩ := hnot f hf (Int.le_sub_one_of_lt hid)
    intro hd
    apply hdue
    unfold AeTimeEvent.due at hd ⊢
    rw [not_earlier_iff] at hd ⊢
    exact hd.trans ((not_earlier_iff _ _).mp (hclock w.readings n hn))
  refine ⟨es, fs, hw, hv, fun c hc => (hcalls c hc).2, hleft, ?_⟩
  intro e he hdue
  by_cases hin : e.2.id ∈ calls.map Prod.fst
  · exact Or.inl hin
  · refine Or.inr ?_
    intro f hf hid
    have hfid : f.2.id < w.eventLoop.timeEventNextId := hid ▸ (hw.ids e he).2
    have hfes := hkept f hf (Int.le_sub_one_of_lt hfid) (hid ▸ hin)
    obtain rfl := hw.unique [] w es f e hfes he hid
    exact hleft f hf hfid hdue

omit hb in
/-- The event has been due since 5 ms; it is called at 305 ms, for the next time at 405 ms. -/
theorem processTimeEvents_late : ∃ es fs, Timers [] waiting es ∧
    Timers [] ((processTimeEvents late again 5 waiting).getD (waiting,[])).1 fs ∧
      (∀ c ∈ [((0 : ℤ),(0 : ℤ),(305 : ℤ))], ∃ e ∈ es, e.2.id = c.1) ∧
      (∀ f ∈ fs, f.2.id < waiting.eventLoop.timeEventNextId →
        ¬ f.2.due (reading late waiting.readings)) ∧
      ∀ e ∈ es, e.2.due (reading late waiting.readings) →
        e.2.id ∈ [((0 : ℤ),(0 : ℤ),(305 : ℤ))].map Prod.fst ∨ ∀ f ∈ fs, f.2.id ≠ e.2.id := by
  have hclock (m n : ℕ) (h : m ≤ n) : ¬ earlier (reading late n) (reading late m) := by
    have hn (k : ℕ) : reading late (k+1) = (0,305) := by
      have hclock : late.clock (k+1) = ⟨0,305000⟩ := rfl
      rw [reading, hclock]
      decide
    cases m with
    | zero =>
      cases n with
      | zero => decide
      | succ n =>
        rw [hn n]
        decide
    | succ m =>
      obtain ⟨k,rfl⟩ := Nat.exists_eq_add_of_lt h
      rw [hn m, hn (m+k)]
      decide
  exact reachable_processTimeEvents late anything again (behaves_again late _ trivial) hclock
    waiting _ (reachable_late _ trivial again) 5 [(0,(0,305))] rfl

end call

section ends
variable (env : Environment) (habits : Habits) (prog : Program σ)

section steps
variable (maxId : ℤ) (fuel : ℕ) (w : World σ) (p : ℕ) (te : AeTimeEvent) (next : Option ℕ)
  (hc : w.timers p = some ⟨te,next⟩)
include hc

theorem timeLoop_newer (hid : maxId < te.id) :
    timeLoop env prog maxId (fuel+1) w (some p) = timeLoop env prog maxId fuel w next := by
  rw [timeLoop, hc]
  exact if_pos hid

theorem timeLoop_notDue (hid : te.id ≤ maxId) (hdue : ¬ te.due (reading env w.readings)) :
    timeLoop env prog maxId (fuel+1) w (some p) = timeLoop env prog maxId fuel w.tick next := by
  rw [timeLoop, hc]
  apply (if_neg (not_lt.mpr hid)).trans
  exact if_neg hdue

theorem timeLoop_call (v u : World σ) (retval : ℤ) (hid : te.id ≤ maxId)
    (hdue : te.due (reading env w.readings))
    (hcall : prog.timeProc te.timeProc w.tick te.id te.clientData = some (v,retval))
    (hafter : afterTimeProc env prog v p te.id retval = some u) :
    timeLoop env prog maxId (fuel+1) w (some p) =
      (timeLoop env prog maxId fuel u u.eventLoop.timeEventHead).map fun r =>
        (r.1,(te.id,reading env w.readings) :: r.2) := by
  rw [timeLoop, hc]
  apply (if_neg (not_lt.mpr hid)).trans
  apply (if_pos hdue).trans
  show (prog.timeProc te.timeProc w.tick te.id te.clientData).bind _ = _
  rw [hcall]
  show (afterTimeProc env prog v p te.id retval).bind _ = _
  rw [hafter, Option.bind_some, Option.map_eq_bind]
  rfl

end steps

/-- The clock stays below a time, no event wants to be called again before it, and the calls return
without having deleted their own event where they want to be called again. -/
structure Timely (first : ℕ) (bound : ℤ × ℤ) : Prop where
  clock : ∀ n, first ≤ n → earlier (reading env n) bound
  later : ∀ proc (w : World σ) id clientData v retval,
    prog.timeProc proc w id clientData = some (v,retval) → retval ≠ aeNomore →
      ∀ n, first ≤ n → ¬ earlier (addMilliseconds (reading env n) retval) bound
  returns : ∀ w es e, Timers [] w es → e ∈ es → ∃ v retval u,
    prog.timeProc e.2.timeProc w e.2.id e.2.clientData = some (v,retval) ∧
      afterTimeProc env prog v e.1 e.2.id retval = some u

/-- The events that a pass may still call. -/
def pending (maxId : ℤ) (bound : ℤ × ℤ) (es : List (ℕ × AeTimeEvent)) : List (ℕ × AeTimeEvent) :=
  es.filter fun e => e.2.id ≤ maxId ∧ earlier e.2.when_ bound

theorem mem_pending (maxId : ℤ) (bound : ℤ × ℤ) (es : List (ℕ × AeTimeEvent))
    (e : ℕ × AeTimeEvent) :
    e ∈ pending maxId bound es ↔ e ∈ es ∧ e.2.id ≤ maxId ∧ earlier e.2.when_ bound := by
  rw [pending, List.mem_filter, decide_eq_true_iff]

theorem timeLoop_returns (hb : Behaves env habits prog) (first : ℕ) (bound : ℤ × ℤ)
    (ht : Timely env prog first bound) (maxId : ℤ) (n : ℕ) (w : World σ) (te : Option ℕ)
    (seen rest : List (ℕ × AeTimeEvent)) (hw : Timers [] w (seen ++ rest))
    (hrest : Span w.timers te rest none) (hmax : maxId < w.eventLoop.timeEventNextId)
    (hfirst : first ≤ w.readings) (hn : (pending maxId bound (seen ++ rest)).length ≤ n) :
    ∃ fuel v calls, timeLoop env prog maxId fuel w te = some (v,calls) ∧
      (calls.map Prod.fst).Nodup ∧
      ∀ c ∈ calls, ∃ e ∈ pending maxId bound (seen ++ rest), e.2.id = c.1 ∧ e.2.due c.2 := by
  -- a call takes its event out of those that are pending, and a pass without one ends with the list
  induction n using Nat.strong_induction_on generalizing w te seen rest with
  | _ n ihn =>
    induction rest generalizing w te seen with
    | nil =>
      obtain rfl : te = none := hrest
      exact ⟨1, w, [], rfl, List.nodup_nil, by simp⟩
    | cons e rest ih =>
      obtain ⟨rfl,next,hc,htail⟩ := hrest
      have hsplit : seen ++ e :: rest = (seen ++ [e]) ++ rest := by
        rw [List.append_assoc, List.singleton_append]
      have htick : Timers [] w.tick (seen ++ e :: rest) := hw.congr [] w _ _ rfl rfl rfl rfl
      have htickfirst : first ≤ w.tick.readings := hfirst.trans (Nat.le_succ _)
      by_cases hid : maxId < e.2.id
      · rw [hsplit] at hw hn ⊢
        obtain ⟨fuel,v,calls,hloop,hrest⟩ := ih w next _ hw htail hmax hfirst hn
        refine ⟨fuel+1, v, calls, ?_, hrest⟩
        rw [timeLoop_newer env prog maxId fuel w e.1 e.2 next hc hid]
        exact hloop
      · by_cases hdue : e.2.due (reading env w.readings)
        · have he : e ∈ seen ++ e :: rest := List.mem_append_right seen List.mem_cons_self
          obtain ⟨w1,retval,w2,hcall,hafter⟩ := ht.returns w.tick _ e htick he
          obtain ⟨hread,gs,h2,hle,hleft⟩ := call_spec env habits prog hb w.tick w1 w2 _ e retval
            htick he hcall hafter
          have hnext : w.tick.eventLoop.timeEventNextId = w.eventLoop.timeEventNextId := rfl
          rw [hnext] at hle hleft
          -- the event was due, so it was pending
          have hpend : e ∈ pending maxId bound (seen ++ e :: rest) := by
            apply (mem_pending maxId bound _ e).mpr
            refine ⟨he, not_lt.mp hid, ?_⟩
            have hclock := ht.clock w.readings hfirst
            rw [AeTimeEvent.due, not_earlier_iff] at hdue
            rw [earlier_iff] at hclock ⊢
            exact hdue.trans_lt hclock
          have hgone (g : ℕ × AeTimeEvent) (hg : g ∈ pending maxId bound gs) :
              g ∈ pending maxId bound (seen ++ e :: rest) ∧ g.2.id ≠ e.2.id := by
            obtain ⟨hgs,hgid,hgb⟩ := (mem_pending maxId bound gs g).mp hg
            rcases hleft g hgs (lt_of_le_of_lt hgid hmax) with ⟨hin,hne⟩ | ⟨hr,k,hk,rfl⟩
            · exact ⟨(mem_pending maxId bound _ g).mpr ⟨hin,hgid,hgb⟩, hne⟩
            · exact absurd hgb (ht.later _ _ _ _ _ _ hcall hr k (htickfirst.trans hk))
          have hless : (pending maxId bound gs).length < n := by
            have hnodup : (e :: pending maxId bound gs).Nodup := by
              apply List.nodup_cons.mpr
              refine ⟨fun hin => (hgone e hin).2 rfl, ?_⟩
              exact (h2.span.nodup gs).of_map.filter _
            have hsub : e :: pending maxId bound gs ⊆ pending maxId bound (seen ++ e :: rest) :=
              List.cons_subset.mpr ⟨hpend, fun g hg => (hgone g hg).1⟩
            exact ((List.Nodup.subperm hnodup hsub).length_le).trans hn
          obtain ⟨fuel,v,calls,hloop,hnodup,hcalls⟩ := ihn _ hless w2 _ [] gs h2 h2.span
            (hmax.trans_le hle) (htickfirst.trans hread) le_rfl
          rw [List.nil_append] at hcalls
          refine ⟨fuel+1, v, (e.2.id,reading env w.readings) :: calls, ?_, ?_, ?_⟩
          · rw [timeLoop_call env prog maxId fuel w e.1 e.2 next hc w1 w2 retval (not_lt.mp hid) hdue
              hcall hafter, hloop, Option.map_some]
          · rw [List.map_cons, List.nodup_cons]
            refine ⟨?_, hnodup⟩
            intro hin
            obtain ⟨c,hcin,hce⟩ := List.mem_map.mp hin
            obtain ⟨g,hg,hgc,-⟩ := hcalls c hcin
            exact (hgone g hg).2 (hgc.trans hce)
          · intro c hcin
            rcases List.mem_cons.mp hcin with rfl | hcin
            · exact ⟨e, hpend, rfl, hdue⟩
            · obtain ⟨g,hg,hgc⟩ := hcalls c hcin
              exact ⟨g, (hgone g hg).1, hgc⟩
        · rw [hsplit] at htick hn ⊢
          obtain ⟨fuel,v,calls,hloop,hrest⟩ := ih w.tick next _ htick htail hmax htickfirst hn
          refine ⟨fuel+1, v, calls, ?_, hrest⟩
          rw [timeLoop_notDue env prog maxId fuel w e.1 e.2 next hc (not_lt.mp hid) hdue]
          exact hloop

/-- If the clock does not reach the time before which nobody wants to be called again, a pass comes
to an end: it calls every event at most once, and only one that was there and due. -/
theorem reachable_returns (hb : Behaves env habits prog) (w : World σ)
    (h : Reachable env habits prog w) (bound : ℤ × ℤ) (ht : Timely env prog w.readings bound) :
    ∃ es fuel v calls, Timers [] w es ∧ processTimeEvents env prog fuel w = some (v,calls) ∧
      (calls.map Prod.fst).Nodup ∧ ∀ c ∈ calls, ∃ e ∈ es, e.2.id = c.1 ∧ e.2.due c.2 := by
  obtain ⟨es,hw⟩ := reachable_list env habits prog hb w h
  obtain ⟨fuel,v,calls,hloop,hnodup,hcalls⟩ := timeLoop_returns env habits prog hb w.readings bound ht
    (w.eventLoop.timeEventNextId-1) _ w _ [] es hw hw.span (Int.sub_lt_self _ (by decide)) le_rfl
    le_rfl
  refine ⟨es, fuel, v, calls, hw, hloop, hnodup, ?_⟩
  intro c hc
  obtain ⟨e,he,hec⟩ := hcalls c hc
  exact ⟨e, ((mem_pending _ bound es e).mp he).1, hec⟩

theorem reading_still (n : ℕ) : reading still n = (0,0) := by
  simp [reading, still]

/-- Where the time stands still, events that want to be called after 100 ms are called once. -/
theorem timely_again (first : ℕ) : Timely still (again : Program Unit) first (0,50) where
  clock := by
    intro n _
    rw [reading_still]
    decide
  later := by
    rintro proc w id clientData v retval hcall - n -
    obtain ⟨-,rfl⟩ := Prod.mk.inj (Option.some.inj hcall)
    rw [reading_still]
    decide
  returns := by
    intro w es e hw he
    obtain ⟨before,after,rfl⟩ := List.append_of_mem he
    obtain ⟨u,hu,-⟩ := hw.setWhen still [] w before after e 100
    refine ⟨w, 100, u, rfl, ?_⟩
    unfold afterTimeProc
    rw [if_pos (by decide)]
    exact hu

theorem returns_again : let w := (aeCreateTimeEvent still (fresh []) 0 0 0 none).1
    ∃ es fuel v calls, Timers [] w es ∧ processTimeEvents still again fuel w = some (v,calls) ∧
      (calls.map Prod.fst).Nodup ∧ ∀ c ∈ calls, ∃ e ∈ es, e.2.id = c.1 ∧ e.2.due c.2 := by
  have ha : Acts still anything (fresh []) _ :=
    .createTimeEvent _ 0 0 0 none trivial
  exact reachable_returns still _ again (behaves_again still _ trivial) _
    ⟨_, _, _, .acts _ _ .refl ha⟩ (0,50) (timely_again _)

end ends

end Cclab.Ae
