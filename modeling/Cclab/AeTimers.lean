import Cclab.AeFiles
import Mathlib.Data.List.Nodup
import Mathlib.Data.List.Range

/-! The time events of a loop: a list of cells that nobody leaks and nobody frees twice, with ids
that are never given twice. What is still there of an older list is a part of it. -/
namespace Cclab.Ae
open LinkedCells

variable {σ : Type}

/-- The time events of a loop are this list; those of `F` are being deleted. -/
structure Timers (F : List ℕ) (w : World σ) (es : List (ℕ × AeTimeEvent)) : Prop where
  span : Span w.timers w.eventLoop.timeEventHead es none
  allocated : ∀ p, w.timers p ≠ none ↔ p ∈ es.map Prod.fst ∨ p ∈ F
  nodup : F.Nodup
  apart : ∀ p ∈ F, p ∉ es.map Prod.fst
  below : ∀ p, w.timers p ≠ none → p < w.nextTimer
  order : es.Pairwise fun d e => e.2.id < d.2.id
  ids : ∀ e ∈ es, 0 ≤ e.2.id ∧ e.2.id < w.eventLoop.timeEventNextId
  next : 0 ≤ w.eventLoop.timeEventNextId

section lists
variable (F : List ℕ) (w v : World σ) (es : List (ℕ × AeTimeEvent))

theorem Timers.congr (hw : Timers F w es) (ht : v.timers = w.timers)
    (hn : v.nextTimer = w.nextTimer) (hh : v.eventLoop.timeEventHead = w.eventLoop.timeEventHead)
    (hi : v.eventLoop.timeEventNextId = w.eventLoop.timeEventNextId) : Timers F v es := by
  constructor
  · rw [ht, hh]
    exact hw.span
  · rw [ht]
    exact hw.allocated
  · exact hw.nodup
  · exact hw.apart
  · rw [ht, hn]
    exact hw.below
  · exact hw.order
  · rw [hi]
    exact hw.ids
  · rw [hi]
    exact hw.next

theorem Timers.mem (hw : Timers F w es) (e : ℕ × AeTimeEvent) (he : e ∈ es) : e.1 < w.nextTimer := by
  apply hw.below
  apply (hw.allocated e.1).mpr
  exact Or.inl (List.mem_map_of_mem he)

/-- The loops over the list have enough fuel. -/
theorem Timers.fuel (hw : Timers F w es) : es.length < w.nextTimer+1 := by
  have hsub : es.map Prod.fst ⊆ List.range w.nextTimer := by
    intro p hp
    obtain ⟨e,he,rfl⟩ := List.mem_map.mp hp
    exact List.mem_range.mpr (hw.mem F w es e he)
  have hlen := (List.Nodup.subperm (hw.span.nodup es) hsub).length_le
  rw [List.length_map, List.length_range] at hlen
  exact Nat.lt_succ_of_le hlen

theorem Timers.unique (hw : Timers F w es) (d e : ℕ × AeTimeEvent) (hd : d ∈ es) (he : e ∈ es)
    (h : d.2.id = e.2.id) : d = e := by
  have hn : (es.map fun e => e.2.id).Nodup := by
    rw [List.nodup_iff_pairwise_ne, List.pairwise_map]
    exact hw.order.imp fun hlt => hlt.ne'
  exact List.inj_on_of_nodup_map hn hd he h

/-- There is one list at most. -/
theorem Timers.eq (fs : List (ℕ × AeTimeEvent)) (hw : Timers F w es) (hw' : Timers F w fs) :
    es = fs := by
  have hspan := hw.span
  have hspan' := hw'.span
  revert hspan hspan'
  generalize w.eventLoop.timeEventHead = o
  clear hw hw'
  induction es generalizing o fs with
  | nil =>
    rintro rfl hfs
    cases fs with
    | nil => rfl
    | cons f fs => exact absurd hfs.1 (by simp)
  | cons e es ih =>
    rintro ⟨rfl,next,hc,hes⟩ hfs
    cases fs with
    | nil => exact absurd hfs (by simp [Span])
    | cons f fs =>
      obtain ⟨hf,next',hc',hrest⟩ := hfs
      have hfe : e.1 = f.1 := Option.some.inj hf
      rw [← hfe, hc] at hc'
      obtain ⟨hdata,rfl⟩ := Cell.mk.inj (Option.some.inj hc')
      rw [ih fs next hes hrest, Prod.ext hfe hdata]

end lists

section calls
variable (env : Environment) (F : List ℕ) (w : World σ) (es : List (ℕ × AeTimeEvent))

theorem timers_create (events : ℕ → AeFileEvent) (kernel : Kernel) (app : σ) :
    Timers [] (aeCreateEventLoop events kernel app) [] := by
  constructor
  · rfl
  · intro p
    simp [aeCreateEventLoop]
  · exact List.nodup_nil
  · intro p hp
    exact absurd hp List.not_mem_nil
  · intro p hp
    exact absurd rfl hp
  · exact List.Pairwise.nil
  · intro e he
    exact absurd he List.not_mem_nil
  · exact le_rfl

/-- The event that `aeCreateTimeEvent` makes. -/
def newTimeEvent (milliseconds : ℤ) (proc clientData : ℕ) (finalizerProc : Option ℕ) :
    ℕ × AeTimeEvent :=
  (w.nextTimer,⟨w.eventLoop.timeEventNextId,
    (addMilliseconds (reading env w.readings) milliseconds).1,
    (addMilliseconds (reading env w.readings) milliseconds).2,proc,finalizerProc,clientData⟩)

theorem Timers.create (milliseconds : ℤ) (proc clientData : ℕ) (finalizerProc : Option ℕ)
    (hw : Timers F w es) :
    Timers F (aeCreateTimeEvent env w milliseconds proc clientData finalizerProc).1
      (newTimeEvent env w milliseconds proc clientData finalizerProc :: es) := by
  have hnew : w.timers w.nextTimer = none := by
    by_contra hne
    exact absurd (hw.below _ hne) (lt_irrefl _)
  have hout : w.nextTimer ∉ es.map Prod.fst := by
    intro hp
    exact (hw.allocated _).mpr (Or.inl hp) hnew
  have hF : w.nextTimer ∉ F := by
    intro hp
    exact (hw.allocated _).mpr (Or.inr hp) hnew
  constructor
  · exact hw.span.push es w.nextTimer _ hout
  · intro p
    show Function.update w.timers w.nextTimer (some _) p ≠ none ↔ _
    rw [List.map_cons, List.mem_cons, or_assoc]
    by_cases hp : p = w.nextTimer
    · rw [hp, Function.update_self]
      exact iff_of_true (Option.some_ne_none _) (Or.inl rfl)
    · rw [Function.update_of_ne hp, hw.allocated]
      exact (or_iff_right hp).symm
  · exact hw.nodup
  · intro p hp
    rw [List.map_cons, List.mem_cons, not_or]
    refine ⟨?_, hw.apart p hp⟩
    rintro rfl
    exact hF hp
  · intro p hp
    show p < w.nextTimer+1
    by_cases hpn : p = w.nextTimer
    · exact hpn ▸ Nat.lt_succ_self p
    · apply Nat.lt_succ_of_lt
      apply hw.below p
      intro hz
      exact hp ((Function.update_of_ne hpn _ _).trans hz)
  · exact hw.order.cons fun e he => (hw.ids e he).2
  · intro e he
    show 0 ≤ e.2.id ∧ e.2.id < w.eventLoop.timeEventNextId+1
    rcases List.mem_cons.mp he with rfl | he
    · exact ⟨hw.next, Int.lt_succ _⟩
    · exact ⟨(hw.ids e he).1, (hw.ids e he).2.trans (Int.lt_succ _)⟩
  · exact hw.next.trans (Int.lt_succ _).le

theorem Timers.unlink_none (id : ℤ) (hw : Timers F w es) (h : ∀ e ∈ es, e.2.id ≠ id) :
    unlinkTimeEvent w id = some none := by
  unfold unlinkTimeEvent
  rw [hw.span.search_none _ es _ none (hw.fuel F w es)]
  · rfl
  · intro e he
    exact decide_eq_false (h e he)

/-- The event with an id is cut out of the list, and is not released yet. -/
theorem Timers.unlink_some (before after : List (ℕ × AeTimeEvent)) (e : ℕ × AeTimeEvent)
    (hw : Timers F w (before ++ e :: after)) :
    ∃ v, unlinkTimeEvent w e.2.id = some (some (v,e.1,e.2)) ∧
      Timers (e.1 :: F) v (before ++ after) ∧
      v.eventLoop.timeEventNextId = w.eventLoop.timeEventNextId ∧ v.nextTimer = w.nextTimer := by
  have hids (d : ℕ × AeTimeEvent) (hd : d ∈ before) : decide (d.2.id = e.2.id) = false := by
    apply decide_eq_false
    exact (List.pairwise_append.mp hw.order).2.2 d hd e List.mem_cons_self |>.ne'
  obtain ⟨next,hc,hsearch⟩ := hw.span.search_some (fun te => decide (te.id = e.2.id)) before after e
    (w.nextTimer+1) none (hw.fuel F w _) hids (decide_eq_true rfl)
  obtain ⟨h',o',hcut,hspan,-,hnone⟩ := hw.span.cut before after e next hc
  have hsub : (before ++ after).Sublist (before ++ e :: after) :=
    (List.sublist_cons_self e after).append_left before
  have hmiddle : (before ++ e :: after).Perm (e :: (before ++ after)) := List.perm_middle
  have hperm := hmiddle.map Prod.fst
  have hnodup := hperm.nodup_iff.mp (hw.span.nodup _)
  rw [List.map_cons, List.nodup_cons] at hnodup
  have heF : e.1 ∉ F := by
    intro hF
    exact hw.apart e.1 hF (List.mem_map_of_mem (List.mem_append_right before List.mem_cons_self))
  refine ⟨{ w with
    eventLoop := { w.eventLoop with timeEventHead := o' }, timers := h' }, ?_, ?_, rfl, rfl⟩
  · unfold unlinkTimeEvent
    rw [hsearch]
    show (LinkedCells.cut w.timers w.eventLoop.timeEventHead (lastOf none before) next).bind _ = _
    rw [hcut]
    rfl
  · constructor
    · exact hspan
    · intro p
      show h' p ≠ none ↔ _
      rw [Ne, hnone, ← Ne, hw.allocated, hperm.mem_iff, List.map_cons, List.mem_cons, List.mem_cons]
      tauto
    · exact List.nodup_cons.mpr ⟨heF,hw.nodup⟩
    · intro p hp
      rcases List.mem_cons.mp hp with rfl | hp
      · exact hnodup.1
      · exact fun hin => hw.apart p hp ((hsub.map Prod.fst).subset hin)
    · intro p hp
      exact hw.below p ((hnone p).not.mp hp)
    · exact hw.order.sublist hsub
    · exact fun d hd => hw.ids d (hsub.subset hd)
    · exact hw.next

/-- And nothing else can have happened when it was cut out. -/
theorem Timers.unlink_inv (v : World σ) (id : ℤ) (p : ℕ) (te : AeTimeEvent) (hw : Timers F w es)
    (h : unlinkTimeEvent w id = some (some (v,p,te))) :
    ∃ before after, es = before ++ (p,te) :: after ∧ te.id = id ∧
      Timers (p :: F) v (before ++ after) ∧
      v.eventLoop.timeEventNextId = w.eventLoop.timeEventNextId ∧ v.nextTimer = w.nextTimer := by
  by_cases hid : ∀ e ∈ es, e.2.id ≠ id
  · rw [hw.unlink_none F w es id hid] at h
    exact absurd h (by simp)
  · push Not at hid
    obtain ⟨e,he,rfl⟩ := hid
    obtain ⟨before,after,rfl⟩ := List.append_of_mem he
    obtain ⟨u,hu,htimers,hnext⟩ := hw.unlink_some F w before after e
    rw [hu] at h
    obtain ⟨rfl,hrest⟩ := Prod.mk.inj (Option.some.inj (Option.some.inj h))
    obtain ⟨rfl,rfl⟩ := Prod.mk.inj hrest
    exact ⟨before, after, rfl, rfl, htimers, hnext⟩

/-- An event that is being deleted can be released, once. -/
theorem Timers.release (p : ℕ) (hw : Timers (p :: F) w es) :
    ∃ timers, zfreeTimeEvent w p = some { w with timers := timers } ∧
      Timers F { w with timers := timers } es := by
  have hp : w.timers p ≠ none := (hw.allocated p).mpr (Or.inr List.mem_cons_self)
  have hout := hw.apart p List.mem_cons_self
  obtain ⟨hF,hnodup⟩ := List.nodup_cons.mp hw.nodup
  have hcases (q : ℕ) : Function.update w.timers p none q ≠ none ↔ q ≠ p ∧ w.timers q ≠ none := by
    by_cases hq : q = p
    · rw [hq, Function.update_self]
      exact iff_of_false (fun h => h rfl) fun h => h.1 rfl
    · rw [Function.update_of_ne hq]
      exact (and_iff_right hq).symm
  refine ⟨Function.update w.timers p none, ?_, ?_⟩
  · rw [zfreeTimeEvent, free_spec w.timers p hp, Option.map_some]
  · constructor
    · apply hw.span.congr es
      intro e he
      apply Function.update_of_ne
      rintro rfl
      exact hout (List.mem_map_of_mem he)
    · intro q
      show Function.update w.timers p none q ≠ none ↔ _
      rw [hcases, hw.allocated, List.mem_cons]
      constructor
      · rintro ⟨hne,hin | rfl | hin⟩
        · exact Or.inl hin
        · exact absurd rfl hne
        · exact Or.inr hin
      · rintro (hin | hin)
        · exact ⟨fun he => hout (he ▸ hin), Or.inl hin⟩
        · exact ⟨fun he => hF (he ▸ hin), Or.inr (Or.inr hin)⟩
    · exact hnodup
    · exact fun q hq => hw.apart q (List.mem_cons_of_mem p hq)
    · exact fun q hq => hw.below q ((hcases q).mp hq).2
    · exact hw.order
    · exact hw.ids
    · exact hw.next

/-- The same event with another deadline. -/
def setWhen (e : ℕ × AeTimeEvent) (when_ : ℤ × ℤ) : ℕ × AeTimeEvent :=
  (e.1,{ e.2 with whenSec := when_.1, whenMs := when_.2 })

theorem reschedule_some (p : ℕ) (milliseconds : ℤ) (te : AeTimeEvent) (next : Option ℕ)
    (hc : w.timers p = some ⟨te,next⟩) : reschedule env w p milliseconds = some { w.tick with
      timers := Function.update w.timers p
        (some ⟨(setWhen (p,te) (addMilliseconds (reading env w.readings) milliseconds)).2,next⟩) } := by
  show (LinkedCells.modify w.timers p _).map _ = _
  rw [modify_spec w.timers p _ _ hc]
  rfl

theorem reschedule_none (p : ℕ) (milliseconds : ℤ) (hc : w.timers p = none) :
    reschedule env w p milliseconds = none := by
  show (LinkedCells.modify w.timers p _).map _ = _
  rw [LinkedCells.modify, hc]
  rfl

/-- A new deadline of an event that is in the list. -/
theorem Timers.setWhen (before after : List (ℕ × AeTimeEvent)) (e : ℕ × AeTimeEvent)
    (milliseconds : ℤ) (hw : Timers F w (before ++ e :: after)) :
    ∃ v, reschedule env w e.1 milliseconds = some v ∧ v.eventLoop = w.eventLoop ∧
      v.nextTimer = w.nextTimer ∧ v.readings = w.readings+1 ∧ Timers F v (before ++
        Ae.setWhen e (addMilliseconds (reading env w.readings) milliseconds) :: after) := by
  have he : e ∈ before ++ e :: after := List.mem_append_right before List.mem_cons_self
  obtain ⟨next,hc⟩ := hw.span.data _ e he
  refine ⟨_, reschedule_some env w e.1 milliseconds e.2 next hc, rfl, rfl, rfl, ?_⟩
  generalize addMilliseconds (reading env w.readings) milliseconds = when_
  have hfst : (before ++ Ae.setWhen e when_ :: after).map Prod.fst =
      (before ++ e :: after).map Prod.fst := by
    rw [List.map_append, List.map_append, List.map_cons, List.map_cons]
    rfl
  have hid : (before ++ Ae.setWhen e when_ :: after).map (fun e => e.2.id) =
      (before ++ e :: after).map (fun e => e.2.id) := by
    rw [List.map_append, List.map_append, List.map_cons, List.map_cons]
    rfl
  have halive (q : ℕ) : Function.update w.timers e.1 (some ⟨(Ae.setWhen e when_).2,next⟩) q ≠ none ↔
      w.timers q ≠ none := by
    by_cases hq : q = e.1
    · rw [hq, Function.update_self, hc]
      exact iff_of_true (Option.some_ne_none _) (Option.some_ne_none _)
    · rw [Function.update_of_ne hq]
  constructor
  · exact hw.span.setData before after e _ next hc
  · intro q
    rw [hfst, ← hw.allocated]
    exact halive q
  · exact hw.nodup
  · rw [hfst]
    exact hw.apart
  · exact fun q hq => hw.below q ((halive q).mp hq)
  · -- the order is one of the ids, which are the same
    have hids (l : List (ℕ × AeTimeEvent)) : l.Pairwise (fun d e => e.2.id < d.2.id) ↔
        (l.map fun e => e.2.id).Pairwise (fun a b => b < a) := by rw [List.pairwise_map]
    rw [hids, hid, ← hids]
    exact hw.order
  · intro d hd
    have hd' : d.2.id ∈ (before ++ Ae.setWhen e when_ :: after).map fun e => e.2.id :=
      List.mem_map_of_mem hd
    rw [hid] at hd'
    obtain ⟨c,hcin,hcd⟩ := List.mem_map.mp hd'
    have hbounds := hw.ids c hcin
    rw [hcd] at hbounds
    exact hbounds
  · exact hw.next

/-- A new deadline of an event that is being deleted. -/
theorem Timers.setCut (p : ℕ) (milliseconds : ℤ) (v : World σ) (hw : Timers F w es) (hp : p ∈ F)
    (h : reschedule env w p milliseconds = some v) :
    v.eventLoop = w.eventLoop ∧ v.nextTimer = w.nextTimer ∧ Timers F v es := by
  obtain ⟨⟨te,next⟩,hc⟩ := Option.ne_none_iff_exists'.mp ((hw.allocated p).mpr (Or.inr hp))
  rw [reschedule_some env w p milliseconds te next hc] at h
  obtain rfl := Option.some.inj h
  have halive (q : ℕ) (c : Cell AeTimeEvent) :
      Function.update w.timers p (some c) q ≠ none ↔ w.timers q ≠ none := by
    by_cases hq : q = p
    · rw [hq, Function.update_self, hc]
      exact iff_of_true (Option.some_ne_none _) (Option.some_ne_none _)
    · rw [Function.update_of_ne hq]
  refine ⟨rfl, rfl, ?_⟩
  constructor
  · apply hw.span.congr es
    intro e he
    apply Function.update_of_ne
    rintro rfl
    exact hw.apart e.1 hp (List.mem_map_of_mem he)
  · exact fun q => (halive q _).trans (hw.allocated q)
  · exact hw.nodup
  · exact hw.apart
  · exact fun q hq => hw.below q ((halive q _).mp hq)
  · exact hw.order
  · exact hw.ids
  · exact hw.next

theorem Timers.reschedule_inv (p : ℕ) (milliseconds : ℤ) (v : World σ) (hw : Timers F w es)
    (h : Ae.reschedule env w p milliseconds = some v) :
    v.eventLoop = w.eventLoop ∧ v.nextTimer = w.nextTimer ∧ (Timers F v es ∨
      ∃ before e after, es = before ++ e :: after ∧ e.1 = p ∧ Timers F v (before ++
        Ae.setWhen e (addMilliseconds (reading env w.readings) milliseconds) :: after)) := by
  have hp : w.timers p ≠ none := by
    intro hz
    rw [reschedule_none env w p milliseconds hz] at h
    exact absurd h (by simp)
  rcases (hw.allocated p).mp hp with hin | hF
  · obtain ⟨e,he,rfl⟩ := List.mem_map.mp hin
    obtain ⟨before,after,rfl⟩ := List.append_of_mem he
    obtain ⟨u,hu,hloop,haddr,-,hv⟩ := hw.setWhen env F w before after e milliseconds
    rw [hu] at h
    obtain rfl := Option.some.inj h
    exact ⟨hloop, haddr, Or.inr ⟨before, e, after, rfl, rfl, hv⟩⟩
  · obtain ⟨hloop,haddr,hv⟩ := hw.setCut env F w es p milliseconds v hF h
    exact ⟨hloop, haddr, Or.inl hv⟩

end calls

/-- Nothing of the time events has changed. -/
def SameTimers (w v : World σ) : Prop :=
  v.timers = w.timers ∧ v.nextTimer = w.nextTimer ∧
    v.eventLoop.timeEventHead = w.eventLoop.timeEventHead ∧
    v.eventLoop.timeEventNextId = w.eventLoop.timeEventNextId

theorem sameTimers_createFileEvent (env : Environment) (w : World σ) (fd : ℕ) (mask : UInt32)
    (proc clientData : ℕ) : SameTimers w (aeCreateFileEvent env w fd mask proc clientData).1 := by
  obtain ⟨-,adds,h⟩ | ⟨-,-,-,adds,h⟩ := aeCreateFileEvent_cases env w fd mask proc clientData
  · rw [h]
    exact ⟨rfl,rfl,rfl,rfl⟩
  · rw [h]
    exact ⟨rfl,rfl,rfl,rfl⟩

theorem sameTimers_deleteFileEvent (w : World σ) (fd : ℕ) (mask : UInt32) :
    SameTimers w (aeDeleteFileEvent w fd mask) := by
  by_cases hm : (w.events fd).mask = aeNone
  · rw [aeDeleteFileEvent_none w fd mask hm]
    exact ⟨rfl,rfl,rfl,rfl⟩
  by_cases hfd : fd < aeSetsize
  · rw [aeDeleteFileEvent_eq w fd mask hfd hm]
    exact ⟨rfl,rfl,rfl,rfl⟩
  · unfold aeDeleteFileEvent
    rw [if_pos (not_lt.mp hfd)]
    exact ⟨rfl,rfl,rfl,rfl⟩

section history
variable {K : Type} (g : ℕ × AeTimeEvent → K) (u : World σ) (old : List K)

/-- The events that are older than a world. -/
def leftOf (es : List (ℕ × AeTimeEvent)) : List (ℕ × AeTimeEvent) :=
  es.filter fun e => e.2.id < u.eventLoop.timeEventNextId

/-- Since then the older events have become a part of those that there were, and the newer ones
got other addresses. -/
def Since (F : List ℕ) (w : World σ) : Prop :=
  ∃ es, Timers F w es ∧ u.eventLoop.timeEventNextId ≤ w.eventLoop.timeEventNextId ∧
    u.nextTimer ≤ w.nextTimer ∧ ((leftOf u es).map g).Sublist old ∧
    ∀ e ∈ es, u.eventLoop.timeEventNextId ≤ e.2.id → u.nextTimer ≤ e.1

theorem Since.congr (F : List ℕ) (w v : World σ) (hw : Since g u old F w)
    (h : SameTimers w v) : Since g u old F v := by
  obtain ⟨es,ht,hn,ha,hs,hnew⟩ := hw
  obtain ⟨h1,h2,h3,h4⟩ := h
  exact ⟨es, ht.congr F w v es h1 h2 h3 h4, h4 ▸ hn, h2 ▸ ha, hs, hnew⟩

theorem since_acts (env : Environment) (habits : Habits) :
    ActInvariant env habits (Since g u old : List ℕ → World σ → Prop) where
  setApp := fun F w _ hw => hw.congr g u old F w _ ⟨rfl,rfl,rfl,rfl⟩
  tick := fun F w hw => hw.congr g u old F w _ ⟨rfl,rfl,rfl,rfl⟩
  openFd := fun F w _ hw _ => hw.congr g u old F w _ ⟨rfl,rfl,rfl,rfl⟩
  dup := fun F w _ _ hw _ => hw.congr g u old F w _ ⟨rfl,rfl,rfl,rfl⟩
  close := fun F w _ hw _ => hw.congr g u old F w _ ⟨rfl,rfl,rfl,rfl⟩
  setStop := fun F w _ hw => hw.congr g u old F w _ ⟨rfl,rfl,rfl,rfl⟩
  setBeforeSleepProc := fun F w _ hw => hw.congr g u old F w _ ⟨rfl,rfl,rfl,rfl⟩
  createFileEvent := fun F w fd mask proc clientData hw _ =>
    hw.congr g u old F w _ (sameTimers_createFileEvent env w fd mask proc clientData)
  deleteFileEvent := fun F w fd mask hw =>
    hw.congr g u old F w _ (sameTimers_deleteFileEvent w fd mask)
  createTimeEvent := by
    rintro F w milliseconds proc clientData finalizerProc ⟨es,ht,hn,ha,hs,hnew⟩ -
    refine ⟨_, ht.create env F w es milliseconds proc clientData finalizerProc, ?_, ?_, ?_, ?_⟩
    · exact hn.trans (Int.lt_succ _).le
    · exact ha.trans (Nat.le_succ _)
    · rw [leftOf, List.filter_cons_of_neg]
      · exact hs
      · exact fun hlt => absurd (of_decide_eq_true hlt) (not_lt.mpr hn)
    · intro e he hid
      rcases List.mem_cons.mp he with rfl | he
      · exact ha
      · exact hnew e he hid
  unlink := by
    rintro F w id v p te ⟨es,ht,hn,ha,hs,hnew⟩ h
    obtain ⟨before,after,rfl,-,hv,hnext,haddr⟩ := ht.unlink_inv F w es v id p te h
    have hsub : (before ++ after).Sublist (before ++ (p,te) :: after) :=
      (List.sublist_cons_self _ after).append_left before
    refine ⟨_, hv, hnext ▸ hn, haddr ▸ ha, List.Sublist.trans ?_ hs, ?_⟩
    · apply List.Sublist.map
      apply List.Sublist.filter
      exact hsub
    · exact fun e he => hnew e (hsub.subset he)
  release := by
    rintro F w p v ⟨es,ht,hn,ha,hs,hnew⟩ h
    obtain ⟨timers,hfree,hv⟩ := ht.release F w es p
    rw [hfree] at h
    obtain rfl := Option.some.inj h
    exact ⟨es, hv, hn, ha, hs, hnew⟩

theorem since_invariant (env : Environment) (habits : Habits)
    (hg : ∀ e when_, g (setWhen e when_) = g e) :
    Invariant env habits (Since g u old : List ℕ → World σ → Prop) where
  toActInvariant := since_acts g u old env habits
  reschedule := by
    rintro F w p milliseconds v ⟨es,ht,hn,ha,hs,hnew⟩ - h
    obtain ⟨hloop,haddr,hv | ⟨before,e,after,rfl,-,hv⟩⟩ :=
      ht.reschedule_inv env F w es p milliseconds v h
    · exact ⟨es, hv, hloop ▸ hn, haddr ▸ ha, hs, hnew⟩
    · refine ⟨_, hv, hloop ▸ hn, haddr ▸ ha, ?_, ?_⟩
      · have hleft (d : ℕ × AeTimeEvent) : (leftOf u (before ++ d :: after)).map g =
            (leftOf u before).map g ++ ((if d.2.id < u.eventLoop.timeEventNextId then [g d] else []) ++
              (leftOf u after).map g) := by
          rw [leftOf, List.filter_append, List.map_append, List.filter_cons]
          by_cases hd : d.2.id < u.eventLoop.timeEventNextId
          · rw [if_pos (decide_eq_true hd), if_pos hd]
            rfl
          · rw [if_neg (by simpa using hd), if_neg hd]
            rfl
        rw [hleft] at hs ⊢
        rw [hg]
        exact hs
      · intro d hd hid
        rcases List.mem_append.mp hd with hd | hd
        · exact hnew d (List.mem_append_left _ hd) hid
        rcases List.mem_cons.mp hd with rfl | hd
        · exact hnew e (List.mem_append_right _ List.mem_cons_self) hid
        · exact hnew d (List.mem_append_right _ (List.mem_cons_of_mem e hd)) hid

end history

/-- All of an event but its deadline. -/
def fixed (e : ℕ × AeTimeEvent) : ℕ × AeTimeEvent := setWhen e (0,0)

theorem Timers.since (w : World σ) (es : List (ℕ × AeTimeEvent)) (F : List ℕ) {K : Type}
    (g : ℕ × AeTimeEvent → K) (hw : Timers F w es) : Since g w (es.map g) F w := by
  have hall : leftOf w es = es :=
    List.filter_eq_self.mpr fun e he => decide_eq_true (hw.ids e he).2
  refine ⟨es, hw, le_rfl, le_rfl, ?_, ?_⟩
  · rw [hall]
  · intro e he hid
    exact absurd (hw.ids e he).2 (not_lt.mpr hid)

section later
variable (env : Environment) (habits : Habits) (w v : World σ) (es : List (ℕ × AeTimeEvent))

/-- What is left of the events of a world is a part of them, in their order, at their addresses
and with all they had but the deadlines. -/
theorem Later.timers (prog : Program σ) (hb : Behaves env habits prog)
    (h : Later env habits prog w v) (hw : Timers [] w es) : Since fixed w (es.map fixed) [] v :=
  h.invariant env habits prog _ (since_invariant fixed w _ env habits fun _ _ => rfl) hb w v
    (hw.since w es [] fixed)

/-- Calls of the API leave the deadlines alone as well. -/
theorem Acts.timers (F : List ℕ) (h : Acts env habits w v) (hw : Timers F w es) :
    Since id w es F v := by
  apply (since_acts id w es env habits).acts env habits _ w v h F
  have hs := hw.since w es F id
  rw [List.map_id] at hs
  exact hs

/-- After such calls, an event is still there as it was, or its memory is free. -/
theorem Acts.event (h : Acts env habits w v) (hw : Timers [] w es) (e : ℕ × AeTimeEvent)
    (he : e ∈ es) : ∃ fs, Timers [] v fs ∧
      w.eventLoop.timeEventNextId ≤ v.eventLoop.timeEventNextId ∧ (leftOf w fs).Sublist es ∧
      (e ∈ fs ∨ (∀ f ∈ fs, f.2.id ≠ e.2.id) ∧ v.timers e.1 = none) := by
  obtain ⟨fs,hv,hle,-,hs,hnew⟩ := h.timers env habits w v es [] hw
  rw [List.map_id] at hs
  refine ⟨fs, hv, hle, hs, ?_⟩
  by_cases hin : e ∈ fs
  · exact Or.inl hin
  refine Or.inr ⟨?_, ?_⟩
  · intro f hf hid
    have hfl : f ∈ leftOf w fs := by
      apply List.mem_filter.mpr
      refine ⟨hf, decide_eq_true ?_⟩
      rw [hid]
      exact (hw.ids e he).2
    have hfe := hw.unique [] w es f e (hs.subset hfl) he hid
    exact hin (hfe ▸ hf)
  · by_contra hne
    have hin' := ((hv.allocated e.1).mp hne).resolve_right List.not_mem_nil
    obtain ⟨f,hf,hfe⟩ := List.mem_map.mp hin'
    by_cases hold : f.2.id < w.eventLoop.timeEventNextId
    · have hfl : f ∈ leftOf w fs := List.mem_filter.mpr ⟨hf,decide_eq_true hold⟩
      have hef := List.inj_on_of_nodup_map (hw.span.nodup es) (hs.subset hfl) he hfe
      exact hin (hef ▸ hf)
    -- a newer event has got another address
    · have haddr := hnew f hf (not_lt.mp hold)
      rw [hfe] at haddr
      exact absurd (hw.mem [] w es e he) (not_lt.mpr haddr)

end later

/-- A new loop with one time event, due after five milliseconds. -/
def waiting : World Unit := (aeCreateTimeEvent still (fresh []) 5 0 0 none).1

theorem reachable_waiting (habits : Habits) (h : habits.delays 5) (prog : Program Unit) :
    Reachable still habits prog waiting := by
  have ha : Acts still habits (fresh []) waiting := .createTimeEvent _ 5 0 0 none h
  exact ⟨_, _, _, .acts _ _ .refl ha⟩

section reachable
variable (env : Environment) (habits : Habits) (prog : Program σ)
  (hb : Behaves env habits prog)
include hb

theorem reachable_list (w : World σ) (h : Reachable env habits prog w) : ∃ es, Timers [] w es := by
  obtain ⟨events,kernel,app,hl⟩ := h
  obtain ⟨es,hw,-⟩ := hl.timers env habits _ w [] prog hb (timers_create events kernel app)
  exact ⟨es,hw⟩

omit hb in
theorem Timers.delete_none (w : World σ) (es : List (ℕ × AeTimeEvent)) (id : ℤ)
    (hw : Timers [] w es) (h : ∀ e ∈ es, e.2.id ≠ id) :
    aeDeleteTimeEvent prog w id = some (w,aeErr) := by
  unfold aeDeleteTimeEvent
  rw [hw.unlink_none [] w es id h]
  rfl

/-- An event is deleted: it leaves the list, its finalizer runs, and its memory is released. -/
theorem Timers.delete_some (w : World σ) (before after : List (ℕ × AeTimeEvent))
    (e : ℕ × AeTimeEvent) (hw : Timers [] w (before ++ e :: after)) :
    ∃ v, Timers [e.1] v (before ++ after) ∧
      (finalize prog v e.2 = none → aeDeleteTimeEvent prog w e.2.id = none) ∧
      ∀ u, finalize prog v e.2 = some u → ∃ t fs, aeDeleteTimeEvent prog w e.2.id = some (t,aeOk) ∧
        Timers [] t fs ∧ w.eventLoop.timeEventNextId ≤ t.eventLoop.timeEventNextId ∧
        (leftOf w fs).Sublist (before ++ after) := by
  obtain ⟨v,hcut,hv,hnext,-⟩ := hw.unlink_some [] w before after e
  refine ⟨v, hv, ?_, ?_⟩
  · intro hfin
    unfold aeDeleteTimeEvent
    rw [hcut]
    show (finalize prog v e.2).bind _ = none
    rw [hfin, Option.bind_none]
  · intro u hfin
    have hact := hb.finalize env habits prog v u e.2 hfin
    obtain ⟨fs,hu,hle,-,hs,-⟩ := hact.timers env habits v u _ [e.1] hv
    obtain ⟨timers,hfree,ht⟩ := hu.release [] u fs e.1
    rw [List.map_id, leftOf, hnext] at hs
    refine ⟨_, fs, ?_, ht, hnext ▸ hle, hs⟩
    unfold aeDeleteTimeEvent
    rw [hcut]
    show (finalize prog v e.2).bind _ = _
    rw [hfin, Option.bind_some]
    show (zfreeTimeEvent u e.1).bind _ = _
    rw [hfree]
    rfl

/-- In every world of a program, exactly the events of the list are allocated; each has an id of
its own, and the newest one is the first. -/
theorem reachable_timers (w : World σ) (h : Reachable env habits prog w) : ∃ es, Timers [] w es :=
  reachable_list env habits prog hb w h

omit hb in
theorem timers_waiting : ∃ es, Timers [] waiting es :=
  reachable_timers still anything idle (behaves_idle still _) waiting
    (reachable_waiting _ trivial idle)

/-- However the program goes on, an event stays where it is with all it had but its deadline until
it is deleted, and nothing else ever gets its id. -/
theorem reachable_later (w v : World σ) (h : Reachable env habits prog w)
    (hl : Later env habits prog w v) :
    ∃ es fs, Timers [] w es ∧ Timers [] v fs ∧
      ((leftOf w fs).map fixed).Sublist (es.map fixed) := by
  obtain ⟨es,hw⟩ := reachable_list env habits prog hb w h
  obtain ⟨fs,hv,-,-,hs,-⟩ := hl.timers env habits w v es prog hb hw
  exact ⟨es,fs,hw,hv,hs⟩

omit hb in
theorem later_waiting : ∃ es fs, Timers [] waiting es ∧
    Timers [] (aeCreateTimeEvent still waiting 7 0 0 none).1 fs ∧
      ((leftOf waiting fs).map fixed).Sublist (es.map fixed) :=
  reachable_later still anything idle (behaves_idle still _) waiting _
    (reachable_waiting _ trivial idle) (.acts _ _ .refl (.createTimeEvent _ 7 0 0 none trivial))

/-- `aeDeleteTimeEvent` in every world of a program: it takes out the one event with this id, whose
finalizer runs when the list is without it, and only if this crashes, the deletion does. -/
theorem reachable_delete (w : World σ) (h : Reachable env habits prog w) (id : ℤ) :
    ∃ es, Timers [] w es ∧
      ((∀ e ∈ es, e.2.id ≠ id) → aeDeleteTimeEvent prog w id = some (w,aeErr)) ∧
      ∀ e ∈ es, e.2.id = id → ∃ v, Timers [e.1] v (es.filter fun d => d.2.id ≠ id) ∧
        (finalize prog v e.2 = none → aeDeleteTimeEvent prog w id = none) ∧
        ∀ u, finalize prog v e.2 = some u → ∃ t fs,
          aeDeleteTimeEvent prog w id = some (t,aeOk) ∧ Timers [] t fs ∧
          (leftOf w fs).Sublist (es.filter fun d => d.2.id ≠ id) := by
  obtain ⟨es,hw⟩ := reachable_list env habits prog hb w h
  refine ⟨es, hw, hw.delete_none prog w es id, ?_⟩
  rintro e he rfl
  obtain ⟨before,after,rfl⟩ := List.append_of_mem he
  have hout (d : ℕ × AeTimeEvent) (hd : d ∈ before ++ after) : decide (d.2.id ≠ e.2.id) = true := by
    apply decide_eq_true
    have horder := List.pairwise_append.mp hw.order
    rcases List.mem_append.mp hd with hd | hd
    · exact (horder.2.2 d hd e List.mem_cons_self).ne'
    · exact ((List.pairwise_cons.mp horder.2.1).1 d hd).ne
  have hfilter : (before ++ e :: after).filter (fun d => d.2.id ≠ e.2.id) = before ++ after := by
    rw [List.filter_append, List.filter_cons_of_neg (by simp), ← List.filter_append]
    exact List.filter_eq_self.mpr hout
  rw [hfilter]
  obtain ⟨v,hv,hnone,hsome⟩ := hw.delete_some env habits prog hb w before after e
  refine ⟨v, hv, hnone, ?_⟩
  intro u hu
  obtain ⟨t,fs,hdel,ht,-,hs⟩ := hsome u hu
  exact ⟨t,fs,hdel,ht,hs⟩

omit hb in
theorem delete_waiting : ∃ es, Timers [] waiting es ∧
    ((∀ e ∈ es, e.2.id ≠ 0) → aeDeleteTimeEvent idle waiting 0 = some (waiting,aeErr)) ∧
    ∀ e ∈ es, e.2.id = 0 → ∃ v : World Unit, Timers [e.1] v (es.filter fun d => d.2.id ≠ 0) ∧
      (finalize idle v e.2 = none → aeDeleteTimeEvent idle waiting 0 = none) ∧
      ∀ u, finalize idle v e.2 = some u → ∃ t fs,
        aeDeleteTimeEvent idle waiting 0 = some (t,aeOk) ∧ Timers [] t fs ∧
        (leftOf waiting fs).Sublist (es.filter fun d => d.2.id ≠ 0) :=
  reachable_delete still anything idle (behaves_idle still _) waiting
    (reachable_waiting _ trivial idle) 0

/-- An event that has been deleted is refused for ever after. -/
theorem reachable_delete_once (w v u : World σ) (h : Reachable env habits prog w) (id : ℤ)
    (hdel : aeDeleteTimeEvent prog w id = some (v,aeOk)) (hl : Later env habits prog v u) :
    aeDeleteTimeEvent prog u id = some (u,aeErr) := by
  obtain ⟨es,hw⟩ := reachable_list env habits prog hb w h
  have hthere : ∃ e ∈ es, e.2.id = id := by
    by_contra hno
    push Not at hno
    rw [hw.delete_none prog w es id hno] at hdel
    have herr : aeErr = aeOk := congrArg Prod.snd (Option.some.inj hdel)
    exact absurd herr (by decide)
  obtain ⟨e,he,rfl⟩ := hthere
  have hid := (hw.ids e he).2
  obtain ⟨before,after,rfl⟩ := List.append_of_mem he
  obtain ⟨c,-,hnone,hsome⟩ := hw.delete_some env habits prog hb w before after e
  cases hfin : finalize prog c e.2 with
  | none =>
    rw [hnone hfin] at hdel
    exact absurd hdel (by simp)
  | some f =>
    obtain ⟨t,fs,hok,ht,hle,hs⟩ := hsome f hfin
    rw [hok] at hdel
    obtain ⟨rfl,-⟩ := Prod.mk.inj (Option.some.inj hdel)
    obtain ⟨gs,hu,-,-,hsub,-⟩ := hl.timers env habits t u fs prog hb ht
    apply hu.delete_none prog u gs
    intro g hg hgid
    -- it would be one of the events that were left when it had been deleted
    have hgl : g ∈ leftOf t gs := by
      apply List.mem_filter.mpr
      refine ⟨hg, decide_eq_true ?_⟩
      rw [hgid]
      exact hid.trans_le hle
    obtain ⟨d,hd,hdg⟩ := List.mem_map.mp (hsub.subset (List.mem_map_of_mem hgl))
    have hdid : d.2.id = e.2.id := (congrArg (fun x => x.2.id) hdg).trans hgid
    have hdl : d ∈ leftOf w fs := by
      apply List.mem_filter.mpr
      refine ⟨hd, decide_eq_true ?_⟩
      rw [hdid]
      exact hid
    have horder := List.pairwise_append.mp hw.order
    rcases List.mem_append.mp (hs.subset hdl) with hin | hin
    · exact (horder.2.2 d hin e List.mem_cons_self).ne' hdid
    · exact ((List.pairwise_cons.mp horder.2.1).1 d hin).ne hdid

omit hb in
theorem delete_once_waiting :
    let v := ((aeDeleteTimeEvent idle waiting 0).getD (waiting,aeErr)).1
    aeDeleteTimeEvent idle v 0 = some (v,aeErr) :=
  reachable_delete_once still anything idle (behaves_idle still _) waiting _ _
    (reachable_waiting _ trivial idle) 0 rfl .refl

/-- After a call of a `timeProc` that asks for another one, the loop writes to freed memory exactly
if the call deleted its own event. -/
theorem reachable_afterTimeProc (w v : World σ) (h : Reachable env habits prog w) (p : ℕ)
    (cell : Cell AeTimeEvent) (retval : ℤ) (hcell : w.timers p = some cell)
    (hcall : prog.timeProc cell.data.timeProc w cell.data.id cell.data.clientData = some (v,retval))
    (hretval : retval ≠ aeNomore) :
    ∃ fs, Timers [] v fs ∧ (afterTimeProc env prog v p cell.data.id retval = none ↔
      ∀ f ∈ fs, f.2.id ≠ cell.data.id) := by
  obtain ⟨es,hw⟩ := reachable_list env habits prog hb w h
  obtain ⟨hact,-⟩ := hb.timeProc _ w _ _ v retval hcall
  have hin : p ∈ es.map Prod.fst := by
    have hp := (hw.allocated p).mp (hcell ▸ Option.some_ne_none _)
    exact hp.resolve_right List.not_mem_nil
  obtain ⟨e,he,rfl⟩ := List.mem_map.mp hin
  obtain ⟨next,hc⟩ := hw.span.data es e he
  obtain rfl : cell = ⟨e.2,next⟩ := Option.some.inj (hcell.symm.trans hc)
  obtain ⟨fs,hv,-,-,hevent⟩ := hact.event env habits w v es hw e he
  refine ⟨fs, hv, ?_⟩
  unfold afterTimeProc
  rw [if_pos hretval]
  rcases hevent with hin | ⟨hno,hfree⟩
  · apply iff_of_false
    · obtain ⟨before,after,rfl⟩ := List.append_of_mem hin
      obtain ⟨u,hu,-⟩ := hv.setWhen env [] v before after e retval
      rw [hu]
      exact Option.some_ne_none u
    · exact fun hno => hno e hin rfl
  · exact iff_of_true (reschedule_none env v e.1 retval hfree) hno

omit hb in
theorem afterTimeProc_waiting : ∃ fs, Timers [] waiting fs ∧
    (afterTimeProc still again waiting 0 0 100 = none ↔ ∀ f ∈ fs, f.2.id ≠ 0) :=
  reachable_afterTimeProc still anything again (behaves_again still _ trivial) waiting waiting
    (reachable_waiting _ trivial again) 0 ⟨⟨0,0,5,0,none,0⟩,none⟩ 100 rfl rfl (by decide)

end reachable

end Cclab.Ae
