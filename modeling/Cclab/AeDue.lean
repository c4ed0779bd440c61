import Cclab.AeTimers
import Mathlib.Data.Prod.Lex

/-! Deadlines: the time that the loop waits for the nearest of them, and what a pass over the time
events leaves behind. -/
namespace Cclab.Ae
open LinkedCells

variable {σ : Type}

theorem earlier_iff (a b : ℤ × ℤ) : earlier a b ↔ toLex a < toLex b :=
  Prod.Lex.toLex_lt_toLex.symm

theorem not_earlier_iff (a b : ℤ × ℤ) : ¬ earlier a b ↔ toLex b ≤ toLex a := by
  rw [earlier_iff, not_lt]

/-- A time in milliseconds. -/
def millis (t : ℤ × ℤ) : ℤ := t.1*1000+t.2

/-- Milliseconds that are below a second. -/
def Normal (t : ℤ × ℤ) : Prop := 0 ≤ t.2 ∧ t.2 < 1000

theorem earlier_normal (a b : ℤ × ℤ) (ha : Normal a) (hb : Normal b) :
    earlier a b ↔ millis a < millis b := by
  obtain ⟨ha0,ha1⟩ := ha
  obtain ⟨hb0,hb1⟩ := hb
  unfold earlier millis
  omega

theorem normal_reading (env : Environment) (n : ℕ) : Normal (reading env n) := by
  have hlt : ((env.clock n).tvUsec : ℕ) / 1000 < 1000 := by omega
  constructor
  · exact Int.natCast_nonneg _
  · show ((((env.clock n).tvUsec : ℕ) / 1000 : ℕ) : ℤ) < 1000
    exact_mod_cast hlt

theorem normal_addMilliseconds (now : ℤ × ℤ) (milliseconds : ℤ) (hnow : Normal now)
    (h : 0 ≤ milliseconds) : Normal (addMilliseconds now milliseconds) := by
  obtain ⟨hn0,hn1⟩ := hnow
  have hmod0 := Int.tmod_nonneg 1000 h
  have hmod1 := Int.tmod_lt_of_pos milliseconds (show (0 : ℤ) < 1000 by decide)
  unfold addMilliseconds
  dsimp only
  split_ifs with hms
  · constructor
    · dsimp only
      omega
    · dsimp only
      omega
  · constructor
    · dsimp only
      omega
    · dsimp only
      omega

section search
variable (es : List (ℕ × AeTimeEvent))

/-- The search keeps the best of what it has seen. -/
theorem foldl_nearer (best : ℕ × AeTimeEvent) :
    ∃ e ∈ best :: es, es.foldl (fun b e => nearer b e.1 e.2) (some best) = some e ∧
      ∀ d ∈ best :: es, ¬ earlier d.2.when_ e.2.when_ := by
  induction es generalizing best with
  | nil =>
    refine ⟨best, List.mem_cons_self, rfl, ?_⟩
    intro d hd
    obtain rfl := List.mem_singleton.mp hd
    rw [earlier_iff]
    exact lt_irrefl _
  | cons e es ih =>
    rw [List.foldl_cons]
    by_cases hlt : earlier e.2.when_ best.2.when_
    · have hn : nearer (some best) e.1 e.2 = some e := if_pos hlt
      obtain ⟨c,hc,hfold,hmin⟩ := ih e
      rw [hn, hfold]
      refine ⟨c, List.mem_cons_of_mem best hc, rfl, ?_⟩
      intro d hd
      rcases List.mem_cons.mp hd with rfl | hd
      · rw [not_earlier_iff]
        rw [earlier_iff] at hlt
        exact ((not_earlier_iff _ _).mp (hmin e List.mem_cons_self)).trans hlt.le
      · exact hmin d hd
    · have hn : nearer (some best) e.1 e.2 = some best := if_neg hlt
      obtain ⟨c,hc,hfold,hmin⟩ := ih best
      rw [hn, hfold]
      have hmem : c ∈ best :: e :: es := by
        rcases List.mem_cons.mp hc with rfl | hc
        · exact List.mem_cons_self
        · exact List.mem_cons_of_mem best (List.mem_cons_of_mem e hc)
      refine ⟨c, hmem, rfl, ?_⟩
      intro d hd
      rcases List.mem_cons.mp hd with rfl | hd
      · exact hmin d List.mem_cons_self
      rcases List.mem_cons.mp hd with rfl | hd
      · rw [not_earlier_iff] at hlt ⊢
        exact ((not_earlier_iff _ _).mp (hmin best List.mem_cons_self)).trans hlt
      · exact hmin d (List.mem_cons_of_mem best hd)

/-- `aeSearchNearestTimer` returns an event with the first deadline. -/
theorem Timers.nearest (F : List ℕ) (w : World σ) (hw : Timers F w es) :
    (es = [] ∧ aeSearchNearestTimer w = some none) ∨
    ∃ e ∈ es, aeSearchNearestTimer w = some (some e) ∧
      ∀ d ∈ es, ¬ earlier d.2.when_ e.2.when_ := by
  have hfold := hw.span.fold nearer es (w.nextTimer+1) none (hw.fuel F w es)
  cases es with
  | nil => exact Or.inl ⟨rfl,hfold⟩
  | cons e es =>
    obtain ⟨c,hc,hbest,hmin⟩ := foldl_nearer es e
    exact Or.inr ⟨c, hc, hfold.trans (congrArg some hbest), hmin⟩

end search

section waiting
variable (env : Environment)

/-- The deadlines are proper times. -/
def Deadlines (F : List ℕ) (w : World σ) : Prop :=
  ∃ es, Timers F w es ∧ ∀ e ∈ es, Normal e.2.when_

theorem Deadlines.congr (F : List ℕ) (w v : World σ) (hw : Deadlines F w) (h : SameTimers w v) :
    Deadlines F v := by
  obtain ⟨es,ht,hn⟩ := hw
  obtain ⟨h1,h2,h3,h4⟩ := h
  exact ⟨es, ht.congr F w v es h1 h2 h3 h4, hn⟩

theorem deadlines_invariant (habits : Habits) (hdelays : ∀ d, habits.delays d → 0 ≤ d) :
    Invariant env habits (Deadlines : List ℕ → World σ → Prop) where
  setApp := fun F w _ hw => hw.congr F w _ ⟨rfl,rfl,rfl,rfl⟩
  tick := fun F w hw => hw.congr F w _ ⟨rfl,rfl,rfl,rfl⟩
  openFd := fun F w _ hw _ => hw.congr F w _ ⟨rfl,rfl,rfl,rfl⟩
  dup := fun F w _ _ hw _ => hw.congr F w _ ⟨rfl,rfl,rfl,rfl⟩
  close := fun F w _ hw _ => hw.congr F w _ ⟨rfl,rfl,rfl,rfl⟩
  setStop := fun F w _ hw => hw.congr F w _ ⟨rfl,rfl,rfl,rfl⟩
  setBeforeSleepProc := fun F w _ hw => hw.congr F w _ ⟨rfl,rfl,rfl,rfl⟩
  createFileEvent := fun F w fd mask proc clientData hw _ =>
    hw.congr F w _ (sameTimers_createFileEvent env w fd mask proc clientData)
  deleteFileEvent := fun F w fd mask hw => hw.congr F w _ (sameTimers_deleteFileEvent w fd mask)
  createTimeEvent := by
    rintro F w milliseconds proc clientData finalizerProc ⟨es,ht,hn⟩ hd
    refine ⟨_, ht.create env F w es milliseconds proc clientData finalizerProc, ?_⟩
    intro e he
    rcases List.mem_cons.mp he with rfl | he
    · exact normal_addMilliseconds _ _ (normal_reading env _) (hdelays milliseconds hd)
    · exact hn e he
  unlink := by
    rintro F w id v p te ⟨es,ht,hn⟩ h
    obtain ⟨before,after,rfl,-,hv,-⟩ := ht.unlink_inv F w es v id p te h
    have hsub : (before ++ after).Sublist (before ++ (p,te) :: after) :=
      (List.sublist_cons_self _ after).append_left before
    exact ⟨_, hv, fun e he => hn e (hsub.subset he)⟩
  release := by
    rintro F w p v ⟨es,ht,hn⟩ h
    obtain ⟨timers,hfree,hv⟩ := ht.release F w es p
    rw [hfree] at h
    obtain rfl := Option.some.inj h
    exact ⟨es, hv, hn⟩
  reschedule := by
    rintro F w p milliseconds v ⟨es,ht,hn⟩ hd h
    obtain ⟨-,-,hv | ⟨before,e,after,rfl,-,hv⟩⟩ := ht.reschedule_inv env F w es p milliseconds v h
    · exact ⟨es, hv, hn⟩
    · refine ⟨_, hv, ?_⟩
      intro d hd'
      rcases List.mem_append.mp hd' with hd' | hd'
      · exact hn d (List.mem_append_left _ hd')
      rcases List.mem_cons.mp hd' with rfl | hd'
      · exact normal_addMilliseconds _ _ (normal_reading env _) (hdelays milliseconds hd)
      · exact hn d (List.mem_append_right _ (List.mem_cons_of_mem e hd'))

/-- The seconds are cut off at zero, the rest of a second is not. -/
theorem timeMissing_eq (now : ℤ × ℤ) (te : AeTimeEvent) (hnow : Normal now)
    (hte : Normal te.when_) :
    timeMissing now te = (max 0 ((millis te.when_-millis now) / 1000),
      (millis te.when_-millis now) % 1000*1000) := by
  obtain ⟨hn0,hn1⟩ := hnow
  obtain ⟨ht0,ht1⟩ := hte
  unfold AeTimeEvent.when_ at ht0 ht1 ⊢
  unfold timeMissing millis
  dsimp only at ht0 ht1 ⊢
  by_cases hms : te.whenMs < now.2
  · rw [if_pos hms]
    dsimp only
    have hq : (te.whenSec*1000+te.whenMs-(now.1*1000+now.2)) / 1000 = te.whenSec-now.1-1 := by omega
    have hr : (te.whenSec*1000+te.whenMs-(now.1*1000+now.2)) % 1000 = te.whenMs+1000-now.2 := by
      omega
    rw [hq, hr]
    apply Prod.ext
    · dsimp only
      split_ifs with h
      · omega
      · omega
    · dsimp only
      rw [if_neg (by omega)]
  · rw [if_neg hms]
    dsimp only
    have hq : (te.whenSec*1000+te.whenMs-(now.1*1000+now.2)) / 1000 = te.whenSec-now.1 := by omega
    have hr : (te.whenSec*1000+te.whenMs-(now.1*1000+now.2)) % 1000 = te.whenMs-now.2 := by omega
    rw [hq, hr]
    apply Prod.ext
    · dsimp only
      split_ifs with h
      · omega
      · omega
    · dsimp only
      rw [if_neg (by omega)]

/-- What `epoll_wait` is told, as an `int`: the milliseconds that are left, or, of an event that is
overdue, what the time since then lacks of whole seconds. -/
theorem epollTimeout_timeMissing (now : ℤ × ℤ) (te : AeTimeEvent) (hnow : Normal now)
    (hte : Normal te.when_) :
    epollTimeout (some (timeMissing now te)) =
      (if millis now ≤ millis te.when_ then millis te.when_-millis now
        else (millis te.when_-millis now) % 1000).bmod (2^32) := by
  rw [timeMissing_eq now te hnow hte]
  unfold epollTimeout
  dsimp only
  generalize millis te.when_ = deadline at *
  generalize millis now = n at *
  have hdiv : ((deadline-n) % 1000*1000).tdiv 1000 = (deadline-n) % 1000 :=
    Int.mul_tdiv_cancel _ (by decide)
  rw [hdiv]
  apply congrArg (fun x : ℤ => x.bmod (2^32))
  split_ifs with hle
  · omega
  · omega

/-- The number of milliseconds that is passed is right where an `int` holds it. -/
theorem bmod_eq_iff (left : ℤ) : (if 0 ≤ left then left else left % 1000).bmod (2^32) = max 0 left ↔
    0 ≤ left ∧ left < 2^31 ∨ left < 0 ∧ 1000 ∣ left := by
  have hbmod (x : ℤ) (h0 : 0 ≤ x) : x.bmod (2^32) = x ↔ x < 2^31 := by
    constructor
    · intro h
      rw [← h]
      exact Int.bmod_lt (by decide)
    · intro h
      apply Int.bmod_eq_of_le
      · omega
      · omega
  by_cases hle : 0 ≤ left
  · rw [if_pos hle, max_eq_right hle, hbmod left hle]
    omega
  · have hmod := (hbmod (left % 1000) (by omega)).mpr (by omega)
    rw [if_neg hle, hmod, max_eq_left (le_of_not_ge hle)]
    omega

/-- How long the loop waits, in every world of a program that asks for no negative delays: for ever
without time events; else until the first deadline; and where that has passed, for what the time
since then lacks of whole seconds; all this as an `int`. So it is right unless a time event is
overdue by a broken number of seconds, or 2^31 milliseconds ahead. -/
theorem reachable_timeout (habits : Habits) (hdelays : ∀ d, habits.delays d → 0 ≤ d)
    (prog : Program σ) (hb : Behaves env habits prog) (w v : World σ)
    (h : Reachable env habits prog w) (fuel : ℕ) (flags : UInt32) (polled : List EpollEvent)
    (done : Processed)
    (htime : flags &&& aeTimeEvents ≠ 0) (hwait : flags &&& aeDontWait = 0)
    (hp : aeProcessEvents env prog fuel w flags polled = some (v,done)) :
    ∃ es, Timers [] w es ∧ (es = [] → done.timeout = some (-1)) ∧
      ∀ e ∈ es, (∀ d ∈ es, millis e.2.when_ ≤ millis d.2.when_) →
        let left := millis e.2.when_-millis (reading env w.readings)
        done.timeout = some ((if 0 ≤ left then left else left % 1000).bmod (2^32)) ∧
        (done.timeout = some (max 0 left) ↔
          0 ≤ left ∧ left < 2^31 ∨ left < 0 ∧ 1000 ∣ left) := by
  obtain ⟨es,hw,hn⟩ := h.invariant env habits prog Deadlines (deadlines_invariant env habits hdelays)
    hb (fun events kernel app => ⟨[], timers_create events kernel app, by simp⟩) w
  refine ⟨es, hw, ?_⟩
  -- the timeout is the one of `pollTime`
  have hpoll : ∃ tvp w1, pollTime env w flags = some (tvp,w1) ∧
      done.timeout = some (epollTimeout tvp) := by
    unfold aeProcessEvents at hp
    rw [if_neg fun hz => htime hz.1] at hp
    obtain ⟨⟨w1,timeout,files,fired⟩,hpoll,hrest⟩ := Option.bind_eq_some_iff.mp hp
    dsimp only at hrest
    rw [if_pos htime] at hrest
    obtain ⟨r,-,hrest⟩ := Option.bind_eq_some_iff.mp hrest
    obtain ⟨-,rfl⟩ := Prod.mk.inj (Option.some.inj hrest)
    unfold pollFiles at hpoll
    rw [if_pos (Or.inr ⟨htime,hwait⟩)] at hpoll
    obtain ⟨⟨tvp,w2⟩,htv,hrest⟩ := Option.bind_eq_some_iff.mp hpoll
    obtain ⟨q,-,hrest⟩ := Option.bind_eq_some_iff.mp hrest
    obtain ⟨-,hrest⟩ := Prod.mk.inj (Option.some.inj hrest)
    obtain ⟨rfl,-⟩ := Prod.mk.inj hrest
    exact ⟨tvp, w2, htv, rfl⟩
  obtain ⟨tvp,w1,htv,hdone⟩ := hpoll
  have hshort : shortestTimer w flags = aeSearchNearestTimer w := if_pos ⟨htime,hwait⟩
  rw [pollTime, hshort] at htv
  constructor
  · rintro rfl
    rcases hw.nearest [] [] w with ⟨-,hs⟩ | ⟨e,he,-⟩
    · rw [hs] at htv
      have hif : (if flags &&& aeDontWait ≠ 0 then some (0,0) else none) = tvp :=
        congrArg Prod.fst (Option.some.inj htv)
      rw [if_neg (not_not.mpr hwait)] at hif
      rw [hdone, ← hif]
      rfl
    · exact absurd he List.not_mem_nil
  · intro e he hfirst left
    have hnow := normal_reading env w.readings
    have htimeout :
        done.timeout = some ((if 0 ≤ left then left else left % 1000).bmod (2^32)) := by
      rcases hw.nearest es [] w with ⟨rfl,-⟩ | ⟨c,hc,hs,hmin⟩
      · exact absurd he List.not_mem_nil
      rw [hs] at htv
      have htvp : some (timeMissing (reading env w.readings) c.2) = tvp :=
        congrArg Prod.fst (Option.some.inj htv)
      -- both have the first deadline
      have hsame : millis c.2.when_ = millis e.2.when_ := by
        apply le_antisymm
        · have hle := hmin e he
          rw [earlier_normal _ _ (hn e he) (hn c hc)] at hle
          exact not_lt.mp hle
        · exact hfirst c hc
      rw [hdone, ← htvp, epollTimeout_timeMissing _ _ hnow (hn c hc), hsame]
      congr 2
      by_cases hle : 0 ≤ left
      · rw [if_pos hle, if_pos (Int.sub_nonneg.mp hle)]
      · rw [if_neg hle, if_neg (fun hge => hle (Int.sub_nonneg.mpr hge))]
    refine ⟨htimeout, ?_⟩
    rw [htimeout, Option.some.injEq]
    exact bmod_eq_iff left

end waiting

/-- A clock that stands 305 milliseconds later when it is read for the second time. -/
def late : Environment :=
  { still with clock := fun n => [still.clock 0].getD n ⟨0,⟨305000,by decide⟩⟩ }

theorem reachable_late (habits : Habits) (h : habits.delays 5) (prog : Program Unit) :
    Reachable late habits prog waiting := by
  have ha : Acts late habits (fresh []) waiting := .createTimeEvent _ 5 0 0 none h
  exact ⟨_, _, _, .acts _ _ .refl ha⟩

/-- No negative delays. -/
def patient : Habits := { anything with delays := fun d => 0 ≤ d }

/-- The event has been overdue for 0.3 seconds, and the loop sleeps for another 0.7. -/
theorem timeout_late : let done : Processed := ⟨some 700,[],[(0,(0,305))],1⟩
    ∃ es, Timers [] waiting es ∧ (es = [] → done.timeout = some (-1)) ∧
      ∀ e ∈ es, (∀ d ∈ es, millis e.2.when_ ≤ millis d.2.when_) →
        let left := millis e.2.when_-millis (reading late waiting.readings)
        done.timeout = some ((if 0 ≤ left then left else left % 1000).bmod (2^32)) ∧
        (done.timeout = some (max 0 left) ↔
          0 ≤ left ∧ left < 2^31 ∨ left < 0 ∧ 1000 ∣ left) :=
  reachable_timeout late patient (fun _ h => h) idle (behaves_idle late _) waiting _
    (reachable_late patient (show (0 : ℤ) ≤ 5 by decide) idle) 3 aeAllEvents [] _ (by decide) (by decide) rfl

end Cclab.Ae
