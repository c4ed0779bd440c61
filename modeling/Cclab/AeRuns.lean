import Cclab.AeModel

/-! What the registered functions of a program may do to the world, and the two ways to carry a
property through the event loop: one that every call of the API keeps, and one that every call of
a registered function keeps. -/
namespace Cclab.Ae
open LinkedCells

variable {σ : Type}

/-- What a program keeps to: the delays with which it creates time events and asks for the next call,
the masks that may be registered for a descriptor when it is closed, and those that it registers. -/
structure Habits where
  delays : ℤ → Prop
  closes : UInt32 → Prop
  registers : UInt32 → Prop

/-- Calls of the API and of the system, in any number; a registered function does not call
`aeProcessEvents` itself. -/
inductive Acts (env : Environment) (habits : Habits) : World σ → World σ → Prop
  | refl (w : World σ) : Acts env habits w w
  | trans (w v u : World σ) (h : Acts env habits w v) (k : Acts env habits v u) :
      Acts env habits w u
  | setApp (w : World σ) (app : σ) : Acts env habits w { w with app := app }
  | tick (w : World σ) : Acts env habits w w.tick
  | openFd (w : World σ) (fd : ℕ) (h : w.kernel.opened fd = false) :
      Acts env habits w { w with kernel := w.kernel.openFd fd }
  | dup (w : World σ) (fd new : ℕ) (h : w.kernel.opened new = false) :
      Acts env habits w { w with kernel := w.kernel.dup fd new }
  | close (w : World σ) (fd : ℕ) (h : habits.closes (w.events fd).mask) :
      Acts env habits w { w with kernel := w.kernel.close fd }
  | stop (w : World σ) : Acts env habits w (aeStop w)
  | setBeforeSleepProc (w : World σ) (proc : Option ℕ) :
      Acts env habits w (aeSetBeforeSleepProc w proc)
  | createFileEvent (w : World σ) (fd : ℕ) (mask : UInt32) (proc clientData : ℕ)
      (h : habits.registers mask) :
      Acts env habits w (aeCreateFileEvent env w fd mask proc clientData).1
  | deleteFileEvent (w : World σ) (fd : ℕ) (mask : UInt32) :
      Acts env habits w (aeDeleteFileEvent w fd mask)
  | createTimeEvent (w : World σ) (milliseconds : ℤ) (proc clientData : ℕ)
      (finalizerProc : Option ℕ) (h : habits.delays milliseconds) :
      Acts env habits w (aeCreateTimeEvent env w milliseconds proc clientData finalizerProc).1
  -- a finalizer may act as well
  | deleteTimeEvent (w v u t : World σ) (id : ℤ) (p : ℕ) (te : AeTimeEvent)
      (hcut : unlinkTimeEvent w id = some (some (v,p,te))) (hact : Acts env habits v u)
      (hfree : zfreeTimeEvent u p = some t) : Acts env habits w t

/-- The registered functions act in this way only. -/
structure Behaves (env : Environment) (habits : Habits) (prog : Program σ) : Prop where
  fileProc : ∀ proc w fd clientData mask w',
    prog.fileProc proc w fd clientData mask = some w' → Acts env habits w w'
  timeProc : ∀ proc w id clientData w' retval,
    prog.timeProc proc w id clientData = some (w',retval) →
      Acts env habits w w' ∧ (retval ≠ aeNomore → habits.delays retval)
  finalizerProc : ∀ proc w clientData w',
    prog.finalizerProc proc w clientData = some w' → Acts env habits w w'
  beforesleep : ∀ proc w w', prog.beforesleep proc w = some w' → Acts env habits w w'

/-- A property that the calls keep. Its first argument lists the time events that are being
deleted: cut out of the list, and not released yet. -/
structure ActInvariant (env : Environment) (habits : Habits) (P : List ℕ → World σ → Prop) :
    Prop where
  setApp : ∀ F w app, P F w → P F { w with app := app }
  tick : ∀ F w, P F w → P F w.tick
  openFd : ∀ F w fd, P F w → w.kernel.opened fd = false →
    P F { w with kernel := w.kernel.openFd fd }
  dup : ∀ F w fd new, P F w → w.kernel.opened new = false →
    P F { w with kernel := w.kernel.dup fd new }
  close : ∀ F w fd, P F w → habits.closes (w.events fd).mask →
    P F { w with kernel := w.kernel.close fd }
  setStop : ∀ F w stop, P F w → P F { w with eventLoop := { w.eventLoop with stop := stop } }
  setBeforeSleepProc : ∀ F w proc, P F w → P F (aeSetBeforeSleepProc w proc)
  createFileEvent : ∀ F w fd mask proc clientData, P F w → habits.registers mask →
    P F (aeCreateFileEvent env w fd mask proc clientData).1
  deleteFileEvent : ∀ F w fd mask, P F w → P F (aeDeleteFileEvent w fd mask)
  createTimeEvent : ∀ F w milliseconds proc clientData finalizerProc, P F w → habits.delays milliseconds →
    P F (aeCreateTimeEvent env w milliseconds proc clientData finalizerProc).1
  unlink : ∀ F w id v p te, P F w → unlinkTimeEvent w id = some (some (v,p,te)) → P (p :: F) v
  release : ∀ F w p v, P (p :: F) w → zfreeTimeEvent w p = some v → P F v

/-- And that the new deadlines of the loop keep. -/
structure Invariant (env : Environment) (habits : Habits) (P : List ℕ → World σ → Prop) :
    Prop extends ActInvariant env habits P where
  reschedule : ∀ F w te milliseconds v, P F w → habits.delays milliseconds →
    reschedule env w te milliseconds = some v → P F v

theorem ActInvariant.acts (env : Environment) (habits : Habits) (P : List ℕ → World σ → Prop)
    (hP : ActInvariant env habits P) (w v : World σ) (h : Acts env habits w v) :
    ∀ F, P F w → P F v := by
  induction h with
  | refl w => exact fun F hw => hw
  | trans w v u _ _ ih1 ih2 => exact fun F hw => ih2 F (ih1 F hw)
  | setApp w app => exact fun F => hP.setApp F w app
  | tick w => exact fun F => hP.tick F w
  | openFd w fd h => exact fun F hw => hP.openFd F w fd hw h
  | dup w fd new h => exact fun F hw => hP.dup F w fd new hw h
  | close w fd h => exact fun F hw => hP.close F w fd hw h
  | stop w => exact fun F => hP.setStop F w true
  | setBeforeSleepProc w proc => exact fun F => hP.setBeforeSleepProc F w proc
  | createFileEvent w fd mask proc clientData h =>
    exact fun F hw => hP.createFileEvent F w fd mask proc clientData hw h
  | deleteFileEvent w fd mask => exact fun F => hP.deleteFileEvent F w fd mask
  | createTimeEvent w milliseconds proc clientData finalizerProc h =>
    exact fun F hw => hP.createTimeEvent F w milliseconds proc clientData finalizerProc hw h
  | deleteTimeEvent w v u t id p te hcut _ hfree ih =>
    intro F hw
    -- while the finalizer acts, one more event is being deleted
    have hv := hP.unlink F w id v p te hw hcut
    exact hP.release F u p t (ih (p :: F) hv) hfree

section delete
variable (env : Environment) (habits : Habits) (prog : Program σ)

theorem aeDeleteTimeEvent_cases (w v : World σ) (id r : ℤ)
    (h : aeDeleteTimeEvent prog w id = some (v,r)) :
    (unlinkTimeEvent w id = some none ∧ v = w ∧ r = aeErr) ∨
    ∃ w1 p te w2, unlinkTimeEvent w id = some (some (w1,p,te)) ∧ finalize prog w1 te = some w2 ∧
      zfreeTimeEvent w2 p = some v ∧ r = aeOk := by
  obtain ⟨found,hcut,hrest⟩ := Option.bind_eq_some_iff.mp h
  cases found with
  | none =>
    obtain ⟨rfl,rfl⟩ := Prod.mk.inj (Option.some.inj hrest)
    exact Or.inl ⟨hcut,rfl,rfl⟩
  | some c =>
    obtain ⟨w1,p,te⟩ := c
    obtain ⟨w2,hfin,hrest⟩ := Option.bind_eq_some_iff.mp hrest
    obtain ⟨w3,hfree,hrest⟩ := Option.bind_eq_some_iff.mp hrest
    obtain ⟨rfl,rfl⟩ := Prod.mk.inj (Option.some.inj hrest)
    exact Or.inr ⟨w1, p, te, w2, hcut, hfin, hfree, rfl⟩

theorem Behaves.finalize (hb : Behaves env habits prog) (w v : World σ) (te : AeTimeEvent)
    (h : finalize prog w te = some v) : Acts env habits w v := by
  unfold Ae.finalize at h
  cases hf : te.finalizerProc with
  | none =>
    rw [hf] at h
    obtain rfl := Option.some.inj h
    exact .refl w
  | some proc =>
    rw [hf] at h
    exact hb.finalizerProc proc w te.clientData v h

theorem Behaves.delete (hb : Behaves env habits prog) (w v : World σ) (id r : ℤ)
    (h : aeDeleteTimeEvent prog w id = some (v,r)) : Acts env habits w v := by
  rcases aeDeleteTimeEvent_cases prog w v id r h with ⟨-,rfl,-⟩ | ⟨w1,p,te,w2,hcut,hfin,hfree,-⟩
  · exact .refl v
  · exact .deleteTimeEvent w w1 w2 v id p te hcut (hb.finalize env habits prog w1 w2 te hfin) hfree

end delete

/-- The function that the table has for an event of the descriptor. -/
def Watches (w : World σ) (fd proc clientData : ℕ) : Prop :=
  clientData = (w.events fd).clientData ∧
    ((w.events fd).mask &&& aeReadable ≠ 0 ∧ proc = (w.events fd).rfileProc ∨
      (w.events fd).mask &&& aeWritable ≠ 0 ∧ proc = (w.events fd).wfileProc)

/-- A property that the calls of the registered functions keep. -/
structure Keeps (env : Environment) (prog : Program σ) (P : World σ → Prop) : Prop where
  tick : ∀ w, P w → P w.tick
  start : ∀ w, P w → P { w with eventLoop := { w.eventLoop with stop := false } }
  fileProc : ∀ proc w fd clientData mask v, P w → Watches w fd proc clientData →
    prog.fileProc proc w fd clientData mask = some v → P v
  timeProc : ∀ w te cell v retval u, P w → w.timers te = some cell →
    prog.timeProc cell.data.timeProc w cell.data.id cell.data.clientData = some (v,retval) →
    afterTimeProc env prog v te cell.data.id retval = some u → P u
  beforesleep : ∀ proc w v, P w → prog.beforesleep proc w = some v → P v

theorem Invariant.keeps (env : Environment) (habits : Habits) (P : List ℕ → World σ → Prop)
    (hP : Invariant env habits P) (prog : Program σ) (hb : Behaves env habits prog) :
    Keeps env prog (P []) where
  tick := hP.tick []
  start := fun w => hP.setStop [] w false
  fileProc := by
    intro proc w fd clientData mask v hw _ h
    exact hP.acts env habits P w v (hb.fileProc proc w fd clientData mask v h) [] hw
  timeProc := by
    intro w te cell v retval u hw _ hcall hafter
    obtain ⟨hact,hdelay⟩ := hb.timeProc _ w _ _ v retval hcall
    have hv := hP.acts env habits P w v hact [] hw
    unfold afterTimeProc at hafter
    by_cases hr : retval ≠ aeNomore
    · rw [if_pos hr] at hafter
      exact hP.reschedule [] v te retval u hv (hdelay hr) hafter
    · rw [if_neg hr] at hafter
      obtain ⟨r,hdel,rfl⟩ := Option.map_eq_some_iff.mp hafter
      exact hP.acts env habits P v r.1 (hb.delete env habits prog v r.1 _ r.2 hdel) [] hv
  beforesleep := by
    intro proc w v hw h
    exact hP.acts env habits P w v (hb.beforesleep proc w v h) [] hw

theorem and_of_and (a b c : UInt32) (h : a &&& b &&& c ≠ 0) : a &&& c ≠ 0 := by
  intro hz
  apply h
  rw [UInt32.and_assoc, UInt32.and_comm b c, ← UInt32.and_assoc, hz, UInt32.zero_and]

/-- One iteration of the loop of `processTimeEvents`: a new event, one that is not due, or a call. -/
theorem timeLoop_cases (env : Environment) (prog : Program σ) (maxId : ℤ) (fuel : ℕ) (w v : World σ)
    (te : ℕ) (calls : List (ℤ × ℤ × ℤ))
    (h : timeLoop env prog maxId (fuel+1) w (some te) = some (v,calls)) :
    ∃ cell, w.timers te = some cell ∧
      (maxId < cell.data.id ∧ timeLoop env prog maxId fuel w cell.next = some (v,calls) ∨
       cell.data.id ≤ maxId ∧ ¬ cell.data.due (reading env w.readings) ∧
        timeLoop env prog maxId fuel w.tick cell.next = some (v,calls) ∨
       cell.data.id ≤ maxId ∧ cell.data.due (reading env w.readings) ∧
        ∃ w1 retval w2 calls',
          prog.timeProc cell.data.timeProc w.tick cell.data.id cell.data.clientData =
            some (w1,retval) ∧
          afterTimeProc env prog w1 te cell.data.id retval = some w2 ∧
          timeLoop env prog maxId fuel w2 w2.eventLoop.timeEventHead = some (v,calls') ∧
          calls = (cell.data.id,reading env w.readings) :: calls') := by
  obtain ⟨cell,hcell,hrest⟩ := Option.bind_eq_some_iff.mp h
  refine ⟨cell, hcell, ?_⟩
  by_cases hid : maxId < cell.data.id
  · rw [if_pos hid] at hrest
    exact Or.inl ⟨hid,hrest⟩
  · rw [if_neg hid] at hrest
    change (if cell.data.due (reading env w.readings) then _ else _) = _ at hrest
    by_cases hdue : cell.data.due (reading env w.readings)
    · rw [if_pos hdue] at hrest
      obtain ⟨⟨w1,retval⟩,hcall,hrest⟩ := Option.bind_eq_some_iff.mp hrest
      obtain ⟨w2,hafter,hrest⟩ := Option.bind_eq_some_iff.mp hrest
      obtain ⟨⟨u,calls'⟩,hloop,hrest⟩ := Option.bind_eq_some_iff.mp hrest
      obtain ⟨rfl,rfl⟩ := Prod.mk.inj (Option.some.inj hrest)
      exact Or.inr (Or.inr ⟨not_lt.mp hid, hdue, w1, retval, w2, calls', hcall, hafter, hloop, rfl⟩)
    · rw [if_neg hdue] at hrest
      exact Or.inr (Or.inl ⟨not_lt.mp hid,hdue,hrest⟩)

section keeps
variable (env : Environment) (prog : Program σ) (P : World σ → Prop) (hP : Keeps env prog P)
include hP

theorem Keeps.timeLoop (maxId : ℤ) (fuel : ℕ) (w v : World σ) (te : Option ℕ)
    (calls : List (ℤ × ℤ × ℤ)) (hw : P w) (h : timeLoop env prog maxId fuel w te = some (v,calls)) :
    P v := by
  induction fuel generalizing w te calls with
  | zero => exact absurd h (by simp [Ae.timeLoop])
  | succ fuel ih =>
    cases te with
    | none =>
      obtain ⟨rfl,-⟩ := Prod.mk.inj (Option.some.inj h)
      exact hw
    | some te =>
      obtain ⟨cell,hcell,⟨-,hrest⟩ | ⟨-,-,hrest⟩ | ⟨-,-,w1,retval,w2,calls',hcall,hafter,hrest,-⟩⟩ :=
        timeLoop_cases env prog maxId fuel w v te calls h
      · exact ih w cell.next calls hw hrest
      · exact ih w.tick cell.next calls (hP.tick w hw) hrest
      · have h2 := hP.timeProc w.tick te cell w1 retval w2 (hP.tick w hw) hcell hcall hafter
        exact ih w2 _ calls' h2 hrest

theorem Keeps.fireOne (w v : World σ) (fired : EpollEvent) (calls : List FileCall) (hw : P w)
    (h : fireOne prog w fired = some (v,calls)) : P v := by
  obtain ⟨⟨w1,calls1⟩,hread,hwrite⟩ := Option.bind_eq_some_iff.mp h
  have h1 : P w1 := by
    unfold fireReadable at hread
    by_cases hr : (w.events fired.fd).mask &&& fired.mask &&& aeReadable ≠ 0
    · rw [if_pos hr] at hread
      obtain ⟨u,hu,he⟩ := Option.map_eq_some_iff.mp hread
      obtain ⟨rfl,-⟩ := Prod.mk.inj he
      apply hP.fileProc _ w fired.fd _ fired.mask u hw ⟨rfl, Or.inl ⟨?_,rfl⟩⟩ hu
      exact and_of_and _ _ _ hr
    · rw [if_neg hr] at hread
      obtain ⟨rfl,-⟩ := Prod.mk.inj (Option.some.inj hread)
      exact hw
  unfold fireWritable at hwrite
  dsimp only at hwrite
  -- the second call goes by the table as the first one left it
  by_cases hr : (w1.events fired.fd).mask &&& fired.mask &&& aeWritable ≠ 0 ∧
      (calls1 = [] ∨ (w1.events fired.fd).wfileProc ≠ (w1.events fired.fd).rfileProc)
  · rw [if_pos hr] at hwrite
    obtain ⟨u,hu,he⟩ := Option.map_eq_some_iff.mp hwrite
    obtain ⟨rfl,-⟩ := Prod.mk.inj he
    apply hP.fileProc _ w1 fired.fd _ fired.mask u h1 ⟨rfl, Or.inr ⟨?_,rfl⟩⟩ hu
    exact and_of_and _ _ _ hr.1
  · rw [if_neg hr] at hwrite
    obtain ⟨rfl,-⟩ := Prod.mk.inj (Option.some.inj hwrite)
    exact h1

theorem Keeps.fireAll (w v : World σ) (es : List EpollEvent) (calls : List FileCall) (hw : P w)
    (h : fireAll prog w es = some (v,calls)) : P v := by
  induction es generalizing w calls with
  | nil =>
    obtain ⟨rfl,-⟩ := Prod.mk.inj (Option.some.inj h)
    exact hw
  | cons e es ih =>
    rw [Ae.fireAll] at h
    obtain ⟨r,hone,hrest⟩ := Option.bind_eq_some_iff.mp h
    obtain ⟨q,hall,hrest⟩ := Option.bind_eq_some_iff.mp hrest
    obtain ⟨rfl,-⟩ := Prod.mk.inj (Option.some.inj hrest)
    exact ih r.1 q.2 (hP.fireOne env prog P w r.1 e r.2 hw hone) hall

theorem Keeps.pollTime (w v : World σ) (flags : UInt32) (tvp : Option (ℤ × ℤ)) (hw : P w)
    (h : pollTime env w flags = some (tvp,v)) : P v := by
  obtain ⟨shortest,-,hrest⟩ := Option.bind_eq_some_iff.mp h
  cases shortest with
  | none =>
    obtain ⟨-,rfl⟩ := Prod.mk.inj (Option.some.inj hrest)
    exact hw
  | some te =>
    obtain ⟨-,rfl⟩ := Prod.mk.inj (Option.some.inj hrest)
    exact hP.tick w hw

theorem Keeps.pollFiles (w v : World σ) (flags : UInt32) (polled : List EpollEvent)
    (r : Option ℤ × List FileCall × ℕ) (hw : P w)
    (h : pollFiles env prog w flags polled = some (v,r)) : P v := by
  unfold Ae.pollFiles at h
  by_cases hwait : w.eventLoop.maxfd ≠ -1 ∨ flags &&& aeTimeEvents ≠ 0 ∧ flags &&& aeDontWait = 0
  · rw [if_pos hwait] at h
    obtain ⟨⟨tvp,w1⟩,htime,hrest⟩ := Option.bind_eq_some_iff.mp h
    obtain ⟨q,hfire,hrest⟩ := Option.bind_eq_some_iff.mp hrest
    obtain ⟨rfl,-⟩ := Prod.mk.inj (Option.some.inj hrest)
    have h1 := hP.pollTime env prog P w w1 flags tvp hw htime
    exact hP.fireAll env prog P w1 q.1 polled q.2 h1 hfire
  · rw [if_neg hwait] at h
    obtain ⟨rfl,-⟩ := Prod.mk.inj (Option.some.inj h)
    exact hw

theorem Keeps.processEvents (fuel : ℕ) (w v : World σ) (flags : UInt32) (polled : List EpollEvent)
    (done : Processed) (hw : P w)
    (h : aeProcessEvents env prog fuel w flags polled = some (v,done)) : P v := by
  unfold aeProcessEvents at h
  by_cases hflags : flags &&& aeTimeEvents = 0 ∧ flags &&& aeFileEvents = 0
  · rw [if_pos hflags] at h
    obtain ⟨rfl,-⟩ := Prod.mk.inj (Option.some.inj h)
    exact hw
  · rw [if_neg hflags] at h
    obtain ⟨⟨w1,timeout,files,fired⟩,hpoll,hrest⟩ := Option.bind_eq_some_iff.mp h
    have h1 := hP.pollFiles env prog P w w1 flags polled _ hw hpoll
    dsimp only at hrest
    by_cases htime : flags &&& aeTimeEvents ≠ 0
    · rw [if_pos htime] at hrest
      obtain ⟨r,hloop,hrest⟩ := Option.bind_eq_some_iff.mp hrest
      obtain ⟨rfl,-⟩ := Prod.mk.inj (Option.some.inj hrest)
      exact hP.timeLoop env prog P _ fuel w1 r.1 _ r.2 h1 hloop
    · rw [if_neg htime] at hrest
      obtain ⟨rfl,-⟩ := Prod.mk.inj (Option.some.inj hrest)
      exact h1

theorem Keeps.mainLoop (fuel : ℕ) (w v : World σ) (polled : List (List EpollEvent)) (ended : Bool)
    (hw : P w) (h : mainLoop env prog fuel w polled = some (v,ended)) : P v := by
  induction polled generalizing w with
  | nil =>
    obtain ⟨rfl,-⟩ := Prod.mk.inj (Option.some.inj h)
    exact hw
  | cons es polled ih =>
    rw [Ae.mainLoop] at h
    split_ifs at h with hstop
    · obtain ⟨rfl,-⟩ := Prod.mk.inj (Option.some.inj h)
      exact hw
    · obtain ⟨w1,hsleep,hrest⟩ := Option.bind_eq_some_iff.mp h
      obtain ⟨⟨w2,done⟩,hproc,hrest⟩ := Option.bind_eq_some_iff.mp hrest
      have h1 : P w1 := by
        unfold sleep at hsleep
        cases hb : w.eventLoop.beforesleep with
        | none =>
          rw [hb] at hsleep
          obtain rfl := Option.some.inj hsleep
          exact hw
        | some proc =>
          rw [hb] at hsleep
          exact hP.beforesleep proc w w1 hw hsleep
      exact ih w2 (hP.processEvents env prog P fuel w1 w2 aeAllEvents es done h1 hproc) hrest

theorem Keeps.main (fuel : ℕ) (w v : World σ) (polled : List (List EpollEvent)) (ended : Bool)
    (hw : P w) (h : aeMain env prog fuel w polled = some (v,ended)) : P v :=
  hP.mainLoop env prog P fuel _ v polled ended (hP.start w hw) h

end keeps

/-- What comes after a world: what the program does with the loop, and the loop at work. A pass of
`processTimeEvents` is made of acts and of new deadlines, so the worlds inside of it are there as
well. -/
inductive Later (env : Environment) (habits : Habits) (prog : Program σ) (u : World σ) :
    World σ → Prop
  | refl : Later env habits prog u u
  | acts (w v : World σ) (h : Later env habits prog u w) (ha : Acts env habits w v) :
      Later env habits prog u v
  | reschedule (w v : World σ) (te : ℕ) (milliseconds : ℤ) (h : Later env habits prog u w)
      (hd : habits.delays milliseconds) (hr : reschedule env w te milliseconds = some v) :
      Later env habits prog u v
  | processEvents (fuel : ℕ) (w v : World σ) (flags : UInt32) (polled : List EpollEvent)
      (done : Processed) (h : Later env habits prog u w)
      (hp : aeProcessEvents env prog fuel w flags polled = some (v,done)) :
      Later env habits prog u v
  | main (fuel : ℕ) (w v : World σ) (polled : List (List EpollEvent)) (ended : Bool)
      (h : Later env habits prog u w)
      (hp : aeMain env prog fuel w polled = some (v,ended)) : Later env habits prog u v

/-- The worlds of a program, from a new loop on. -/
def Reachable (env : Environment) (habits : Habits) (prog : Program σ) (w : World σ) : Prop :=
  ∃ events kernel app, Later env habits prog (aeCreateEventLoop events kernel app) w

/-- Whatever the loop calls, it calls in a world that is there, and goes on from one. -/
theorem Later.keeps (env : Environment) (habits : Habits) (prog : Program σ)
    (hb : Behaves env habits prog) (u : World σ) : Keeps env prog (Later env habits prog u) where
  tick := fun w hw => .acts w _ hw (.tick w)
  -- `aeMain` before its first iteration
  start := fun w hw => .main 0 w _ [] false hw rfl
  fileProc := by
    intro proc w fd clientData mask v hw _ h
    exact .acts w v hw (hb.fileProc proc w fd clientData mask v h)
  timeProc := by
    intro w te cell v retval t hw _ hcall hafter
    obtain ⟨hact,hdelay⟩ := hb.timeProc _ w _ _ v retval hcall
    have hv := Later.acts w v hw hact
    unfold afterTimeProc at hafter
    by_cases hr : retval ≠ aeNomore
    · rw [if_pos hr] at hafter
      exact .reschedule v t te retval hv (hdelay hr) hafter
    · rw [if_neg hr] at hafter
      obtain ⟨r,hdel,rfl⟩ := Option.map_eq_some_iff.mp hafter
      exact .acts v r.1 hv (hb.delete env habits prog v r.1 _ r.2 hdel)
  beforesleep := by
    intro proc w v hw h
    exact .acts w v hw (hb.beforesleep proc w v h)

section runs
variable (env : Environment) (habits : Habits) (prog : Program σ) (P : List ℕ → World σ → Prop)
  (hP : Invariant env habits P) (hb : Behaves env habits prog)
include hP hb

theorem Later.invariant (u w : World σ) (hu : P [] u) (h : Later env habits prog u w) : P [] w := by
  have hk := hP.keeps env habits P prog hb
  induction h with
  | refl => exact hu
  | acts w v _ ha ih => exact hP.acts env habits P w v ha [] ih
  | reschedule w v te milliseconds _ hd hr ih => exact hP.reschedule [] w te milliseconds v ih hd hr
  | processEvents fuel w v flags polled done _ hp ih =>
    exact hk.processEvents env prog (P []) fuel w v flags polled done ih hp
  | main fuel w v polled ended _ hp ih => exact hk.main env prog (P []) fuel w v polled ended ih hp

theorem Reachable.invariant
    (hcreate : ∀ events kernel app, P [] (aeCreateEventLoop events kernel app)) (w : World σ)
    (h : Reachable env habits prog w) : P [] w := by
  obtain ⟨events,kernel,app,hl⟩ := h
  exact hl.invariant env habits prog P hP hb _ w (hcreate events kernel app)

end runs

/-- Registered functions that do nothing; a time event ends when it is called. -/
def idle : Program σ where
  fileProc := fun _ w _ _ _ => some w
  timeProc := fun _ w _ _ => some (w,aeNomore)
  finalizerProc := fun _ w _ => some w
  beforesleep := fun _ w => some w

theorem behaves_idle (env : Environment) (habits : Habits) :
    Behaves env habits (idle : Program σ) where
  fileProc := by
    intro proc w fd clientData mask v h
    obtain rfl := Option.some.inj h
    exact .refl w
  timeProc := by
    intro proc w id clientData v retval h
    obtain ⟨rfl,rfl⟩ := Prod.mk.inj (Option.some.inj h)
    exact ⟨.refl w, fun hne => absurd rfl hne⟩
  finalizerProc := by
    intro proc w clientData v h
    obtain rfl := Option.some.inj h
    exact .refl w
  beforesleep := by
    intro proc w v h
    obtain rfl := Option.some.inj h
    exact .refl w

/-- The same with time events that want to be called again. -/
def again : Program σ := { idle with timeProc := fun _ w _ _ => some (w,100) }

theorem behaves_again (env : Environment) (habits : Habits) (h : habits.delays 100) :
    Behaves env habits (again : Program σ) where
  fileProc := (behaves_idle env habits).fileProc
  timeProc := by
    intro proc w id clientData v retval hcall
    obtain ⟨rfl,rfl⟩ := Prod.mk.inj (Option.some.inj hcall)
    exact ⟨.refl w, fun _ => h⟩
  finalizerProc := (behaves_idle env habits).finalizerProc
  beforesleep := (behaves_idle env habits).beforesleep

/-- A clock that says the same for ever, and a kernel without limits. -/
def still : Environment := ⟨fun _ => ⟨0,0⟩, fun _ => false⟩

/-- A program with nothing but a loop and the descriptors that are open. -/
def fresh (fds : List ℕ) : World Unit :=
  aeCreateEventLoop (fun _ => ⟨aeNone,0,0,0⟩) (fds.foldl Kernel.openFd Kernel.empty) ()

/-- A program that does anything. -/
def anything : Habits := ⟨fun _ => True,fun _ => True,fun _ => True⟩

end Cclab.Ae
