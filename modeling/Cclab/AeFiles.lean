import Cclab.AeRuns

/-! The table of file events against the interest list of the kernel: what the loop has registered,
what epoll watches, and `maxfd`. -/
namespace Cclab.Ae
open LinkedCells

variable {σ : Type}

/-- The kernel watches what the table says, every registered descriptor is open and in the table,
and `maxfd` is the greatest of them. -/
structure Registered (w : World σ) : Prop where
  interest : ∀ f fd, w.kernel.interest f fd =
    if w.kernel.files fd = some f ∧ (w.events fd).mask ≠ aeNone then
      some (epollEvents (w.events fd).mask) else none
  usable : ∀ fd, (w.events fd).mask ≠ aeNone → fd < aeSetsize ∧ w.kernel.opened fd = true
  below : ∀ fd, (w.events fd).mask ≠ aeNone → fd ≤ w.eventLoop.maxfd
  attained : w.eventLoop.maxfd = -1 ∨
    ∃ fd : ℕ, w.eventLoop.maxfd = fd ∧ (w.events fd).mask ≠ aeNone

section fields
variable (w : World σ) (fd : ℕ) (fe : AeFileEvent)

theorem setEvents_self : (w.setEvents fd fe).events fd = fe := by
  show Function.update w.eventLoop.events fd fe fd = fe
  rw [Function.update_self]

theorem setEvents_of_ne (j : ℕ) (hj : j ≠ fd) : (w.setEvents fd fe).events j = w.events j := by
  show Function.update w.eventLoop.events fd fe j = w.events j
  rw [Function.update_of_ne hj]

theorem setEntry_self (k : Kernel) (ee : Option EpollEvents) (f : ℕ) (hf : k.files fd = some f) :
    (k.setEntry fd ee).interest f fd = ee := by
  show (if _ then ee else _) = ee
  rw [if_pos ⟨hf,rfl⟩]

theorem setEntry_of_ne (k : Kernel) (ee : Option EpollEvents) (f j : ℕ)
    (h : ¬ (k.files fd = some f ∧ j = fd)) :
    (k.setEntry fd ee).interest f j = k.interest f j := by
  show (if _ then ee else _) = _
  rw [if_neg h]

theorem Kernel.close_self (k : Kernel) : (k.close fd).files fd = none := Function.update_self ..

theorem Kernel.close_of_ne (k : Kernel) (j : ℕ) (hj : j ≠ fd) :
    (k.close fd).files j = k.files j := Function.update_of_ne hj _ _

theorem Kernel.attach_self (k : Kernel) (f : ℕ) : (k.attach fd f).files fd = some f :=
  Function.update_self ..

theorem Kernel.attach_of_ne (k : Kernel) (f j : ℕ) (hj : j ≠ fd) :
    (k.attach fd f).files j = k.files j := Function.update_of_ne hj _ _

theorem Kernel.isOpened (k : Kernel) (f : ℕ) (h : k.files fd = some f) : k.opened fd = true := by
  rw [Kernel.opened, h]
  rfl

end fields

theorem or_ne_none (a b : UInt32) (h : b ≠ aeNone) : a ||| b ≠ aeNone := by
  intro he
  apply h
  have hz : (a ||| b).toNat = 0 := by rw [he]; rfl
  rw [UInt32.toNat_or, Nat.or_eq_zero_iff] at hz
  exact UInt32.toNat_inj.mp hz.2

section calls
variable (env : Environment) (w : World σ) (fd : ℕ) (mask : UInt32)

/-- What `aeApiAddEvent` does: nothing, or one entry of the interest list is set. -/
theorem aeApiAddEvent_cases :
    ((aeApiAddEvent env w fd mask).2 = false ∧
      ∃ adds, (aeApiAddEvent env w fd mask).1 = { w with adds := adds }) ∨
    ((aeApiAddEvent env w fd mask).2 = true ∧
      ((w.events fd).mask = aeNone → w.kernel.opened fd = true) ∧
      ∃ adds, (aeApiAddEvent env w fd mask).1 = { w with
        adds := adds
        kernel := w.kernel.setEntry fd (some (epollEvents (mask ||| (w.events fd).mask))) }) := by
  unfold aeApiAddEvent
  dsimp only
  by_cases hm : (w.events fd).mask = aeNone
  · rw [if_pos hm]
    unfold Kernel.epollCtlAdd
    by_cases hf : w.kernel.opened fd = false ∨ w.kernel.entry fd ≠ none ∨
        env.addFails w.adds = true
    · rw [if_pos hf]
      exact Or.inl ⟨rfl,w.adds+1,rfl⟩
    · rw [if_neg hf]
      refine Or.inr ⟨rfl, fun _ => ?_, w.adds+1, rfl⟩
      rw [not_or] at hf
      exact Bool.eq_true_of_not_eq_false hf.1
  · rw [if_neg hm]
    unfold Kernel.epollCtlMod
    by_cases hi : w.kernel.entry fd = none
    · rw [if_pos hi]
      exact Or.inl ⟨rfl,w.adds,rfl⟩
    · rw [if_neg hi]
      exact Or.inr ⟨rfl, fun h => absurd h hm, w.adds, rfl⟩

/-- What `aeCreateFileEvent` does: an error that changes nothing, or one more entry. -/
theorem aeCreateFileEvent_cases (proc clientData : ℕ) :
    ((aeCreateFileEvent env w fd mask proc clientData).2 = aeErr ∧
      ∃ adds, (aeCreateFileEvent env w fd mask proc clientData).1 = { w with adds := adds }) ∨
    ((aeCreateFileEvent env w fd mask proc clientData).2 = aeOk ∧ fd < aeSetsize ∧
      ((w.events fd).mask = aeNone → w.kernel.opened fd = true) ∧
      ∃ adds, (aeCreateFileEvent env w fd mask proc clientData).1 =
        (World.setEvents { w with
          adds := adds
          kernel := w.kernel.setEntry fd (some (epollEvents (mask ||| (w.events fd).mask))) }
          fd ((w.events fd).add mask proc clientData)).setMaxfd (max w.eventLoop.maxfd fd)) := by
  unfold aeCreateFileEvent
  dsimp only
  by_cases hfd : aeSetsize ≤ fd
  · rw [if_pos hfd]
    exact Or.inl ⟨rfl,w.adds,rfl⟩
  · rw [if_neg hfd]
    rcases aeApiAddEvent_cases env w fd mask with ⟨h2,adds,h1⟩ | ⟨h2,hopen,adds,h1⟩
    · rw [if_pos h2, h1]
      exact Or.inl ⟨rfl,adds,rfl⟩
    · rw [if_neg (by rw [h2]; decide), h1]
      refine Or.inr ⟨rfl, not_le.mp hfd, hopen, adds, ?_⟩
      by_cases hmax : w.eventLoop.maxfd < fd
      · have hm : max w.eventLoop.maxfd (fd : ℤ) = fd := max_eq_right hmax.le
        rw [hm]
        exact if_pos hmax
      · have hm : max w.eventLoop.maxfd (fd : ℤ) = w.eventLoop.maxfd := max_eq_left (not_lt.mp hmax)
        rw [hm]
        exact if_neg hmax

/-- When `epoll_ctl` accepts a descriptor: a new one, or one that it knows. -/
theorem aeApiAddEvent_succeeds : (aeApiAddEvent env w fd mask).2 = true ↔
    if (w.events fd).mask = aeNone then
      w.kernel.opened fd = true ∧ w.kernel.entry fd = none ∧ env.addFails w.adds = false
    else w.kernel.entry fd ≠ none := by
  unfold aeApiAddEvent
  dsimp only
  by_cases hm : (w.events fd).mask = aeNone
  · rw [if_pos hm, if_pos hm, Kernel.epollCtlAdd]
    split_ifs with hf
    · apply iff_of_false id
      rintro ⟨ho,hi,ha⟩
      rw [ho, hi, ha] at hf
      simp at hf
    · rw [not_or, not_or, not_not] at hf
      apply iff_of_true rfl
      exact ⟨Bool.eq_true_of_not_eq_false hf.1, hf.2.1, Bool.eq_false_of_not_eq_true hf.2.2⟩
  · rw [if_neg hm, if_neg hm, Kernel.epollCtlMod]
    split_ifs with hi
    · exact iff_of_false id (not_not.mpr hi)
    · exact iff_of_true rfl hi

theorem aeCreateFileEvent_succeeds (proc clientData : ℕ) :
    (aeCreateFileEvent env w fd mask proc clientData).2 = aeOk ↔
      fd < aeSetsize ∧ (aeApiAddEvent env w fd mask).2 = true := by
  have hne : aeErr ≠ aeOk := by decide
  unfold aeCreateFileEvent
  dsimp only
  by_cases hfd : aeSetsize ≤ fd
  · rw [if_pos hfd]
    exact iff_of_false hne fun h => absurd hfd (not_le.mpr h.1)
  · rw [if_neg hfd]
    by_cases hadd : (aeApiAddEvent env w fd mask).2 = false
    · rw [if_pos hadd, hadd]
      exact iff_of_false hne fun h => Bool.false_ne_true h.2
    · rw [if_neg hadd]
      exact iff_of_true rfl ⟨not_le.mp hfd, Bool.eq_true_of_not_eq_false hadd⟩

/-- The loop that looks for the new `maxfd`. -/
theorem scanDown_spec (events : ℕ → AeFileEvent) (n : ℕ) :
    (scanDown events n = -1 ∧ ∀ j < n, (events j).mask = aeNone) ∨
    ∃ j : ℕ, scanDown events n = j ∧ j < n ∧ (events j).mask ≠ aeNone ∧
      ∀ i < n, (events i).mask ≠ aeNone → i ≤ j := by
  induction n with
  | zero => exact Or.inl ⟨rfl, fun j hj => absurd hj (Nat.not_lt_zero j)⟩
  | succ n ih =>
    rw [scanDown]
    by_cases hm : (events n).mask ≠ aeNone
    · rw [if_pos hm]
      exact Or.inr ⟨n, rfl, Nat.lt_succ_self n, hm, fun i hi _ => Nat.le_of_lt_succ hi⟩
    · rw [if_neg hm]
      rcases ih with ⟨he,hnone⟩ | ⟨j,he,hj,hjm,hmax⟩
      · refine Or.inl ⟨he, ?_⟩
        intro j hj
        rcases Nat.lt_succ_iff_lt_or_eq.mp hj with hlt | rfl
        · exact hnone j hlt
        · exact not_not.mp hm
      · refine Or.inr ⟨j, he, Nat.lt_succ_of_lt hj, hjm, ?_⟩
        intro i hi him
        rcases Nat.lt_succ_iff_lt_or_eq.mp hi with hlt | rfl
        · exact hmax i hlt him
        · exact absurd him hm

/-- What is left of a mask. -/
abbrev restMask : UInt32 := (w.events fd).mask &&& ~~~mask

/-- The entry behind `aeDeleteFileEvent`. -/
abbrev restEvent : AeFileEvent := { w.events fd with mask := restMask w fd mask }

/-- And the new `maxfd`. -/
abbrev restMaxfd : ℤ :=
  if w.eventLoop.maxfd = fd ∧ restMask w fd mask = aeNone then
    scanDown (w.setEvents fd (restEvent w fd mask)).events fd
  else w.eventLoop.maxfd

/-- `aeDeleteFileEvent` on a descriptor that is registered; the kernel may not know it. -/
theorem aeDeleteFileEvent_eq (hfd : fd < aeSetsize) (hm : (w.events fd).mask ≠ aeNone) :
    aeDeleteFileEvent w fd mask =
      (World.setEvents { w with
        kernel := if w.kernel.entry fd = none then w.kernel else w.kernel.setEntry fd
          (if restMask w fd mask = aeNone then none else some (epollEvents (restMask w fd mask))) }
        fd (restEvent w fd mask)).setMaxfd (restMaxfd w fd mask) := by
  have htwice : ((w.events fd).mask &&& ~~~mask) &&& ~~~mask = restMask w fd mask := by
    rw [UInt32.and_assoc, UInt32.and_self]
  unfold aeDeleteFileEvent
  rw [if_neg (not_le.mpr hfd), if_neg hm]
  dsimp only
  -- the entry is written before `aeApiDelEvent` reads it, so it takes the mask away twice
  have hapi (v : World σ) (hv : (v.events fd).mask = restMask w fd mask)
      (hk : v.kernel = w.kernel) : aeApiDelEvent v fd mask = { v with
        kernel := if w.kernel.entry fd = none then w.kernel else w.kernel.setEntry fd
          (if restMask w fd mask = aeNone then none
            else some (epollEvents (restMask w fd mask))) } := by
    unfold aeApiDelEvent
    dsimp only
    rw [hv, htwice, hk, Kernel.epollCtlMod, Kernel.epollCtlDel]
    by_cases hi : w.kernel.entry fd = none
    · rw [if_pos hi, if_pos hi, if_pos hi, ite_self, Option.getD_none]
    · rw [if_neg hi, if_neg hi, if_neg hi]
      by_cases hrest : restMask w fd mask = aeNone
      · rw [if_neg (not_not.mpr hrest), if_pos hrest, Option.getD_some]
      · rw [if_pos hrest, if_neg hrest, Option.getD_some]
  by_cases hmax : w.eventLoop.maxfd = fd ∧ restMask w fd mask = aeNone
  · have hif : (w.setEvents fd (restEvent w fd mask)).eventLoop.maxfd = fd ∧
        restMask w fd mask = aeNone := hmax
    rw [restMaxfd, if_pos hmax, if_pos hif]
    refine (hapi _ ?_ ?_).trans rfl
    · exact congrArg AeFileEvent.mask (setEvents_self w fd _)
    · rfl
  · have hif : ¬ ((w.setEvents fd (restEvent w fd mask)).eventLoop.maxfd = fd ∧
        restMask w fd mask = aeNone) := hmax
    rw [restMaxfd, if_neg hmax, if_neg hif]
    refine (hapi _ ?_ ?_).trans rfl
    · exact congrArg AeFileEvent.mask (setEvents_self w fd _)
    · rfl

end calls

section keep
variable (env : Environment) (habits : Habits) (w : World σ)

theorem Registered.congr (v : World σ) (hw : Registered w) (hf : v.kernel.files = w.kernel.files)
    (hi : v.kernel.interest = w.kernel.interest) (he : v.events = w.events)
    (hm : v.eventLoop.maxfd = w.eventLoop.maxfd) : Registered v := by
  constructor
  · rw [hi, hf, he]
    exact hw.interest
  · unfold Kernel.opened
    rw [hf, he]
    exact hw.usable
  · rw [hm, he]
    exact hw.below
  · rw [hm, he]
    exact hw.attained

/-- What `epoll_ctl` finds is what the table says. -/
theorem Registered.entry (fd : ℕ) (hw : Registered w) : w.kernel.entry fd =
    if (w.events fd).mask = aeNone then none else some (epollEvents (w.events fd).mask) := by
  unfold Kernel.entry
  by_cases hm : (w.events fd).mask = aeNone
  · rw [if_pos hm]
    apply Option.bind_eq_none_iff.mpr
    intro f _
    rw [hw.interest, if_neg]
    exact fun h => h.2 hm
  · obtain ⟨f,hf⟩ := Option.isSome_iff_exists.mp (hw.usable fd hm).2
    rw [hf, Option.bind_some, hw.interest, if_pos ⟨hf,hm⟩, if_neg hm]

/-- An entry is for the open file that the descriptor has now. -/
theorem Registered.files (f fd : ℕ) (hw : Registered w) (h : w.kernel.interest f fd ≠ none) :
    w.kernel.files fd = some f ∧ (w.events fd).mask ≠ aeNone := by
  rw [hw.interest] at h
  by_contra hno
  exact h (if_neg hno)

theorem Registered.setEntry (fd : ℕ) (ee : Option EpollEvents) (f : ℕ) (hw : Registered w) :
    (w.kernel.setEntry fd ee).interest f fd =
      if w.kernel.files fd = some f then ee else none := by
  by_cases hf : w.kernel.files fd = some f
  · rw [if_pos hf]
    exact setEntry_self fd w.kernel ee f hf
  · rw [if_neg hf, setEntry_of_ne fd w.kernel ee f fd fun h => hf h.1, hw.interest, if_neg]
    exact fun h => hf h.1

/-- What one descriptor has in the table, its open file and its entries are new. -/
theorem Registered.update (v : World σ) (fd : ℕ) (hw : Registered w)
    (hevents : ∀ j, j ≠ fd → v.events j = w.events j)
    (hfiles : ∀ j, j ≠ fd → v.kernel.files j = w.kernel.files j)
    (hinterest : ∀ f j, j ≠ fd → v.kernel.interest f j = w.kernel.interest f j)
    (hfd : ∀ f, v.kernel.interest f fd =
      if v.kernel.files fd = some f ∧ (v.events fd).mask ≠ aeNone then
        some (epollEvents (v.events fd).mask) else none)
    (husable : (v.events fd).mask ≠ aeNone → fd < aeSetsize ∧ v.kernel.opened fd = true)
    (hbelow : ∀ j, (v.events j).mask ≠ aeNone → j ≤ v.eventLoop.maxfd)
    (hattained : v.eventLoop.maxfd = -1 ∨
      ∃ j : ℕ, v.eventLoop.maxfd = j ∧ (v.events j).mask ≠ aeNone) : Registered v := by
  refine ⟨?_, ?_, hbelow, hattained⟩
  · intro f j
    by_cases hj : j = fd
    · rw [hj]
      exact hfd f
    · rw [hinterest f j hj, hfiles j hj, hevents j hj]
      exact hw.interest f j
  · intro j
    by_cases hj : j = fd
    · rw [hj]
      exact husable
    · unfold Kernel.opened
      rw [hfiles j hj, hevents j hj]
      exact hw.usable j

theorem Registered.create (fd : ℕ) (mask : UInt32) (proc clientData : ℕ) (hw : Registered w)
    (hmask : mask ≠ aeNone) :
    Registered (aeCreateFileEvent env w fd mask proc clientData).1 := by
  rcases aeCreateFileEvent_cases env w fd mask proc clientData with
    ⟨-,adds,h1⟩ | ⟨-,hfd,hopen,adds,h1⟩
  · rw [h1]
    exact hw.congr w _ rfl rfl rfl rfl
  rw [h1]
  have hnew : (w.events fd).mask ||| mask ≠ aeNone := or_ne_none _ _ hmask
  have hopened : w.kernel.opened fd = true := by
    by_cases hm : (w.events fd).mask = aeNone
    · exact hopen hm
    · exact (hw.usable fd hm).2
  have hself := setEvents_self w fd ((w.events fd).add mask proc clientData)
  have hother := setEvents_of_ne w fd ((w.events fd).add mask proc clientData)
  have hm : ((w.setEvents fd ((w.events fd).add mask proc clientData)).events fd).mask ≠ aeNone := by
    rw [hself]
    exact hnew
  refine hw.update w _ fd hother ?_ ?_ ?_ ?_ ?_ ?_
  · exact fun _ _ => rfl
  · exact fun f j hj => setEntry_of_ne fd w.kernel _ f j fun h => hj h.2
  · intro f
    refine (hw.setEntry w fd _ f).trans ?_
    by_cases hf : w.kernel.files fd = some f
    · refine (if_pos hf).trans (Eq.trans ?_ (if_pos (show _ ∧ _ from ⟨hf,hm⟩)).symm)
      refine congrArg (fun m => some (epollEvents m)) ?_
      refine (UInt32.or_comm _ _).trans ?_
      exact (congrArg AeFileEvent.mask hself).symm
    · exact (if_neg hf).trans (if_neg fun h => hf h.1).symm
  · exact fun _ => ⟨hfd,hopened⟩
  · intro j hj
    by_cases hjf : j = fd
    · rw [hjf]
      exact le_max_right _ _
    · have hold : (w.events j).mask ≠ aeNone := by
        rw [← hother j hjf]
        exact hj
      exact le_max_of_le_left (hw.below j hold)
  -- the greater of the two is registered
  · refine Or.inr ?_
    by_cases hmax : w.eventLoop.maxfd ≤ fd
    · exact ⟨fd, max_eq_right hmax, hm⟩
    · rcases hw.attained with hnone | ⟨j,hj,hjm⟩
      · rw [hnone] at hmax
        omega
      · have hne : j ≠ fd := by
          rintro rfl
          exact hmax hj.le
        refine ⟨j, (max_eq_left (le_of_not_ge hmax)).trans hj, ?_⟩
        have hkeep := hother j hne
        exact fun hz => hjm ((congrArg AeFileEvent.mask hkeep).symm.trans hz)

/-- The entry that `aeDeleteFileEvent` leaves is right as soon as the kernel knows it. -/
theorem Registered.shrink (v : World σ) (fd : ℕ) (mask : UInt32) (hw : Registered w)
    (hm : (w.events fd).mask ≠ aeNone)
    (hevents : v.events = (w.setEvents fd (restEvent w fd mask)).events)
    (hmaxfd : v.eventLoop.maxfd = restMaxfd w fd mask)
    (hfiles : ∀ j, j ≠ fd → v.kernel.files j = w.kernel.files j)
    (hinterest : ∀ f j, j ≠ fd → v.kernel.interest f j = w.kernel.interest f j)
    (hopened : v.kernel.opened fd = true)
    (hfd : ∀ f, v.kernel.interest f fd =
      if v.kernel.files fd = some f ∧ restMask w fd mask ≠ aeNone then
        some (epollEvents (restMask w fd mask)) else none) : Registered v := by
  have hself : v.events fd = restEvent w fd mask := by
    rw [hevents, setEvents_self]
  have hother (j : ℕ) (hj : j ≠ fd) : v.events j = w.events j := by
    rw [hevents, setEvents_of_ne w fd _ j hj]
  have hsub (j : ℕ) (hj : (v.events j).mask ≠ aeNone) : (w.events j).mask ≠ aeNone := by
    by_cases hjf : j = fd
    · rw [hjf]
      exact hm
    · rw [← hother j hjf]
      exact hj
  have hmask : (v.events fd).mask = restMask w fd mask := congrArg AeFileEvent.mask hself
  have hscan := scanDown_spec v.events fd
  rw [restMaxfd, ← hevents] at hmaxfd
  apply hw.update w v fd hother hfiles hinterest
  · rw [hmask]
    exact hfd
  · exact fun _ => ⟨(hw.usable fd hm).1,hopened⟩
  · intro j hj
    have hle := hw.below j (hsub j hj)
    rw [hmaxfd]
    split_ifs with hmax
    -- `fd` itself is not registered any more, so `j` is below it
    · have hne : j ≠ fd := by
        rintro rfl
        exact hj (hmask.trans hmax.2)
      have hlt : j < fd := by omega
      rcases hscan with ⟨-,hnone⟩ | ⟨i,he,-,-,hgreatest⟩
      · exact absurd (hnone j hlt) hj
      · rw [he]
        exact_mod_cast hgreatest j hlt hj
    · exact hle
  · rw [hmaxfd]
    split_ifs with hmax
    · rcases hscan with ⟨he,-⟩ | ⟨i,he,-,hi,-⟩
      · exact Or.inl he
      · exact Or.inr ⟨i, he, hi⟩
    · rcases hw.attained with hnone | ⟨j,hj,hjm⟩
      · exact Or.inl hnone
      · refine Or.inr ⟨j, hj, ?_⟩
        by_cases hjf : j = fd
        · rw [hjf, hmask]
          exact fun hz => hmax ⟨hjf ▸ hj, hz⟩
        · rw [hother j hjf]
          exact hjm

theorem aeDeleteFileEvent_none (fd : ℕ) (mask : UInt32) (hm : (w.events fd).mask = aeNone) :
    aeDeleteFileEvent w fd mask = w := by
  unfold aeDeleteFileEvent
  rw [if_pos hm, ite_self]

theorem Registered.delete (fd : ℕ) (mask : UInt32) (hw : Registered w) :
    Registered (aeDeleteFileEvent w fd mask) := by
  by_cases hm : (w.events fd).mask = aeNone
  · rw [aeDeleteFileEvent_none w fd mask hm]
    exact hw
  rw [aeDeleteFileEvent_eq w fd mask (hw.usable fd hm).1 hm]
  have hknown : ¬ w.kernel.entry fd = none := by
    rw [hw.entry, if_neg hm]
    simp
  rw [if_neg hknown]
  refine hw.shrink w _ fd mask hm ?_ ?_ ?_ ?_ ?_ ?_
  · rfl
  · rfl
  · exact fun _ _ => rfl
  · exact fun f j hj => setEntry_of_ne fd w.kernel _ f j fun h => hj h.2
  · exact (hw.usable fd hm).2
  · intro f
    refine (hw.setEntry w fd _ f).trans ?_
    by_cases hf : w.kernel.files fd = some f
    · refine (if_pos hf).trans ?_
      by_cases hrest : restMask w fd mask = aeNone
      · exact (if_pos hrest).trans (if_neg fun h => h.2 hrest).symm
      · exact (if_neg hrest).trans (if_pos ⟨hf,hrest⟩).symm
    · exact (if_neg hf).trans (if_neg fun h => hf h.1).symm

theorem unlinkTimeEvent_eq (v : World σ) (id : ℤ) (p : ℕ) (te : AeTimeEvent)
    (h : unlinkTimeEvent w id = some (some (v,p,te))) :
    ∃ head timers, v = { w with
      eventLoop := { w.eventLoop with timeEventHead := head }, timers := timers } := by
  obtain ⟨found,-,hrest⟩ := Option.bind_eq_some_iff.mp h
  cases found with
  | none => exact absurd hrest (by simp)
  | some c =>
    obtain ⟨prev,q,cell⟩ := c
    obtain ⟨⟨timers,head⟩,-,hrest⟩ := Option.bind_eq_some_iff.mp hrest
    obtain ⟨rfl,-⟩ := Prod.mk.inj (Option.some.inj (Option.some.inj hrest))
    exact ⟨head,timers,rfl⟩

theorem zfreeTimeEvent_eq (v : World σ) (p : ℕ) (h : zfreeTimeEvent w p = some v) :
    ∃ timers, free w.timers p = some timers ∧ v = { w with timers := timers } := by
  obtain ⟨timers,hf,rfl⟩ := Option.map_eq_some_iff.mp h
  exact ⟨timers,hf,rfl⟩

theorem reschedule_eq (v : World σ) (p : ℕ) (milliseconds : ℤ)
    (h : reschedule env w p milliseconds = some v) :
    ∃ timers, modify w.timers p (fun c => { c with data := { c.data with
        whenSec := (addMilliseconds (reading env w.readings) milliseconds).1
        whenMs := (addMilliseconds (reading env w.readings) milliseconds).2 } }) = some timers ∧
      v = { w.tick with timers := timers } := by
  obtain ⟨timers,hm,rfl⟩ := Option.map_eq_some_iff.mp h
  exact ⟨timers,hm,rfl⟩

/-- A descriptor for which nothing is registered is closed: no entry goes. -/
theorem Registered.close (fd : ℕ) (hw : Registered w) (hm : (w.events fd).mask = aeNone) :
    Registered { w with kernel := w.kernel.close fd } := by
  have hne (j : ℕ) (hj : (w.events j).mask ≠ aeNone) : j ≠ fd := by
    rintro rfl
    exact hj hm
  -- where a registered descriptor has the same open file, the file is not closed with this one
  have hinterest : (w.kernel.close fd).interest = w.kernel.interest := by
    ext1 f
    ext1 j
    show (if _ then none else _) = _
    split_ifs with hlast
    · by_contra hno
      obtain ⟨hj,hjm⟩ := hw.files w f j (Ne.symm hno)
      refine hlast.2 ⟨j, ?_, hne j hjm, hj.trans hlast.1.symm⟩
      by_contra hb
      rw [w.kernel.closed j (not_lt.mp hb)] at hj
      exact absurd hj (by simp)
    · rfl
  apply hw.update w { w with kernel := w.kernel.close fd } fd (fun _ _ => rfl)
    (Kernel.close_of_ne fd w.kernel)
  · exact fun f j _ => congrFun (congrFun hinterest f) j
  · intro f
    show (w.kernel.close fd).interest f fd = _
    rw [hinterest, hw.interest, if_neg fun h => h.2 hm, if_neg fun h => h.2 hm]
  · exact fun h => absurd hm h
  · exact hw.below
  · exact hw.attained

/-- A descriptor that was not open gets an open file that has no entry for it. -/
theorem Registered.attach (fd f : ℕ) (hw : Registered w) (hfree : w.kernel.opened fd = false) :
    Registered { w with kernel := w.kernel.attach fd f } := by
  have hm : (w.events fd).mask = aeNone := by
    by_contra hm
    rw [(hw.usable fd hm).2] at hfree
    exact absurd hfree (by simp)
  have hclose := hw.close w fd hm
  apply hclose.update _ { w with kernel := w.kernel.attach fd f } fd fun _ _ => rfl
  · intro j hj
    exact (Kernel.attach_of_ne fd w.kernel f j hj).trans (Kernel.close_of_ne fd w.kernel j hj).symm
  · exact fun _ _ _ => rfl
  · intro g
    refine (hclose.interest g fd).trans ?_
    exact (if_neg fun h => h.2 hm).trans (if_neg fun h => h.2 hm).symm
  · exact fun h => absurd hm h
  · exact hw.below
  · exact hw.attained

theorem Registered.dup (fd new : ℕ) (hw : Registered w) (hfree : w.kernel.opened new = false) :
    Registered { w with kernel := w.kernel.dup fd new } := by
  unfold Kernel.dup
  cases w.kernel.files fd with
  | none => exact hw
  | some f => exact hw.attach w new f hfree

/-- A program that closes nothing registered, and registers for an event only. -/
structure Habits.Tidy (habits : Habits) : Prop where
  closes : ∀ mask, habits.closes mask → mask = aeNone
  registers : ∀ mask, habits.registers mask → mask ≠ aeNone

theorem registered_invariant (htidy : habits.Tidy) :
    Invariant env habits (fun _ => Registered : List ℕ → World σ → Prop) where
  setApp := fun _ w _ hw => hw.congr w _ rfl rfl rfl rfl
  tick := fun _ w hw => hw.congr w _ rfl rfl rfl rfl
  openFd := fun _ w fd hw hfree => hw.attach w fd w.kernel.nextFile hfree
  dup := fun _ w fd new hw hfree => hw.dup w fd new hfree
  close := fun _ w fd hw hm => hw.close w fd (htidy.closes _ hm)
  setStop := fun _ w _ hw => hw.congr w _ rfl rfl rfl rfl
  setBeforeSleepProc := fun _ w _ hw => hw.congr w _ rfl rfl rfl rfl
  createFileEvent := fun _ w fd mask proc clientData hw hm =>
    hw.create env w fd mask proc clientData (htidy.registers mask hm)
  deleteFileEvent := fun _ w fd mask hw => hw.delete w fd mask
  createTimeEvent := fun _ w _ _ _ _ hw _ => hw.congr w _ rfl rfl rfl rfl
  unlink := by
    intro _ w id v p te hw h
    obtain ⟨head,timers,rfl⟩ := unlinkTimeEvent_eq w v id p te h
    exact hw.congr w _ rfl rfl rfl rfl
  release := by
    intro _ w p v hw h
    obtain ⟨timers,-,rfl⟩ := zfreeTimeEvent_eq w v p h
    exact hw.congr w _ rfl rfl rfl rfl
  reschedule := by
    intro _ w te milliseconds v hw _ h
    obtain ⟨timers,-,rfl⟩ := reschedule_eq env w v te milliseconds h
    exact hw.congr w _ rfl rfl rfl rfl

end keep

theorem registered_create (events : ℕ → AeFileEvent) (kernel : Kernel) (app : σ) :
    Registered (aeCreateEventLoop events kernel app) := by
  constructor
  · intro f fd
    exact (if_neg fun h => h.2 rfl).symm
  · exact fun fd h => absurd rfl h
  · exact fun fd h => absurd rfl h
  · exact Or.inl rfl

/-- In every world of a program that closes nothing registered, epoll watches exactly the registered
descriptors for exactly the registered events, all of them open, and `maxfd` is the greatest one
or -1. -/
theorem reachable_registered (env : Environment) (habits : Habits) (htidy : habits.Tidy)
    (prog : Program σ) (hb : Behaves env habits prog) (w : World σ)
    (h : Reachable env habits prog w) : Registered w :=
  h.invariant env habits prog (fun _ => Registered) (registered_invariant env habits htidy) hb
    registered_create w

/-- Any delays, and nothing that the loop forbids. -/
def tidy : Habits := ⟨fun _ => True,fun mask => mask = aeNone,fun mask => mask ≠ aeNone⟩

theorem tidy_tidy : tidy.Tidy := ⟨fun _ h => h,fun _ h => h⟩

theorem registers_readable : tidy.registers aeReadable :=
  show aeReadable ≠ aeNone by decide

/-- Descriptor 3, registered in a new loop. -/
def listening : World Unit :=
  (aeCreateFileEvent still (fresh [3]) 3 aeReadable 7 0).1

theorem reachable_listening (habits : Habits) (h : habits.registers aeReadable) :
    Reachable still habits idle listening := by
  have ha : Acts still habits (fresh [3]) listening := .createFileEvent _ 3 aeReadable 7 0 h
  exact ⟨_, _, _, .acts _ _ .refl ha⟩

theorem registered_listening : listening.eventLoop.maxfd = 3 ∧ Registered listening :=
  ⟨by decide, reachable_registered still tidy tidy_tidy idle (behaves_idle still _) listening
    (reachable_listening tidy registers_readable)⟩

/-- The descriptor is closed behind the back of the loop, and its number comes back for another open
file. -/
def reuse (w : World σ) (fd : ℕ) : World σ := { w with kernel := (w.kernel.close fd).openFd fd }

section reuse
variable (w : World σ) (fd : ℕ)

theorem reuse_files : (reuse w fd).kernel.files fd = some w.kernel.nextFile :=
  Kernel.attach_self fd (w.kernel.close fd) w.kernel.nextFile

/-- The kernel finds nothing for the descriptor. -/
theorem reuse_entry : (reuse w fd).kernel.entry fd = none := by
  have hold (j : ℕ) : (w.kernel.close fd).files j ≠ some w.kernel.nextFile := by
    intro hj
    exact absurd ((w.kernel.close fd).older j _ hj) (lt_irrefl _)
  rw [Kernel.entry, reuse_files, Option.bind_some]
  -- no entry is for a file that is open through no descriptor
  by_contra hi
  obtain ⟨j,hj⟩ := ((w.kernel.close fd).close fd).watched _ _ hi
  by_cases hjf : j = fd
  · rw [hjf, Kernel.close_self] at hj
    exact absurd hj (by simp)
  · rw [Kernel.close_of_ne fd _ j hjf] at hj
    exact hold j hj

variable (hw : Registered w)
include hw

/-- What epoll still watches for the descriptor: the file that it had, if that is open. -/
theorem Registered.reuse_interest (f j : ℕ) : (reuse w fd).kernel.interest f j =
    if j = fd ∧ ¬ w.kernel.Shared fd then none else w.kernel.interest f j := by
  have hnone : ¬ ((w.kernel.close fd).files fd = some f ∧ ¬ (w.kernel.close fd).Shared fd) := by
    rw [Kernel.close_self]
    simp
  refine (if_neg hnone).trans ?_
  show (if w.kernel.files fd = some f ∧ ¬ w.kernel.Shared fd then _ else _) = _
  by_cases hi : w.kernel.interest f j = none
  · rw [hi, ite_self, ite_self]
  obtain ⟨hj,-⟩ := hw.files w f j hi
  by_cases hjf : j = fd
  · rw [← hjf]
    by_cases hs : w.kernel.Shared j
    · rw [if_neg fun h => h.2 hs, if_neg fun h => h.2 hs]
    · rw [if_pos ⟨hj,hs⟩, if_pos ⟨rfl,hs⟩]
  · have hshared : ¬ (w.kernel.files fd = some f ∧ ¬ w.kernel.Shared fd) := by
      rintro ⟨hf,hs⟩
      refine hs ⟨j, ?_, hjf, hj.trans hf.symm⟩
      by_contra hb
      rw [w.kernel.closed j (not_lt.mp hb)] at hj
      exact absurd hj (by simp)
    rw [if_neg hshared, if_neg fun h => hjf h.1]

/-- A late `aeDeleteFileEvent` cleans the table, and the kernel says that it knows nothing. -/
theorem Registered.reuse_delete (hm : (w.events fd).mask ≠ aeNone) :
    Registered (aeDeleteFileEvent (reuse w fd) fd (w.events fd).mask) ↔
      ¬ w.kernel.Shared fd := by
  have hrest : restMask (reuse w fd) fd (w.events fd).mask = aeNone := UInt32.and_not_self
  have hm' : ((reuse w fd).events fd).mask ≠ aeNone := hm
  rw [aeDeleteFileEvent_eq (reuse w fd) fd _ (hw.usable fd hm).1 hm', if_pos (reuse_entry w fd)]
  constructor
  · intro hv hs
    obtain ⟨f,hf⟩ := Option.isSome_iff_exists.mp (hw.usable fd hm).2
    have hi : (reuse w fd).kernel.interest f fd ≠ none := by
      rw [hw.reuse_interest w fd, if_neg fun h => h.2 hs, hw.interest, if_pos ⟨hf,hm⟩]
      simp
    obtain ⟨-,hmask⟩ := hv.files _ f fd hi
    apply hmask
    exact (congrArg AeFileEvent.mask (setEvents_self (reuse w fd) fd _)).trans hrest
  · intro hs
    refine hw.shrink w _ fd (w.events fd).mask hm ?_ ?_ ?_ ?_ ?_ ?_
    · rfl
    · rfl
    · intro j hj
      refine (Kernel.attach_of_ne fd (w.kernel.close fd) _ j hj).trans ?_
      exact Kernel.close_of_ne fd w.kernel j hj
    · intro f j hj
      exact (hw.reuse_interest w fd f j).trans (if_neg fun h => hj h.1)
    · exact Kernel.isOpened fd _ _ (reuse_files w fd)
    · intro f
      refine (hw.reuse_interest w fd f fd).trans ?_
      exact (if_pos ⟨rfl,hs⟩).trans (if_neg fun h => h.2 hrest).symm

end reuse

/-- In every world of a program that closed nothing registered until now, the number of a closed
descriptor can be registered again for another file exactly if nothing was registered for it when it
was closed. Where something was, a late `aeDeleteFileEvent` puts things right exactly if the file was
not open through another descriptor: epoll goes on watching the file then, and knows no descriptor
to forget it by. -/
theorem reachable_reuse (env : Environment) (habits : Habits) (htidy : habits.Tidy)
    (prog : Program σ) (hb : Behaves env habits prog) (w : World σ)
    (h : Reachable env habits prog w) (fd : ℕ) (mask : UInt32) (proc clientData : ℕ)
    (hfd : fd < aeSetsize) (hadd : env.addFails w.adds = false) :
    ((aeCreateFileEvent env (reuse w fd) fd mask proc clientData).2 = aeOk ↔
      (w.events fd).mask = aeNone) ∧
    ((w.events fd).mask ≠ aeNone →
      (Registered (aeDeleteFileEvent (reuse w fd) fd (w.events fd).mask) ↔
        ¬ w.kernel.Shared fd)) := by
  have hw := reachable_registered env habits htidy prog hb w h
  have hopened : (reuse w fd).kernel.opened fd = true :=
    Kernel.isOpened fd _ _ (reuse_files w fd)
  constructor
  · rw [aeCreateFileEvent_succeeds, aeApiAddEvent_succeeds, reuse_entry]
    change fd < aeSetsize ∧ (if (w.events fd).mask = aeNone then _ else _) ↔ _
    by_cases hm : (w.events fd).mask = aeNone
    · rw [if_pos hm]
      exact iff_of_true ⟨hfd,hopened,rfl,hadd⟩ hm
    -- the table says that it is registered, and the kernel does not know it
    · rw [if_neg hm]
      exact iff_of_false (fun h => h.2 rfl) hm
  · exact hw.reuse_delete w fd

/-- And a second descriptor of the same file. -/
def duplicated : World Unit := { listening with kernel := listening.kernel.dup 3 4 }

theorem reachable_duplicated : Reachable still tidy idle duplicated := by
  obtain ⟨events,kernel,app,h⟩ := reachable_listening tidy registers_readable
  exact ⟨events, kernel, app, .acts _ _ h (.dup listening 3 4 rfl)⟩

theorem reuse_duplicated :
    (¬ listening.kernel.Shared 3 ∧
      Registered (aeDeleteFileEvent (reuse listening 3) 3 aeReadable)) ∧
    duplicated.kernel.Shared 3 ∧
      ¬ Registered (aeDeleteFileEvent (reuse duplicated 3) 3 aeReadable) := by
  have h1 := reachable_reuse still tidy tidy_tidy idle (behaves_idle still _) listening
    (reachable_listening tidy registers_readable) 3 aeReadable 7 0 (by decide) rfl
  have h2 := reachable_reuse still tidy tidy_tidy idle (behaves_idle still _) duplicated
    reachable_duplicated 3 aeReadable 7 0 (by decide) rfl
  have hs1 : ¬ listening.kernel.Shared 3 := by decide
  have hs2 : duplicated.kernel.Shared 3 := by decide
  refine ⟨⟨hs1, (h1.2 (by decide)).mpr hs1⟩, hs2, ?_⟩
  exact fun hr => (h2.2 (by decide)).mp hr hs2

end Cclab.Ae
