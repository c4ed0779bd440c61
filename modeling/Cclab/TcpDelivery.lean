import Cclab.TcpConnection
import Mathlib.Data.List.Induction

/-! Which schedules of calls and completions deliver the messages of a connection. -/
namespace Cclab.TcpServer
open ByteMemory OperationRuns

/-- The waiting messages lie in the buffer, all at its start: at most one is not empty. -/
def Sound (c : TcpConnection) (sent : List UInt8) : Prop :=
  ∃ waiting : List (List UInt8), c.started = waiting.map List.length ∧
    c.transmitted ++ waiting.flatten = sent ∧
    ∀ w ∈ waiting, load c.writeBuffer 0 w.length = w

theorem Sound.step (c : TcpConnection) (sent : List UInt8) (e : Event) (s : List ℕ)
    (h : Sound c sent) (hu : Undisturbed c.started e) (hs : outstanding c.started e = some s) :
    ∃ c', c.step e = some c' ∧ Sound c' (sent ++ e.message) := by
  obtain ⟨waiting,hstarted,hsent,hload⟩ := h
  cases e with
  | asyncWrite msg =>
    obtain ⟨hfit,hidle⟩ := hu
    refine ⟨_, if_pos hfit, waiting ++ [msg], ?_, ?_, ?_⟩
    · rw [hstarted, List.map_append, List.map_singleton]
    · simp only [Event.message, List.flatten_append, List.flatten_singleton, ← hsent,
        List.append_assoc]
    · intro w hw
      -- an empty message leaves the buffer, another one finds nothing waiting
      by_cases hmsg : msg = []
      · subst hmsg
        rw [store_nil]
        rcases List.mem_append.mp hw with hw | hw
        · exact hload w hw
        · rw [List.mem_singleton.mp hw]
          rfl
      · rcases List.mem_append.mp hw with hw | hw
        · have hsum := hidle hmsg
          rw [hstarted] at hsum
          have hlen := List.sum_eq_zero_iff_forall_eq_nat.mp hsum w.length (List.mem_map_of_mem hw)
          have hnil : w = [] := List.length_eq_zero_iff.mp hlen
          rw [hnil]
          rfl
        · rw [List.mem_singleton.mp hw]
          exact load_store_same _ _ _
  | writeSome k =>
    cases waiting with
    | nil => simp [Undisturbed, hstarted] at hu
    | cons w rest =>
      have hk : k = w.length := by
        simpa [Undisturbed, hstarted, eq_comm] using hu
      subst hk
      refine ⟨_, by
        simp only [TcpConnection.step, TcpConnection.writeSome, hstarted, List.map_cons]
        exact if_pos ⟨Nat.le_refl _, fun h => h⟩, rest, rfl, ?_, ?_⟩
      · simp only [Event.message, List.append_nil, ← hsent, List.flatten_cons,
          TcpConnection.onWrite, hload w List.mem_cons_self, List.append_assoc]
      · intro x hx
        exact hload x (List.mem_cons_of_mem w hx)

theorem Sound.run (es : List Event) (b : Mem) (hc : Completed es) (hu : UndisturbedRun es)
    (pre post : List Event) (he : es = pre ++ post) :
    ∃ c, pre.foldlM TcpConnection.step (.fresh b) = some c ∧ Sound c (messages pre) := by
  induction pre using List.reverseRecOn generalizing post with
  | nil => exact ⟨_, rfl, [], rfl, rfl, by simp⟩
  | append_singleton pre e ih =>
    rw [List.append_assoc, List.singleton_append] at he
    obtain ⟨c,hrun,hsound⟩ := ih (e :: post) he
    have hstarted := run_outstanding (.fresh b) c pre hrun
    unfold Completed at hc
    rw [he] at hc
    obtain ⟨s,hs,hrest⟩ := foldlM_append_eq_some outstanding [] [] pre (e :: post) hc
    obtain rfl := Option.some.inj (hstarted.symm.trans hs)
    obtain ⟨t,ht,-⟩ := foldlM_cons_eq_some outstanding _ [] e post hrest
    obtain ⟨c',hstep,hsound'⟩ := hsound.step c _ e t (hu pre e post _ he hstarted) ht
    refine ⟨c', ?_, ?_⟩
    · rw [List.foldlM_append, hrun]
      change [e].foldlM TcpConnection.step c = some c'
      rw [List.foldlM_cons, hstep]
      rfl
    · rwa [messages_append, show messages [e] = e.message from List.append_nil _]

theorem delivers_of_undisturbed (es : List Event) (hc : Completed es) (hu : UndisturbedRun es) :
    Delivers es := by
  intro b
  obtain ⟨c,hrun,waiting,hstarted,hsent,-⟩ := Sound.run es b hc hu es [] (List.append_nil es).symm
  have hend := run_outstanding (.fresh b) c es hrun
  have hnone : waiting = [] := by
    apply List.map_eq_nil_iff.mp
    rw [← hstarted]
    exact Option.some.inj (hend.symm.trans hc)
  refine ⟨c, hrun, ?_⟩
  rw [← hsent, hnone, List.flatten_nil, List.append_nil]

/-! Conversely, a schedule with a disturbed event fails for some messages: those before it
are filled with ones and those from it on with zeros. -/

def Event.fill (b : UInt8) : Event → Event
  | .asyncWrite msg => .asyncWrite (List.replicate msg.length b)
  | .writeSome k => .writeSome k

theorem fill_shape (b : UInt8) (es : List Event) :
    (es.map (Event.fill b)).map Event.shape = es.map Event.shape := by
  rw [List.map_map]
  apply List.map_congr_left
  intro e _
  cases e <;> simp [Event.fill, Event.shape]

theorem fill_outstanding (b : UInt8) (s : List ℕ) (es : List Event) :
    (es.map (Event.fill b)).foldlM outstanding s = es.foldlM outstanding s := by
  induction es generalizing s with
  | nil => rfl
  | cons e es ih =>
    have he : outstanding s (e.fill b) = outstanding s e := by
      cases e <;> simp [Event.fill, outstanding]
    simp only [List.map_cons, List.foldlM_cons, he, ih]

theorem fill_append_outstanding (pre post : List Event) (s : List ℕ) :
    (pre.map (Event.fill 1) ++ post.map (Event.fill 0)).foldlM outstanding s =
      (pre ++ post).foldlM outstanding s := by
  rw [List.foldlM_append, List.foldlM_append, fill_outstanding]
  congr 1
  funext t
  exact fill_outstanding 0 t post

theorem fill_messages (b : UInt8) (es : List Event) :
    messages (es.map (Event.fill b)) = List.replicate (messages es).length b := by
  induction es with
  | nil => rfl
  | cons e es ih =>
    rw [List.map_cons, messages_cons, messages_cons, ih, List.length_append,
      ← List.replicate_append_replicate]
    cases e <;> simp [Event.fill, Event.message]

/-- Once the buffer starts with `b` and every later message is filled with `b`, whatever is
sent next starts with `b`. -/
def Overwritten (b : UInt8) (c : TcpConnection) (sent : List UInt8) : Prop :=
  c.writeBuffer 0 = b ∧ ∃ more, c.transmitted = sent ++ more ∧
    (more.head? = some b ∨ more = [] ∧ 0 < c.started.sum)

theorem Overwritten.step (b : UInt8) (c c' : TcpConnection) (sent : List UInt8) (e : Event)
    (h : Overwritten b c sent) (hs : c.step (e.fill b) = some c') : Overwritten b c' sent := by
  obtain ⟨hbuf,more,htrans,hmore⟩ := h
  rcases step_cases c c' _ hs with ⟨msg,he,-,rfl⟩ | ⟨k,size,rest,he,hst,hle,hpos,rfl⟩
  · refine ⟨?_, more, htrans, hmore.imp id (fun hm => ⟨hm.1, ?_⟩)⟩
    · cases e with
      | asyncWrite m =>
        obtain rfl := Event.asyncWrite.inj he
        -- the first byte is written again, with the same value, or not at all
        by_cases hm : 0 < m.length
        · have hin := store_inside c.writeBuffer 0 (List.replicate m.length b) 0 (by simpa using hm)
          simpa using hin
        · have hout := store_outside c.writeBuffer 0 (List.replicate m.length b) 0 (by
            right
            rw [List.length_replicate]
            omega)
          exact hout.trans hbuf
      | writeSome k => exact absurd he (by simp [Event.fill])
    · rw [List.sum_append]
      omega
  · refine ⟨hbuf, more ++ load c.writeBuffer 0 k, by rw [htrans, List.append_assoc], ?_⟩
    rcases hmore with hm | ⟨rfl,hsum⟩
    · left
      rw [List.head?_append, hm]
      rfl
    · by_cases hk : k = 0
      · right
        rw [hst, hpos hk] at hsum
        rw [hk]
        exact ⟨rfl, by simpa using hsum⟩
      · left
        obtain ⟨n,rfl⟩ := Nat.exists_eq_succ_of_ne_zero hk
        simp [load, List.range_succ_eq_map, hbuf]

theorem Overwritten.run (b : UInt8) (c c' : TcpConnection) (sent : List UInt8) (es : List Event)
    (h : Overwritten b c sent) (hs : (es.map (Event.fill b)).foldlM TcpConnection.step c = some c') :
    Overwritten b c' sent := by
  induction es generalizing c with
  | nil =>
    obtain rfl := Option.some.inj hs
    exact h
  | cons e es ih =>
    obtain ⟨c1,h1,h2⟩ := foldlM_cons_eq_some _ c c' (e.fill b) _ hs
    exact ih c1 (h.step b c c1 sent e h1) h2

/-- A write that starts while another has bytes left must be empty. -/
theorem idle_of_delivers (pre post : List Event) (msg : List UInt8) (s : List ℕ)
    (hc : Completed (pre ++ .asyncWrite msg :: post)) (hs : pre.foldlM outstanding [] = some s)
    (hmsg : msg ≠ [])
    (hd : Delivers (pre.map (Event.fill 1) ++ (.asyncWrite msg :: post).map (Event.fill 0))) :
    s.sum = 0 := by
  by_contra hsum
  obtain ⟨c',hrun,htrans⟩ := hd fun _ => 0
  obtain ⟨c,hpre,hpost⟩ := foldlM_append_eq_some _ _ c' _ _ hrun
  obtain ⟨c1,hcall,hrest⟩ := foldlM_cons_eq_some _ c c' _ _ hpost
  have hstarted := run_outstanding _ c _ hpre
  rw [fill_outstanding] at hstarted
  obtain rfl := Option.some.inj (hs.symm.trans hstarted)
  have hlen := run_length _ c _ hpre
  rw [fill_messages, List.length_replicate] at hlen
  -- the call overwrites the first byte of the buffer
  have hover : Overwritten 0 c1 c.transmitted := by
    rcases step_cases c c1 _ hcall with ⟨m,he,-,rfl⟩ | ⟨k,_,_,he,-⟩
    · obtain rfl := Event.asyncWrite.inj he
      have hpos : 0 < msg.length := List.length_pos_iff.mpr hmsg
      refine ⟨?_, [], (List.append_nil _).symm, Or.inr ⟨rfl,?_⟩⟩
      · have hin := store_inside c.writeBuffer 0 (List.replicate msg.length 0) 0 (by simpa using hpos)
        simpa using hin
      · rw [List.sum_append]
        omega
    · exact absurd he (by simp [Event.fill])
  obtain ⟨-,more,hmore,hhead⟩ := hover.run 0 c1 c' c.transmitted post hrest
  have hend : c'.started = [] := by
    have hout := run_outstanding _ c' _ hrun
    rw [fill_append_outstanding] at hout
    exact Option.some.inj (hout.symm.trans hc)
  rw [hend] at hhead
  have hzero : more[0]? = some 0 := by
    rcases hhead with hh | ⟨-,hh⟩
    · rwa [← List.head?_eq_getElem?]
    · exact absurd hh (by simp)
  -- what went out at this place is the new byte, what should have is the old one
  have hsent : c'.transmitted[c.transmitted.length]? = some 0 := by
    rw [hmore, List.getElem?_append_right (Nat.le_refl _), Nat.sub_self, hzero]
  have hgiven : c'.transmitted[c.transmitted.length]? = some 1 := by
    have hlt : c.transmitted.length < (messages pre).length := by
      simp only [TcpConnection.fresh, List.length_nil, List.sum_nil] at hlen
      omega
    rw [htrans, messages_append, fill_messages, List.getElem?_append_left (by simpa using hlt),
      List.getElem?_replicate_of_lt hlt]
  exact absurd (hsent.symm.trans hgiven) (by decide)

/-- An operation that sends less than its message leaves bytes that nobody sends. -/
theorem full_of_delivers (pre post : List Event) (k : ℕ) (s : List ℕ)
    (hs : pre.foldlM outstanding [] = some s) (hd : Delivers (pre ++ .writeSome k :: post)) :
    s.head? = some k := by
  obtain ⟨c',hrun,htrans⟩ := hd fun _ => 0
  obtain ⟨c,hpre,hpost⟩ := foldlM_append_eq_some _ _ c' _ _ hrun
  obtain ⟨c1,hstep,hrest⟩ := foldlM_cons_eq_some _ c c' _ _ hpost
  obtain rfl := Option.some.inj (hs.symm.trans (run_outstanding _ c _ hpre))
  rcases step_cases c c1 _ hstep with ⟨m,he,-⟩ | ⟨k',size,rest,he,hst,hle,-,rfl⟩
  · exact absurd he (by simp)
  · obtain rfl := Event.writeSome.inj he
    have h1 := run_length _ c _ hpre
    have h2 := run_length _ c' _ hrest
    have hall := congrArg List.length htrans
    rw [messages_append, messages_cons, List.length_append, List.length_append] at hall
    rw [hst] at h1
    simp only [TcpConnection.fresh, Event.message, List.length_nil, List.sum_nil, List.sum_cons,
      List.length_append, load_length] at h1 h2 hall
    rw [hst, List.head?_cons, show size = k by omega]

theorem fits_of_delivers (pre post : List Event) (msg : List UInt8)
    (hd : Delivers (pre ++ .asyncWrite msg :: post)) : msg.length ≤ maxMsg := by
  obtain ⟨c',hrun,-⟩ := hd fun _ => 0
  obtain ⟨c,-,hpost⟩ := foldlM_append_eq_some _ _ c' _ _ hrun
  obtain ⟨c1,hstep,-⟩ := foldlM_cons_eq_some _ c c' _ _ hpost
  rcases step_cases c c1 _ hstep with ⟨m,he,hfit,-⟩ | ⟨k,_,_,he,-⟩
  · obtain rfl := Event.asyncWrite.inj he
    exact hfit
  · exact absurd he (by simp)

theorem shape_outstanding (s : List ℕ) (e e' : Event) (h : e'.shape = e.shape) :
    outstanding s e' = outstanding s e := by
  cases e <;> cases e' <;> simp_all [Event.shape, outstanding]

theorem shape_undisturbed (s : List ℕ) (e e' : Event) (h : e'.shape = e.shape)
    (hu : Undisturbed s e) : Undisturbed s e' := by
  cases e with
  | asyncWrite msg =>
    cases e' with
    | asyncWrite msg' =>
      have hlen : msg'.length = msg.length := Sum.inl.inj h
      refine ⟨by rw [hlen]; exact hu.1, fun hne => hu.2 ?_⟩
      rintro rfl
      exact hne (List.length_eq_zero_iff.mp hlen)
    | writeSome k => exact absurd h (by simp [Event.shape])
  | writeSome k =>
    cases e' with
    | asyncWrite msg => exact absurd h (by simp [Event.shape])
    | writeSome k' =>
      obtain rfl : k' = k := Sum.inr.inj h
      exact hu

theorem shape_run_outstanding (s : List ℕ) (es es' : List Event)
    (h : es'.map Event.shape = es.map Event.shape) :
    es'.foldlM outstanding s = es.foldlM outstanding s := by
  induction es generalizing es' s with
  | nil =>
    obtain rfl := List.map_eq_nil_iff.mp h
    rfl
  | cons e es ih =>
    obtain ⟨e',es',rfl,he,hes⟩ := List.map_eq_cons_iff.mp h
    rw [List.foldlM_cons, List.foldlM_cons, shape_outstanding s e e' he]
    congr 1
    funext t
    exact ih t es' hes

theorem shape_undisturbedRun (es es' : List Event)
    (h : es'.map Event.shape = es.map Event.shape) (hu : UndisturbedRun es) :
    UndisturbedRun es' := by
  rintro pre' e' post' s rfl hs
  rw [List.map_append, List.map_cons] at h
  obtain ⟨pre,rest,rfl,hpre,hrest⟩ := List.map_eq_append_iff.mp h.symm
  obtain ⟨e,post,rfl,he,-⟩ := List.map_eq_cons_iff.mp hrest
  apply shape_undisturbed s e e' he.symm
  apply hu pre e post s rfl
  rw [← hs, shape_run_outstanding [] pre pre' hpre.symm]

/-- A schedule of calls and completions delivers all messages that it can be given exactly
when every message fits the buffer, every operation sends all of its message, and no call
with bytes to send is made while bytes of an earlier one are unsent. -/
theorem tcp_delivers_iff (es : List Event) (hc : Completed es) :
    (∀ es', es'.map Event.shape = es.map Event.shape → Delivers es') ↔ UndisturbedRun es := by
  constructor
  · rintro hd pre e post s rfl hs
    cases e with
    | asyncWrite msg =>
      refine ⟨fits_of_delivers pre post msg (hd _ rfl), ?_⟩
      intro hmsg
      apply idle_of_delivers pre post msg s hc hs hmsg
      apply hd
      rw [List.map_append, List.map_append, fill_shape, fill_shape]
    | writeSome k => exact full_of_delivers pre post k s hs (hd _ rfl)
  · intro hu es' hes
    apply delivers_of_undisturbed es'
    · exact (shape_run_outstanding [] es es' hes).trans hc
    · exact shape_undisturbedRun es es' hes hu

theorem tcp_delivers_iff_single :
    (∀ es', es'.map Event.shape = [.inl 2,.inr 2] → Delivers es') ↔
      UndisturbedRun [.asyncWrite [1,2], .writeSome 2] :=
  tcp_delivers_iff [.asyncWrite [1,2], .writeSome 2] rfl

/-- Two calls before the first completion: the second message is sent twice. -/
theorem pipelined_writes_lose_bytes : ¬ ∀ es, Completed es → Delivers es := by
  intro h
  obtain ⟨c,hrun,htrans⟩ := h
    [.asyncWrite [1], .asyncWrite [2], .writeSome 1, .writeSome 1] rfl fun _ => 0
  obtain rfl := Option.some.inj hrun
  exact absurd htrans (by decide)

end Cclab.TcpServer
