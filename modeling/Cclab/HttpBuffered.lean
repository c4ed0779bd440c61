import Cclab.HttpInput
import Cclab.TcpConnection

/-! What `input_buffer_` keeps of the messages that the parser did not parse to their end, and
when `Parse` finds no room for the next one. -/
namespace Cclab.HttpServer
open ByteMemory Iobuf OperationRuns

/-- The unparsed ends of all messages, in the order of their arrival. -/
def unconsumed (calls : List (Bytes × ℕ)) : Bytes := calls.flatMap fun c => c.1.drop c.2

theorem unconsumed_snoc (pre : List (Bytes × ℕ)) (c : Bytes × ℕ) :
    unconsumed (pre ++ [c]) = unconsumed pre ++ c.1.drop c.2 := by
  rw [unconsumed, List.flatMap_append, List.flatMap_singleton]
  rfl

/-- Trimming the front is trimming what was added exactly if the front reads on the same. -/
theorem trimmed_eq_iff (w msg : Bytes) (n : ℕ) (hn : n ≤ msg.length) :
    (w ++ msg).drop n = w ++ msg.drop n ↔ w <:+ w ++ msg.take n := by
  have hlen : (msg.take n).length = n := by rw [List.length_take, Nat.min_eq_left hn]
  have hsplit : (w ++ msg).drop n = (w ++ msg.take n).drop n ++ msg.drop n := by
    calc (w ++ msg).drop n = ((w ++ msg.take n) ++ msg.drop n).drop n := by
          rw [List.append_assoc, List.take_append_drop]
      _ = (w ++ msg.take n).drop n ++ msg.drop n := by
          rw [List.drop_append_of_le_length]
          rw [List.length_append]
          omega
  have hover : (w ++ msg.take n).length-w.length = n := by
    rw [List.length_append]
    omega
  rw [hsplit, List.append_left_inj, List.suffix_iff_eq_drop, hover]
  exact eq_comm

/-- What waits, and the room behind it, if no call returns early. -/
def afterCalls (calls : List (Bytes × ℕ)) : Bytes × ℕ := (specRun inputSpec ([],blockRoom) calls).1

theorem afterCalls_snoc (pre : List (Bytes × ℕ)) (c : Bytes × ℕ) :
    afterCalls (pre ++ [c]) = (inputSpec (afterCalls pre) c).1 := by
  rw [afterCalls, specRun_append]
  rfl

theorem handed_cons_mem (pre post : List (Bytes × ℕ)) (c : Bytes × ℕ) :
    (inputSpec (afterCalls pre) c).2 ∈ (specRun inputSpec ([],blockRoom) (pre ++ c :: post)).2 := by
  rw [specRun_append]
  exact List.mem_append_right _ List.mem_cons_self

theorem room_of_handed (calls : List (Bytes × ℕ))
    (h : none ∉ (specRun inputSpec ([],blockRoom) calls).2) (pre post : List (Bytes × ℕ))
    (c : Bytes × ℕ) (hc : calls = pre ++ c :: post) : ¬ (afterCalls pre).2 < c.1.length := by
  intro hshort
  have hnone : (inputSpec (afterCalls pre) c).2 = none := by rw [inputSpec, if_pos hshort]
  have hmem := handed_cons_mem pre post c
  rw [hnone, ← hc] at hmem
  exact h hmem

theorem waiting_snoc (pre : List (Bytes × ℕ)) (c : Bytes × ℕ)
    (h : ¬ (afterCalls pre).2 < c.1.length) :
    (afterCalls (pre ++ [c])).1 = ((afterCalls pre).1 ++ c.1).drop c.2 := by
  rw [afterCalls_snoc, inputSpec, if_neg h]

/-- The string that the calls leave in `input_buffer_`. -/
def bufferAfter (mem : ℕ → Mem) (calls : List (Bytes × ℕ)) : Option Bytes :=
  (run inputStep (startInput mem) calls).bind fun r => toString r.1.1.fuel r.1.1 r.1.2

theorem bufferAfter_eq (mem : ℕ → Mem) (calls : List (Bytes × ℕ))
    (hn : ∀ c ∈ calls, c.2 ≤ c.1.length) : bufferAfter mem calls = some (afterCalls calls).1 := by
  rcases input_run mem calls hn with ⟨s,hrun,hw⟩
  rw [bufferAfter, hrun, Option.bind_some]
  exact hw.toString

/-- After every call `input_buffer_` shows the unparsed ends of all messages exactly if, at every
call, the bytes that wait are also the last ones of the bytes that wait followed by those that
the parser takes. -/
theorem unconsumed_kept_iff (mem : ℕ → Mem) (calls : List (Bytes × ℕ))
    (hn : ∀ c ∈ calls, c.2 ≤ c.1.length)
    (hroom : ∀ s handed, run inputStep (startInput mem) calls = some (s,handed) → none ∉ handed) :
    (∀ pre post, calls = pre ++ post → bufferAfter mem pre = some (unconsumed pre)) ↔
      ∀ pre c post, calls = pre ++ c :: post → unconsumed pre <:+ unconsumed pre ++ c.1.take c.2 := by
  rcases input_run mem calls hn with ⟨s,hrun,-⟩
  have hhanded := hroom _ _ hrun
  have hbuffer (pre post : List (Bytes × ℕ)) (hc : calls = pre ++ post) :
      bufferAfter mem pre = some (afterCalls pre).1 :=
    bufferAfter_eq mem pre (fun c hm => hn c (hc ▸ List.mem_append_left post hm))
  have hstep (pre post : List (Bytes × ℕ)) (c : Bytes × ℕ) (hc : calls = pre ++ c :: post) :
      (afterCalls (pre ++ [c])).1 = ((afterCalls pre).1 ++ c.1).drop c.2 :=
    waiting_snoc pre c (room_of_handed calls hhanded pre post c hc)
  have hcall (pre post : List (Bytes × ℕ)) (c : Bytes × ℕ) (hc : calls = pre ++ c :: post) :
      (unconsumed pre ++ c.1).drop c.2 = unconsumed (pre ++ [c]) ↔
        unconsumed pre <:+ unconsumed pre ++ c.1.take c.2 := by
    rw [unconsumed_snoc]
    exact trimmed_eq_iff _ _ _ (hn c (by rw [hc]; simp))
  constructor
  · intro h pre c post hc
    have hbefore := (hbuffer pre _ hc).symm.trans (h pre _ hc)
    have hsnoc : calls = (pre ++ [c]) ++ post := by rw [hc, List.append_assoc, List.singleton_append]
    have hafter := (hbuffer _ _ hsnoc).symm.trans (h _ _ hsnoc)
    apply (hcall pre post c hc).mp
    rw [← Option.some.inj hafter, hstep pre post c hc, Option.some.inj hbefore]
  · intro h pre
    -- over the calls so far, the last one behind the others
    induction pre using List.reverseRecOn with
    | nil => exact fun post hc => hbuffer [] post hc
    | append_singleton pre c ih =>
      intro post hc
      have hc' : calls = pre ++ c :: post := by rw [hc, List.append_assoc, List.singleton_append]
      have hbefore := Option.some.inj ((hbuffer pre _ hc').symm.trans (ih _ hc'))
      rw [hbuffer _ post hc, hstep pre post c hc', hbefore, (hcall pre post c hc').mpr (h pre c post hc')]

/-- "a" arrives and is not parsed, then "ab" of which the "a" is parsed. -/
theorem unconsumed_kept_iff_repeated : bufferAfter (fun _ _ => 0) [([97],0),([97,98],1)] =
    some (unconsumed [([97],0),([97,98],1)]) := by
  refine (unconsumed_kept_iff (fun _ _ => 0) [([97],0),([97,98],1)] (by decide) ?_).mpr ?_ _ []
    (List.append_nil _).symm
  · intro s handed h
    obtain ⟨-,rfl⟩ := Prod.mk.inj (Option.some.inj h)
    decide
  · intro pre c post hc
    rcases pre with _ | ⟨c1,_ | ⟨c2,pre⟩⟩
    · exact List.nil_suffix
    · obtain ⟨hfirst,hrest⟩ := List.cons.inj hc
      obtain ⟨hsecond,-⟩ := List.cons.inj hrest
      rw [← hfirst, ← hsecond]
      decide
    · have hlen := congrArg List.length hc
      simp only [List.length_cons, List.length_nil, List.length_append] at hlen
      omega

/-- "a" arrives and is not parsed, then "b" which is: the buffer keeps the "b". -/
theorem parsed_byte_kept : (∃ s, run inputStep (startInput fun _ _ => 0) [([97],0),([98],1)] =
      some (s,[some [97],some [98]])) ∧
    bufferAfter (fun _ _ => 0) [([97],0),([98],1)] = some [98] ∧
    unconsumed [([97],0),([98],1)] = [97] := by
  refine ⟨⟨_,rfl⟩, by decide, by decide⟩

/-- How many bytes wait after a call, and the room behind them. The room shrinks by every message
that is copied, whatever is parsed, until nothing waits or it is used up. -/
def fillStep (a : ℕ × ℕ) (c : Bytes × ℕ) : ℕ × ℕ :=
  (a.1+c.1.length-c.2,
    if (a.1+c.1.length ≤ c.2 ∧ 0 < c.2) ∨ a.2 = c.1.length then blockRoom else a.2-c.1.length)

theorem fillStep_eq (a : Bytes × ℕ) (c : Bytes × ℕ) (h : ¬ a.2 < c.1.length) :
    ((inputSpec a c).1.1.length,(inputSpec a c).1.2) = fillStep (a.1.length,a.2) c := by
  rw [inputSpec, if_neg h]
  simp only [fillStep, List.length_drop, List.length_append, List.drop_eq_nil_iff]

theorem handed_iff (a : Bytes × ℕ) (calls : List (Bytes × ℕ)) :
    (specRun inputSpec a calls).2 = calls.map (fun c => some c.1) ↔
      ∀ pre c post, calls = pre ++ c :: post →
        c.1.length ≤ (pre.foldl fillStep (a.1.length,a.2)).2 := by
  induction calls generalizing a with
  | nil =>
    refine ⟨fun _ pre c post he => ?_, fun _ => rfl⟩
    exact absurd he (by simp)
  | cons c calls ih =>
    rw [forall_split_cons (fun pre c => c.1.length ≤ (pre.foldl fillStep (a.1.length,a.2)).2)]
    simp only [specRun, List.map_cons, List.cons.injEq, List.foldl_nil, List.foldl_cons]
    by_cases hshort : a.2 < c.1.length
    · constructor
      · rintro ⟨hhead,-⟩
        rw [inputSpec, if_pos hshort] at hhead
        exact absurd hhead (by simp)
      · rintro ⟨hroom,-⟩
        omega
    · have hhead : (inputSpec a c).2 = some c.1 := by rw [inputSpec, if_neg hshort]
      rw [ih, ← fillStep_eq a c hshort]
      simp only [hhead, true_and, Nat.le_of_not_lt hshort]

/-- Every message is handed to the parser exactly if every message fits into the room that is left
behind those before it. -/
theorem no_message_dropped_iff (mem : ℕ → Mem) (calls : List (Bytes × ℕ))
    (hn : ∀ c ∈ calls, c.2 ≤ c.1.length) : ∃ s handed,
      run inputStep (startInput mem) calls = some (s,handed) ∧
      (handed = calls.map (fun c => some c.1) ↔ ∀ pre c post, calls = pre ++ c :: post →
        c.1.length ≤ (pre.foldl fillStep (0,blockRoom)).2) := by
  rcases input_run mem calls hn with ⟨s,hrun,-⟩
  exact ⟨s, _, hrun, handed_iff ([],blockRoom) calls⟩

/-- One byte of which nothing is parsed. -/
theorem no_message_dropped_iff_byte : ∃ s,
    run inputStep (startInput fun _ _ => 0) [([97],0)] = some (s,[some [97]]) := by
  rcases no_message_dropped_iff (fun _ _ => 0) [([97],0)] (by decide) with ⟨s,handed,hrun,hiff⟩
  have hfits : ∀ pre c post, [(([97] : Bytes),0)] = pre ++ c :: post →
      c.1.length ≤ (pre.foldl fillStep (0,blockRoom)).2 := by
    rw [forall_split_cons (fun pre c => c.1.length ≤ (pre.foldl fillStep (0,blockRoom)).2)]
    refine ⟨by decide, fun pre c post he => ?_⟩
    exact absurd he (by simp)
  rw [hiff.mpr hfits] at hrun
  exact ⟨s, hrun⟩

/-- Reads of `m` bytes while one byte waits: each takes its room and none gives room back. -/
theorem specRun_reads (m k r : ℕ) (hr : m*k < r) :
    specRun inputSpec ([0],r) (List.replicate k (List.replicate m 0,m)) =
      (([0],r-m*k),List.replicate k (some (List.replicate m 0))) := by
  induction k generalizing r with
  | zero => rfl
  | succ k ih =>
    rw [Nat.mul_succ] at hr
    have hlen : (List.replicate m (0:UInt8)).length = m := List.length_replicate
    have hwaits : ([0] ++ List.replicate m (0:UInt8)).drop m = [0] := by
      have hcons : [0] ++ List.replicate m (0:UInt8) = List.replicate (m+1) 0 := rfl
      rw [hcons, List.drop_replicate, Nat.add_sub_cancel_left]
      rfl
    have hstep : inputSpec ([0],r) (List.replicate m 0,m) =
        (([0],r-m),some (List.replicate m 0)) := by
      rw [inputSpec, if_neg (by simp only [hlen]; omega)]
      simp only [hwaits, hlen]
      rw [if_neg]
      rintro (⟨hnil,-⟩ | he)
      · exact absurd hnil (List.cons_ne_nil _ _)
      · omega
    rw [List.replicate_succ, specRun, hstep, ih (r-m) (by omega), List.replicate_succ,
      Nat.mul_succ, Nat.sub_sub, Nat.add_comm m]

/-- One byte of the first read is left unparsed, and the reads that follow use up its block. -/
theorem reads_dropped (mem : ℕ → Mem) (m k : ℕ) (hm : 0 < m) (hfits : m*(k+1) < blockRoom)
    (hfull : blockRoom < m*(k+2)) : ∃ s,
      run inputStep (startInput mem) ((List.replicate m 0,m-1) ::
        (List.replicate k (List.replicate m 0,m) ++ [(List.replicate m 0,m)])) =
      some (s,List.replicate (k+1) (some (List.replicate m 0)) ++ [none]) := by
  have hlen : (List.replicate m (0:UInt8)).length = m := List.length_replicate
  have hfirst : inputSpec ([],blockRoom) (List.replicate m 0,m-1) =
      (([0],blockRoom-m),some (List.replicate m 0)) := by
    have hwaits : ([] ++ List.replicate m (0:UInt8)).drop (m-1) = [0] := by
      have hone : m-(m-1) = 1 := by omega
      rw [List.nil_append, List.drop_replicate, hone]
      rfl
    rw [Nat.mul_succ] at hfits
    rw [inputSpec, if_neg (by simp only [hlen]; omega)]
    simp only [hwaits, hlen]
    rw [if_neg]
    rintro (⟨hnil,-⟩ | he)
    · exact absurd hnil (List.cons_ne_nil _ _)
    · omega
  have hlast : inputSpec ([0],blockRoom-m-m*k) (List.replicate m 0,m) =
      (([0],blockRoom-m-m*k),none) := by
    rw [Nat.mul_add] at hfull
    rw [inputSpec, if_pos]
    simp only [hlen]
    omega
  have hspec : (specRun inputSpec ([],blockRoom) ((List.replicate m 0,m-1) ::
      (List.replicate k (List.replicate m 0,m) ++ [(List.replicate m 0,m)]))).2 =
      List.replicate (k+1) (some (List.replicate m 0)) ++ [none] := by
    rw [Nat.mul_succ] at hfits
    rw [specRun, hfirst, specRun_append, specRun_reads m k (blockRoom-m) (by omega)]
    simp only [specRun, hlast, List.replicate_succ, List.cons_append]
  have hn : ∀ c ∈ (List.replicate m (0:UInt8),m-1) ::
      (List.replicate k (List.replicate m 0,m) ++ [(List.replicate m 0,m)]), c.2 ≤ c.1.length := by
    intro c hc
    simp only [List.mem_cons, List.mem_append, List.mem_replicate, List.not_mem_nil, or_false] at hc
    rcases hc with rfl | ⟨-,rfl⟩ | rfl
    all_goals
      simp only [hlen]
      omega
  rcases input_run mem _ hn with ⟨s,hrun,-⟩
  rw [hspec] at hrun
  exact ⟨s, hrun⟩

/-- A full read of which `n` bytes are parsed. -/
def fullRead (n : ℕ) : Bytes × ℕ := (List.replicate TcpServer.maxMsg 0,n)

/-- A full read of which all but one byte is parsed, and 127 more that are parsed to their end:
the last of them is not handed to the parser. -/
theorem full_read_dropped : ∃ s, run inputStep (startInput fun _ _ => 0)
      (fullRead 4095 :: (List.replicate 126 (fullRead 4096) ++ [fullRead 4096])) =
    some (s,List.replicate 127 (some (fullRead 4096).1) ++ [none]) := by
  have hread (m : ℕ) (hm : m = TcpServer.maxMsg) : ∃ s, run inputStep (startInput fun _ _ => 0)
      ((List.replicate m 0,m-1) ::
        (List.replicate 126 (List.replicate m 0,m) ++ [(List.replicate m 0,m)])) =
      some (s,List.replicate (126+1) (some (List.replicate m 0)) ++ [none]) := by
    have hmax : m = 4096 := hm
    have hroom : blockRoom = 524284 := rfl
    exact reads_dropped _ m 126 (by omega) (by omega) (by omega)
  exact hread TcpServer.maxMsg rfl

end Cclab.HttpServer
