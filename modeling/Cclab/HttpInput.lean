import Cclab.HttpContext
import Cclab.IobufSystem

/-! `HttpContext::Parse` and its `input_buffer_`. The parser is a parameter: it is given the
memory, the place of the message in it and its length, and reports how many bytes it parsed. -/
namespace Cclab.HttpServer
open ByteMemory Iobuf NodeHeap OperationRuns

/-- `HttpContext::Parse`, with what the parser made of the message unless `Parse` returned
early. -/
def parse {R : Type} (execute : Mem → ℕ → ℕ → R × ℕ) (st : Store) (buf : IOBuf) (msg : Bytes) :
    Option (Store × IOBuf × Option R) := do
  let (st,buf,place,len) ← preAllocate st buf
  if len < msg.length then return (st,buf,none)
  else
    let st ← copyTo st place msg
    let (st,buf) ← postAllocate st buf msg.length
    let r := execute (st.mem place.1) place.2 msg.length
    let (st,buf) ← trimStart st.fuel st buf r.2
    return (st,buf,some r.1)

/-- The room in a new block. -/
def blockRoom : ℕ := kDefaultBufferSize-sizeofSharedInfo

/-- The size that `PreAllocate` returns. -/
def roomOf (st : Store) (buf : IOBuf) : ℕ :=
  match rearBlock st buf with
  | none => blockRoom
  | some b => if b.space > 0 then b.space else blockRoom

theorem preAllocate_room (st st' : Store) (buf buf' : IOBuf) (place : ℕ × ℕ) (len : ℕ)
    (h : preAllocate st buf = some (st',buf',place,len)) : len = roomOf st buf := by
  have hnew : dataOf (newBlock st).1.heap (newBlock st).2 = some ⟨st.nextBuffer,0,0,blockRoom⟩ := by
    simp [newBlock, dataOf, alloc, blockRoom]
  unfold preAllocate at h
  unfold roomOf rearBlock
  -- the source asks for a new block when there is none or the last one is full
  by_cases hnull : buf.head = nullptr
  · rw [if_pos hnull] at h ⊢
    simp only [hnew, Option.bind_eq_bind, Option.bind_some, Option.pure_def, Option.some.injEq,
      Prod.mk.injEq] at h
    exact h.2.2.2.symm
  · rw [if_neg hnull] at h ⊢
    obtain ⟨hd,hhd,h⟩ := Option.bind_eq_some_iff.mp h
    obtain ⟨b,hb,h⟩ := Option.bind_eq_some_iff.mp h
    rw [hhd, Option.bind_some, hb]
    by_cases hspace : b.space > 0
    · rw [if_pos hspace] at h
      simp only [Option.some.injEq, Prod.mk.injEq] at h
      rw [← h.2.2.2]
      exact (if_pos hspace).symm
    · rw [if_neg hspace] at h
      simp only [hnew, Option.bind_eq_bind, Option.bind_some] at h
      obtain ⟨q,-,h⟩ := Option.bind_eq_some_iff.mp h
      simp only [Option.pure_def, Option.some.injEq, Prod.mk.injEq] at h
      rw [← h.2.2.2]
      exact (if_neg hspace).symm

theorem roomOf_nil (st : Store) (buf : IOBuf) (h : buf.head = nullptr) : roomOf st buf = blockRoom := by
  rw [roomOf, rearBlock, if_pos h]

theorem roomOf_rear (st : Store) (buf : IOBuf) (m : List ℕ) (r : ℕ) (rest : List ℕ)
    (hs : Sound st (m ++ [r] ++ rest)) (hb : Holds st buf (m ++ [r])) (b : Block)
    (hd : dataOf st.heap r = some b) :
    roomOf st buf = if b.tail < blockRoom then blockRoom-b.tail else blockRoom := by
  have hmem (p : ℕ) (hp : p ∈ m ++ [r]) : p ∈ m ++ [r] ++ rest := List.mem_append_left rest hp
  have hv := hs.valid st _ r b (by simp) hd
  have hcap : b.capacity = blockRoom := hv.capacity
  have hspace : b.space = blockRoom-b.tail := by rw [space_eq b _ hv, hcap]
  rw [roomOf, rearBlock_spec st buf m r _ hs hmem hb b hd]
  change (if b.space > 0 then b.space else blockRoom) = _
  rw [hspace]
  by_cases ht : b.tail < blockRoom
  · rw [if_pos ht, if_pos (Nat.sub_pos_of_lt ht)]
  · rw [if_neg ht, if_neg (by omega)]

/-- After `n` bytes were written to the room of a last block. -/
theorem roomOf_filled (st : Store) (buf : IOBuf) (m : List ℕ) (r : ℕ) (rest : List ℕ)
    (hs : Sound st (m ++ [r] ++ rest)) (hb : Holds st buf (m ++ [r])) (b : Block)
    (hd : dataOf st.heap r = some b) (room n : ℕ) (hn : n ≤ room)
    (htail : b.tail+(room-n) = blockRoom) :
    roomOf st buf = if room = n then blockRoom else room-n := by
  rw [roomOf_rear st buf m r rest hs hb b hd]
  split_ifs <;> omega

/-- One call that finds room. The parser sees the message, and what it reports as parsed is
trimmed from the front of all that waits. -/
theorem parse_spec {R : Type} (execute : Mem → ℕ → ℕ → R × ℕ) (st : Store) (buf : IOBuf)
    (l rest : List ℕ) (msg : Bytes) (hs : Sound st (l ++ rest)) (hb : Holds st buf l)
    (hroom : msg.length ≤ roomOf st buf)
    (hn : ∀ mem data, (execute mem data msg.length).2 ≤ msg.length) :
    ∃ mem data st' buf' l', load mem data msg.length = msg ∧
      parse execute st buf msg = some (st',buf',some (execute mem data msg.length).1) ∧
      Sound st' (l' ++ rest) ∧ Holds st' buf' l' ∧ (∀ p ∈ rest, st'.heap p = st.heap p) ∧
      text st' l' = (text st l ++ msg).drop (execute mem data msg.length).2 ∧
      roomOf st' buf' = if (text st' l' = [] ∧ 0 < (execute mem data msg.length).2) ∨
          roomOf st buf = msg.length then blockRoom
        else roomOf st buf-msg.length := by
  rcases preAllocate_spec st buf l rest hs hb with ⟨st1,buf1,m,q,b,hpre,hres⟩
  have hlen := preAllocate_room st st1 buf buf1 _ _ hpre
  rcases postAllocate_spec st1 buf1 m rest q b msg hres.sound hres.holds hres.rear (by omega) with
    ⟨st2,st3,buf3,hcopy,hpost,hs3,hb3,hkeep3,hmem3,hself3,htext3⟩
  have hq : q ∉ rest := by
    intro hm
    exact (List.nodup_append'.mp hres.sound.nodup).2.2 (by simp) hm
  have hload : load (st3.mem b.buffer) b.tail msg.length = msg := by
    rw [hmem3, Function.update_self, load_store_same]
  have hv := hres.sound.valid st1 _ q b (by simp) hres.rear
  have hcap : b.capacity = blockRoom ∧ b.tail ≤ b.capacity := ⟨hv.capacity,hv.bound⟩
  -- where the last block stays, its end is where the message ended
  have hrear (st' : Store) (buf' : IOBuf) (k : List ℕ) (hs' : Sound st' (k ++ [q] ++ rest))
      (hb' : Holds st' buf' (k ++ [q]))
      (ht : (dataOf st'.heap q).map Block.tail = (dataOf st3.heap q).map Block.tail) :
      roomOf st' buf' = if roomOf st buf = msg.length then blockRoom else roomOf st buf-msg.length := by
    obtain ⟨d,hd,-⟩ := hs'.live q (by simp)
    have htail : d.tail = b.tail+msg.length := by
      rw [hd, hself3] at ht
      have hsame := Option.some.inj ht
      simp only [Block.tail] at hsame ⊢
      omega
    apply roomOf_filled st' buf' k q rest hs' hb' d hd _ _ hroom
    omega
  have hfuel := hs3.chain_fuel st3 (m ++ [q]) rest
  rcases trimStart_remains st3.fuel st3 buf3 (m ++ [q]) rest (execute (st3.mem b.buffer) b.tail msg.length).2
    hfuel hs3 hb3 with ⟨st',buf',l',htrim,htrims,htext,hsuf,htail,hwhole⟩
  refine ⟨st3.mem b.buffer, b.tail, st', buf', l', hload, ?_, htrims.sound, htrims.holds, ?_, ?_, ?_⟩
  · have hfits : ¬ b.capacity-b.tail < msg.length := by omega
    simp only [parse, hpre, Option.bind_eq_bind, Option.bind_some, if_neg hfits, hcopy, hpost, htrim,
      Option.pure_def]
  · intro p hp
    rw [htrims.kept.heap p hp, hkeep3 p (fun he => hq (he ▸ hp)), hres.kept.heap p hp]
  · rw [htext, htext3, hres.text]
  by_cases hzero : (execute (st3.mem b.buffer) b.tail msg.length).2 = 0
  -- nothing is trimmed, not even a block that shows nothing
  · have hsame : trimStart st3.fuel st3 buf3 (execute (st3.mem b.buffer) b.tail msg.length).2 =
        some (st3,buf3) := by
      rw [hzero, Store.fuel, trimStart, if_pos (Or.inl rfl)]
    obtain ⟨rfl,rfl⟩ := Prod.mk.inj (Option.some.inj (htrim.symm.trans hsame))
    have hno : ¬(text st' l' = [] ∧ 0 < (execute (st'.mem b.buffer) b.tail msg.length).2) := by omega
    rw [hrear st' buf' m hs3 hb3 rfl]
    simp only [hno, false_or]
  have hpos := Nat.pos_of_ne_zero hzero
  -- the trim left either no block or the last one with some others
  rcases List.suffix_concat_iff.mp hsuf with rfl | ⟨k,rfl,-⟩
  -- nothing is left, and the next message gets a new block
  · have hempty : text st' [] = [] := rfl
    rw [if_pos (Or.inl ⟨hempty,hpos⟩)]
    exact roomOf_nil st' buf' htrims.holds.ring
  -- the last block is still there: it shows the bytes that are not trimmed
  · have hshown : text st' (k ++ [q]) ≠ [] := by
      rcases hwhole with hdata | hne
      · intro he
        have hlength := bytesOf_length st' q _ ((hdata q (by simp)).trans hself3)
        have hnil : bytesOf st' q = [] := List.flatMap_eq_nil_iff.mp he q (by simp)
        have hle := hn (st3.mem b.buffer) b.tail
        rw [hnil, List.length_nil] at hlength
        simp only at hlength
        omega
      · exact hne
    rw [hrear st' buf' k htrims.sound htrims.holds (htail q (by simp))]
    simp only [hshown, false_and, false_or]

theorem roomOf_pos (st : Store) (buf : IOBuf) : 0 < roomOf st buf := by
  have hblock : 0 < blockRoom := by decide
  unfold roomOf
  cases rearBlock st buf with
  | none => exact hblock
  | some b =>
    change 0 < if b.space > 0 then b.space else blockRoom
    split_ifs with hspace
    · exact hspace
    · exact hblock

/-- A call that finds too little room. `PreAllocate` may still have added a block. -/
theorem parse_early_return {R : Type} (execute : Mem → ℕ → ℕ → R × ℕ) (st : Store) (buf : IOBuf)
    (l rest : List ℕ) (msg : Bytes) (hs : Sound st (l ++ rest)) (hb : Holds st buf l)
    (hroom : roomOf st buf < msg.length) : ∃ st' buf' l',
      parse execute st buf msg = some (st',buf',none) ∧ Sound st' (l' ++ rest) ∧
      Holds st' buf' l' ∧ (∀ p ∈ rest, st'.heap p = st.heap p) ∧ text st' l' = text st l ∧
      roomOf st' buf' = roomOf st buf := by
  rcases preAllocate_spec st buf l rest hs hb with ⟨st1,buf1,m,q,b,hpre,hres⟩
  have hlen := preAllocate_room st st1 buf buf1 _ _ hpre
  have hpos := roomOf_pos st buf
  have hcap : b.capacity = blockRoom := (hres.sound.valid st1 _ q b (by simp) hres.rear).capacity
  refine ⟨st1, buf1, m ++ [q], ?_, hres.sound, hres.holds, hres.kept.heap, hres.text, ?_⟩
  · have hshort : b.capacity-b.tail < msg.length := by omega
    simp only [parse, hpre, Option.bind_eq_bind, Option.bind_some, if_pos hshort, Option.pure_def]
  · rw [roomOf_rear st1 buf1 m q rest hres.sound hres.holds b hres.rear, if_pos (by omega)]
    omega

/-- The `input_buffer_` of a new `HttpContext`. -/
def startInput (mem : ℕ → Mem) : Store × IOBuf := ((start mem).store,⟨0,nullptr⟩)

/-- A parser that reports `n` bytes, whatever it is given. -/
def reports (n : ℕ) : Mem → ℕ → ℕ → Bytes × ℕ := fun mem data len => (load mem data len,n)

/-- One call of `Parse` with the number of bytes that the parser reports, and the bytes that the
parser was given. -/
def inputStep (s : Store × IOBuf) (call : Bytes × ℕ) : Option ((Store × IOBuf) × Option Bytes) :=
  (parse (reports call.2) s.1 s.2 call.1).map fun r => ((r.1,r.2.1),r.2.2)

/-- The same on the bytes that wait and the room behind them. -/
def inputSpec (a : Bytes × ℕ) (call : Bytes × ℕ) : (Bytes × ℕ) × Option Bytes :=
  if a.2 < call.1.length then (a,none)
  else
    let t := (a.1 ++ call.1).drop call.2
    ((t, if (t = [] ∧ 0 < call.2) ∨ a.2 = call.1.length then blockRoom else a.2-call.1.length),
      some call.1)

/-- The buffer shows the bytes that wait, and `PreAllocate` returns the room. -/
def Waits (s : Store × IOBuf) (a : Bytes × ℕ) : Prop :=
  ∃ l, Sound s.1 (l ++ []) ∧ Holds s.1 s.2 l ∧ text s.1 l = a.1 ∧ roomOf s.1 s.2 = a.2

theorem waits_start (mem : ℕ → Mem) : Waits (startInput mem) ([],blockRoom) := by
  refine ⟨[], (layout_start mem).sound, (layout_start mem).holds _ (List.mem_singleton_self _), rfl, ?_⟩
  exact roomOf_nil _ _ rfl

theorem Waits.step (s : Store × IOBuf) (a : Bytes × ℕ) (call : Bytes × ℕ) (h : Waits s a)
    (hn : call.2 ≤ call.1.length) : ∃ s', inputStep s call = some (s',(inputSpec a call).2) ∧
      Waits s' (inputSpec a call).1 := by
  rcases h with ⟨l,hs,hb,htext,hroom⟩
  by_cases hshort : a.2 < call.1.length
  · rcases parse_early_return (reports call.2) s.1 s.2 l [] call.1 hs hb (by omega) with
      ⟨st',buf',l',hparse,hs',hb',-,htext',hroom'⟩
    rw [inputStep, hparse, inputSpec, if_pos hshort]
    exact ⟨(st',buf'), rfl, l', hs', hb', htext'.trans htext, hroom'.trans hroom⟩
  · rcases parse_spec (reports call.2) s.1 s.2 l [] call.1 hs hb (by omega) (fun _ _ => hn) with
      ⟨mem,data,st',buf',l',hload,hparse,hs',hb',-,htext',hroom'⟩
    have hgiven : (reports call.2 mem data call.1.length).1 = call.1 := hload
    rw [htext', hroom, htext] at hroom'
    rw [htext] at htext'
    rw [inputStep, hparse, hgiven, inputSpec, if_neg hshort]
    exact ⟨(st',buf'), rfl, l', hs', hb', htext', hroom'⟩

theorem Waits.toString (s : Store × IOBuf) (a : Bytes × ℕ) (h : Waits s a) :
    toString s.1.fuel s.1 s.2 = some a.1 := by
  rcases h with ⟨l,hs,hb,htext,-⟩
  rw [toString_spec s.1 s.2 l [] hs hb, htext]

/-- Every sequence of calls returns, with the answers of the abstract buffer. -/
theorem input_run (mem : ℕ → Mem) (calls : List (Bytes × ℕ)) (hn : ∀ c ∈ calls, c.2 ≤ c.1.length) :
    ∃ s, run inputStep (startInput mem) calls = some (s,(specRun inputSpec ([],blockRoom) calls).2) ∧
      Waits s (specRun inputSpec ([],blockRoom) calls).1 := by
  have hlegal : ∀ (a : Bytes × ℕ) (cs : List (Bytes × ℕ)), (∀ c ∈ cs, c.2 ≤ c.1.length) →
      Legal inputSpec (fun _ c => c.2 ≤ c.1.length) a cs := by
    intro a cs hcs
    induction cs generalizing a with
    | nil => trivial
    | cons c cs ih =>
      exact ⟨hcs c List.mem_cons_self, ih _ (fun d hd => hcs d (List.mem_cons_of_mem c hd))⟩
  exact run_refines Waits _ (fun s a c h hc => h.step s a c hc) (startInput mem) _ calls
    (waits_start mem) (hlegal _ calls hn)

end Cclab.HttpServer
