import Cclab.PhpStripReads

/-! Where `php_strip_tags_ex` writes: the result and the tag buffer together never hold more bytes
than have been read, and the tag buffer always has room for one more and the terminating 0. -/
namespace Cclab.PhpStripTags
open ByteMemory

/-- What an access of the iteration `n` may be. -/
def Fits (len n : ℕ) : Access → Prop
  | .copy _ => True
  | .result j => j ≤ n ∧ j < len
  | .tag j allocated => j < allocated
  | .find tag => ∃ name, tag = name ++ [byte '>'] ∧ byte '>' ∉ name

/-- The buffers when `n` bytes have been used. -/
structure Bounded (env : Env) (len n : ℕ) (b : Buffers) : Prop where
  cursors : b.rp+b.tp ≤ n
  room : env.allow.isSome → b.tp < b.allocated ∧ phpTagBufSize < b.allocated
  tag : byte '>' ∉ load b.tbuf 0 b.tp
  log : ∀ e ∈ b.log, Fits len e.1 e.2

theorem load_store_end (m : Mem) (n : ℕ) (c : UInt8) :
    load (store m n [c]) 0 (n+1) = load m 0 n ++ [c] := by
  have hfront : load (store m n [c]) 0 n = load m 0 n := by
    apply load_store_disjoint
    exact Or.inr (Or.inr (Or.inr (by omega)))
  have hlast : load (store m n [c]) n 1 = [c] := load_store_same m n [c]
  rw [load_add, hfront, Nat.zero_add, hlast]

theorem load_store_behind (m : Mem) (n : ℕ) (c : UInt8) : load (store m n [c]) 0 n = load m 0 n := by
  apply load_store_disjoint
  exact Or.inr (Or.inr (Or.inr (by omega)))

section bounded
variable (env : Env) (len n : ℕ) (b : Buffers) (i : ℕ) (h : Bounded env len n b)
include h

theorem Bounded.mono (m : ℕ) (hm : n ≤ m) : Bounded env len m b :=
  ⟨h.cursors.trans hm, h.room, h.tag, h.log⟩

theorem Bounded.look (reads : List ℤ) : Bounded env len n (b.look i reads) := by
  refine ⟨h.cursors, h.room, h.tag, ?_⟩
  intro e he
  rcases List.mem_append.mp he with he | he
  · exact h.log e he
  · obtain ⟨d,-,rfl⟩ := List.mem_map.mp he
    trivial

theorem Bounded.leave : Bounded env len n { b with tp := 0 } := by
  refine ⟨?_, ?_, by simp, h.log⟩
  · have hc := h.cursors
    dsimp only
    omega
  · intro ha
    have hr := h.room ha
    dsimp only
    omega

theorem Bounded.emit (hn : n ≤ i) (hi : i < len) (c : UInt8) : Bounded env len (n+1) (b.emit i c) := by
  have hc := h.cursors
  refine ⟨?_, h.room, h.tag, ?_⟩
  · change b.rp+1+b.tp ≤ n+1
    omega
  · intro e he
    rcases List.mem_append.mp he with he | he
    · exact h.log e he
    · rw [List.mem_singleton.mp he]
      exact ⟨by omega, by omega⟩

omit h in
/-- There is room for a byte and for a 0 behind it. -/
theorem grow_room (hroom : b.tp < b.allocated ∧ phpTagBufSize < b.allocated) :
    b.tp+1 < b.grow.allocated ∧ phpTagBufSize < b.grow.allocated := by
  unfold Buffers.grow phpTagBufSize at *
  split_ifs with hfull
  · dsimp only
    omega
  · omega

theorem Bounded.push (ha : env.allow.isSome) (c : UInt8) (hc : c ≠ byte '>') :
    Bounded env len (n+1) (b.push i c) := by
  obtain ⟨hroom,hbase⟩ := grow_room b (h.room ha)
  have hcur := h.cursors
  rw [push_eq]
  refine ⟨?_, fun _ => ⟨hroom,hbase⟩, ?_, ?_⟩
  · dsimp only
    omega
  · dsimp only
    rw [load_store_end, List.mem_append, List.mem_singleton]
    rintro (hmem | rfl)
    · exact h.tag hmem
    · exact hc rfl
  · intro e he
    rcases List.mem_append.mp he with he | he
    · exact h.log e he
    · rw [List.mem_singleton.mp he]
      exact Nat.lt_of_succ_lt hroom

/-- The end of a tag leaves an empty tag buffer, and a result that is no longer than before by
more than the tag. -/
theorem Bounded.finish (hn : n ≤ i) (hi : i < len) (ha : env.allow.isSome) (set : Bytes) :
    Bounded env len (n+1) (b.finishTag i set) := by
  obtain ⟨hroom,hbase⟩ := grow_room b (h.room ha)
  have hcur := h.cursors
  let tag := load b.tbuf 0 b.tp ++ [byte '>']
  have hload : load (store (store b.tbuf b.tp [byte '>']) (b.tp+1) [0]) 0 (b.tp+1) = tag := by
    rw [load_store_behind, load_store_end]
  -- what is logged before the tag is copied
  have hlog : ∀ e ∈ b.log ++ [(i,.tag b.tp b.grow.allocated)] ++
      [(i,.tag (b.tp+1) b.grow.allocated)] ++ [(i,Access.find tag)], Fits len e.1 e.2 := by
    intro e he
    simp only [List.append_assoc, List.mem_append, List.mem_singleton] at he
    rcases he with he | rfl | rfl | rfl
    · exact h.log e he
    · exact Nat.lt_of_succ_lt hroom
    · exact hroom
    · exact ⟨_,rfl,h.tag⟩
  unfold Buffers.finishTag
  rw [push_eq]
  unfold Buffers.writeTag
  dsimp only
  rw [hload]
  split_ifs
  · refine ⟨?_, fun _ => ⟨Nat.zero_lt_of_lt hbase,hbase⟩, by simp, ?_⟩
    · change b.rp+(b.tp+1)+0 ≤ n+1
      omega
    · intro e he
      rcases List.mem_append.mp he with he | he
      · exact hlog e he
      · obtain ⟨k,hk,rfl⟩ := List.mem_map.mp he
        have hlt := List.mem_range.mp hk
        change b.rp+k ≤ i ∧ b.rp+k < len
        dsimp only at hlt
        omega
  · refine ⟨?_, fun _ => ⟨Nat.zero_lt_of_lt hbase,hbase⟩, by simp, hlog⟩
    change b.rp+0 ≤ n+1
    omega

end bounded

/-- An iteration uses at most one byte more. -/
theorem Worked.bounded (env : Env) (len : ℕ) (r₀ : Regs) (u : Bool) (b : Buffers)
    (hi : r₀.i < len) (h : Worked env r₀ u b) (h₀ : Bounded env len r₀.i r₀.bufs) :
    Bounded env len (r₀.i+u.toNat) b := by
  induction h with
  | start => exact h₀
  | look u b reads _ _ ih => exact ih.look env len _ b _ reads
  | emit b _ _ ih => exact ih.emit env len _ b _ (Nat.le_refl _) hi _
  | push b c hc ha _ ih => exact ih.push env len _ b _ ha c hc
  | finish b set ha _ ih => exact ih.finish env len _ b _ (Nat.le_refl _) hi (by rw [ha]; rfl) set
  | leave u b _ ih => exact ih.leave env len _ b

/-! `php_tag_find` on a tag with one `'>'`. -/

theorem tolower_greater (x : UInt8) (h : x ≠ byte '>') : tolower x ≠ byte '>' := by
  unfold tolower
  split_ifs with hupper
  · intro he
    have hx : x = byte '>'-32 := by
      rw [← he, UInt8.add_sub_cancel]
    rw [hx] at hupper
    exact absurd hupper (by decide)
  · exact h

/-- The loop of `php_tag_find` reads at most one byte behind the first `'>'` and writes at most one
byte for each byte before it. -/
theorem normalize_bounds (state : Bool) (name rest : Bytes) (h : byte '>' ∉ name) :
    ∃ norm reads, normalize state (name ++ byte '>' :: rest) = some (norm,reads) ∧
      reads ≤ name.length+2 ∧ norm.length ≤ name.length := by
  induction name generalizing state with
  | nil => exact ⟨[], 2, rfl, by decide, by decide⟩
  | cons x name ih =>
    rw [List.mem_cons, not_or] at h
    have hx := tolower_greater x (Ne.symm h.1)
    have hmore (state : Bool) : ∃ norm reads,
        normalize state (name ++ byte '>' :: rest) = some (norm,reads) ∧
          reads ≤ name.length+2 ∧ norm.length ≤ name.length := ih state h.2
    rw [List.cons_append, normalize, if_neg hx, List.length_cons]
    split_ifs with hless hspace hslash hstate
    · obtain ⟨norm,reads,he,hr,hn⟩ := hmore state
      refine ⟨tolower x :: norm, reads+1, by rw [he]; rfl, by omega, ?_⟩
      rw [List.length_cons]
      omega
    · obtain ⟨norm,reads,he,hr,hn⟩ := hmore true
      exact ⟨norm, reads+1, by rw [he]; rfl, by omega, by omega⟩
    · obtain ⟨norm,reads,he,hr,hn⟩ := hmore true
      refine ⟨tolower x :: norm, reads+1, by rw [he]; rfl, by omega, ?_⟩
      rw [List.length_cons]
      omega
    · exact ⟨[], 2, rfl, by omega, by simp⟩
    · obtain ⟨norm,reads,he,hr,hn⟩ := hmore state
      exact ⟨norm, reads+1, by rw [he]; rfl, by omega, by omega⟩

/-- No pointer of the run leaves its buffer. `php_tag_find` reads no more than `behind` bytes behind
the first `'>'` of its tag. -/
structure StripsInside (behind : ℕ) (a : Args) (rbuf : Mem) (len : ℕ) : Prop where
  cursors : ∀ k ≤ len, ∀ r, r = loop (a.env rbuf len) k (start (a.env rbuf len) rbuf a.stateptr) →
    r.bufs.rp+r.bufs.tp ≤ k
  result : ∀ n j, (n,Access.result j) ∈ (phpStripTagsEx a rbuf len).bufs.log → j ≤ n ∧ j < len
  length : (phpStripTagsEx a rbuf len).bufs.rp ≤ len
  tag : ∀ n j allocated, (n,Access.tag j allocated) ∈ (phpStripTagsEx a rbuf len).bufs.log →
    j < allocated
  find : ∀ n tag, (n,Access.find tag) ∈ (phpStripTagsEx a rbuf len).bufs.log →
    ∃ name rest norm reads, tag = name ++ byte '>' :: rest ∧ byte '>' ∉ name ∧
      normalize false (tag ++ [0]) = some (norm,reads) ∧
      reads ≤ name.length+1+behind ∧ norm.length+2 ≤ tag.length+1

section run
variable (a : Args) (rbuf : Mem) (len : ℕ)

/-- At the start of every iteration. -/
theorem loop_bounded (k : ℕ) (hk : k ≤ len) :
    (loop (a.env rbuf len) k (start (a.env rbuf len) rbuf a.stateptr)).i = k ∧
    Bounded (a.env rbuf len) len k
      (loop (a.env rbuf len) k (start (a.env rbuf len) rbuf a.stateptr)).bufs := by
  apply loop_invariant (a.env rbuf len) (fun k r => r.i = k ∧ Bounded (a.env rbuf len) len k r.bufs) k
  · rintro j r hj ⟨rfl,hr⟩
    obtain ⟨hi,u,hw⟩ := switch_done (a.env rbuf len) r
    have hb := hw.bounded _ len r u _ (by omega) hr
    have hu : r.i+u.toNat ≤ r.i+1 := Nat.add_le_add_left (Bool.toNat_le u) _
    exact ⟨congrArg (· + 1) hi, (hb.mono _ len _ _ _ hu).look _ len _ _ _ _⟩
  · refine ⟨rfl, ?_, ?_, ?_, ?_⟩
    · exact Nat.le_refl 0
    · intro ha
      simp only [start, ha, if_true]
      decide
    · exact List.not_mem_nil
    · intro e he
      rw [List.mem_singleton.mp he]
      trivial

theorem run_fits (n : ℕ) (x : Access) (h : (n,x) ∈ (phpStripTagsEx a rbuf len).bufs.log) :
    Fits len n x := by
  obtain ⟨hi,hb⟩ := loop_bounded a rbuf len len (Nat.le_refl len)
  unfold phpStripTagsEx terminate at h
  split_ifs at h with hroom
  · rcases List.mem_append.mp h with h | h
    · exact hb.log _ h
    · obtain ⟨rfl,rfl⟩ := Prod.mk.inj (List.mem_singleton.mp h)
      rw [hi]
      exact ⟨hroom.le,hroom⟩
  · exact hb.log _ h

/-- For every input, every list of allowed tags and every initial state, all writes stay within the
buffers, and `php_tag_find` reads at most the byte behind the first `'>'`. -/
theorem strips_inside : StripsInside 1 a rbuf len := by
  refine ⟨?_, ?_, ?_, ?_, ?_⟩
  · rintro k hk r rfl
    exact (loop_bounded a rbuf len k hk).2.cursors
  · intro n j h
    exact run_fits a rbuf len n _ h
  · have hc := (loop_bounded a rbuf len len (Nat.le_refl len)).2.cursors
    unfold phpStripTagsEx terminate
    split_ifs
    · dsimp only
      omega
    · omega
  · intro n j allocated h
    exact run_fits a rbuf len n _ h
  · intro n tag h
    obtain ⟨name,rfl,hname⟩ := run_fits a rbuf len n _ h
    obtain ⟨norm,reads,he,hr,hn⟩ := normalize_bounds false name [0] hname
    refine ⟨name, [], norm, reads, rfl, hname, ?_, by omega, ?_⟩
    · rw [List.append_assoc]
      exact he
    · rw [List.length_append, List.length_singleton]
      omega

end run

/-- The tag `<a>` is read up to the 0 behind its `'>'`. -/
theorem tag_find_reads_behind :
    (2,Access.find [byte '<',byte 'a',byte '>']) ∈
      (phpStripTagsEx ⟨none,some [byte '<',byte 'a',byte '>'],3,false,fun _ => 0⟩ (text "<a>")
        3).bufs.log ∧
    normalize false [byte '<',byte 'a',byte '>',0] = some ([byte '<',byte 'a'],4) ∧
    ¬ StripsInside 0 ⟨none,some [byte '<',byte 'a',byte '>'],3,false,fun _ => 0⟩ (text "<a>") 3 := by
  have hfind : (2,Access.find [byte '<',byte 'a',byte '>']) ∈
      (phpStripTagsEx ⟨none,some [byte '<',byte 'a',byte '>'],3,false,fun _ => 0⟩ (text "<a>")
        3).bufs.log := by decide
  have hscan : normalize false [byte '<',byte 'a',byte '>',0] =
      some ([byte '<',byte 'a'],4) := by decide
  refine ⟨hfind, hscan, ?_⟩
  intro h
  obtain ⟨name,rest,norm,reads,he,-,hnorm,hr,-⟩ := h.find _ _ hfind
  obtain ⟨-,rfl⟩ := Prod.mk.inj (Option.some.inj (hscan.symm.trans hnorm))
  have hlen := congrArg List.length he
  simp only [List.length_append, List.length_cons, List.length_nil] at hlen
  omega

end Cclab.PhpStripTags
