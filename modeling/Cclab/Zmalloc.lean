import Cclab.OperationRuns
import Mathlib.Data.UInt
import Mathlib.Data.List.Nodup
import Mathlib.Algebra.BigOperators.Group.List.Basic

/-! The counting allocator of `ae/zmalloc.c` where `malloc` cannot be asked for the size of a
block, so that each block begins with a word that holds it. -/
namespace Cclab.Zmalloc
open OperationRuns

/-- `PREFIX_SIZE` and `ZMALLOC_MAX_ALLOC_STAT`. -/
def prefixSize : UInt64 := 8
def zmallocMaxAllocStat : UInt64 := 256

/-- A block from `malloc`, with the size in front of it. -/
structure Block where
  realptr : ℕ
  oldsize : UInt64
deriving DecidableEq

structure Heap where
  blocks : List Block
  usedMemory : UInt64
  zmallocAllocations : UInt64 → UInt64

def init : Heap := ⟨[],0,fun _ => 0⟩

section statistics

/-- `if (_n&(sizeof(long)-1)) _n += sizeof(long)-(_n&(sizeof(long)-1));` -/
def roundUp (n : UInt64) : UInt64 := if n &&& 7 ≠ 0 then n+(8-(n &&& 7)) else n

def statSlot (size : UInt64) : UInt64 := if size < zmallocMaxAllocStat then size else zmallocMaxAllocStat

/-- `update_zmalloc_stat_alloc`; the mutex makes no difference to one thread. -/
def statAlloc (h : Heap) (n size : UInt64) : Heap :=
  { h with
    usedMemory := h.usedMemory+roundUp n
    zmallocAllocations := Function.update h.zmallocAllocations (statSlot size)
      (h.zmallocAllocations (statSlot size)+1) }

def statFree (h : Heap) (n : UInt64) : Heap := { h with usedMemory := h.usedMemory-roundUp n }

end statistics

section calls
variable (h : Heap)

/-- The block with this address, and the others. -/
def take (realptr : ℕ) : Option (Block × List Block) :=
  (h.blocks.find? fun b => b.realptr = realptr).map fun b => (b,h.blocks.erase b)

/-- `zmalloc` where `malloc(size+PREFIX_SIZE)` returns this address; without one the process ends.
It crashes where the sum wraps around and leaves no room for the size. -/
def zmalloc (realptr : Option ℕ) (size : UInt64) : Option (Heap × Option ℕ) := do
  let realptr ← realptr
  if (h.blocks.map Block.realptr).contains realptr ∨ size+prefixSize < prefixSize then none
  else
    let h := statAlloc { h with blocks := ⟨realptr,size⟩ :: h.blocks } (size+prefixSize) size
    return (h,some (realptr+prefixSize.toNat))

/-- `zcalloc`, which clears the block besides. -/
def zcalloc (realptr : Option ℕ) (size : UInt64) : Option (Heap × Option ℕ) := zmalloc h realptr size

/-- `zstrdup`; `strlen(s)+1` bytes. -/
def zstrdup (realptr : Option ℕ) (s : List UInt8) : Option (Heap × Option ℕ) :=
  zmalloc h realptr (UInt64.ofNat (s.length+1))

/-- `zfree`; only a block that is allocated can be freed. -/
def zfree (ptr : Option ℕ) : Option (Heap × Option ℕ) :=
  match ptr with
  | none => some (h,none)
  | some ptr => do
    let (b,rest) ← take h (ptr-prefixSize.toNat)
    return ({ statFree h (b.oldsize+prefixSize) with blocks := rest },none)

/-- `zrealloc` where `realloc` returns this address. The sizes are counted without the prefix here,
both the old one and the new one. -/
def zrealloc (ptr : Option ℕ) (newptr : Option ℕ) (size : UInt64) : Option (Heap × Option ℕ) :=
  match ptr with
  | none => zmalloc h newptr size
  | some ptr => do
    let (b,rest) ← take h (ptr-prefixSize.toNat)
    let newptr ← newptr
    if (rest.map Block.realptr).contains newptr ∨ size+prefixSize < prefixSize then none
    else
      let h := statAlloc (statFree h b.oldsize) size size
      return ({ h with blocks := ⟨newptr,size⟩ :: rest },some (newptr+prefixSize.toNat))

def zmallocUsedMemory : UInt64 := h.usedMemory

def zmallocAllocationsForSize (size : UInt64) : UInt64 :=
  if size > zmallocMaxAllocStat then 0 else h.zmallocAllocations size

end calls

/-- The calls of a program, with what `malloc` and `realloc` answer. -/
inductive Call
  | zmalloc (realptr : Option ℕ) (size : UInt64)
  | zcalloc (realptr : Option ℕ) (size : UInt64)
  | zstrdup (realptr : Option ℕ) (s : List UInt8)
  | zrealloc (ptr newptr : Option ℕ) (size : UInt64)
  | zfree (ptr : Option ℕ)

def step (h : Heap) : Call → Option (Heap × Option ℕ)
  | .zmalloc realptr size => zmalloc h realptr size
  | .zcalloc realptr size => zcalloc h realptr size
  | .zstrdup realptr s => zstrdup h realptr s
  | .zrealloc ptr newptr size => zrealloc h ptr newptr size
  | .zfree ptr => zfree h ptr

/-- The size that a call allocates. -/
def Call.size : Call → Option UInt64
  | .zmalloc _ size => some size
  | .zcalloc _ size => some size
  | .zstrdup _ s => some (UInt64.ofNat (s.length+1))
  | .zrealloc _ _ size => some size
  | .zfree _ => none

/-- The bytes of a block with its prefix, in whole words. -/
def charge (b : Block) : ℕ := 8*((b.oldsize.toNat+15) / 8)

theorem and_seven (n : UInt64) : n &&& 7 = UInt64.ofNat (n.toNat % 8) := by
  apply UInt64.toNat_inj.mp
  rw [UInt64.toNat_and, UInt64.toNat_ofNat']
  have hand : n.toNat &&& 7 = n.toNat % 8 := Nat.and_two_pow_sub_one_eq_mod n.toNat 3
  show n.toNat &&& 7 = _
  rw [hand]
  omega

theorem roundUp_eq (n : UInt64) : roundUp n = UInt64.ofNat (8*((n.toNat+7) / 8)) := by
  have hlt := n.toNat_lt
  unfold roundUp
  rw [and_seven]
  by_cases hz : n.toNat % 8 = 0
  · have hn : 8*((n.toNat+7) / 8) = n.toNat := by omega
    rw [hz, if_neg (show ¬ UInt64.ofNat 0 ≠ 0 from not_not.mpr rfl), hn, UInt64.ofNat_toNat]
  · have hne : UInt64.ofNat (n.toNat % 8) ≠ 0 := by
      intro he
      have hnat := congrArg UInt64.toNat he
      rw [UInt64.toNat_ofNat'] at hnat
      change n.toNat % 8 % 2^64 = 0 at hnat
      omega
    have hn : 8*((n.toNat+7) / 8) = n.toNat+(8-n.toNat % 8) := by omega
    rw [if_pos hne, hn, UInt64.ofNat_add, UInt64.ofNat_toNat,
      UInt64.ofNat_sub (Nat.mod_lt _ (by decide)).le]
    rfl

/-- The prefix is a whole word, so the size can be rounded with it or without it. -/
theorem roundUp_block (b : Block) : roundUp (b.oldsize+prefixSize) = UInt64.ofNat (charge b) ∧
    roundUp b.oldsize+prefixSize = UInt64.ofNat (charge b) := by
  have hlt := b.oldsize.toNat_lt
  have hcharge : charge b = 8*((b.oldsize.toNat+7) / 8)+8 := by
    unfold charge
    omega
  constructor
  · rw [roundUp_eq, UInt64.toNat_add]
    apply UInt64.toNat_inj.mp
    rw [UInt64.toNat_ofNat', UInt64.toNat_ofNat', hcharge]
    show 8*(((b.oldsize.toNat+8) % 2^64+7) / 8) % 2^64 = _
    omega
  · rw [roundUp_eq, hcharge, UInt64.ofNat_add]
    rfl

/-- The counter is the sum over the blocks, and no two blocks are the same. -/
structure Counted (h : Heap) : Prop where
  used : h.usedMemory = UInt64.ofNat (h.blocks.map charge).sum
  nodup : (h.blocks.map Block.realptr).Nodup

theorem take_spec (h : Heap) (hc : Counted h) (p : ℕ) (b : Block) (rest : List Block)
    (ht : take h p = some (b,rest)) :
    b.realptr = p ∧ h.blocks.Perm (b :: rest) ∧ (rest.map Block.realptr).Nodup ∧
      h.usedMemory = UInt64.ofNat (charge b)+UInt64.ofNat (rest.map charge).sum := by
  obtain ⟨d,hfind,he⟩ := Option.map_eq_some_iff.mp ht
  obtain ⟨rfl,rfl⟩ := Prod.mk.inj he
  have hperm := List.perm_cons_erase (List.mem_of_find?_eq_some hfind)
  have hp := List.find?_some hfind
  refine ⟨of_decide_eq_true hp, hperm, ?_, ?_⟩
  · have hn := (hperm.map Block.realptr).nodup_iff.mp hc.nodup
    exact (List.nodup_cons.mp hn).2
  · rw [hc.used, (hperm.map charge).sum_eq, List.map_cons, List.sum_cons, UInt64.ofNat_add]

theorem Counted.zmalloc (h h' : Heap) (hc : Counted h) (realptr ptr : Option ℕ) (size : UInt64)
    (hz : zmalloc h realptr size = some (h',ptr)) : Counted h' := by
  obtain ⟨p,-,hrest⟩ := Option.bind_eq_some_iff.mp hz
  split_ifs at hrest with hbad
  obtain ⟨rfl,-⟩ := Prod.mk.inj (Option.some.inj hrest)
  rw [not_or, List.contains_iff_mem] at hbad
  constructor
  · show h.usedMemory+roundUp (size+prefixSize) = _
    rw [(roundUp_block ⟨p,size⟩).1, hc.used, ← UInt64.ofNat_add, Nat.add_comm]
    rfl
  · exact List.nodup_cons.mpr ⟨hbad.1,hc.nodup⟩

theorem Counted.zfree (h h' : Heap) (hc : Counted h) (ptr r : Option ℕ)
    (hz : zfree h ptr = some (h',r)) : Counted h' := by
  cases ptr with
  | none =>
    obtain ⟨rfl,-⟩ := Prod.mk.inj (Option.some.inj hz)
    exact hc
  | some ptr =>
    obtain ⟨⟨b,rest⟩,ht,hrest⟩ := Option.bind_eq_some_iff.mp hz
    obtain ⟨rfl,-⟩ := Prod.mk.inj (Option.some.inj hrest)
    obtain ⟨-,-,hn,hused⟩ := take_spec h hc _ b rest ht
    refine ⟨?_, hn⟩
    show h.usedMemory-roundUp (b.oldsize+prefixSize) = UInt64.ofNat (rest.map charge).sum
    rw [hused, (roundUp_block b).1, add_sub_cancel_left]

theorem Counted.zrealloc (h h' : Heap) (hc : Counted h) (ptr newptr r : Option ℕ) (size : UInt64)
    (hz : zrealloc h ptr newptr size = some (h',r)) : Counted h' := by
  cases ptr with
  | none => exact hc.zmalloc h h' newptr r size hz
  | some ptr =>
    obtain ⟨⟨b,rest⟩,ht,hrest⟩ := Option.bind_eq_some_iff.mp hz
    obtain ⟨p,-,hrest⟩ := Option.bind_eq_some_iff.mp hrest
    dsimp only at hrest
    split_ifs at hrest with hbad
    obtain ⟨rfl,-⟩ := Prod.mk.inj (Option.some.inj hrest)
    rw [not_or, List.contains_iff_mem] at hbad
    obtain ⟨-,-,hn,hused⟩ := take_spec h hc _ b rest ht
    refine ⟨?_, List.nodup_cons.mpr ⟨hbad.1,hn⟩⟩
    -- what is missing at the old size is missing at the new one
    have hold := (roundUp_block b).2
    have hnew := (roundUp_block ⟨p,size⟩).2
    show h.usedMemory-roundUp b.oldsize+roundUp size =
      UInt64.ofNat (charge ⟨p,size⟩+(rest.map charge).sum)
    rw [UInt64.ofNat_add, hused, ← hold, ← hnew]
    grind

/-- Over every run, the counter is the memory of the blocks that are allocated, their prefixes
included and in whole words, modulo 2^64; so it is back at zero when all have been freed. -/
theorem run_usedMemory (h : Heap) (calls : List Call) (ptrs : List (Option ℕ))
    (hr : run step init calls = some (h,ptrs)) :
    (zmallocUsedMemory h).toNat = (h.blocks.map charge).sum % 2^64 := by
  have hc : Counted h := by
    apply run_invariant Counted (fun _ => True) _ init h calls ptrs _ _ hr
    · intro s a s' o hs _ hstep
      cases a with
      | zmalloc realptr size => exact hs.zmalloc s s' realptr o size hstep
      | zcalloc realptr size => exact hs.zmalloc s s' realptr o size hstep
      | zstrdup realptr str => exact hs.zmalloc s s' realptr o _ hstep
      | zrealloc ptr newptr size => exact hs.zrealloc s s' ptr newptr o size hstep
      | zfree ptr => exact hs.zfree s s' ptr o hstep
    · exact ⟨rfl,List.nodup_nil⟩
    · exact fun _ _ => trivial
  rw [zmallocUsedMemory, hc.used, UInt64.toNat_ofNat']

/-- Two blocks, one of them made longer, and the other freed. -/
def twoBlocks : List Call :=
  [.zmalloc (some 100) 5, .zstrdup (some 200) [97,98], .zrealloc (some 108) (some 300) 20,
    .zfree (some 208)]

theorem usedMemory_twoBlocks : let h := ((run step init twoBlocks).getD (init,[])).1
    (zmallocUsedMemory h).toNat = (h.blocks.map charge).sum % 2^64 :=
  run_usedMemory _ twoBlocks [some 108,some 208,some 308,none] rfl

/-- Whether a call is counted in a slot. -/
def Call.countedIn (slot : UInt64) (c : Call) : Bool := c.size.map statSlot = some slot

theorem statAlloc_slot (h : Heap) (n size slot : UInt64) :
    (statAlloc h n size).zmallocAllocations slot =
      h.zmallocAllocations slot+UInt64.ofNat (if statSlot size = slot then 1 else 0) := by
  show Function.update h.zmallocAllocations (statSlot size) _ slot = _
  by_cases hs : statSlot size = slot
  · rw [if_pos hs, ← hs, Function.update_self]
    rfl
  · rw [if_neg hs, Function.update_of_ne (Ne.symm hs)]
    exact (add_zero _).symm

theorem zmalloc_slot (h h' : Heap) (realptr ptr : Option ℕ) (size slot : UInt64)
    (hz : zmalloc h realptr size = some (h',ptr)) : h'.zmallocAllocations slot =
      h.zmallocAllocations slot+UInt64.ofNat (if statSlot size = slot then 1 else 0) := by
  obtain ⟨p,-,hrest⟩ := Option.bind_eq_some_iff.mp hz
  split_ifs at hrest with hbad
  obtain ⟨rfl,-⟩ := Prod.mk.inj (Option.some.inj hrest)
  exact statAlloc_slot _ _ size slot

/-- A call adds one to its slot, and nothing takes it away. -/
theorem step_slot (h h' : Heap) (c : Call) (r : Option ℕ) (slot : UInt64)
    (hs : step h c = some (h',r)) : h'.zmallocAllocations slot =
      h.zmallocAllocations slot+UInt64.ofNat (if c.countedIn slot then 1 else 0) := by
  have hif (size : UInt64) : (if decide (some (statSlot size) = some slot) then 1 else 0) =
      if statSlot size = slot then 1 else 0 := by
    simp
  cases c with
  | zmalloc realptr size => exact (zmalloc_slot h h' realptr r size slot hs).trans (by rw [← hif]; rfl)
  | zcalloc realptr size => exact (zmalloc_slot h h' realptr r size slot hs).trans (by rw [← hif]; rfl)
  | zstrdup realptr str => exact (zmalloc_slot h h' realptr r _ slot hs).trans (by rw [← hif]; rfl)
  | zrealloc ptr newptr size =>
    cases ptr with
    | none => exact (zmalloc_slot h h' newptr r size slot hs).trans (by rw [← hif]; rfl)
    | some ptr =>
      obtain ⟨⟨b,rest⟩,-,hrest⟩ := Option.bind_eq_some_iff.mp hs
      obtain ⟨p,-,hrest⟩ := Option.bind_eq_some_iff.mp hrest
      dsimp only at hrest
      split_ifs at hrest with hbad
      obtain ⟨rfl,-⟩ := Prod.mk.inj (Option.some.inj hrest)
      exact (statAlloc_slot _ size size slot).trans (by rw [← hif]; rfl)
  | zfree ptr =>
    cases ptr with
    | none =>
      obtain ⟨rfl,-⟩ := Prod.mk.inj (Option.some.inj hs)
      exact (add_zero _).symm
    | some ptr =>
      obtain ⟨⟨b,rest⟩,-,hrest⟩ := Option.bind_eq_some_iff.mp hs
      obtain ⟨rfl,-⟩ := Prod.mk.inj (Option.some.inj hrest)
      exact (add_zero _).symm

theorem run_slot (h h' : Heap) (calls : List Call) (ptrs : List (Option ℕ)) (slot : UInt64)
    (hr : run step h calls = some (h',ptrs)) : h'.zmallocAllocations slot =
      h.zmallocAllocations slot+UInt64.ofNat (calls.countP (Call.countedIn slot)) := by
  induction calls generalizing h ptrs with
  | nil =>
    obtain ⟨rfl,-⟩ := Prod.mk.inj (Option.some.inj hr)
    exact (add_zero _).symm
  | cons c calls ih =>
    obtain ⟨h1,r,ptrs',hs,hrest,-⟩ := run_cons_eq_some h h' c calls ptrs hr
    rw [ih h1 ptrs' hrest, step_slot h h1 c r slot hs, List.countP_cons, UInt64.ofNat_add]
    grind

/-- `zmalloc_allocations_for_size` tells how many calls of a run have asked for this size, or for
256 and up; a `zrealloc` is one of them, and freeing takes none back. -/
theorem run_allocations (h : Heap) (calls : List Call) (ptrs : List (Option ℕ)) (size : UInt64)
    (hr : run step init calls = some (h,ptrs)) :
    (zmallocAllocationsForSize h size).toNat =
      if size ≤ 256 then calls.countP (Call.countedIn size) % 2^64 else 0 := by
  unfold zmallocAllocationsForSize
  by_cases hsize : size ≤ 256
  · have hle : ¬ size > zmallocMaxAllocStat := UInt64.not_lt.mpr hsize
    rw [if_pos hsize, if_neg hle, run_slot init h calls ptrs size hr]
    show (0+UInt64.ofNat _).toNat = _
    rw [zero_add, UInt64.toNat_ofNat']
  · have hlt : size > zmallocMaxAllocStat := UInt64.not_le.mp hsize
    rw [if_neg hsize, if_pos hlt]
    rfl

theorem allocations_twoBlocks :
    (zmallocAllocationsForSize ((run step init twoBlocks).getD (init,[])).1 20).toNat =
      if (20 : UInt64) ≤ 256 then twoBlocks.countP (Call.countedIn 20) % 2^64 else 0 :=
  run_allocations _ twoBlocks [some 108,some 208,some 308,none] 20 rfl

end Cclab.Zmalloc
