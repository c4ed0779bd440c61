import Cclab.ByteMemory
import Mathlib.Data.UInt
import Mathlib.Tactic.IntervalCases

/-! The little-endian `hash` of `hashtable/hash.c`. It reads the key by words, by half-words
or by bytes, as the address allows, and the three ways give one value that no byte behind
the key takes part in. -/
namespace Cclab.Hash
open ByteMemory

/-- The internal state. -/
structure Abc where
  a : UInt32
  b : UInt32
  c : UInt32
deriving DecidableEq

def rot (x k : UInt32) : UInt32 := x <<< k ^^^ x >>> (32-k)

def mix (s : Abc) : Abc :=
  let a := s.a-s.c; let a := a ^^^ rot s.c 4; let c := s.c+s.b
  let b := s.b-a; let b := b ^^^ rot a 6; let a := a+c
  let c := c-b; let c := c ^^^ rot b 8; let b := b+a
  let a := a-c; let a := a ^^^ rot c 16; let c := c+b
  let b := b-a; let b := b ^^^ rot a 19; let a := a+c
  let c := c-b; let c := c ^^^ rot b 4; let b := b+a
  ⟨a,b,c⟩

/-- `final(a,b,c)`, of which only `c` is used. -/
def final (s : Abc) : UInt32 :=
  let c := s.c ^^^ s.b; let c := c-rot s.b 14
  let a := s.a ^^^ c; let a := a-rot c 11
  let b := s.b ^^^ a; let b := b-rot a 25
  let c := c ^^^ b; let c := c-rot b 16
  let a := a ^^^ c; let a := a-rot c 4
  let b := b ^^^ a; let b := b-rot a 14
  let c := c ^^^ b; let c := c-rot b 24
  c

/-! The reads behind the pointer `k`, at a distance in bytes. -/

def read8 (k : Mem) (i : ℕ) : UInt32 := (k i).toUInt32

def read16 (k : Mem) (i : ℕ) : UInt32 := UInt32.ofNat ((k i).toNat + 256*(k (i+1)).toNat)

def read32 (k : Mem) (i : ℕ) : UInt32 :=
  UInt32.ofNat ((k i).toNat + 256*(k (i+1)).toNat + 65536*(k (i+2)).toNat +
    16777216*(k (i+3)).toNat)

/-- `while (length > 12)`: `block` adds 12 bytes, and `last` is what follows the loop. -/
def hashLoop (block : Mem → Abc → Abc) (last : Mem → ℕ → Abc → UInt32) (k : Mem) (length : ℕ)
    (s : Abc) : UInt32 :=
  if 12 < length then
    hashLoop block last (fun i => k (12+i)) (length-12) (mix (block k s))
  else last k length s
termination_by length

def blockWords (k : Mem) (s : Abc) : Abc :=
  ⟨s.a + read32 k 0, s.b + read32 k 4, s.c + read32 k 8⟩

/-- The last block by words, of which the last is masked. -/
def lastWords (k : Mem) (length : ℕ) (s : Abc) : UInt32 :=
  match length with
  | 12 => final ⟨s.a + read32 k 0, s.b + read32 k 4, s.c + read32 k 8⟩
  | 11 => final ⟨s.a + read32 k 0, s.b + read32 k 4, s.c + (read32 k 8 &&& 0xffffff)⟩
  | 10 => final ⟨s.a + read32 k 0, s.b + read32 k 4, s.c + (read32 k 8 &&& 0xffff)⟩
  | 9 => final ⟨s.a + read32 k 0, s.b + read32 k 4, s.c + (read32 k 8 &&& 0xff)⟩
  | 8 => final ⟨s.a + read32 k 0, s.b + read32 k 4, s.c⟩
  | 7 => final ⟨s.a + read32 k 0, s.b + (read32 k 4 &&& 0xffffff), s.c⟩
  | 6 => final ⟨s.a + read32 k 0, s.b + (read32 k 4 &&& 0xffff), s.c⟩
  | 5 => final ⟨s.a + read32 k 0, s.b + (read32 k 4 &&& 0xff), s.c⟩
  | 4 => final ⟨s.a + read32 k 0, s.b, s.c⟩
  | 3 => final ⟨s.a + (read32 k 0 &&& 0xffffff), s.b, s.c⟩
  | 2 => final ⟨s.a + (read32 k 0 &&& 0xffff), s.b, s.c⟩
  | 1 => final ⟨s.a + (read32 k 0 &&& 0xff), s.b, s.c⟩
  | 0 => s.c
  | _ => final s

def blockHalves (k : Mem) (s : Abc) : Abc :=
  ⟨s.a + (read16 k 0 + read16 k 2 <<< 16), s.b + (read16 k 4 + read16 k 6 <<< 16),
    s.c + (read16 k 8 + read16 k 10 <<< 16)⟩

/-- The last block by half-words; a case without a `break` goes on with the next. -/
def lastHalves (k : Mem) : ℕ → Abc → UInt32
  | 12, s => final ⟨s.a + (read16 k 0 + read16 k 2 <<< 16),
      s.b + (read16 k 4 + read16 k 6 <<< 16), s.c + (read16 k 8 + read16 k 10 <<< 16)⟩
  | 11, s => lastHalves k 10 { s with c := s.c + read8 k 10 <<< 16 }
  | 10, s => final ⟨s.a + (read16 k 0 + read16 k 2 <<< 16),
      s.b + (read16 k 4 + read16 k 6 <<< 16), s.c + read16 k 8⟩
  | 9, s => lastHalves k 8 { s with c := s.c + read8 k 8 }
  | 8, s => final ⟨s.a + (read16 k 0 + read16 k 2 <<< 16),
      s.b + (read16 k 4 + read16 k 6 <<< 16), s.c⟩
  | 7, s => lastHalves k 6 { s with b := s.b + read8 k 6 <<< 16 }
  | 6, s => final ⟨s.a + (read16 k 0 + read16 k 2 <<< 16), s.b + read16 k 4, s.c⟩
  | 5, s => lastHalves k 4 { s with b := s.b + read8 k 4 }
  | 4, s => final ⟨s.a + (read16 k 0 + read16 k 2 <<< 16), s.b, s.c⟩
  | 3, s => lastHalves k 2 { s with a := s.a + read8 k 2 <<< 16 }
  | 2, s => final ⟨s.a + read16 k 0, s.b, s.c⟩
  | 1, s => final ⟨s.a + read8 k 0, s.b, s.c⟩
  | 0, s => s.c
  | _, s => final s

def blockBytes (k : Mem) (s : Abc) : Abc :=
  ⟨s.a + read8 k 0 + read8 k 1 <<< 8 + read8 k 2 <<< 16 + read8 k 3 <<< 24,
    s.b + read8 k 4 + read8 k 5 <<< 8 + read8 k 6 <<< 16 + read8 k 7 <<< 24,
    s.c + read8 k 8 + read8 k 9 <<< 8 + read8 k 10 <<< 16 + read8 k 11 <<< 24⟩

/-- The last block by bytes; all the case statements fall through. -/
def lastBytes (k : Mem) : ℕ → Abc → UInt32
  | 12, s => lastBytes k 11 { s with c := s.c + read8 k 11 <<< 24 }
  | 11, s => lastBytes k 10 { s with c := s.c + read8 k 10 <<< 16 }
  | 10, s => lastBytes k 9 { s with c := s.c + read8 k 9 <<< 8 }
  | 9, s => lastBytes k 8 { s with c := s.c + read8 k 8 }
  | 8, s => lastBytes k 7 { s with b := s.b + read8 k 7 <<< 24 }
  | 7, s => lastBytes k 6 { s with b := s.b + read8 k 6 <<< 16 }
  | 6, s => lastBytes k 5 { s with b := s.b + read8 k 5 <<< 8 }
  | 5, s => lastBytes k 4 { s with b := s.b + read8 k 4 }
  | 4, s => lastBytes k 3 { s with a := s.a + read8 k 3 <<< 24 }
  | 3, s => lastBytes k 2 { s with a := s.a + read8 k 2 <<< 16 }
  | 2, s => lastBytes k 1 { s with a := s.a + read8 k 1 <<< 8 }
  | 1, s => final ⟨s.a + read8 k 0, s.b, s.c⟩
  | 0, s => s.c
  | _, s => final s

/-- `hash(key, length, initval)` with the key at the address `addr`; `key` is the memory
from there on. -/
def hash (addr : ℕ) (key : Mem) (length : ℕ) (initval : UInt32) : UInt32 :=
  let i : UInt32 := 0xdeadbeef + UInt32.ofNat length + initval
  let s : Abc := ⟨i,i,i⟩
  if addr &&& 0x3 = 0 then hashLoop blockWords lastWords key length s
  else if addr &&& 0x1 = 0 then hashLoop blockHalves lastHalves key length s
  else hashLoop blockBytes lastBytes key length s

/-! A word is the sum of its bytes, and a mask leaves the sum of the first ones. -/

section reads
variable (k : Mem) (i : ℕ)

theorem read8_toNat : (read8 k i).toNat = (k i).toNat := UInt8.toNat_toUInt32 _

theorem byte_lt : (k i).toNat < 256 := UInt8.toNat_lt _

theorem read8_shift (n : UInt32) (hn : n.toNat < 32) (hs : 2^n.toNat*256 ≤ 2^32) :
    (read8 k i <<< n).toNat = 2^n.toNat*(k i).toNat := by
  have hlt := byte_lt k i
  rw [UInt32.toNat_shiftLeft, read8_toNat, Nat.mod_eq_of_lt hn, Nat.shiftLeft_eq, Nat.mul_comm]
  apply Nat.mod_eq_of_lt
  calc
    _ < 2^n.toNat*256 := Nat.mul_lt_mul_of_pos_left hlt (Nat.two_pow_pos _)
    _ ≤ 2^32 := hs

theorem shift8 : (read8 k i <<< 8).toNat = 256*(k i).toNat :=
  read8_shift k i 8 (by decide) (by decide)

theorem shift16 : (read8 k i <<< 16).toNat = 65536*(k i).toNat :=
  read8_shift k i 16 (by decide) (by decide)

theorem shift24 : (read8 k i <<< 24).toNat = 16777216*(k i).toNat :=
  read8_shift k i 24 (by decide) (by decide)

theorem read16_eq : read16 k i = read8 k i + read8 k (i+1) <<< 8 := by
  apply UInt32.toNat_inj.mp
  rw [UInt32.toNat_add, shift8, read8_toNat, read16, UInt32.toNat_ofNat']

theorem read32_toNat : (read32 k i).toNat = (k i).toNat + 256*(k (i+1)).toNat +
    65536*(k (i+2)).toNat + 16777216*(k (i+3)).toNat := by
  have h0 := byte_lt k i
  have h1 := byte_lt k (i+1)
  have h2 := byte_lt k (i+2)
  have h3 := byte_lt k (i+3)
  rw [read32, UInt32.toNat_ofNat']
  apply Nat.mod_eq_of_lt
  omega

theorem read32_eq : read32 k i =
    read8 k i + read8 k (i+1) <<< 8 + read8 k (i+2) <<< 16 + read8 k (i+3) <<< 24 := by
  have h0 := byte_lt k i
  have h1 := byte_lt k (i+1)
  have h2 := byte_lt k (i+2)
  have h3 := byte_lt k (i+3)
  apply UInt32.toNat_inj.mp
  simp only [UInt32.toNat_add, shift8, shift16, shift24, read8_toNat, read32_toNat]
  omega

theorem read16_shift : read16 k i <<< 16 = read8 k i <<< 16 + read8 k (i+1) <<< 24 := by
  have h0 := byte_lt k i
  have h1 := byte_lt k (i+1)
  have hword : (read16 k i).toNat = (k i).toNat + 256*(k (i+1)).toNat := by
    rw [read16, UInt32.toNat_ofNat']
    apply Nat.mod_eq_of_lt
    omega
  apply UInt32.toNat_inj.mp
  rw [UInt32.toNat_shiftLeft, hword, UInt32.toNat_add, shift16, shift24, Nat.shiftLeft_eq]
  show ((k i).toNat + 256*(k (i+1)).toNat)*65536 % 2^32 = _
  omega

/-- A mask of `n` bits takes the rest by `2^n`. -/
theorem mask_toNat (x m : UInt32) (n : ℕ) (hm : m.toNat = 2^n-1) :
    (x &&& m).toNat = x.toNat % 2^n := by
  rw [UInt32.toNat_and, hm, Nat.and_two_pow_sub_one_eq_mod]

theorem mask1 : read32 k i &&& (0xff : UInt32) = read8 k i := by
  have h0 := byte_lt k i
  apply UInt32.toNat_inj.mp
  rw [mask_toNat _ 0xff 8 rfl, read8_toNat, read32_toNat]
  omega

theorem mask2 : read32 k i &&& (0xffff : UInt32) = read8 k i + read8 k (i+1) <<< 8 := by
  have h0 := byte_lt k i
  have h1 := byte_lt k (i+1)
  apply UInt32.toNat_inj.mp
  rw [mask_toNat _ 0xffff 16 rfl, UInt32.toNat_add, shift8, read8_toNat, read32_toNat]
  omega

theorem mask3 : read32 k i &&& (0xffffff : UInt32) =
    read8 k i + read8 k (i+1) <<< 8 + read8 k (i+2) <<< 16 := by
  have h0 := byte_lt k i
  have h1 := byte_lt k (i+1)
  have h2 := byte_lt k (i+2)
  apply UInt32.toNat_inj.mp
  rw [mask_toNat _ 0xffffff 24 rfl, UInt32.toNat_add, UInt32.toNat_add, shift8, shift16,
    read8_toNat, read32_toNat]
  omega

/-! What a fall through of one to four cases adds. -/

variable (x : UInt32)

theorem add_rev2 (a b : UInt32) : x + (a+b) = x+b+a := by
  ac_rfl

theorem add_rev3 (a b c : UInt32) : x + (a+b+c) = x+c+b+a := by
  ac_rfl

theorem add_rev4 (a b c d : UInt32) : x + (a+b+c+d) = x+d+c+b+a := by
  ac_rfl

theorem fall1 : x + (read32 k i &&& (0xff : UInt32)) = x + read8 k i := by
  rw [mask1]

theorem fall2 : x + (read32 k i &&& (0xffff : UInt32)) =
    x + read8 k (i+1) <<< 8 + read8 k i := by
  rw [mask2, add_rev2]

theorem fall3 : x + (read32 k i &&& (0xffffff : UInt32)) =
    x + read8 k (i+2) <<< 16 + read8 k (i+1) <<< 8 + read8 k i := by
  rw [mask3, add_rev3]

theorem fall4 : x + read32 k i =
    x + read8 k (i+3) <<< 24 + read8 k (i+2) <<< 16 + read8 k (i+1) <<< 8 + read8 k i := by
  rw [read32_eq, add_rev4]

theorem fallHalf : x + read16 k i = x + read8 k (i+1) <<< 8 + read8 k i := by
  rw [read16_eq, add_rev2]

theorem fallHalves : x + (read16 k i + read16 k (i+2) <<< 16) =
    x + read8 k (i+3) <<< 24 + read8 k (i+2) <<< 16 + read8 k (i+1) <<< 8 + read8 k i := by
  rw [read16_shift, read16_eq, ← UInt32.add_assoc (_ + _), add_rev4]

end reads

/-! The three ways agree, block by block and in the last block. -/

theorem blockWords_eq : blockWords = blockBytes := by
  funext k s
  simp only [blockWords, blockBytes, read32_eq, UInt32.add_assoc]

theorem blockHalves_eq : blockHalves = blockBytes := by
  funext k s
  simp only [blockHalves, read16_shift]
  simp only [blockBytes, read16_eq, UInt32.add_assoc]

theorem lastWords_eq (k : Mem) (n : ℕ) (s : Abc) : lastWords k n s = lastBytes k n s := by
  by_cases hn : n ≤ 12
  -- one goal for each case of the two switches
  · interval_cases n
    all_goals
      simp only [lastWords, lastBytes, fall1, fall2, fall3, fall4, Nat.reduceAdd, Nat.zero_add]
  · rw [lastWords, lastBytes]
    all_goals omega

theorem lastHalves_eq (k : Mem) (n : ℕ) (s : Abc) : lastHalves k n s = lastBytes k n s := by
  by_cases hn : n ≤ 12
  · interval_cases n
    all_goals
      simp only [lastHalves, lastBytes, fallHalf, fallHalves, Nat.reduceAdd, Nat.zero_add]
  · rw [lastHalves, lastBytes]
    all_goals omega

/-- The address only selects the way of reading. -/
theorem hash_eq_loop (addr : ℕ) (key : Mem) (length : ℕ) (initval : UInt32) :
    hash addr key length initval =
      let i : UInt32 := 0xdeadbeef + UInt32.ofNat length + initval
      hashLoop blockBytes lastBytes key length ⟨i,i,i⟩ := by
  have hwords : lastWords = lastBytes := by
    funext k n s
    exact lastWords_eq k n s
  have hhalves : lastHalves = lastBytes := by
    funext k n s
    exact lastHalves_eq k n s
  unfold hash
  rw [blockWords_eq, blockHalves_eq, hwords, hhalves]
  -- all three branches are the loop by bytes now
  split_ifs
  all_goals rfl

/-! No byte behind the key is used. -/

theorem lastBytes_congr (k k' : Mem) (n : ℕ) (s : Abc) (h : ∀ i < n, k i = k' i) :
    lastBytes k n s = lastBytes k' n s := by
  have hread (i : ℕ) (hi : i < n) : read8 k i = read8 k' i := by
    rw [read8, read8, h i hi]
  by_cases hn : n ≤ 12
  · interval_cases n
    all_goals simp (disch := decide) only [lastBytes, hread]
  · rw [lastBytes, lastBytes]
    all_goals omega

theorem blockBytes_congr (k k' : Mem) (s : Abc) (h : ∀ i < 12, k i = k' i) :
    blockBytes k s = blockBytes k' s := by
  simp (disch := decide) only [blockBytes, read8, h]

section loop
variable (block : Mem → Abc → Abc) (last : Mem → ℕ → Abc → UInt32) (k : Mem) (n : ℕ) (s : Abc)

theorem hashLoop_more (h : 12 < n) : hashLoop block last k n s =
    hashLoop block last (fun i => k (12+i)) (n-12) (mix (block k s)) := by
  rw [hashLoop, if_pos h]

theorem hashLoop_last (h : ¬ 12 < n) : hashLoop block last k n s = last k n s := by
  rw [hashLoop, if_neg h]

end loop

theorem hashLoop_congr (k k' : Mem) (n : ℕ) (s : Abc) (h : ∀ i < n, k i = k' i) :
    hashLoop blockBytes lastBytes k n s = hashLoop blockBytes lastBytes k' n s := by
  induction n using Nat.strong_induction_on generalizing k k' s with
  | h n ih =>
    by_cases hn : 12 < n
    · have hblock := blockBytes_congr k k' s (fun i hi => h i (by omega))
      rw [hashLoop_more _ _ k n s hn, hashLoop_more _ _ k' n s hn, hblock]
      -- what is left of the key begins 12 bytes further
      apply ih (n-12) (by omega)
      intro i hi
      exact h (12+i) (by omega)
    · rw [hashLoop_last _ _ k n s hn, hashLoop_last _ _ k' n s hn]
      exact lastBytes_congr k k' n s h

/-- The hash of a key, as a function of its bytes. -/
def hashBytes (key : List UInt8) (initval : UInt32) : UInt32 :=
  hash 1 (fun i => key.getD i 0) key.length initval

/-- `hash` depends on the bytes of the key alone. -/
theorem hash_eq_hashBytes (addr : ℕ) (key : Mem) (length : ℕ) (initval : UInt32) :
    hash addr key length initval = hashBytes (load key 0 length) initval := by
  rw [hashBytes, hash_eq_loop, hash_eq_loop, load_length]
  apply hashLoop_congr
  intro i hi
  have hlen : i < (load key 0 length).length := by rwa [load_length]
  rw [List.getD_eq_getElem _ _ hlen, load_getElem, Nat.zero_add]

end Cclab.Hash
