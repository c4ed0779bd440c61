import Cclab.ByteMemory
import Cclab.NodeHeap
import Mathlib.Data.Int.Notation

/-! `IOBuf` of `httpserver/iobuf.cc`: a ring of blocks, each showing a window of a buffer that
it may share with other blocks. -/
namespace Cclab.Iobuf
open ByteMemory NodeHeap

def kDefaultBufferSize : ℕ := 512*1024
def sizeofSharedInfo : ℕ := 4

/-- A `Block` besides its links; `data` is the offset of `data_` in the buffer. -/
structure Block where
  buffer : ℕ
  data : ℕ
  length : ℕ
  capacity : ℕ
deriving DecidableEq, Repr

def Block.tail (b : Block) : ℕ := b.data+b.length

/-- `Space`, a pointer difference as a `size_t`. -/
def Block.space (b : Block) : ℕ := (((b.capacity:ℤ)-(b.data+b.length:ℕ))%2^64).toNat

/-- The blocks, the bytes of the buffers, and for each buffer the references taken less those given
back, which are 0 once it is free. Addresses are not reused. -/
structure Store where
  heap : Heap Block
  mem : ℕ → Mem
  refs : ℕ → ℕ
  nextBlock : ℕ
  nextBuffer : ℕ

/-- `length` has no bound here; of the operations only `ByteAt` reads it. -/
structure IOBuf where
  length : ℕ
  head : ℕ
deriving DecidableEq, Repr

/-- `new Block` -/
def newBlock (st : Store) : Store × ℕ :=
  ({ st with
    heap := alloc st.heap st.nextBlock
      ⟨⟨st.nextBuffer,0,0,kDefaultBufferSize-sizeofSharedInfo⟩,st.nextBlock,st.nextBlock⟩
    refs := Function.update st.refs st.nextBuffer 1
    nextBlock := st.nextBlock+1
    nextBuffer := st.nextBuffer+1 }, st.nextBlock)

def clone (st : Store) (p : ℕ) : Option (Store × ℕ) := do
  let b ← dataOf st.heap p
  guard (st.refs b.buffer ≠ 0)
  return ({ st with
    heap := alloc st.heap st.nextBlock ⟨b,st.nextBlock,st.nextBlock⟩
    refs := Function.update st.refs b.buffer (st.refs b.buffer+1)
    nextBlock := st.nextBlock+1 }, st.nextBlock)

/-- How `Unref` counts: what is left of the references of a buffer when one is given back. -/
class Counting where
  unref : ℕ → ℕ

/-- A count without bounds, which the results take that do not depend on the bounds. -/
instance counting : Counting := ⟨fun refs => refs-1⟩

@[simp] theorem unref_counting (refs : ℕ) : Counting.unref refs = refs-1 := rfl

/-- The number in the `std::atomic<int>` of a buffer with so many references. -/
def sharedInfo (refs : ℕ) : ℤ := Int.bmod refs (2^32)

/-- `Unref` as it is, where the count wraps. -/
abbrev atomicInt : Counting := ⟨fun refs => if sharedInfo refs > 1 then refs-1 else 0⟩

/-- `delete` of a block, which drops its reference. -/
def deleteBlock [Counting] (st : Store) (p : ℕ) : Option Store := do
  let b ← dataOf st.heap p
  guard (st.refs b.buffer ≠ 0)
  return { st with
    heap := free st.heap p
    refs := Function.update st.refs b.buffer (Counting.unref (st.refs b.buffer)) }

def Store.setBlock (st : Store) (p : ℕ) (b : Block) : Option Store :=
  (setData st.heap p b).map fun h => { st with heap := h }

def blockTrimStart (st : Store) (p amount : ℕ) : Option Store := do
  let b ← dataOf st.heap p
  guard (amount ≤ b.length)
  st.setBlock p { b with data := b.data+amount, length := b.length-amount }

def blockTrimEnd (st : Store) (p amount : ℕ) : Option Store := do
  let b ← dataOf st.heap p
  guard (amount ≤ b.length)
  st.setBlock p { b with length := b.length-amount }

/-- `Block::Append`; the sum is a `size_t`. -/
def blockAppend (st : Store) (p size : ℕ) : Option Store := do
  let b ← dataOf st.heap p
  guard ((b.length+size)%2^64 ≤ b.capacity)
  st.setBlock p { b with length := (b.length+size)%2^64 }

/-- The links that `IOBuf::Append` sets behind the last block. -/
def linkRear (h : Heap Block) (head p : ℕ) : Option (Heap Block) := do
  let hd ← h head
  let rear ← h hd.prev
  let h ← setPrev h rear.next p
  let rear ← h hd.prev
  let h ← setNext h p rear.next
  let h ← setPrev h p hd.prev
  setNext h hd.prev p

/-- `IOBuf::Append` of a block. -/
def appendBlock (st : Store) (buf : IOBuf) (p : ℕ) : Option (Store × IOBuf) := do
  let b ← dataOf st.heap p
  if buf.head = nullptr then some (st, ⟨buf.length+b.length,p⟩)
  else (linkRear st.heap buf.head p).map fun h =>
    ({ st with heap := h }, ⟨buf.length+b.length,buf.head⟩)

/-- The links that `Pop` sets when there is another block. -/
def unlinkHead (h : Heap Block) (head : ℕ) : Option (Heap Block) := do
  let hd ← h head
  let h ← setNext h hd.prev hd.next
  let h ← setPrev h hd.next hd.prev
  let h ← setNext h head head
  setPrev h head head

/-- `Pop`, with the block that it returns. -/
def pop (st : Store) (buf : IOBuf) : Option (Store × IOBuf × ℕ) :=
  if buf.head = nullptr then some (st,buf,nullptr)
  else do
    let hd ← st.heap buf.head
    if hd.prev = buf.head then some (st,⟨buf.length-hd.data.length,nullptr⟩,buf.head)
    else (unlinkHead st.heap buf.head).map fun h =>
      ({ st with heap := h }, ⟨buf.length-hd.data.length,hd.next⟩, buf.head)

/-- `~IOBuf`, whose loop deletes what `Pop` returns. -/
def destroy [Counting] : ℕ → Store → IOBuf → Option Store
  | 0, _, _ => none
  | fuel+1, st, buf =>
    if buf.head = nullptr then some st
    else do
      let (st,buf,p) ← pop st buf
      let st ← deleteBlock st p
      destroy fuel st buf

/-- `PreAllocate`, which returns a place in a buffer and the size behind it. -/
def preAllocate (st : Store) (buf : IOBuf) : Option (Store × IOBuf × (ℕ × ℕ) × ℕ) :=
  if buf.head = nullptr then do
    let r := newBlock st
    let b ← dataOf r.1.heap r.2
    return (r.1, ⟨buf.length,r.2⟩, (b.buffer,0), b.capacity)
  else do
    let hd ← st.heap buf.head
    let rear ← dataOf st.heap hd.prev
    if rear.space > 0 then some (st, buf, (rear.buffer,rear.tail), rear.space)
    else
      let r := newBlock st
      let b ← dataOf r.1.heap r.2
      let q ← appendBlock r.1 buf r.2
      return (q.1, q.2, (b.buffer,0), b.capacity)

def postAllocate (st : Store) (buf : IOBuf) (size : ℕ) : Option (Store × IOBuf) := do
  guard (buf.head ≠ nullptr)
  let hd ← st.heap buf.head
  let st ← blockAppend st hd.prev size
  return (st, { buf with length := buf.length+size })

/-- The caller's copy to the place that `PreAllocate` returned. -/
def copyTo (st : Store) (place : ℕ × ℕ) (bs : List UInt8) : Option Store := do
  guard (st.refs place.1 ≠ 0)
  return { st with mem := Function.update st.mem place.1 (store (st.mem place.1) place.2 bs) }

/-- `PreAllocate`, a copy of `bs` to the place returned, and `PostAllocate`. -/
def write (st : Store) (buf : IOBuf) (bs : List UInt8) : Option (Store × IOBuf) := do
  let (st,buf,place,_) ← preAllocate st buf
  let st ← copyTo st place bs
  postAllocate st buf bs.length

/-- The loop of `TrimStart`. -/
def trimStart [Counting] : ℕ → Store → IOBuf → ℕ → Option (Store × IOBuf)
  | 0, _, _, _ => none
  | fuel+1, st, buf, amount =>
    if amount = 0 ∨ buf.head = nullptr then some (st,buf)
    else do
      let b ← dataOf st.heap buf.head
      if b.length > amount then
        let st ← blockTrimStart st buf.head amount
        return (st, { buf with length := buf.length-amount })
      else
        let (st,buf,p) ← pop st buf
        let st ← deleteBlock st p
        trimStart fuel st buf (amount-b.length)

/-- What `TrimEnd` does with a last block that is not longer than what is left to trim. -/
def removeRear [Counting] (st : Store) (buf : IOBuf) : Option (Store × IOBuf) := do
  let hd ← st.heap buf.head
  let rear ← st.heap hd.prev
  let buf := { buf with length := buf.length-rear.data.length }
  if hd.prev = buf.head then (deleteBlock st buf.head).map fun st => (st, { buf with head := nullptr })
  else
    let h ← setNext st.heap rear.prev rear.next
    let rear ← h hd.prev
    let h ← setPrev h rear.next rear.prev
    (deleteBlock { st with heap := h } hd.prev).map fun st => (st,buf)

/-- The loop of `TrimEnd`. -/
def trimEnd [Counting] : ℕ → Store → IOBuf → ℕ → Option (Store × IOBuf)
  | 0, _, _, _ => none
  | fuel+1, st, buf, amount =>
    if amount = 0 ∨ buf.head = nullptr then some (st,buf)
    else do
      let hd ← st.heap buf.head
      let b ← dataOf st.heap hd.prev
      if b.length > amount then
        let st ← blockTrimEnd st hd.prev amount
        return (st, { buf with length := buf.length-amount })
      else
        let (st,buf) ← removeRear st buf
        trimEnd fuel st buf (amount-b.length)

/-- `Split` inside the first block. -/
def splitBlock (st : Store) (buf piece : IOBuf) (n : ℕ) : Option (Store × IOBuf × IOBuf) := do
  let (st,p) ← clone st buf.head
  let b ← dataOf st.heap p
  let st ← blockTrimEnd st p (b.length-n)
  let (st,piece) ← appendBlock st piece p
  let st ← blockTrimStart st buf.head n
  return (st, { buf with length := buf.length-n }, piece)

/-- The loop of `Split`; `piece` is the new `IOBuf`. -/
def splitLoop : ℕ → Store → IOBuf → IOBuf → ℕ → Option (Store × IOBuf × IOBuf)
  | 0, _, _, _, _ => none
  | fuel+1, st, buf, piece, n =>
    if n = 0 ∨ buf.head = nullptr then some (st,buf,piece)
    else do
      let b ← dataOf st.heap buf.head
      if b.length ≤ n then
        let (st,buf,p) ← pop st buf
        let (st,piece) ← appendBlock st piece p
        splitLoop fuel st buf piece (n-b.length)
      else splitBlock st buf piece n

def split (fuel : ℕ) (st : Store) (buf : IOBuf) (n : ℕ) : Option (Store × IOBuf × IOBuf) :=
  splitLoop fuel st buf ⟨0,nullptr⟩ n

/-- The bytes of one block, `Block::ToString`. -/
def blockToString (st : Store) (p : ℕ) : Option (List UInt8) := do
  let b ← dataOf st.heap p
  guard (st.refs b.buffer ≠ 0)
  return load (st.mem b.buffer) b.data b.length

/-- The loop of `IOBuf::ToString` from the block `p`. -/
def toStringFrom (st : Store) (head : ℕ) : ℕ → ℕ → Option (List UInt8)
  | 0, _ => none
  | fuel+1, p =>
    if p = nullptr then some []
    else do
      let bs ← blockToString st p
      let node ← st.heap p
      if node.next = head then some bs
      else (toStringFrom st head fuel node.next).map fun rest => bs ++ rest

def toString (fuel : ℕ) (st : Store) (buf : IOBuf) : Option (List UInt8) :=
  toStringFrom st buf.head fuel buf.head

/-- The loop of `ByteAt` from the block `p`. -/
def byteAtFrom (st : Store) (head : ℕ) : ℕ → ℕ → ℕ → Option UInt8
  | 0, _, _ => none
  | fuel+1, p, pos =>
    if p = nullptr then some 255
    else do
      let node ← st.heap p
      if pos < node.data.length then
        guard (st.refs node.data.buffer ≠ 0)
        return st.mem node.data.buffer (node.data.data+pos)
      else if node.next = head then some 255
      else byteAtFrom st head fuel node.next (pos-node.data.length)

def byteAt (fuel : ℕ) (st : Store) (buf : IOBuf) (pos : ℕ) : Option UInt8 := do
  guard (pos < buf.length)
  byteAtFrom st buf.head fuel buf.head pos

/-- All `IOBuf`s that there are; `Split` adds the one that it returns at the end. -/
structure Sys where
  store : Store
  bufs : List IOBuf

/-- One empty `IOBuf`; `mem` is what `malloc` leaves in the buffers. -/
def start (mem : ℕ → Mem) : Sys := ⟨⟨fun _ => none,mem,fun _ => 0,1,0⟩,[⟨0,nullptr⟩]⟩

inductive Op where
  | write (i : ℕ) (bs : List UInt8)
  | trimStart (i n : ℕ)
  | trimEnd (i n : ℕ)
  | split (i n : ℕ)

/-- No loop over the blocks of an `IOBuf` is longer. -/
def Store.fuel (st : Store) : ℕ := st.nextBlock+1

def move [Counting] (s : Sys) : Op → Option Sys
  | .write i bs => do
    let buf ← s.bufs[i]?
    let r ← write s.store buf bs
    return ⟨r.1, s.bufs.set i r.2⟩
  | .trimStart i n => do
    let buf ← s.bufs[i]?
    let r ← trimStart s.store.fuel s.store buf n
    return ⟨r.1, s.bufs.set i r.2⟩
  | .trimEnd i n => do
    let buf ← s.bufs[i]?
    let r ← trimEnd s.store.fuel s.store buf n
    return ⟨r.1, s.bufs.set i r.2⟩
  | .split i n => do
    let buf ← s.bufs[i]?
    let r ← split s.store.fuel s.store buf n
    return ⟨r.1, s.bufs.set i r.2.1 ++ [r.2.2]⟩

/-- An `IOBuf` more. -/
def Sys.create (s : Sys) : Sys := ⟨s.store, s.bufs ++ [⟨0,nullptr⟩]⟩

def Sys.destroy [Counting] (s : Sys) (i : ℕ) : Option Sys := do
  let buf ← s.bufs[i]?
  let st ← Iobuf.destroy s.store.fuel s.store buf
  return ⟨st, s.bufs.eraseIdx i⟩

end Cclab.Iobuf
