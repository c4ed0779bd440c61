import Cclab.IntrusiveLists
import Cclab.NodeHeap
import Cclab.OperationRuns
import Mathlib.Data.List.AList

/-! `ResourceCache` of `resource_cache/resource_cache.h`: a map to items that are linked into
a ring through the sentinel `lru_head_`, the last item set first. -/
namespace Cclab.ResourceCache
open IntrusiveLists NodeHeap OperationRuns

variable {R : Type}

def kCacheExpireSeconds : ℤ := 30

/-- The data of a `ResourceCacheItem`; a null `shared_ptr` is `none`, and the clock counts
nanoseconds. -/
structure Item (R : Type) where
  key : String
  res : Option R
  lastModified : ℤ

/-- The address of the member `lru_head_`. -/
def lruHead : ℕ := 1

structure Cache (R : Type) where
  capacity : ℤ
  expireSeconds : ℤ
  cacheMap : AList fun _ : String => ℕ
  heap : Heap (Item R)
  nextItem : ℕ

def create (capacity expireSeconds now : ℤ) : Cache R where
  capacity := capacity
  expireSeconds := expireSeconds
  cacheMap := ∅
  heap := alloc (fun _ => none) lruHead ⟨⟨"",none,now⟩,lruHead,lruHead⟩
  nextItem := 2

def createDefault (capacity now : ℤ) : Cache R := create capacity kCacheExpireSeconds now

def insertToLRU (h : Heap (Item R)) (item : ℕ) : Option (Heap (Item R)) := do
  guard (item ≠ nullptr)
  let head ← h lruHead
  let h ← setNext h item head.next
  let h ← setPrev h item lruHead
  let head ← h lruHead
  let h ← setPrev h head.next item
  setNext h lruHead item

/-- The assertion and the first two statements of `RemoveFromLRU` and `MoveToLRUHead`. -/
def unlinkItem (h : Heap (Item R)) (item : ℕ) : Option (Heap (Item R)) := do
  let it ← h item
  guard (it.next ≠ nullptr ∧ it.prev ≠ nullptr)
  let h ← setNext h it.prev it.next
  let it ← h item
  setPrev h it.next it.prev

def removeFromLRU (h : Heap (Item R)) (item : ℕ) : Option (Heap (Item R)) := do
  let h ← unlinkItem h item
  return free h item

def moveToLRUHead (h : Heap (Item R)) (item : ℕ) : Option (Heap (Item R)) := do
  let h ← unlinkItem h item
  insertToLRU h item

/-- `Get`; `diff.count()` rounds towards zero. -/
def get (c : Cache R) (key : String) (now : ℤ) : Option (Option R) :=
  match c.cacheMap.lookup key with
  | none => some none
  | some item => do
    let it ← c.heap item
    return if (now-it.data.lastModified).tdiv 1000000000 < c.expireSeconds then it.data.res
      else none

/-- What `Set` does with a full cache. -/
def dropRear (c : Cache R) : Option (Cache R) := do
  let head ← c.heap lruHead
  let rear ← c.heap head.prev
  let h ← removeFromLRU c.heap head.prev
  return { c with cacheMap := c.cacheMap.erase rear.data.key, heap := h }

def addItem (c : Cache R) (data : Item R) : Option (Cache R) := do
  let h ← insertToLRU (alloc c.heap c.nextItem ⟨data,nullptr,nullptr⟩) c.nextItem
  return { c with
    cacheMap := c.cacheMap.insert data.key c.nextItem
    heap := h
    nextItem := c.nextItem+1 }

/-- `Set`; the size is compared with the capacity as an unsigned 64-bit number. -/
def set (c : Cache R) (key : String) (res : Option R) (now : ℤ) : Option (Cache R × Bool) :=
  match c.cacheMap.lookup key with
  | some item => do
    let it ← c.heap item
    let h ← setData c.heap item { it.data with res := res, lastModified := now }
    let h ← moveToLRUHead h item
    return ({ c with heap := h }, true)
  | none => do
    let c ← if (c.cacheMap.keys.length : ℤ) = c.capacity%2^64 then dropRear c else some c
    let c ← addItem c ⟨key,res,now⟩
    return (c,true)

inductive Op (R : Type) where
  | get (key : String) (now : ℤ)
  | set (key : String) (res : Option R) (now : ℤ)

inductive Answer (R : Type) where
  | get (res : Option R)
  | set (ok : Bool)

def step (c : Cache R) : Op R → Option (Cache R × Answer R)
  | .get key now => (get c key now).map fun res => (c, .get res)
  | .set key res now => (set c key res now).map fun r => (r.1, .set r.2)

end Cclab.ResourceCache
