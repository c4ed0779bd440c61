import Cclab.ByteMemory
import Cclab.NodeHeap
import Mathlib.Data.Int.Notation

/-! The hash table of `hashtable/hashtable.c`: items of the caller, linked into the chain of
their bucket and into one list of all items. The hash function is a parameter. -/
namespace Cclab.Hashtable
open ByteMemory NodeHeap

inductive HtErrorCode where
  | htOk
  | htInvalidParam
  | htInvalidHashtable
  | htExists
  | htNotFound
  | htOutOfMemory
deriving DecidableEq, Repr

/-- A `HashItem` besides its two list links. `bytes` is the memory behind `end`. -/
structure HashItem where
  hNext : ℕ
  keyLength : ℤ
  keyOffset : ℕ
  bytes : Mem

structure HashTable where
  hashItems : UInt32
  primaryHashtable : ℕ → ℕ
  head : ℕ
  tail : ℕ

/-- The table and the memory that holds the items. -/
structure State where
  ht : HashTable
  heap : Heap HashItem

def hashpower : ℕ := 16
def hashsize (n : ℕ) : ℕ := 1 <<< n
def hashmask (n : ℕ) : ℕ := hashsize n-1

/-- An `int` as the `size_t` that it is converted to. -/
def sizeT (n : ℤ) : ℕ := (n%2^64).toNat

/-- The first `nkey` bytes of `HASHITEM_KEY`. -/
def hashitemKey (hi : HashItem) (nkey : ℕ) : List UInt8 := load hi.bytes hi.keyOffset nkey

/-- The key that `hashtable_insert` reads from an item. -/
def itemKey (hi : HashItem) : List UInt8 := hashitemKey hi (sizeT hi.keyLength)

/-- `nkey == hi->key_length && memcmp(key, HASHITEM_KEY(hi), nkey) == 0` -/
def keyIs (key : List UInt8) (hi : HashItem) : Bool :=
  key.length = sizeT hi.keyLength ∧ key = hashitemKey hi key.length

def setHNext (h : Heap HashItem) (p q : ℕ) : Option (Heap HashItem) := do
  let it ← h p
  setData h p { it.data with hNext := q }

/-- `if (p) p->next = q;` -/
def setNextUnlessNull (h : Heap HashItem) (p q : ℕ) : Option (Heap HashItem) :=
  if p = nullptr then some h else setNext h p q

/-- `if (p) p->prev = q;` -/
def setPrevUnlessNull (h : Heap HashItem) (p q : ℕ) : Option (Heap HashItem) :=
  if p = nullptr then some h else setPrev h p q

/-- What a `HashItem**` points to: a bucket, or the `h_next` of an item. -/
inductive Place where
  | bucket (b : ℕ)
  | hNext (p : ℕ)

def State.read (s : State) : Place → Option ℕ
  | .bucket b => some (s.ht.primaryHashtable b)
  | .hNext p => (s.heap p).map fun it => it.data.hNext

def State.write (s : State) (q : ℕ) : Place → Option State
  | .bucket b => some { s with ht := { s.ht with
      primaryHashtable := Function.update s.ht.primaryHashtable b q } }
  | .hNext p => (setHNext s.heap p q).map fun h => { s with heap := h }

/-- The loop of `hashtable_find` and `hashtable_insert` over one chain. -/
def walkChain (h : Heap HashItem) (key : List UInt8) : ℕ → ℕ → Option ℕ
  | 0, _ => none
  | fuel+1, pos =>
    if pos = nullptr then some nullptr
    else (h pos).bind fun it =>
      if keyIs key it.data then some pos else walkChain h key fuel it.data.hNext

/-- The loop of `_hashitem_before`. -/
def walkPlaces (s : State) (key : List UInt8) : ℕ → Place → Option Place
  | 0, _ => none
  | fuel+1, pos =>
    (s.read pos).bind fun q =>
      if q = nullptr then some pos
      else (s.heap q).bind fun it =>
        if keyIs key it.data then some pos else walkPlaces s key fuel (.hNext q)

/-- What `hashtable_remove` and the loop of `hashtable_clear` do to the neighbours and to the
list links of an item. -/
def unlinkItem (h : Heap HashItem) (item : ℕ) : Option (Heap HashItem) := do
  let it ← h item
  let h ← setNextUnlessNull h it.prev it.next
  let it ← h item
  let h ← setPrevUnlessNull h it.next it.prev
  let h ← setNext h item nullptr
  setPrev h item nullptr

section operations
variable (hash : List UInt8 → UInt32) (fuel : ℕ)

def bucketOf (key : List UInt8) : ℕ := (hash key).toNat &&& hashmask hashpower

def hashitemBefore (s : State) (key : List UInt8) : Option Place :=
  walkPlaces s key fuel (.bucket (bucketOf hash key))

/-- `hashtable_init` when `calloc` succeeds. -/
def hashtableInit (heap : Heap HashItem) : State := ⟨⟨0,fun _ => nullptr,nullptr,nullptr⟩,heap⟩

/-- `key` are the `nkey` bytes behind the pointer, if that is not null. -/
def hashtableFind (s : State) (key : Option (List UInt8)) : Option ℕ :=
  match key with
  | none => some nullptr
  | some key =>
    if key = [] then some nullptr
    else walkChain s.heap key fuel (s.ht.primaryHashtable (bucketOf hash key))

def hashtableInsert (s : State) (hi : ℕ) : Option (State × HtErrorCode) :=
  if hi = nullptr then some (s,.htInvalidParam)
  else do
    let it ← s.heap hi
    let key := itemKey it.data
    let bucket := bucketOf hash key
    let pos ← walkChain s.heap key fuel (s.ht.primaryHashtable bucket)
    if pos ≠ nullptr then some (s,.htExists)
    else
      let h ← setHNext s.heap hi (s.ht.primaryHashtable bucket)
      let h ← setNext h hi nullptr
      let h ← setPrev h hi s.ht.tail
      let h ← setNextUnlessNull h s.ht.tail hi
      some (⟨⟨s.ht.hashItems+1, Function.update s.ht.primaryHashtable bucket hi,
        if s.ht.head = nullptr then hi else s.ht.head, hi⟩, h⟩, .htOk)

/-- With `*item` if it was written; `item` tells that the caller's pointer is not null. -/
def hashtableRemove (s : State) (key : Option (List UInt8)) (item : Bool) :
    Option (State × HtErrorCode × Option ℕ) :=
  match key with
  | none => some (s,.htInvalidParam,none)
  | some key =>
    if key = [] ∨ item = false then some (s,.htInvalidParam,none)
    else do
      let before ← hashitemBefore hash fuel s key
      let hi ← s.read before
      if hi = nullptr then some (s,.htNotFound,none)
      else
        let it ← s.heap hi
        let s ← s.write it.data.hNext before
        let h ← setHNext s.heap hi nullptr
        let it ← h hi
        let head := if hi = s.ht.head then it.next else s.ht.head
        let tail := if hi = s.ht.tail then it.prev else s.ht.tail
        let h ← unlinkItem h hi
        some (⟨{ s.ht with head := head, tail := tail, hashItems := s.ht.hashItems-1 }, h⟩,
          .htOk, some hi)

/-- The loop of `hashtable_clear`, with the items that it passes to `free_func`. -/
def clearItems : ℕ → Heap HashItem → UInt32 → ℕ → Option (Heap HashItem × UInt32 × List ℕ)
  | 0, _, _, _ => none
  | fuel+1, h, items, hi =>
    if hi = nullptr then some (h,items,[])
    else do
      let it ← h hi
      let h ← unlinkItem h hi
      let r ← clearItems fuel (free h hi) (items-1) it.next
      some (r.1,r.2.1,hi :: r.2.2)

def hashtableClearFreed (s : State) : Option (State × ℤ × List ℕ) :=
  if s.ht.head = nullptr ∨ s.ht.tail = nullptr then some (s,-1,[])
  else (clearItems fuel s.heap s.ht.hashItems s.ht.head).map fun r =>
    (⟨⟨r.2.1,fun _ => nullptr,nullptr,nullptr⟩,r.1⟩, 0, r.2.2)

def hashtableClear (s : State) : Option (State × ℤ) :=
  (hashtableClearFreed fuel s).map fun r => (r.1,r.2.1)

inductive Op where
  | insert (hi : ℕ) (item : Node HashItem)
  | remove (key : Option (List UInt8)) (item : Bool)
  | find (key : Option (List UInt8))
  | clear

inductive Answer where
  | insert (code : HtErrorCode)
  | remove (code : HtErrorCode) (item : Option ℕ)
  | find (item : ℕ)
  | clear (ret : ℤ)

/-- What the caller does before an insertion: it fills the item, with anything in its links. -/
def fill (h : Heap HashItem) (hi : ℕ) (item : Node HashItem) : Heap HashItem :=
  if hi = nullptr then h else alloc h hi item

def step (s : State) : Op → Option (State × Answer)
  | .insert hi item => (hashtableInsert hash fuel { s with heap := fill s.heap hi item } hi).map
      fun r => (r.1, .insert r.2)
  | .remove key item => (hashtableRemove hash fuel s key item).map fun r =>
      (r.1, .remove r.2.1 r.2.2)
  | .find key => (hashtableFind hash fuel s key).map fun r => (s, .find r)
  | .clear => (hashtableClear fuel s).map fun r => (r.1, .clear r.2)

end operations

end Cclab.Hashtable
