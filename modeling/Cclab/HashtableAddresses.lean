import Cclab.Hash
import Cclab.HashtableRuns

/-! The hash table over keys that lie at addresses. Every operation hashes the one key it is
given, where that key lies, and finds the items of a table over hashes of plain bytes. -/
namespace Cclab.Hashtable
open ByteMemory IntrusiveLists NodeHeap OperationRuns

/-- A key where it lies: its address, the memory from there on, and its length. -/
structure KeyPtr where
  addr : ℕ
  mem : Mem
  nkey : ℕ

def KeyPtr.bytes (k : KeyPtr) : List UInt8 := load k.mem 0 k.nkey

/-- `hash(key, nkey, 0)` -/
def KeyPtr.hash (k : KeyPtr) : UInt32 := Hash.hash k.addr k.mem k.nkey 0

def KeyPtr.bucket (k : KeyPtr) : ℕ := k.hash.toNat &&& hashmask hashpower

/-- `HASHITEM_KEY` of an item, when that is the address `addr`. -/
def storedKey (addr : ℕ) (d : HashItem) : KeyPtr :=
  ⟨addr, fun i => d.bytes (d.keyOffset+i), sizeT d.keyLength⟩

/-- The operations as they are called; an insertion with the address of the stored key. -/
inductive PointerOp where
  | insert (addr : ℕ) (hi : ℕ) (item : Node HashItem)
  | remove (key : Option KeyPtr) (item : Bool)
  | find (key : Option KeyPtr)
  | clear

/-- The operation, when only the bytes of its key matter. -/
def PointerOp.op : PointerOp → Op
  | .insert _ hi item => .insert hi item
  | .remove key item => .remove (key.map KeyPtr.bytes) item
  | .find key => .find (key.map KeyPtr.bytes)
  | .clear => .clear

/-- The key that the operation passes to `hash`. -/
def PointerOp.key : PointerOp → Option KeyPtr
  | .insert addr _ item => some (storedKey addr item.data)
  | .remove key _ => key
  | .find key => key
  | .clear => none

/-- One operation. Its only hash is that of its own key, so the hash function is constant. -/
def pointerStep (fuel : ℕ) (s : State) (op : PointerOp) : Option (State × Answer) :=
  step (fun _ => (op.key.map KeyPtr.hash).getD 0) fuel s op.op

/-- The hash as a function of the bytes. -/
def hashOf (key : List UInt8) : UInt32 := Hash.hashBytes key 0

theorem KeyPtr.hash_eq (k : KeyPtr) : k.hash = hashOf k.bytes :=
  Hash.hash_eq_hashBytes k.addr k.mem k.nkey 0

theorem KeyPtr.bucket_eq (k : KeyPtr) : k.bucket = bucketOf hashOf k.bytes := by
  rw [KeyPtr.bucket, k.hash_eq, bucketOf]

theorem storedKey_bytes (addr : ℕ) (d : HashItem) : (storedKey addr d).bytes = itemKey d := by
  show (List.range _).map _ = (List.range _).map _
  apply List.map_congr_left
  intro i _
  show d.bytes (d.keyOffset+(0+i)) = d.bytes (d.keyOffset+i)
  rw [Nat.zero_add]

section bucket
variable (hash hash' : List UInt8 → UInt32) (fuel : ℕ) (s : State)

theorem bucketOf_congr (key : List UInt8) (h : hash key = hash' key) :
    bucketOf hash key = bucketOf hash' key := by
  rw [bucketOf, bucketOf, h]

theorem hashtableFind_congr (key : List UInt8) (h : hash key = hash' key) :
    hashtableFind hash fuel s (some key) = hashtableFind hash' fuel s (some key) := by
  simp only [hashtableFind, bucketOf_congr hash hash' key h]

theorem hashtableRemove_congr (key : List UInt8) (item : Bool) (h : hash key = hash' key) :
    hashtableRemove hash fuel s (some key) item = hashtableRemove hash' fuel s (some key) item := by
  simp only [hashtableRemove, hashitemBefore, bucketOf_congr hash hash' key h]

theorem hashtableInsert_congr (hi : ℕ)
    (h : ∀ it, s.heap hi = some it → hash (itemKey it.data) = hash' (itemKey it.data)) :
    hashtableInsert hash fuel s hi = hashtableInsert hash' fuel s hi := by
  cases hit : s.heap hi with
  | none => simp only [hashtableInsert, hit, Option.bind_eq_bind, Option.bind_none]
  | some it =>
    simp only [hashtableInsert, hit, Option.bind_eq_bind, Option.bind_some,
      bucketOf_congr hash hash' _ (h it hit)]

end bucket

/-- The addresses do not matter: an operation is that of the table over bytes. -/
theorem pointerStep_eq (fuel : ℕ) (s : State) (op : PointerOp) :
    pointerStep fuel s op = step hashOf fuel s op.op := by
  cases op with
  | insert addr hi item =>
    have hkey : (storedKey addr item.data).hash = hashOf (itemKey item.data) := by
      rw [KeyPtr.hash_eq, storedKey_bytes]
    by_cases hnull : hi = nullptr
    · show (hashtableInsert _ _ _ _).map _ = (hashtableInsert _ _ _ _).map _
      rw [hashtableInsert, hashtableInsert, if_pos hnull, if_pos hnull]
    · apply congrArg (Option.map _)
      apply hashtableInsert_congr
      intro it hit
      -- the item that is hashed is the one whose memory was just filled
      have hfill : fill s.heap hi item hi = some item := by
        rw [fill, if_neg hnull, alloc, Function.update_self]
      obtain rfl : item = it := Option.some.inj (hfill.symm.trans hit)
      exact hkey
  | remove key item =>
    cases key with
    | none => rfl
    | some k =>
      have hremove := hashtableRemove_congr (fun _ => k.hash) hashOf fuel s k.bytes item k.hash_eq
      exact congrArg (Option.map _) hremove
  | find key =>
    cases key with
    | none => rfl
    | some k =>
      have hfind := hashtableFind_congr (fun _ => k.hash) hashOf fuel s k.bytes k.hash_eq
      exact congrArg (Option.map _) hfind
  | clear => rfl

theorem pointer_run (heap : Heap HashItem) (ops : List PointerOp) (fuel : ℕ)
    (hf : ops.length < fuel) (hl : Legal specStep Allowed [] (ops.map PointerOp.op)) :
    ∃ s, run (pointerStep fuel) (hashtableInit heap) ops =
        some (s, (specRun specStep [] (ops.map PointerOp.op)).2) ∧
      Linked hashOf s (specRun specStep [] (ops.map PointerOp.op)).1 ∧
      (specRun specStep [] (ops.map PointerOp.op)).1.length < fuel := by
  have hstep : pointerStep fuel = fun s op => step hashOf fuel s op.op := by
    ext1 s
    ext1 op
    exact pointerStep_eq fuel s op
  rw [hstep, run_map PointerOp.op]
  exact linked_run hashOf heap _ fuel (by rwa [List.length_map]) hl

/-- After every run, whatever the addresses were: the item inserted last with the bytes of a key
is linked in the bucket of the key, and it is found and removed wherever the key lies. For
`hash` takes neither the address nor the memory behind the key into account. -/
theorem lookup_ignores_addresses (heap : Heap HashItem) (ops : List PointerOp) (fuel : ℕ)
    (hf : ops.length < fuel) (hl : Legal specStep Allowed [] (ops.map PointerOp.op)) :
    (∀ addr addr' m m' n initval, load m 0 n = load m' 0 n →
      Hash.hash addr m n initval = Hash.hash addr' m' n initval) ∧
    ∃ s answers, run (pointerStep fuel) (hashtableInit heap) ops = some (s,answers) ∧
      ∀ key hi, ((ops.map PointerOp.op).zip answers).foldl (ownerAfter key.bytes) none = some hi →
        (∃ d items, dataOf s.heap hi = some d ∧ itemKey d = key.bytes ∧
          (∀ addr, (storedKey addr d).bucket = key.bucket) ∧
          Chain (chainNext s.heap) (chainPtr (s.ht.primaryHashtable key.bucket)) items ∧
          hi ∈ items) ∧
        pointerStep fuel s (.find (some key)) = some (s, .find hi) ∧
        ∃ s', pointerStep fuel s (.remove (some key) true) = some (s', .remove .htOk (some hi)) := by
  constructor
  · intro addr addr' m m' n initval hbytes
    rw [Hash.hash_eq_hashBytes, Hash.hash_eq_hashBytes, hbytes]
  rcases pointer_run heap ops fuel hf hl with ⟨s,hrun,h,hlen⟩
  refine ⟨s, _, hrun, ?_⟩
  intro key hi howner
  let es := (specRun specStep [] (ops.map PointerOp.op)).1
  have hby : LinkedBy hashOf s es es := (linkedBy_self_iff hashOf s es).mpr h
  have hlookup : (KeyedList.lookup Prod.snd key.bytes es).map Prod.fst = some hi := by
    rw [← howner]
    exact (owner_specRun key.bytes (ops.map PointerOp.op) []).symm
  obtain ⟨e,he,rfl⟩ := Option.map_eq_some_iff.mp hlookup
  have hk : e.2 = key.bytes := (KeyedList.lookup_some Prod.snd key.bytes es e he).1
  have hmem := List.mem_of_find?_eq_some he
  have hitem := h.items e hmem
  rcases hitem.1.node with ⟨d,hd,-,-,hdkey⟩
  refine ⟨⟨d, chainOf hashOf es key.bucket, hd, hdkey.trans hk, ?_, h.chains _, ?_⟩, ?_, ?_⟩
  · intro addr
    rw [KeyPtr.bucket_eq, KeyPtr.bucket_eq, storedKey_bytes, hdkey, hk]
  · rw [key.bucket_eq, chainOf, List.mem_reverse]
    apply List.mem_map_of_mem
    rw [List.mem_filter, hk]
    exact ⟨hmem, by simp⟩
  -- find and remove hash the key where it lies, with the same result
  · have hfind := hby.hashtableFind hashOf fuel s es es hlen key.bytes
    rw [hlookup, Option.getD_some] at hfind
    rw [pointerStep_eq]
    exact congrArg (Option.map _) hfind
  · have hne : key.bytes ≠ [] := hk ▸ hitem.2
    rcases hby.remove hashOf s es es fuel hlen key.bytes e he hne with ⟨s',hs',-⟩
    refine ⟨s', ?_⟩
    rw [pointerStep_eq]
    exact congrArg (Option.map _) hs'

/-- The stored key lies at an address that is read by words, the one passed at an odd address,
with other bytes behind it. -/
theorem lookup_ignores_addresses_odd : ∃ s answers,
    run (pointerStep 2) (hashtableInit fun _ => none)
      [.insert 8 5 ⟨⟨0,1,0,fun a => UInt8.ofNat (7+a)⟩,0,0⟩] = some (s,answers) ∧
    pointerStep 2 s (.find (some ⟨3,fun a => UInt8.ofNat (7-a),1⟩)) = some (s, .find 5) := by
  let op : PointerOp := .insert 8 5 ⟨⟨0,1,0,fun a => UInt8.ofNat (7+a)⟩,0,0⟩
  have hl : Legal specStep Allowed [] ([op].map PointerOp.op) := ⟨fun _ => by decide, trivial⟩
  rcases (lookup_ignores_addresses (fun _ => none) [op] 2 (by decide) hl).2 with
    ⟨s,answers,hrun,hs⟩
  rcases pointer_run (fun _ => none) [op] 2 (by decide) hl with ⟨s',hrun',-⟩
  have hsame := Prod.mk.inj (Option.some.inj (hrun.symm.trans hrun'))
  obtain rfl : answers = [.insert .htOk] := hsame.2
  exact ⟨s, _, hrun, (hs ⟨3,fun a => UInt8.ofNat (7-a),1⟩ 5 rfl).2.1⟩

end Cclab.Hashtable
