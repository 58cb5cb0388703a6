import LibZenit.HashCommon
import LibZenit.Slots

/-!
# The LRU cache of `lru.c`

Nodes are array indices. Every array access is checked, and the loops that the source leaves
unbounded carry a fuel: an operation that would read or write outside an array, or that would not
finish, has no result. The eviction callback is seen through the list of its calls.
-/
namespace LibZenit.Lru
open HashCommon Slots

def lruNone : ℕ := sizeMax
def hashEmpty : ℕ := lruNone
def sizeofSizeT : ℕ := 8

/-- `zenit_lru_t`; the allocator, used only on creation and destruction, is left out. -/
structure Cache (keySize valueSize : ℕ) where
  capacity : ℕ
  count : ℕ
  keys : List (Bytes keySize)
  values : List (Bytes valueSize)
  prev : List ℕ
  next : List ℕ
  hashIndex : List ℕ
  head : ℕ
  tail : ℕ
  freeHead : ℕ
  hashTable : List ℕ
  hashCapacity : ℕ
  evictFn : Bool

variable {keySize valueSize : ℕ}

/-! ## Free list -/

def freelistPop (c : Cache keySize valueSize) : Option (ℕ × Cache keySize valueSize) := do
  let link ← c.next[c.freeHead]?
  some (c.freeHead, { c with freeHead := link })

def freelistPush (c : Cache keySize valueSize) (node : ℕ) : Option (Cache keySize valueSize) := do
  let next ← store c.next node c.freeHead
  some { c with next := next, freeHead := node }

/-! ## LRU list -/

def lruUnlink (c : Cache keySize valueSize) (node : ℕ) : Option (Cache keySize valueSize) := do
  let p ← c.prev[node]?
  let n ← c.next[node]?
  let c ← if p ≠ lruNone then do
      let next ← store c.next p n
      some { c with next := next }
    else some { c with head := n }
  let c ← if n ≠ lruNone then do
      let prev ← store c.prev n p
      some { c with prev := prev }
    else some { c with tail := p }
  let prev ← store c.prev node lruNone
  let next ← store c.next node lruNone
  some { c with prev := prev, next := next }

def lruPushFront (c : Cache keySize valueSize) (node : ℕ) : Option (Cache keySize valueSize) := do
  let prev ← store c.prev node lruNone
  let next ← store c.next node c.head
  let c := { c with prev := prev, next := next }
  let c ← if c.head ≠ lruNone then do
      let prev ← store c.prev c.head node
      some { c with prev := prev }
    else some { c with tail := node }
  some { c with head := node }

def lruMoveToFront (c : Cache keySize valueSize) (node : ℕ) : Option (Cache keySize valueSize) :=
  if c.head = node then some c
  else do
    let c ← lruUnlink c node
    lruPushFront c node

/-! ## Hash table -/

/-- `while (hash_table[idx] != HASH_EMPTY) idx = (idx + 1) & mask;` -/
def probeEmpty (table : List ℕ) (mask : ℕ) : ℕ → ℕ → Option ℕ
  | 0, _ => none
  | fuel + 1, idx => do
    let entry ← table[idx]?
    if entry = hashEmpty then some idx else probeEmpty table mask fuel ((idx + 1) &&& mask)

/-- Enter a node under its key: the probe and the two stores behind it. -/
def hashEnter (c : Cache keySize valueSize) (key : Bytes keySize) (node : ℕ) :
    Option (Cache keySize valueSize) := do
  let idx ← probeEmpty c.hashTable (mask c.hashCapacity) c.hashCapacity (home c.hashCapacity key)
  let table ← store c.hashTable idx node
  let index ← store c.hashIndex node idx
  some { c with hashTable := table, hashIndex := index }

/-- The walk of `hash_rebuild` over the LRU list. -/
def hashRebuildFrom : ℕ → Cache keySize valueSize → ℕ → Option (Cache keySize valueSize)
  | 0, c, n => if n = lruNone then some c else none
  | fuel + 1, c, n =>
    if n = lruNone then some c
    else do
      let key ← c.keys[n]?
      let c ← hashEnter c key n
      let n ← c.next[n]?
      hashRebuildFrom fuel c n

def hashReset (c : Cache keySize valueSize) : Option (Cache keySize valueSize) := do
  let table ← storeAll (fun _ => hashEmpty) c.hashCapacity c.hashTable
  some { c with hashTable := table }

def hashRebuild (c : Cache keySize valueSize) : Option (Cache keySize valueSize) := do
  let c ← hashReset c
  hashRebuildFrom c.capacity c c.head

/-- The loop of `hash_find_slot`, with the number of slots not yet tried. -/
def hashFindSlotFrom (c : Cache keySize valueSize) (key : Bytes keySize) :
    ℕ → ℕ → Option (ℕ × Bool)
  | 0, _ => some (sizeMax, false)
  | left + 1, idx => do
    let entry ← c.hashTable[idx]?
    if entry = hashEmpty then some (idx, false)
    else
      let stored ← c.keys[entry]?
      if stored = key then some (idx, true)
      else hashFindSlotFrom c key left ((idx + 1) &&& mask c.hashCapacity)

def hashFindSlot (c : Cache keySize valueSize) (key : Bytes keySize) : Option (ℕ × Bool) :=
  hashFindSlotFrom c key c.hashCapacity (home c.hashCapacity key)

/-! ## Construction -/

/-- An array of `nmemb` zeroed elements; the byte size is computed modulo `2 ^ 64`, so a wrapped
product yields fewer elements. -/
def allocArray {α : Type} (granted : Bool) (nmemb elemSize : ℕ) (zero : α) : Option (List α) :=
  if nmemb = 0 ∨ elemSize = 0 then none
  else if granted then some (List.replicate (wrap (nmemb * elemSize) / elemSize) zero)
  else none

/-- Link all nodes into the free list. -/
def freelistReset (c : Cache keySize valueSize) : Option (Cache keySize valueSize) := do
  let next ← storeAll (fun i => wrap (i + 1)) c.capacity c.next
  let next ← store next (c.capacity - 1) lruNone
  some { c with next := next, freeHead := 0 }

/-- `lru_create_impl`: `granted i` says whether the `i`-th allocation succeeds. The inner option is
the returned pointer. -/
def lruCreateImpl (keySize valueSize : ℕ) (granted : ℕ → Bool) (capacity : ℕ) (evictFn : Bool) :
    Option (Option (Cache keySize valueSize)) :=
  if keySize = 0 ∨ valueSize = 0 ∨ capacity = 0 then some none
  else if !granted 0 then some none
  else
    let hashCapacity := roundPow2 (wrap (capacity * 2))
    let keys := allocArray (granted 1) capacity keySize (List.Vector.replicate keySize 0)
    let values := allocArray (granted 2) capacity valueSize (List.Vector.replicate valueSize 0)
    let prev := allocArray (granted 3) capacity sizeofSizeT 0
    let next := allocArray (granted 4) capacity sizeofSizeT 0
    let hashIndex := allocArray (granted 5) capacity sizeofSizeT 0
    let hashTable := allocArray (granted 6) hashCapacity sizeofSizeT 0
    match keys, values, prev, next, hashIndex, hashTable with
    | some keys, some values, some prev, some next, some hashIndex, some hashTable => do
      let c ← hashReset
        { capacity, count := 0, keys, values, prev, next, hashIndex, head := lruNone,
          tail := lruNone, freeHead := 0, hashTable, hashCapacity, evictFn }
      let c ← freelistReset c
      some (some c)
    | _, _, _, _, _, _ => some none

/-! ## Operations

A key, value or output pointer may be `NULL`. Each operation returns what the source returns, the
calls it makes to the eviction callback, and the cache behind it. -/

/-- The arguments of the eviction callback for one node. -/
def entryAt (c : Cache keySize valueSize) (node : ℕ) : Option (Bytes keySize × Bytes valueSize) := do
  let key ← c.keys[node]?
  let value ← c.values[node]?
  some (key, value)

def notifyOne (c : Cache keySize valueSize) (node : ℕ) :
    Option (List (Bytes keySize × Bytes valueSize)) :=
  if c.evictFn then do
    let e ← entryAt c node
    some [e]
  else some []

/-- `while (node != LRU_NONE) { evict_fn(..); node = next[node]; }` -/
def notifyFrom (c : Cache keySize valueSize) :
    ℕ → ℕ → Option (List (Bytes keySize × Bytes valueSize))
  | 0, node => if node = lruNone then some [] else none
  | fuel + 1, node =>
    if node = lruNone then some []
    else do
      let e ← entryAt c node
      let node ← c.next[node]?
      let rest ← notifyFrom c fuel node
      some (e :: rest)

def notifyAll (c : Cache keySize valueSize) : Option (List (Bytes keySize × Bytes valueSize)) :=
  if c.evictFn then notifyFrom c c.capacity c.head else some []

/-- What `zenit_lru_put` does once the key is known to be absent. -/
def putFresh (c : Cache keySize valueSize) (key : Bytes keySize) (value : Bytes valueSize) :
    Option (List (Bytes keySize × Bytes valueSize) × Cache keySize valueSize) := do
  let (node, evicted, c, needRebuild) ← if c.count = c.capacity then do
      let evicted ← notifyOne c c.tail
      let c' ← lruUnlink c c.tail
      some (c.tail, evicted, c', true)
    else do
      let (node, c) ← freelistPop c
      some (node, [], { c with count := wrap (c.count + 1) }, false)
  let keys ← store c.keys node key
  let values ← store c.values node value
  let c ← lruPushFront { c with keys := keys, values := values } node
  let c ← if needRebuild then hashRebuild c else hashEnter c key node
  some (evicted, c)

def zenitLruPut (c : Cache keySize valueSize) (key : Option (Bytes keySize))
    (value : Option (Bytes valueSize)) :
    Option (ZenitError × List (Bytes keySize × Bytes valueSize) × Cache keySize valueSize) :=
  match key, value with
  | some key, some value => do
    let (slot, found) ← hashFindSlot c key
    if found then
      let node ← c.hashTable[slot]?
      let values ← store c.values node value
      let c ← lruMoveToFront { c with values := values } node
      some (.ok, [], c)
    else
      let (evicted, c) ← putFresh c key value
      some (.ok, evicted, c)
  | _, _ => some (.null, [], c)

/-- `wanted` says that the caller passed a buffer for the value. -/
def zenitLruGet (c : Cache keySize valueSize) (key : Option (Bytes keySize)) (wanted : Bool) :
    Option (Bool × Option (Bytes valueSize) × Cache keySize valueSize) :=
  match key with
  | none => some (false, none, c)
  | some key => do
    let (slot, found) ← hashFindSlot c key
    if found then
      let node ← c.hashTable[slot]?
      let value ← c.values[node]?
      let c ← lruMoveToFront c node
      some (true, if wanted then some value else none, c)
    else some (false, none, c)

def zenitLruPeek (c : Cache keySize valueSize) (key : Option (Bytes keySize)) (wanted : Bool) :
    Option (Bool × Option (Bytes valueSize)) :=
  match key with
  | none => some (false, none)
  | some key => do
    let (slot, found) ← hashFindSlot c key
    if found then
      let node ← c.hashTable[slot]?
      let value ← c.values[node]?
      some (true, if wanted then some value else none)
    else some (false, none)

def zenitLruContains (c : Cache keySize valueSize) (key : Option (Bytes keySize)) : Option Bool :=
  match key with
  | none => some false
  | some key => do
    let (_, found) ← hashFindSlot c key
    some found

def zenitLruRemove (c : Cache keySize valueSize) (key : Option (Bytes keySize)) :
    Option (ZenitError × Cache keySize valueSize) :=
  match key with
  | none => some (.null, c)
  | some key => do
    let (_, found) ← hashFindSlot c key
    if found then
      let (slot, _) ← hashFindSlot c key
      let node ← c.hashTable[slot]?
      let c ← lruUnlink c node
      let c ← freelistPush c node
      let c ← hashRebuild { c with count := wrap (c.count + sizeMax) }
      some (.ok, c)
    else some (.notFound, c)

def zenitLruClear (c : Cache keySize valueSize) :
    Option (List (Bytes keySize × Bytes valueSize) × Cache keySize valueSize) := do
  let evicted ← notifyAll c
  let c ← hashReset c
  let c ← freelistReset { c with head := lruNone, tail := lruNone }
  some (evicted, { c with count := 0 })

def zenitLruCount (c : Cache keySize valueSize) : ℕ := c.count

def zenitLruCapacity (c : Cache keySize valueSize) : ℕ := c.capacity

end LibZenit.Lru
