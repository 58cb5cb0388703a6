import LibZenit.Blocks
import LibZenit.HashCommon
import LibZenit.Slots

/-!
# The hash map of `map.c` and the hash set of `set.c`

Both files hold the same open-addressing table; they differ in what a slot holds. The table is
written once over a slot type `ε` with the key it carries. Array accesses are checked and the
unbounded probe loops get one step per slot: a probe that has not stopped after a full round never
will, since it only reads. The slots are those that lie inside the block the allocator was asked
for.
-/
namespace LibZenit.HashTable
open Blocks HashCommon Slots

/-- `zenit_map_t` and `zenit_set_t` without sizes and allocator. -/
structure Table (ε : Type) where
  slots : List ε
  states : List SlotState
  capacity : ℕ
  count : ℕ
  deleted : ℕ
  deriving DecidableEq

section Core

variable {keySize : ℕ} {ε : Type} (keyOf : ε → Bytes keySize)

/-- The loop of `probe_slot`. -/
def probeSlotFrom (t : Table ε) (key : Bytes keySize) (fuel index firstDeleted : ℕ)
    (foundDeleted : Bool) : Option (SlotState × ℕ) :=
  match fuel with
  | 0 => none
  | fuel + 1 => do
    match ← t.states[index]? with
    | .empty =>
      if foundDeleted then some (.deleted, firstDeleted) else some (.empty, index)
    | .deleted =>
      probeSlotFrom t key fuel ((index + 1) &&& mask t.capacity)
        (if foundDeleted then firstDeleted else index) true
    | .occupied =>
      let slot ← t.slots[index]?
      if keyOf slot = key then some (.occupied, index)
      else probeSlotFrom t key fuel ((index + 1) &&& mask t.capacity) firstDeleted foundDeleted

/-- `probe_slot` with a bound on the number of slots it may look at. -/
def probeSlotBounded (t : Table ε) (key : Bytes keySize) (fuel : ℕ) : Option (SlotState × ℕ) :=
  probeSlotFrom keyOf t key fuel (home t.capacity key) t.capacity false

def probeSlot (t : Table ε) (key : Bytes keySize) : Option (SlotState × ℕ) :=
  probeSlotBounded keyOf t key t.capacity

/-- `while (states[index] == HASH_SLOT_OCCUPIED) index = (index + 1) & mask;` -/
def probeFree (states : List SlotState) (mask : ℕ) : ℕ → ℕ → Option ℕ
  | 0, _ => none
  | fuel + 1, index => do
    let state ← states[index]?
    if state = .occupied then probeFree states mask fuel ((index + 1) &&& mask) else some index

/-- Re-insertion of one live entry during a rehash. -/
def reinsert (t : Table ε) (slot : ε) : Option (Table ε) := do
  let index ← probeFree t.states (mask t.capacity) t.capacity (home t.capacity (keyOf slot))
  let slots ← store t.slots index slot
  let states ← store t.states index .occupied
  some { t with slots := slots, states := states, count := wrap (t.count + 1) }

/-- A table fresh from the zeroing allocator, which multiplies the capacity and the size of a slot
modulo `2 ^ 64`. -/
def fresh (slotSize : ℕ) (zero : ε) (capacity : ℕ) : Table ε :=
  { slots := List.replicate (slotsOf slotSize capacity) zero
    states := List.replicate capacity .empty
    capacity, count := 0, deleted := 0 }

/-- The loop body of `rehash`: slot `i` of the old table. -/
def moveSlot (t new : Table ε) (i : ℕ) : Option (Table ε) := do
  let state ← t.states[i]?
  if state = .occupied then
    let slot ← t.slots[i]?
    reinsert keyOf new slot
  else some new

/-- `granted` tells which of the two allocations succeed. -/
def rehash (slotSize : ℕ) (zero : ε) (granted : Bool × Bool) (t : Table ε) (newCapacity : ℕ) :
    Option (ZenitError × Table ε) :=
  if !granted.1 then some (.alloc, t)
  else if !granted.2 then some (.alloc, t)
  else do
    let t' ← (List.range t.capacity).foldlM (moveSlot keyOf t) (fresh slotSize zero newCapacity)
    some (.ok, t')

/-- The load check fires. -/
def Overloaded (t : Table ε) : Prop :=
  wrap (wrap (t.count + t.deleted) * 100) > wrap (t.capacity * hashLoadPercent)

instance (t : Table ε) : Decidable (Overloaded t) := inferInstanceAs (Decidable (_ > _))

def ensureLoad (slotSize : ℕ) (zero : ε) (granted : Bool × Bool) (t : Table ε) :
    Option (ZenitError × Table ε) :=
  if Overloaded t then rehash keyOf slotSize zero granted t (wrap (t.capacity * hashGrowthFactor))
  else some (.ok, t)

/-- Create with capacity: `granted` tells which allocations (handle, slots, states) succeed. -/
def create (slotSize : ℕ) (zero : ε) (granted : Bool × Bool × Bool) (capacity : ℕ) :
    Option (Table ε) :=
  if capacity = 0 then none
  else if granted.1 && granted.2.1 && granted.2.2 then
    some (fresh slotSize zero (roundPow2 capacity))
  else none

/-- Put a new entry in the slot that a probe returned. -/
def place (t : Table ε) (state : SlotState) (index : ℕ) (slot : ε) : Option (Table ε) := do
  let slots ← store t.slots index slot
  let states ← store t.states index .occupied
  some { t with
    slots := slots
    states := states
    count := wrap (t.count + 1)
    deleted := if state = .deleted then wrap (t.deleted + sizeMax) else t.deleted }

def remove (t : Table ε) (key : Option (Bytes keySize)) : Option (ZenitError × Table ε) :=
  match key with
  | none => some (.null, t)
  | some key => do
    let (state, index) ← probeSlot keyOf t key
    if state ≠ .occupied then some (.notFound, t)
    else
      let states ← store t.states index .deleted
      some (.ok, { t with
        states := states
        count := wrap (t.count + sizeMax)
        deleted := wrap (t.deleted + 1) })

def contains (t : Table ε) (key : Option (Bytes keySize)) : Option Bool :=
  match key with
  | none => some false
  | some key => do
    let (state, _) ← probeSlot keyOf t key
    some (state = .occupied)

def clear (t : Table ε) : Option (Table ε) := do
  let states ← storeAll (fun _ => SlotState.empty) t.capacity t.states
  some { t with states := states, count := 0, deleted := 0 }

end Core

/-! ## The map -/

section Map

variable {keySize valueSize : ℕ}

abbrev Map (keySize valueSize : ℕ) := Table (Bytes keySize × Bytes valueSize)

def zeroPair : Bytes keySize × Bytes valueSize :=
  (List.Vector.replicate keySize 0, List.Vector.replicate valueSize 0)

/-- A slot holds a key and a value: `slot_size` is their sum, whose own wrap the product absorbs. -/
def zenitMapCreateWithCapacityAndAllocator (keySize valueSize : ℕ) (granted : Bool × Bool × Bool)
    (capacity : ℕ) : Option (Map keySize valueSize) :=
  if keySize = 0 ∨ valueSize = 0 then none
  else create (keySize + valueSize) zeroPair granted capacity

def zenitMapInsert (granted : Bool × Bool) (map : Map keySize valueSize)
    (key : Option (Bytes keySize)) (value : Option (Bytes valueSize)) :
    Option (ZenitError × Map keySize valueSize) :=
  match key, value with
  | some key, some value => do
    let (lr, map) ← ensureLoad Prod.fst (keySize + valueSize) zeroPair granted map
    if lr ≠ .ok then some (lr, map)
    else
      let (state, index) ← probeSlot Prod.fst map key
      if state = .occupied then
        -- only the value portion of the slot is written
        let old ← map.slots[index]?
        let slots ← store map.slots index (old.1, value)
        some (.ok, { map with slots := slots })
      else
        let map ← place map state index (key, value)
        some (.ok, map)
  | _, _ => some (.null, map)

/-- `wanted` says that the caller passed a buffer for the value. -/
def zenitMapGet (map : Map keySize valueSize) (key : Option (Bytes keySize)) (wanted : Bool) :
    Option (ZenitError × Option (Bytes valueSize)) :=
  match key with
  | none => some (.null, none)
  | some key =>
    if !wanted then some (.null, none)
    else do
      let (state, index) ← probeSlot Prod.fst map key
      if state ≠ .occupied then some (.notFound, none)
      else
        let slot ← map.slots[index]?
        some (.ok, some slot.2)

def zenitMapRemove (map : Map keySize valueSize) (key : Option (Bytes keySize)) :
    Option (ZenitError × Map keySize valueSize) := remove Prod.fst map key

def zenitMapContains (map : Map keySize valueSize) (key : Option (Bytes keySize)) : Option Bool :=
  contains Prod.fst map key

def zenitMapCount (map : Map keySize valueSize) : ℕ := map.count

def zenitMapCapacity (map : Map keySize valueSize) : ℕ := map.capacity

def zenitMapClear (map : Map keySize valueSize) : Option (Map keySize valueSize) := clear map

end Map

/-! ## The set -/

section Set

variable {keySize : ℕ}

abbrev KeySet (keySize : ℕ) := Table (Bytes keySize)

def zeroKey : Bytes keySize := List.Vector.replicate keySize 0

def zenitSetCreateWithCapacityAndAllocator (keySize : ℕ) (granted : Bool × Bool × Bool)
    (capacity : ℕ) : Option (KeySet keySize) :=
  if keySize = 0 then none else create keySize zeroKey granted capacity

def zenitSetInsert (granted : Bool × Bool) (set : KeySet keySize) (key : Option (Bytes keySize)) :
    Option (ZenitError × KeySet keySize) :=
  match key with
  | none => some (.null, set)
  | some key => do
    let (lr, set) ← ensureLoad id keySize zeroKey granted set
    if lr ≠ .ok then some (lr, set)
    else
      let (state, index) ← probeSlot id set key
      if state = .occupied then some (.ok, set)
      else
        let set ← place set state index key
        some (.ok, set)

def zenitSetRemove (set : KeySet keySize) (key : Option (Bytes keySize)) :
    Option (ZenitError × KeySet keySize) := remove id set key

def zenitSetContains (set : KeySet keySize) (key : Option (Bytes keySize)) : Option Bool :=
  contains id set key

def zenitSetClear (set : KeySet keySize) : Option (KeySet keySize) := clear set

end Set

end LibZenit.HashTable
