import LibZenit.Refinement

/-!
# The object pool of `pool.c`

Objects are given by their offsets from the buffer. The free list is a checked block of `size_t`
entries; what it holds from `free_count` on is stale.
-/
namespace LibZenit.Pools
open Blocks

structure Pool where
  freeList : List ℕ
  capacity : ℕ
  objectSize : ℕ
  freeCount : ℕ
  deriving DecidableEq

/-- `for (; i < capacity; i++) free_list[i] = i;` with `rest` rounds to go. -/
def fillFreeList (freeList : List ℕ) (i : ℕ) : ℕ → Exec (List ℕ)
  | 0 => .ok freeList
  | rest + 1 => (writeSlot freeList i i).bind fun freeList => fillFreeList freeList (i + 1) rest

/-- The three allocations are the handle, the objects and the free list. -/
def zenitPoolCreate (handle buffer list : Bool) (objectSize capacity : ℕ) : Exec (Option Pool) :=
  if objectSize = 0 ∨ capacity = 0 then .ok none
  else if !handle then .ok none
  else if !granted buffer (wrap (capacity * objectSize)) then .ok none
  else if !granted list (wrap (capacity * 8)) then .ok none
  else (fillFreeList (List.replicate (slotsOf 8 capacity) 0) 0 capacity).map fun freeList =>
    some ⟨freeList, capacity, objectSize, capacity⟩

def zenitPoolAcquire (pool : Pool) : Exec (Pool × Option ℕ) :=
  if pool.freeCount = 0 then .ok (pool, none)
  else
    let freeCount := pool.freeCount - 1
    (readSlot pool.freeList freeCount).map fun slot =>
      ({ pool with freeCount := freeCount }, some (wrap (slot * pool.objectSize)))

/-- `for (; i < free_count; i++) if (free_list[i] == slot) …` with `rest` rounds to go. -/
def listed (freeList : List ℕ) (slot i : ℕ) : ℕ → Exec Bool
  | 0 => .ok false
  | rest + 1 => (readSlot freeList i).bind fun entry =>
    if entry = slot then .ok true else listed freeList slot (i + 1) rest

/-- The pointer is `NULL` or has a distance `obj - pool->buffer`. -/
def zenitPoolRelease (pool : Pool) (obj : Option ℤ) : Exec (Pool × ZenitError) :=
  match obj with
  | none => .ok (pool, .null)
  | some offset =>
    if offset < 0 ∨ offset.toNat ≥ wrap (pool.capacity * pool.objectSize) then .ok (pool, .param)
    else
      let slot := offset.toNat / pool.objectSize
      if offset.toNat % pool.objectSize ≠ 0 then .ok (pool, .param)
      else (listed pool.freeList slot 0 pool.freeCount).bind fun found =>
        if found then .ok (pool, .doubleFree)
        else (writeSlot pool.freeList pool.freeCount slot).map fun freeList =>
          ({ pool with freeList := freeList, freeCount := wrap (pool.freeCount + 1) }, .ok)

def zenitPoolClear (pool : Pool) : Exec Pool :=
  (fillFreeList pool.freeList 0 pool.capacity).map fun freeList =>
    { pool with freeList := freeList, freeCount := pool.capacity }

inductive Call where
  | acquire
  | release (obj : Option ℤ)
  | clear

/-- The offset of the object, or the result code; clearing tells nothing. -/
inductive Answer where
  | object (offset : Option ℕ)
  | result (code : ZenitError)
  | done

def step (pool : Pool) : Call → Exec (Pool × Answer)
  | .acquire => (zenitPoolAcquire pool).map fun p => (p.1, .object p.2)
  | .release obj => (zenitPoolRelease pool obj).map fun p => (p.1, .result p.2)
  | .clear => (zenitPoolClear pool).map fun pool => (pool, .done)

end LibZenit.Pools
