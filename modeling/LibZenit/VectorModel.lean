import LibZenit.Growth
import LibZenit.Reallocation

/-!
# The growable array of `vector.c`

Elements are values of one slot. The block holds the slots of `capacity * elem_size` bytes, and
every access to it is checked. Pointers to elements are modelled by what they point to.
-/
namespace LibZenit.Vectors
open Blocks Growth Reallocation

structure Vector (α : Type) where
  buffer : List α
  elemSize : ℕ
  count : ℕ
  capacity : ℕ

variable {α : Type}

/-! ## Creation -/

/-- The block is allocated with the first element. -/
def zenitVectorCreate (handle : Bool) (elemSize : ℕ) : Option (Vector α) :=
  if elemSize = 0 then none
  else if !handle then none
  else some { buffer := [], elemSize := elemSize, count := 0, capacity := 0 }

def zenitVectorCreateWithCapacity [Inhabited α] (handle block : Bool) (elemSize capacity : ℕ) :
    Option (Vector α) :=
  if elemSize = 0 ∨ capacity = 0 then none
  else if !handle || !block then none
  else some {
    buffer := List.replicate (slotsOf elemSize capacity) default
    elemSize := elemSize
    count := 0
    capacity := capacity }

/-! ## The elements -/

def putLast (v : Vector α) (elem : α) : Exec (Vector α × Reply α) :=
  (writeSlot v.buffer v.count elem).map fun buffer =>
    ({ v with buffer := buffer, count := v.count + 1 }, ⟨.ok, none⟩)

/-- The elements from `index` on are moved up by one slot. -/
def putAt (v : Vector α) (index : ℕ) (elem : α) : Exec (Vector α × Reply α) :=
  (if index < v.count then moveSlots v.buffer (index + 1) index (v.count - index)
    else .ok v.buffer).bind fun buffer =>
  (writeSlot buffer index elem).map fun buffer =>
    ({ v with buffer := buffer, count := v.count + 1 }, ⟨.ok, none⟩)

def zenitVectorPop (v : Vector α) : Exec (Vector α × Reply α) :=
  if v.count = 0 then .ok (v, ⟨.empty, none⟩)
  else (readSlot v.buffer (v.count - 1)).map fun elem =>
    ({ v with count := v.count - 1 }, ⟨.ok, some elem⟩)

/-- The elements behind `index` are moved down by one slot. -/
def zenitVectorRemove (v : Vector α) (index : ℕ) : Exec (Vector α × Reply α) :=
  if index ≥ v.count then .ok (v, ⟨.param, none⟩)
  else (readSlot v.buffer index).bind fun elem =>
    (if index + 1 < v.count then moveSlots v.buffer index (index + 1) (v.count - index - 1)
      else .ok v.buffer).map fun buffer =>
    ({ v with buffer := buffer, count := v.count - 1 }, ⟨.ok, some elem⟩)

def zenitVectorGet (v : Vector α) (index : ℕ) : Exec (Option α) :=
  if index ≥ v.count then .ok none else (readSlot v.buffer index).map some

def zenitVectorSet (v : Vector α) (index : ℕ) (elem : α) : Exec (Vector α × Reply α) :=
  if index ≥ v.count then .ok (v, ⟨.param, none⟩)
  else (writeSlot v.buffer index elem).map fun buffer =>
    ({ v with buffer := buffer }, ⟨.ok, none⟩)

def zenitVectorClear (v : Vector α) : Vector α := { v with count := 0 }

/-! ## Growing -/

variable [Inhabited α]

/-- A vector shrunk to nothing gives its block back. -/
def reallocBuffer (ok : Bool) (v : Vector α) (newCap : ℕ) : Vector α × ZenitError :=
  if newCap = 0 then ({ v with buffer := [], capacity := 0 }, .ok)
  else if !ok then (v, .alloc)
  else ({ v with
    buffer := resize default (slotsOf v.elemSize newCap) v.buffer
    capacity := newCap }, .ok)

def grow (fuel : ℕ) (ok : Bool) (v : Vector α) (minCapacity : ℕ) : Exec (Vector α × ZenitError) :=
  (growLoop minCapacity fuel v.capacity).map (reallocBuffer ok v)

/-- Grow a full block to `minCapacity`, then go on with the vector that has room. -/
def withRoom (fuel : ℕ) (ok : Bool) (v : Vector α) (minCapacity : ℕ)
    (go : Vector α → Exec (Vector α × Reply α)) : Exec (Vector α × Reply α) :=
  if v.count = v.capacity then
    (grow fuel ok v minCapacity).bind fun p =>
      if p.2 ≠ .ok then .ok (p.1, ⟨p.2, none⟩) else go p.1
  else go v

def zenitVectorPush (fuel : ℕ) (ok : Bool) (v : Vector α) (elem : α) : Exec (Vector α × Reply α) :=
  withRoom fuel ok v (wrap (v.capacity + 1)) (putLast · elem)

def zenitVectorInsert (fuel : ℕ) (ok : Bool) (v : Vector α) (index : ℕ) (elem : α) :
    Exec (Vector α × Reply α) :=
  if index > v.count then .ok (v, ⟨.param, none⟩)
  else withRoom fuel ok v (wrap (v.count + 1)) (putAt · index elem)

def zenitVectorReserve (ok : Bool) (v : Vector α) (capacity : ℕ) : Vector α × ZenitError :=
  if capacity ≤ v.capacity then (v, .ok) else reallocBuffer ok v capacity

def zenitVectorShrinkToFit (ok : Bool) (v : Vector α) : Vector α × ZenitError :=
  if v.count = v.capacity then (v, .ok) else reallocBuffer ok v v.count

/-! ## Runs -/

inductive Op (α : Type) where
  | push (ok : Bool) (elem : α)
  | pop
  | insert (ok : Bool) (index : ℕ) (elem : α)
  | remove (index : ℕ)
  | get (index : ℕ)
  | set (index : ℕ) (elem : α)
  | reserve (ok : Bool) (capacity : ℕ)
  | shrinkToFit (ok : Bool)
  | clear

def step (fuel : ℕ) (v : Vector α) : Op α → Exec (Vector α × Reply α)
  | .push ok elem => zenitVectorPush fuel ok v elem
  | .pop => zenitVectorPop v
  | .insert ok index elem => zenitVectorInsert fuel ok v index elem
  | .remove index => zenitVectorRemove v index
  | .get index => (zenitVectorGet v index).map fun e => (v, ⟨.ok, e⟩)
  | .set index elem => zenitVectorSet v index elem
  | .reserve ok capacity =>
    .ok ((zenitVectorReserve ok v capacity).1, ⟨(zenitVectorReserve ok v capacity).2, none⟩)
  | .shrinkToFit ok =>
    .ok ((zenitVectorShrinkToFit ok v).1, ⟨(zenitVectorShrinkToFit ok v).2, none⟩)
  | .clear => .ok (zenitVectorClear v, ⟨.ok, none⟩)

/-! ## Either kind of allocator -/

/-- `realloc_buffer` with the call of `zenit_allocator_realloc` written out. -/
def reallocBufferBy (hasRealloc ok : Bool) (v : Vector α) (newCap : ℕ) :
    Exec (Vector α × ZenitError) :=
  if newCap = 0 then .ok ({ v with buffer := [], capacity := 0 }, .ok)
  else if !ok then .ok (v, .alloc)
  else (zenitAllocatorRealloc hasRealloc default v.buffer (slotsOf v.elemSize v.capacity)
      (slotsOf v.elemSize newCap)).map fun buffer =>
    ({ v with buffer := buffer, capacity := newCap }, .ok)

def withRoomBy (hasRealloc : Bool) (fuel : ℕ) (ok : Bool) (v : Vector α) (minCapacity : ℕ)
    (go : Vector α → Exec (Vector α × Reply α)) : Exec (Vector α × Reply α) :=
  if v.count = v.capacity then
    ((growLoop minCapacity fuel v.capacity).bind (reallocBufferBy hasRealloc ok v)).bind fun p =>
      if p.2 ≠ .ok then .ok (p.1, ⟨p.2, none⟩) else go p.1
  else go v

def stepBy (hasRealloc : Bool) (fuel : ℕ) (v : Vector α) : Op α → Exec (Vector α × Reply α)
  | .push ok elem => withRoomBy hasRealloc fuel ok v (wrap (v.capacity + 1)) (putLast · elem)
  | .insert ok index elem =>
    if index > v.count then .ok (v, ⟨.param, none⟩)
    else withRoomBy hasRealloc fuel ok v (wrap (v.count + 1)) (putAt · index elem)
  | .reserve ok capacity =>
    (if capacity ≤ v.capacity then .ok (v, .ok)
      else reallocBufferBy hasRealloc ok v capacity).map fun p => (p.1, ⟨p.2, none⟩)
  | .shrinkToFit ok =>
    (if v.count = v.capacity then .ok (v, .ok)
      else reallocBufferBy hasRealloc ok v v.count).map fun p => (p.1, ⟨p.2, none⟩)
  | op => step fuel v op

/-- The vectors a program can hold. -/
inductive Reachable : Vector α → Prop
  | create {handle : Bool} {elemSize : ℕ} {v : Vector α}
      (made : zenitVectorCreate handle elemSize = some v) : Reachable v
  | withCapacity {handle block : Bool} {elemSize capacity : ℕ} {v : Vector α}
      (made : zenitVectorCreateWithCapacity handle block elemSize capacity = some v) : Reachable v
  | step {fuel : ℕ} {v v' : Vector α} {op : Op α} {reply : Reply α} (prior : Reachable v)
      (done : step fuel v op = .ok (v', reply)) : Reachable v'

end LibZenit.Vectors
