import LibZenit.Growth
import LibZenit.Refinement

/-!
# The circular buffer of `deque.c`

Elements are values of one slot. The block holds the slots of `capacity * elem_size` bytes, and
every access to it is checked. Pointers to elements are modelled by what they point to.
-/
namespace LibZenit.Deques
open Blocks Growth

structure Deque (α : Type) where
  buffer : List α
  elemSize : ℕ
  count : ℕ
  capacity : ℕ
  head : ℕ
  tail : ℕ

variable {α : Type}

/-! ## The buffer -/

/-- The elements from head to tail, copied to the front of a new block. -/
def copyOut (d : Deque α) (newBuf : List α) : Exec (List α) :=
  (List.range d.count).foldlM
    (fun buf i => (readSlot d.buffer ((d.head + i) % d.capacity)).bind (writeSlot buf i)) newBuf

/-! ## The two ends -/

def putFront (d : Deque α) (elem : α) : Exec (Deque α × Reply α) :=
  let head := if d.head = 0 then d.capacity - 1 else d.head - 1
  (writeSlot d.buffer head elem).map fun buffer =>
    ({ d with buffer := buffer, head := head, count := d.count + 1 }, ⟨.ok, none⟩)

def putBack (d : Deque α) (elem : α) : Exec (Deque α × Reply α) :=
  (writeSlot d.buffer d.tail elem).map fun buffer =>
    ({ d with
      buffer := buffer
      tail := (d.tail + 1) % d.capacity
      count := d.count + 1 }, ⟨.ok, none⟩)

def zenitDequePopFront (d : Deque α) : Exec (Deque α × Reply α) :=
  if d.count = 0 then .ok (d, ⟨.empty, none⟩)
  else (readSlot d.buffer d.head).map fun elem =>
    ({ d with head := (d.head + 1) % d.capacity, count := d.count - 1 }, ⟨.ok, some elem⟩)

def zenitDequePopBack (d : Deque α) : Exec (Deque α × Reply α) :=
  if d.count = 0 then .ok (d, ⟨.empty, none⟩)
  else
    let tail := if d.tail = 0 then d.capacity - 1 else d.tail - 1
    (readSlot d.buffer tail).map fun elem =>
      ({ d with tail := tail, count := d.count - 1 }, ⟨.ok, some elem⟩)

/-! ## Queries -/

def zenitDequeGet (d : Deque α) (index : ℕ) : Exec (Option α) :=
  if index ≥ d.count then .ok none
  else (readSlot d.buffer ((d.head + index) % d.capacity)).map some

def zenitDequeFront (d : Deque α) : Exec (Option α) :=
  if d.count = 0 then .ok none else (readSlot d.buffer d.head).map some

def zenitDequeBack (d : Deque α) : Exec (Option α) :=
  if d.count = 0 then .ok none
  else
    let back := if d.tail = 0 then d.capacity - 1 else d.tail - 1
    (readSlot d.buffer back).map some

def zenitDequeCount (d : Deque α) : ℕ := d.count

def zenitDequeEmpty (d : Deque α) : Bool := d.count = 0

def zenitDequeClear (d : Deque α) : Deque α := { d with head := 0, tail := 0, count := 0 }

/-! ## Growing -/

variable [Inhabited α]

def reallocBuffer (ok : Bool) (d : Deque α) (newCap : ℕ) : Exec (Deque α × ZenitError) :=
  if newCap = 0 then
    .ok ({ d with buffer := [], capacity := 0, head := 0, tail := 0 }, .ok)
  else if !ok then .ok (d, .alloc)
  else (copyOut d (List.replicate (slotsOf d.elemSize newCap) default)).map fun newBuf =>
    ({ d with buffer := newBuf, capacity := newCap, head := 0, tail := d.count }, .ok)

def grow (fuel : ℕ) (ok : Bool) (d : Deque α) (minCapacity : ℕ) : Exec (Deque α × ZenitError) :=
  (growLoop minCapacity fuel d.capacity).bind (reallocBuffer ok d)

def zenitDequeCreateWithCapacity (handle block : Bool) (elemSize capacity : ℕ) :
    Option (Deque α) :=
  if elemSize = 0 ∨ capacity = 0 then none
  else if !handle || !block then none
  else some {
    buffer := List.replicate (slotsOf elemSize capacity) default
    elemSize := elemSize
    count := 0
    capacity := capacity
    head := 0
    tail := 0 }

/-- `DEQUE_DEFAULT_CAPACITY` is eight slots. -/
def zenitDequeCreateWithAllocator (handle block : Bool) (elemSize : ℕ) : Option (Deque α) :=
  zenitDequeCreateWithCapacity handle block elemSize 8

/-! ## Pushing -/

/-- Grow a full buffer, then go on with the deque that has room. -/
def withRoom (fuel : ℕ) (ok : Bool) (d : Deque α)
    (go : Deque α → Exec (Deque α × Reply α)) : Exec (Deque α × Reply α) :=
  if d.count = d.capacity then
    (grow fuel ok d (wrap (d.capacity + 1))).bind fun p =>
      if p.2 ≠ .ok then .ok (p.1, ⟨p.2, none⟩) else go p.1
  else go d

def zenitDequePushFront (fuel : ℕ) (ok : Bool) (d : Deque α) (elem : α) :
    Exec (Deque α × Reply α) :=
  withRoom fuel ok d (putFront · elem)

def zenitDequePushBack (fuel : ℕ) (ok : Bool) (d : Deque α) (elem : α) :
    Exec (Deque α × Reply α) :=
  withRoom fuel ok d (putBack · elem)

/-! ## Reserving and shrinking -/

def zenitDequeReserve (ok : Bool) (d : Deque α) (capacity : ℕ) : Exec (Deque α × ZenitError) :=
  if capacity ≤ d.capacity then .ok (d, .ok) else reallocBuffer ok d capacity

def zenitDequeShrinkToFit (ok : Bool) (d : Deque α) : Exec (Deque α × ZenitError) :=
  if d.count = d.capacity then .ok (d, .ok) else reallocBuffer ok d d.count

/-! ## Runs -/

inductive Op (α : Type) where
  | pushFront (ok : Bool) (elem : α)
  | pushBack (ok : Bool) (elem : α)
  | popFront
  | popBack
  | get (index : ℕ)
  | front
  | back
  | reserve (ok : Bool) (capacity : ℕ)
  | shrinkToFit (ok : Bool)
  | clear

def step (fuel : ℕ) (d : Deque α) : Op α → Exec (Deque α × Reply α)
  | .pushFront ok elem => zenitDequePushFront fuel ok d elem
  | .pushBack ok elem => zenitDequePushBack fuel ok d elem
  | .popFront => zenitDequePopFront d
  | .popBack => zenitDequePopBack d
  | .get index => (zenitDequeGet d index).map fun e => (d, ⟨.ok, e⟩)
  | .front => (zenitDequeFront d).map fun e => (d, ⟨.ok, e⟩)
  | .back => (zenitDequeBack d).map fun e => (d, ⟨.ok, e⟩)
  | .reserve ok capacity => (zenitDequeReserve ok d capacity).map fun p => (p.1, ⟨p.2, none⟩)
  | .shrinkToFit ok => (zenitDequeShrinkToFit ok d).map fun p => (p.1, ⟨p.2, none⟩)
  | .clear => .ok (zenitDequeClear d, ⟨.ok, none⟩)

def exec (fuel : ℕ) (d : Deque α) (ops : List (Op α)) : Exec (Deque α × List (Reply α)) :=
  Refinement.run (step fuel) d ops

/-- The deques a program can hold. -/
inductive Reachable : Deque α → Prop
  | create {handle block : Bool} {elemSize capacity : ℕ} {d : Deque α}
      (made : zenitDequeCreateWithCapacity handle block elemSize capacity = some d) : Reachable d
  | step {fuel : ℕ} {d d' : Deque α} {op : Op α} {reply : Reply α} (prior : Reachable d)
      (done : step fuel d op = .ok (d', reply)) : Reachable d'

end LibZenit.Deques
