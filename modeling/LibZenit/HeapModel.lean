import LibZenit.Growth
import LibZenit.Refinement

/-!
# The binary heap of `heap.c`

Elements are values of one slot. The block holds the slots of `capacity * elem_size` bytes, and
every access to it is checked. A loop over the levels of the tree gets as many rounds as the tree
has slots.
-/
namespace LibZenit.Heaps
open Blocks Growth

structure Heap (α : Type) where
  buffer : List α
  elemSize : ℕ
  count : ℕ
  capacity : ℕ
  compare : α → α → ℤ

variable {α : Type}

/-! ## Sifting -/

def swapElements (buf : List α) (i j : ℕ) : Exec (List α) :=
  (readSlot buf i).bind fun a => (readSlot buf j).bind fun b =>
    (writeSlot buf i b).bind fun buf => writeSlot buf j a

/-- `while (idx > 0)` -/
def siftUpLoop (compare : α → α → ℤ) : ℕ → List α → ℕ → Exec (List α)
  | 0, _, _ => .error .hang
  | fuel + 1, buf, idx =>
    if idx = 0 then .ok buf
    else
      let parent := (idx - 1) / 2
      (readSlot buf idx).bind fun a => (readSlot buf parent).bind fun b =>
        if compare a b ≤ 0 then .ok buf
        else (swapElements buf idx parent).bind fun buf => siftUpLoop compare fuel buf parent

def siftUp (h : Heap α) (idx : ℕ) : Exec (Heap α) :=
  (siftUpLoop h.compare (idx + 1) h.buffer idx).map fun buffer => { h with buffer := buffer }

/-- The child takes the place of `largest` if there is one and it exceeds it. -/
def largerOf (compare : α → α → ℤ) (n : ℕ) (buf : List α) (child largest : ℕ) : Exec ℕ :=
  if child < n then
    (readSlot buf child).bind fun a => (readSlot buf largest).map fun b =>
      if compare a b > 0 then child else largest
  else .ok largest

/-- `while (1)` -/
def siftDownLoop (compare : α → α → ℤ) (n : ℕ) : ℕ → List α → ℕ → Exec (List α)
  | 0, _, _ => .error .hang
  | fuel + 1, buf, idx =>
    (largerOf compare n buf (2 * idx + 1) idx).bind fun largest =>
    (largerOf compare n buf (2 * idx + 2) largest).bind fun largest =>
      if largest = idx then .ok buf
      else (swapElements buf idx largest).bind fun buf => siftDownLoop compare n fuel buf largest

def siftDown (h : Heap α) (idx : ℕ) : Exec (Heap α) :=
  (siftDownLoop h.compare h.count (h.count + 1) h.buffer idx).map fun buffer =>
    { h with buffer := buffer }

/-! ## Taking elements out -/

def zenitHeapPop (h : Heap α) : Exec (Heap α × Reply α) :=
  if h.count = 0 then .ok (h, ⟨.empty, none⟩)
  else (readSlot h.buffer 0).bind fun out =>
    let count := h.count - 1
    if count > 0 then
      (readSlot h.buffer count).bind fun last =>
      (writeSlot h.buffer 0 last).bind fun buffer =>
      (siftDown { h with buffer := buffer, count := count } 0).map fun h => (h, ⟨.ok, some out⟩)
    else .ok ({ h with count := count }, ⟨.ok, some out⟩)

def zenitHeapPeek (h : Heap α) : Exec (Option α) :=
  if h.count = 0 then .ok none else (readSlot h.buffer 0).map some

def zenitHeapClear (h : Heap α) : Heap α := { h with count := 0 }

/-! ## Building -/

/-- `memcpy(buffer, array, count * elem_size)` -/
def copyIn (elemSize : ℕ) (buf array : List α) : Exec (List α) :=
  let n := slotsOf elemSize array.length
  if n ≤ buf.length then .ok (array.take n ++ buf.drop n) else .error .outOfBounds

/-- Floyd's loop over the parents, from `idx` down to the root. -/
def heapify (h : Heap α) : ℕ → Exec (Heap α)
  | 0 => .ok h
  | idx + 1 => (siftDown h idx).bind fun h => heapify h idx

def fillFrom (h : Heap α) (array : List α) : Exec (Heap α × ZenitError) :=
  (copyIn h.elemSize h.buffer array).bind fun buffer =>
    (heapify { h with buffer := buffer, count := array.length } (array.length / 2)).map
      fun h => (h, .ok)

/-! ## Growing -/

variable [Inhabited α]

def zenitHeapCreateWithCapacity (handle block : Bool) (elemSize : ℕ) (compare : α → α → ℤ)
    (capacity : ℕ) : Option (Heap α) :=
  if elemSize = 0 ∨ capacity = 0 then none
  else if !handle || !block then none
  else some {
    buffer := List.replicate (slotsOf elemSize capacity) default
    elemSize := elemSize
    count := 0
    capacity := capacity
    compare := compare }

def reallocBuffer (ok : Bool) (h : Heap α) (newCap : ℕ) : Heap α × ZenitError :=
  if !ok then (h, .alloc)
  else ({ h with
    buffer := resize default (slotsOf h.elemSize newCap) h.buffer
    capacity := newCap }, .ok)

def grow (fuel : ℕ) (ok : Bool) (h : Heap α) (minCapacity : ℕ) : Exec (Heap α × ZenitError) :=
  (growLoop minCapacity fuel h.capacity).map (reallocBuffer ok h)

def putLast (h : Heap α) (elem : α) : Exec (Heap α × ZenitError) :=
  (writeSlot h.buffer h.count elem).bind fun buffer =>
    (siftUp { h with buffer := buffer, count := h.count + 1 } h.count).map fun h => (h, .ok)

def zenitHeapPush (fuel : ℕ) (ok : Bool) (h : Heap α) (elem : α) : Exec (Heap α × ZenitError) :=
  if h.count = h.capacity then
    (grow fuel ok h (wrap (h.capacity + 1))).bind fun p =>
      if p.2 ≠ .ok then .ok p else putLast p.1 elem
  else putLast h elem

def zenitHeapReserve (ok : Bool) (h : Heap α) (capacity : ℕ) : Heap α × ZenitError :=
  if capacity ≤ h.capacity then (h, .ok) else reallocBuffer ok h capacity

def zenitHeapBuild (ok : Bool) (h : Heap α) (array : List α) : Exec (Heap α × ZenitError) :=
  if array.length = 0 then .ok ({ h with count := 0 }, .ok)
  else if array.length > h.capacity then
    let p := reallocBuffer ok h array.length
    if p.2 ≠ .ok then .ok p else fillFrom p.1 array
  else fillFrom h array

/-! ## Runs -/

inductive Op (α : Type) where
  | push (ok : Bool) (elem : α)
  | pop
  | peek
  | build (ok : Bool) (array : List α)
  | reserve (ok : Bool) (capacity : ℕ)
  | clear

def step (fuel : ℕ) (h : Heap α) : Op α → Exec (Heap α × Reply α)
  | .push ok elem => (zenitHeapPush fuel ok h elem).map fun p => (p.1, ⟨p.2, none⟩)
  | .pop => zenitHeapPop h
  | .peek => (zenitHeapPeek h).map fun e => (h, ⟨.ok, e⟩)
  | .build ok array => (zenitHeapBuild ok h array).map fun p => (p.1, ⟨p.2, none⟩)
  | .reserve ok capacity =>
    .ok ((zenitHeapReserve ok h capacity).1, ⟨(zenitHeapReserve ok h capacity).2, none⟩)
  | .clear => .ok (zenitHeapClear h, ⟨.ok, none⟩)

def exec (fuel : ℕ) (h : Heap α) (ops : List (Op α)) : Exec (Heap α × List (Reply α)) :=
  Refinement.run (step fuel) h ops

/-- The heaps a program can hold. -/
inductive Reachable : Heap α → Prop
  | create {handle block : Bool} {elemSize capacity : ℕ} {compare : α → α → ℤ} {h : Heap α}
      (made : zenitHeapCreateWithCapacity handle block elemSize compare capacity = some h) :
      Reachable h
  | step {fuel : ℕ} {h h' : Heap α} {op : Op α} {reply : Reply α} (prior : Reachable h)
      (done : step fuel h op = .ok (h', reply)) : Reachable h'

end LibZenit.Heaps
