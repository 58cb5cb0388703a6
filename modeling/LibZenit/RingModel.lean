import LibZenit.Refinement

/-!
# The ring buffer of `ring.c`

Every `memcpy` is checked against the buffer. Sums of offsets are sums of `size_t`; an allocation
succeeds only for objects that a `ptrdiff_t` can measure.
-/
namespace LibZenit.Rings
open Blocks

structure Ring where
  buffer : List UInt8
  capacity : ℕ
  head : ℕ
  tail : ℕ
  count : ℕ

def zenitRingCreate (handle block : Bool) (capacity : ℕ) : Option Ring :=
  if capacity = 0 then none
  else if !handle then none
  else if !granted block capacity then none
  else some ⟨List.replicate capacity 0, capacity, 0, 0, 0⟩

/-- `if (first_chunk > size) first_chunk = size;` -/
def clamp (first size : ℕ) : ℕ := if first > size then size else first

/-- The two copies out of the buffer that start at `tail`. -/
def copyFrom (ring : Ring) (toRead : ℕ) : Exec (List UInt8) :=
  let first := clamp (subSize ring.capacity ring.tail) toRead
  let second := toRead - first
  (readSlots ring.buffer ring.tail first).bind fun front =>
  (if second > 0 then readSlots ring.buffer 0 second else .ok []).map fun back => front ++ back

def zenitRingPush (ring : Ring) (data : List UInt8) : Exec (Ring × Reply (List UInt8)) :=
  let size := data.length
  if size = 0 then .ok (ring, ⟨.param, none⟩)
  else if wrap (ring.count + size) > ring.capacity then .ok (ring, ⟨.full, none⟩)
  else
    let first := clamp (subSize ring.capacity ring.head) size
    (writeSlots ring.buffer ring.head (data.take first)).bind fun buffer =>
    (if size - first > 0 then writeSlots buffer 0 (data.drop first) else .ok buffer).map
      fun buffer =>
        ({ ring with
          buffer := buffer
          head := wrap (ring.head + size) % ring.capacity
          count := wrap (ring.count + size) }, ⟨.ok, none⟩)

/-- The bytes handed out also tell how many they are. -/
def zenitRingPop (ring : Ring) (size : ℕ) : Exec (Ring × Reply (List UInt8)) :=
  if size = 0 then .ok (ring, ⟨.param, none⟩)
  else if ring.count = 0 then .ok (ring, ⟨.empty, none⟩)
  else
    let toRead := clamp size ring.count
    (copyFrom ring toRead).map fun data =>
      ({ ring with
        tail := wrap (ring.tail + toRead) % ring.capacity
        count := ring.count - toRead }, ⟨.ok, some data⟩)

def zenitRingPeek (ring : Ring) (size : ℕ) : Exec (Ring × Reply (List UInt8)) :=
  if size = 0 then .ok (ring, ⟨.param, none⟩)
  else if ring.count = 0 then .ok (ring, ⟨.empty, none⟩)
  else (copyFrom ring (clamp size ring.count)).map fun data => (ring, ⟨.ok, some data⟩)

def zenitRingClear (ring : Ring) : Ring := { ring with head := 0, tail := 0, count := 0 }

def zenitRingReserve (ok : Bool) (ring : Ring) (newCapacity : ℕ) :
    Exec (Ring × Reply (List UInt8)) :=
  if newCapacity = 0 then .ok (ring, ⟨.param, none⟩)
  else if !granted ok newCapacity then .ok (ring, ⟨.alloc, none⟩)
  else
    let toCopy := clamp ring.count newCapacity
    (if toCopy > 0 then copyFrom ring toCopy else .ok []).bind fun data =>
    (writeSlots (List.replicate newCapacity 0) 0 data).map fun buffer =>
      (⟨buffer, newCapacity, toCopy, 0, toCopy⟩, ⟨.ok, none⟩)

def zenitRingShrinkToFit (ok : Bool) (ring : Ring) : Exec (Ring × Reply (List UInt8)) :=
  zenitRingReserve ok ring (if ring.count = 0 then 1 else ring.count)

/-! ## Runs -/

inductive Op where
  | push (data : List UInt8)
  | pop (size : ℕ)
  | peek (size : ℕ)
  | clear
  | reserve (ok : Bool) (newCapacity : ℕ)
  | shrinkToFit (ok : Bool)

def step (ring : Ring) : Op → Exec (Ring × Reply (List UInt8))
  | .push data => zenitRingPush ring data
  | .pop size => zenitRingPop ring size
  | .peek size => zenitRingPeek ring size
  | .clear => .ok (zenitRingClear ring, ⟨.ok, none⟩)
  | .reserve ok newCapacity => zenitRingReserve ok ring newCapacity
  | .shrinkToFit ok => zenitRingShrinkToFit ok ring

end LibZenit.Rings
