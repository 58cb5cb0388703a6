import LibZenit.DequeModel
import LibZenit.HashTableModel
import LibZenit.HeapModel
import LibZenit.LruModel
import LibZenit.PoolModel
import LibZenit.VectorModel

/-!
# Sizes passed to the allocator

The size of an array is a product of `size_t` values. Nothing tests it for overflow, so an allocator
may grant a few bytes to a container that counts on a great many. Here every call stands with the
arrays that it holds after a success and with the bytes that it requested for each.
-/
namespace LibZenit.Sizes
open Blocks HashCommon

/-- The slots that the container counts on, the bytes of one slot, and the bytes requested. -/
structure Array where
  slots : ℕ
  slotSize : ℕ
  bytes : ℕ
  deriving DecidableEq

/-! ## Requests -/

/-- The size of the block that `alloc_fn` returns. -/
def allocFn (ok : Bool) (size : ℕ) : Option ℕ := if ok then some size else none

def zenitAllocatorAllocZero (ok : Bool) (nmemb size : ℕ) : Option ℕ :=
  allocFn ok (wrap (nmemb * size))

/-- The constructors of the vector, the deque and the heap request their buffer alike. -/
def createWithCapacity (handle block : Bool) (elemSize capacity : ℕ) : Option (List Array) :=
  if elemSize = 0 ∨ capacity = 0 then none
  else if !handle then none
  else (allocFn block (wrap (capacity * elemSize))).map fun bytes => [⟨capacity, elemSize, bytes⟩]

def zenitVectorCreateWithCapacityAndAllocator (handle block : Bool) (elemSize capacity : ℕ) :
    Option (List Array) := createWithCapacity handle block elemSize capacity

def zenitDequeCreateWithCapacityAndAllocator (handle block : Bool) (elemSize capacity : ℕ) :
    Option (List Array) := createWithCapacity handle block elemSize capacity

/-- The comparison function may be `NULL`. -/
def zenitHeapCreateWithCapacityAndAllocator (compare handle block : Bool)
    (elemSize capacity : ℕ) : Option (List Array) :=
  if !compare then none else createWithCapacity handle block elemSize capacity

/-- The new buffer, if the old one, with `held` slots, is too small. -/
def reserve (ok : Bool) (elemSize held capacity : ℕ) : Option (List Array) :=
  if capacity ≤ held then some []
  else (allocFn ok (wrap (capacity * elemSize))).map fun bytes => [⟨capacity, elemSize, bytes⟩]

def zenitVectorReserve (ok : Bool) (elemSize held capacity : ℕ) : Option (List Array) :=
  reserve ok elemSize held capacity

def zenitDequeReserve (ok : Bool) (elemSize held capacity : ℕ) : Option (List Array) :=
  reserve ok elemSize held capacity

def zenitHeapReserve (ok : Bool) (elemSize held capacity : ℕ) : Option (List Array) :=
  reserve ok elemSize held capacity

/-- The objects and the free list. -/
def zenitPoolCreateWithAllocator (handle buffer list : Bool) (objectSize capacity : ℕ) :
    Option (List Array) :=
  if objectSize = 0 ∨ capacity = 0 then none
  else if !handle then none
  else do
    let objects ← zenitAllocatorAllocZero buffer capacity objectSize
    let freeList ← allocFn list (wrap (capacity * 8))
    some [⟨capacity, objectSize, objects⟩, ⟨capacity, 8, freeList⟩]

/-- The slots and their states. A slot holds a key and a value; `slot_size` is the sum of the two
sizes as a `size_t`. -/
def zenitMapCreateWithCapacityAndAllocator (handle slots states : Bool)
    (keySize valueSize capacity : ℕ) : Option (List Array) :=
  if keySize = 0 ∨ valueSize = 0 ∨ capacity = 0 then none
  else if !handle then none
  else do
    let cap := roundPow2 capacity
    let slots ← zenitAllocatorAllocZero slots cap (wrap (keySize + valueSize))
    let states ← zenitAllocatorAllocZero states cap 1
    some [⟨cap, keySize + valueSize, slots⟩, ⟨cap, 1, states⟩]

def allocArray (ok : Bool) (nmemb elemSize : ℕ) : Option ℕ :=
  if nmemb = 0 ∨ elemSize = 0 then none else zenitAllocatorAllocZero ok nmemb elemSize

/-- Keys, values, the two links, the hash index and the hash table. -/
def lruCreateImpl (granted : ℕ → Bool) (keySize valueSize capacity : ℕ) : Option (List Array) :=
  if keySize = 0 ∨ valueSize = 0 ∨ capacity = 0 then none
  else if !granted 0 then none
  else do
    let hashCapacity := roundPow2 (wrap (capacity * 2))
    let keys ← allocArray (granted 1) capacity keySize
    let values ← allocArray (granted 2) capacity valueSize
    let prev ← allocArray (granted 3) capacity 8
    let next ← allocArray (granted 4) capacity 8
    let hashIndex ← allocArray (granted 5) capacity 8
    let hashTable ← allocArray (granted 6) hashCapacity 8
    some [⟨capacity, keySize, keys⟩, ⟨capacity, valueSize, values⟩, ⟨capacity, 8, prev⟩,
      ⟨capacity, 8, next⟩, ⟨capacity, 8, hashIndex⟩, ⟨hashCapacity, 8, hashTable⟩]

/-! ## Calls -/

inductive Call where
  | vectorCreate (handle block : Bool) (elemSize capacity : ℕ)
  | dequeCreate (handle block : Bool) (elemSize capacity : ℕ)
  | heapCreate (compare handle block : Bool) (elemSize capacity : ℕ)
  | vectorReserve (ok : Bool) (elemSize held capacity : ℕ)
  | dequeReserve (ok : Bool) (elemSize held capacity : ℕ)
  | heapReserve (ok : Bool) (elemSize held capacity : ℕ)
  | poolCreate (handle buffer list : Bool) (objectSize capacity : ℕ)
  | mapCreate (handle slots states : Bool) (keySize valueSize capacity : ℕ)
  | lruCreate (granted : ℕ → Bool) (keySize valueSize capacity : ℕ)

/-- The arrays requested by a call that succeeds. -/
def Call.run : Call → Option (List Array)
  | .vectorCreate handle block elemSize capacity =>
    zenitVectorCreateWithCapacityAndAllocator handle block elemSize capacity
  | .dequeCreate handle block elemSize capacity =>
    zenitDequeCreateWithCapacityAndAllocator handle block elemSize capacity
  | .heapCreate compare handle block elemSize capacity =>
    zenitHeapCreateWithCapacityAndAllocator compare handle block elemSize capacity
  | .vectorReserve ok elemSize held capacity => zenitVectorReserve ok elemSize held capacity
  | .dequeReserve ok elemSize held capacity => zenitDequeReserve ok elemSize held capacity
  | .heapReserve ok elemSize held capacity => zenitHeapReserve ok elemSize held capacity
  | .poolCreate handle buffer list objectSize capacity =>
    zenitPoolCreateWithAllocator handle buffer list objectSize capacity
  | .mapCreate handle slots states keySize valueSize capacity =>
    zenitMapCreateWithCapacityAndAllocator handle slots states keySize valueSize capacity
  | .lruCreate granted keySize valueSize capacity =>
    lruCreateImpl granted keySize valueSize capacity

/-- The slots and the bytes of a slot for each array that a call may request. -/
def Call.wants : Call → List (ℕ × ℕ)
  | .vectorCreate _ _ elemSize capacity => [(capacity, elemSize)]
  | .dequeCreate _ _ elemSize capacity => [(capacity, elemSize)]
  | .heapCreate _ _ _ elemSize capacity => [(capacity, elemSize)]
  | .vectorReserve _ elemSize _ capacity => [(capacity, elemSize)]
  | .dequeReserve _ elemSize _ capacity => [(capacity, elemSize)]
  | .heapReserve _ elemSize _ capacity => [(capacity, elemSize)]
  | .poolCreate _ _ _ objectSize capacity => [(capacity, objectSize), (capacity, 8)]
  | .mapCreate _ _ _ keySize valueSize capacity =>
    [(roundPow2 capacity, keySize + valueSize), (roundPow2 capacity, 1)]
  | .lruCreate _ keySize valueSize capacity =>
    [(capacity, keySize), (capacity, valueSize), (capacity, 8), (capacity, 8), (capacity, 8),
      (roundPow2 (wrap (capacity * 2)), 8)]

/-- The arguments pass the checks, and the allocator grants everything. -/
def Call.Granted : Call → Prop
  | .vectorCreate handle block elemSize capacity =>
    elemSize ≠ 0 ∧ capacity ≠ 0 ∧ handle = true ∧ block = true
  | .dequeCreate handle block elemSize capacity =>
    elemSize ≠ 0 ∧ capacity ≠ 0 ∧ handle = true ∧ block = true
  | .heapCreate compare handle block elemSize capacity =>
    elemSize ≠ 0 ∧ compare = true ∧ capacity ≠ 0 ∧ handle = true ∧ block = true
  | .vectorReserve ok _ held capacity => held < capacity ∧ ok = true
  | .dequeReserve ok _ held capacity => held < capacity ∧ ok = true
  | .heapReserve ok _ held capacity => held < capacity ∧ ok = true
  | .poolCreate handle buffer list objectSize capacity =>
    objectSize ≠ 0 ∧ capacity ≠ 0 ∧ handle = true ∧ buffer = true ∧ list = true
  | .mapCreate handle slots states keySize valueSize capacity =>
    keySize ≠ 0 ∧ valueSize ≠ 0 ∧ capacity ≠ 0 ∧ handle = true ∧ slots = true ∧ states = true
  | .lruCreate granted keySize valueSize capacity =>
    keySize ≠ 0 ∧ valueSize ≠ 0 ∧ capacity ≠ 0 ∧ roundPow2 (wrap (capacity * 2)) ≠ 0 ∧
      ∀ i ≤ 6, granted i = true

/-- The array for a wish: the bytes are the product as a `size_t`. -/
def wanted (want : ℕ × ℕ) : Array := ⟨want.1, want.2, wrap (want.1 * want.2)⟩

/-- The bytes requested for every array are as many as its slots need, and every slot lies inside
them. -/
def Exact (res : Option (List Array)) : Prop :=
  ∀ arrays, res = some arrays → ∀ a ∈ arrays,
    a.bytes = a.slots * a.slotSize ∧ ∀ i < a.slots, (i + 1) * a.slotSize ≤ a.bytes

variable {c : Call} {arrays : List Array} {handle block ok : Bool}
  {elemSize held capacity nmemb size : ℕ}

/-! ## What a call requests -/

theorem createWithCapacity_granted (hsize : elemSize ≠ 0) (hcap : capacity ≠ 0) :
    createWithCapacity true true elemSize capacity = some [wanted (capacity, elemSize)] := by
  rw [createWithCapacity, if_neg (by omega)]
  rfl

theorem createWithCapacity_some
    (h : createWithCapacity handle block elemSize capacity = some arrays) :
    elemSize ≠ 0 ∧ capacity ≠ 0 ∧ handle = true ∧ block = true := by
  unfold createWithCapacity at h
  split_ifs at h with hzero hhandle
  obtain ⟨bytes, hbytes, -⟩ := Option.map_eq_some_iff.mp h
  unfold allocFn at hbytes
  split_ifs at hbytes with hblock
  push Not at hzero
  exact ⟨hzero.1, hzero.2, by simpa using hhandle, hblock⟩

theorem reserve_granted (h : held < capacity) (elemSize : ℕ) :
    reserve true elemSize held capacity = some [wanted (capacity, elemSize)] := by
  rw [reserve, if_neg (by omega)]
  rfl

theorem reserve_some (h : reserve ok elemSize held capacity = some arrays) :
    (held < capacity ∧ ok = true) ∨ arrays = [] := by
  unfold reserve at h
  split_ifs at h with hle
  · exact Or.inr (Option.some.inj h).symm
  · obtain ⟨bytes, hbytes, -⟩ := Option.map_eq_some_iff.mp h
    unfold allocFn at hbytes
    split_ifs at hbytes with hok
    exact Or.inl ⟨by omega, hok⟩

theorem allocArray_granted (hnmemb : nmemb ≠ 0) (hsize : size ≠ 0) :
    allocArray true nmemb size = some (wrap (nmemb * size)) := by
  rw [allocArray, if_neg (by omega)]
  rfl

theorem allocArray_some {bytes : ℕ} (h : allocArray ok nmemb size = some bytes) :
    nmemb ≠ 0 ∧ ok = true := by
  unfold allocArray zenitAllocatorAllocZero allocFn at h
  split_ifs at h with hzero hok
  exact ⟨fun hn => hzero (Or.inl hn), hok⟩

theorem wrap_mul_wrap (m n : ℕ) : wrap (m * wrap n) = wrap (m * n) := Nat.mul_mod_mod m n (2 ^ 64)

/-- A call with everything granted holds all its arrays. -/
theorem Call.run_of_granted (h : c.Granted) : c.run = some (c.wants.map wanted) := by
  cases c with
  | vectorCreate handle block elemSize capacity =>
    obtain ⟨hsize, hcap, rfl, rfl⟩ := h
    exact createWithCapacity_granted hsize hcap
  | dequeCreate handle block elemSize capacity =>
    obtain ⟨hsize, hcap, rfl, rfl⟩ := h
    exact createWithCapacity_granted hsize hcap
  | heapCreate compare handle block elemSize capacity =>
    obtain ⟨hsize, rfl, hcap, rfl, rfl⟩ := h
    exact createWithCapacity_granted hsize hcap
  | vectorReserve ok elemSize held capacity =>
    obtain ⟨hlt, rfl⟩ := h
    exact reserve_granted hlt elemSize
  | dequeReserve ok elemSize held capacity =>
    obtain ⟨hlt, rfl⟩ := h
    exact reserve_granted hlt elemSize
  | heapReserve ok elemSize held capacity =>
    obtain ⟨hlt, rfl⟩ := h
    exact reserve_granted hlt elemSize
  | poolCreate handle buffer list objectSize capacity =>
    obtain ⟨hsize, hcap, rfl, rfl, rfl⟩ := h
    rw [run, zenitPoolCreateWithAllocator, if_neg (by omega)]
    rfl
  | mapCreate handle slots states keySize valueSize capacity =>
    obtain ⟨hkey, hvalue, hcap, rfl, rfl, rfl⟩ := h
    rw [run, zenitMapCreateWithCapacityAndAllocator, if_neg (by omega)]
    simp [zenitAllocatorAllocZero, allocFn, wrap_mul_wrap, wants, wanted]
  | lruCreate granted keySize valueSize capacity =>
    obtain ⟨hkey, hvalue, hcap, hhash, hall⟩ := h
    rw [run, lruCreateImpl, if_neg (by omega), hall 0 (by omega), hall 1 (by omega),
      hall 2 (by omega), hall 3 (by omega), hall 4 (by omega), hall 5 (by omega),
      hall 6 (by omega)]
    simp [allocArray_granted, hkey, hvalue, hcap, hhash, wants, wanted]

/-- A call that succeeds without having been granted arrays holds none. -/
theorem Call.granted_or_nil (h : c.run = some arrays) : c.Granted ∨ arrays = [] := by
  cases c with
  | vectorCreate handle block elemSize capacity => exact Or.inl (createWithCapacity_some h)
  | dequeCreate handle block elemSize capacity => exact Or.inl (createWithCapacity_some h)
  | heapCreate compare handle block elemSize capacity =>
    rw [run, zenitHeapCreateWithCapacityAndAllocator] at h
    split_ifs at h with hcompare
    obtain ⟨hsize, hcap, hrest⟩ := createWithCapacity_some h
    exact Or.inl ⟨hsize, by simpa using hcompare, hcap, hrest⟩
  | vectorReserve ok elemSize held capacity => exact reserve_some h
  | dequeReserve ok elemSize held capacity => exact reserve_some h
  | heapReserve ok elemSize held capacity => exact reserve_some h
  | poolCreate handle buffer list objectSize capacity =>
    rw [run, zenitPoolCreateWithAllocator] at h
    split_ifs at h with hzero hhandle
    push Not at hzero
    simp only [Option.bind_eq_bind, Option.bind_eq_some_iff, zenitAllocatorAllocZero, allocFn,
      Option.ite_none_right_eq_some] at h
    obtain ⟨-, ⟨hbuffer, -⟩, -, ⟨hlist, -⟩, -⟩ := h
    exact Or.inl ⟨hzero.1, hzero.2, by simpa using hhandle, hbuffer, hlist⟩
  | mapCreate handle slots states keySize valueSize capacity =>
    rw [run, zenitMapCreateWithCapacityAndAllocator] at h
    split_ifs at h with hzero hhandle
    push Not at hzero
    simp only [Option.bind_eq_bind, Option.bind_eq_some_iff, zenitAllocatorAllocZero, allocFn,
      Option.ite_none_right_eq_some] at h
    obtain ⟨-, ⟨hslots, -⟩, -, ⟨hstates, -⟩, -⟩ := h
    exact Or.inl ⟨hzero.1, hzero.2.1, hzero.2.2, by simpa using hhandle, hslots, hstates⟩
  | lruCreate granted keySize valueSize capacity =>
    rw [run, lruCreateImpl] at h
    split_ifs at h with hzero hhandle
    push Not at hzero
    simp only [Option.bind_eq_bind, Option.bind_eq_some_iff] at h
    obtain ⟨_, h₁, _, h₂, _, h₃, _, h₄, _, h₅, _, h₆, -⟩ := h
    refine Or.inl ⟨hzero.1, hzero.2.1, hzero.2.2, (allocArray_some h₆).1, fun i hi => ?_⟩
    interval_cases i
    · simpa using hhandle
    · exact (allocArray_some h₁).2
    · exact (allocArray_some h₂).2
    · exact (allocArray_some h₃).2
    · exact (allocArray_some h₄).2
    · exact (allocArray_some h₅).2
    · exact (allocArray_some h₆).2

/-! ## Exact sizes -/

/-- The sizes are exact unless a call is granted an array whose bytes are `2 ^ 64` or more. -/
theorem call_sizes_exact_iff (c : Call) :
    Exact c.run ↔ (c.Granted → ∀ want ∈ c.wants, want.1 * want.2 < 2 ^ 64) := by
  constructor
  · intro hexact hgranted want hwant
    have hbytes : wrap (want.1 * want.2) = want.1 * want.2 :=
      (hexact _ (Call.run_of_granted hgranted) (wanted want) (List.mem_map_of_mem hwant)).1
    rw [← hbytes]
    exact Nat.mod_lt _ (by norm_num)
  · intro hsmall arrays hrun a ha
    rcases Call.granted_or_nil hrun with hgranted | rfl
    · rw [Call.run_of_granted hgranted, Option.some.injEq] at hrun
      rw [← hrun] at ha
      obtain ⟨want, hwant, rfl⟩ := List.mem_map.mp ha
      have hbytes := wrap_of_lt (hsmall hgranted want hwant)
      refine ⟨hbytes, fun i hi => ?_⟩
      calc (i + 1) * want.2 ≤ want.1 * want.2 := Nat.mul_le_mul_right _ hi
        _ = wrap (want.1 * want.2) := hbytes.symm
    · cases ha

/-- A vector of eight-byte elements that counts on `2 ^ 61 + 1` slots and has one. -/
theorem wrapped_vector_size :
    (Call.vectorCreate true true 8 (2 ^ 61 + 1)).run = some [⟨2 ^ 61 + 1, 8, 8⟩] ∧
      ¬Exact (Call.vectorCreate true true 8 (2 ^ 61 + 1)).run ∧
      ∃ v : Vectors.Vector ℕ,
        Vectors.zenitVectorCreateWithCapacity true true 8 (2 ^ 61 + 1) = some v ∧
        v.capacity = 2 ^ 61 + 1 ∧ v.buffer.length = 1 := by
  have hrun : (Call.vectorCreate true true 8 (2 ^ 61 + 1)).run = some [⟨2 ^ 61 + 1, 8, 8⟩] := rfl
  refine ⟨hrun, fun hexact => ?_, _, rfl, rfl, rfl⟩
  have hbytes := (hexact _ hrun _ List.mem_cons_self).1
  norm_num at hbytes

/-! ## The models of the containers

The calls above are those of the models, seen through what they hold: the capacity, the element
size and the slots of the block. -/

def Array.view (a : Array) : ℕ × ℕ × ℕ := (a.slots, a.slotSize, a.bytes / a.slotSize)

theorem createWithCapacity_view (handle block : Bool) (elemSize capacity : ℕ) :
    (createWithCapacity handle block elemSize capacity).map (List.map Array.view) =
      if elemSize = 0 ∨ capacity = 0 then none
      else if !handle || !block then none
      else some [(capacity, elemSize, slotsOf elemSize capacity)] := by
  rw [createWithCapacity]
  by_cases hzero : elemSize = 0 ∨ capacity = 0
  · rw [if_pos hzero, if_pos hzero]
    rfl
  · rw [if_neg hzero, if_neg hzero]
    cases handle <;> cases block <;> rfl

theorem reserve_view (ok : Bool) (elemSize held capacity : ℕ) :
    (reserve ok elemSize held capacity).map (List.map Array.view) =
      if capacity ≤ held then some []
      else if !ok then none
      else some [(capacity, elemSize, slotsOf elemSize capacity)] := by
  rw [reserve]
  by_cases hle : capacity ≤ held
  · rw [if_pos hle, if_pos hle]
    rfl
  · rw [if_neg hle, if_neg hle]
    cases ok <;> rfl

/-- The new block after a reservation that succeeded. -/
def reserved (held capacity : ℕ) (view : ℕ × ℕ × ℕ) (code : ZenitError) :
    Option (List (ℕ × ℕ × ℕ)) :=
  if code ≠ .ok then none else if capacity ≤ held then some [] else some [view]

section Models

variable {α : Type} [Inhabited α]

def viewVector (v : Vectors.Vector α) : ℕ × ℕ × ℕ := (v.capacity, v.elemSize, v.buffer.length)

def viewDeque (d : Deques.Deque α) : ℕ × ℕ × ℕ := (d.capacity, d.elemSize, d.buffer.length)

def viewHeap (h : Heaps.Heap α) : ℕ × ℕ × ℕ := (h.capacity, h.elemSize, h.buffer.length)

theorem vector_create_arrays (handle block : Bool) (elemSize capacity : ℕ) :
    (Vectors.zenitVectorCreateWithCapacity handle block elemSize capacity).map
        (fun v : Vectors.Vector α => [viewVector v]) =
      (Call.vectorCreate handle block elemSize capacity).run.map (List.map Array.view) := by
  rw [Call.run, zenitVectorCreateWithCapacityAndAllocator, createWithCapacity_view,
    Vectors.zenitVectorCreateWithCapacity]
  split_ifs <;> simp [viewVector]

theorem deque_create_arrays (handle block : Bool) (elemSize capacity : ℕ) :
    (Deques.zenitDequeCreateWithCapacity handle block elemSize capacity).map
        (fun d : Deques.Deque α => [viewDeque d]) =
      (Call.dequeCreate handle block elemSize capacity).run.map (List.map Array.view) := by
  rw [Call.run, zenitDequeCreateWithCapacityAndAllocator, createWithCapacity_view,
    Deques.zenitDequeCreateWithCapacity]
  split_ifs <;> simp [viewDeque]

theorem heap_create_arrays (handle block : Bool) (elemSize capacity : ℕ) (compare : α → α → ℤ) :
    (Heaps.zenitHeapCreateWithCapacity handle block elemSize compare capacity).map
        (fun h : Heaps.Heap α => [viewHeap h]) =
      (Call.heapCreate true handle block elemSize capacity).run.map (List.map Array.view) := by
  rw [Call.run, zenitHeapCreateWithCapacityAndAllocator, if_neg (by simp),
    createWithCapacity_view, Heaps.zenitHeapCreateWithCapacity]
  split_ifs <;> simp [viewHeap]

theorem vector_reserve_arrays (ok : Bool) (v : Vectors.Vector α) (capacity : ℕ) :
    reserved v.capacity capacity (viewVector (Vectors.zenitVectorReserve ok v capacity).1)
        (Vectors.zenitVectorReserve ok v capacity).2 =
      (Call.vectorReserve ok v.elemSize v.capacity capacity).run.map (List.map Array.view) := by
  rw [Call.run, zenitVectorReserve, reserve_view, Vectors.zenitVectorReserve]
  split_ifs with hle hok
  · simp [reserved, hle]
  · rw [Vectors.reallocBuffer, if_neg (by omega), if_pos hok]
    rfl
  · rw [Vectors.reallocBuffer, if_neg (by omega), if_neg hok]
    simp [reserved, hle, viewVector]

theorem heap_reserve_arrays (ok : Bool) (h : Heaps.Heap α) (capacity : ℕ) :
    reserved h.capacity capacity (viewHeap (Heaps.zenitHeapReserve ok h capacity).1)
        (Heaps.zenitHeapReserve ok h capacity).2 =
      (Call.heapReserve ok h.elemSize h.capacity capacity).run.map (List.map Array.view) := by
  rw [Call.run, zenitHeapReserve, reserve_view, Heaps.zenitHeapReserve]
  split_ifs with hle hok
  · simp [reserved, hle]
  · rw [Heaps.reallocBuffer, if_pos hok]
    rfl
  · rw [Heaps.reallocBuffer, if_neg hok]
    simp [reserved, hle, viewHeap]

omit [Inhabited α] in
theorem length_of_copyOut {d : Deques.Deque α} {buf newBuf : List α}
    (h : Deques.copyOut d newBuf = .ok buf) : buf.length = newBuf.length := by
  unfold Deques.copyOut at h
  generalize List.range d.count = idxs at h
  induction idxs generalizing newBuf with
  | nil => rw [Except.ok.inj h]
  | cons i idxs ih =>
    rw [List.foldlM_cons] at h
    obtain ⟨next, hnext, hrest⟩ := bind_eq_ok h
    obtain ⟨elem, -, hwrite⟩ := bind_eq_ok hnext
    rw [ih hrest, length_of_writeSlot hwrite]

theorem deque_reserve_arrays {ok : Bool} {d d' : Deques.Deque α} {capacity : ℕ} {code : ZenitError}
    (h : Deques.zenitDequeReserve ok d capacity = .ok (d', code)) :
    reserved d.capacity capacity (viewDeque d') code =
      (Call.dequeReserve ok d.elemSize d.capacity capacity).run.map (List.map Array.view) := by
  rw [Call.run, zenitDequeReserve, reserve_view]
  unfold Deques.zenitDequeReserve at h
  split_ifs at h ⊢ with hle hok
  · obtain ⟨rfl, rfl⟩ := Prod.mk.inj (Except.ok.inj h)
    simp [reserved, hle]
  · rw [Deques.reallocBuffer, if_neg (by omega), if_pos hok] at h
    obtain ⟨rfl, rfl⟩ := Prod.mk.inj (Except.ok.inj h)
    rfl
  · rw [Deques.reallocBuffer, if_neg (by omega), if_neg hok] at h
    obtain ⟨newBuf, hcopy, heq⟩ := map_eq_ok h
    obtain ⟨rfl, rfl⟩ := Prod.mk.inj heq
    have hlen := length_of_copyOut hcopy
    rw [List.length_replicate] at hlen
    simp [reserved, hle, viewDeque, hlen]

/-- No object has `2 ^ 63` bytes, so the pool's model refuses more than its allocator. -/
theorem pool_create_arrays (handle buffer list : Bool) (objectSize capacity : ℕ) :
    Pools.zenitPoolCreate handle buffer list objectSize capacity = .ok none ↔
      (Call.poolCreate handle (granted buffer (wrap (capacity * objectSize)))
        (granted list (wrap (capacity * 8))) objectSize capacity).run = none := by
  rw [Call.run, zenitPoolCreateWithAllocator, Pools.zenitPoolCreate]
  by_cases hzero : objectSize = 0 ∨ capacity = 0
  · simp only [if_pos hzero]
  simp only [if_neg hzero]
  cases handle with
  | false => exact iff_of_true rfl rfl
  | true =>
    cases granted buffer (wrap (capacity * objectSize)) with
    | false => exact iff_of_true rfl rfl
    | true =>
      cases granted list (wrap (capacity * 8)) with
      | false => exact iff_of_true rfl rfl
      | true =>
        refine iff_of_false (fun hnone => ?_) (by rintro ⟨⟩)
        obtain ⟨freeList, -, hsome⟩ := map_eq_ok hnone
        cases hsome

/-- The slots and the states of a map. -/
def viewMap {keySize valueSize : ℕ} (map : HashTable.Map keySize valueSize) :
    List (ℕ × ℕ × ℕ) :=
  [(map.capacity, keySize + valueSize, map.slots.length), (map.capacity, 1, map.states.length)]

theorem map_create_arrays (handle slots states : Bool) (keySize valueSize capacity : ℕ) :
    (HashTable.zenitMapCreateWithCapacityAndAllocator keySize valueSize (handle, slots, states)
        capacity).map viewMap =
      (Call.mapCreate handle slots states keySize valueSize capacity).run.map
        (List.map Array.view) := by
  rw [Call.run, zenitMapCreateWithCapacityAndAllocator,
    HashTable.zenitMapCreateWithCapacityAndAllocator, HashTable.create]
  by_cases hsizes : keySize = 0 ∨ valueSize = 0
  · rw [if_pos hsizes, if_pos (by tauto)]
    rfl
  by_cases hcap : capacity = 0
  · rw [if_neg hsizes, if_pos hcap, if_pos (by tauto)]
    rfl
  have hsome : ¬(keySize = 0 ∨ valueSize = 0 ∨ capacity = 0) := by tauto
  rw [if_neg hsizes, if_neg hcap, if_neg hsome]
  have hstates : wrap (roundPow2 capacity) = roundPow2 capacity :=
    wrap_of_lt (Nat.mod_lt _ (by norm_num))
  cases handle with
  | false => rfl
  | true =>
    cases slots with
    | false => rfl
    | true =>
      cases states with
      | false => rfl
      | true =>
        simp [viewMap, Array.view, HashTable.fresh, zenitAllocatorAllocZero, allocFn, slotsOf,
          wrap_mul_wrap, hstates]

omit [Inhabited α] in
theorem lru_allocArray (ok : Bool) (nmemb elemSize : ℕ) (zero : α) :
    Lru.allocArray ok nmemb elemSize zero =
      (allocArray ok nmemb elemSize).map fun bytes => List.replicate (bytes / elemSize) zero := by
  rw [Lru.allocArray, allocArray]
  by_cases hzero : nmemb = 0 ∨ elemSize = 0
  · rw [if_pos hzero, if_pos hzero]
    rfl
  · rw [if_neg hzero, if_neg hzero]
    cases ok <;> rfl

theorem lru_create_arrays (granted : ℕ → Bool) (keySize valueSize capacity : ℕ) (evictFn : Bool) :
    Lru.lruCreateImpl keySize valueSize granted capacity evictFn = some none ↔
      (Call.lruCreate granted keySize valueSize capacity).run = none := by
  rw [Call.run, lruCreateImpl, Lru.lruCreateImpl]
  by_cases hzero : keySize = 0 ∨ valueSize = 0 ∨ capacity = 0
  · simp only [if_pos hzero]
  rw [if_neg hzero, if_neg hzero]
  by_cases hhandle : (!granted 0) = true
  · rw [if_pos hhandle, if_pos hhandle]
    exact iff_of_true rfl rfl
  rw [if_neg hhandle, if_neg hhandle]
  have hsize : Lru.sizeofSizeT = 8 := rfl
  simp only [lru_allocArray, hsize]
  generalize allocArray (granted 1) capacity keySize = keys
  generalize allocArray (granted 2) capacity valueSize = values
  generalize allocArray (granted 3) capacity 8 = prev
  generalize allocArray (granted 4) capacity 8 = next
  generalize allocArray (granted 5) capacity 8 = hashIndex
  generalize allocArray (granted 6) (roundPow2 (wrap (capacity * 2))) 8 = hashTable
  cases keys with
  | none => simp
  | some keys =>
  cases values with
  | none => simp
  | some values =>
  cases prev with
  | none => simp
  | some prev =>
  cases next with
  | none => simp
  | some next =>
  cases hashIndex with
  | none => simp
  | some hashIndex =>
  cases hashTable with
  | none => simp
  | some hashTable =>
    refine iff_of_false (fun hnone => ?_) (by simp)
    obtain ⟨c, -, hrest⟩ := Option.bind_eq_some_iff.mp hnone
    obtain ⟨c', -, hsome⟩ := Option.bind_eq_some_iff.mp hrest
    cases hsome

end Models

end LibZenit.Sizes
