import LibZenit.FreeRunning

/-!
# The single-producer single-consumer queue of `spsc.c`

The indices are free-running `uint32_t` counters. A push and a pop are sequences of atomic steps:
the two loads, the test, the copy, byte by byte, and the publication of the new index. The two
threads take their steps in any order. The buffer is seen as slots of `elem_size` bytes, the length
`elem_size * cap` that is allocated for it being computed without wrapping.
-/
namespace LibZenit.Spsc

variable {size : ℕ}

/-- The bytes of an element. -/
abbrev Elem (size : ℕ) := Fin size → UInt8

/-- Where the producer is inside `zenit_spsc_push`, with its local variables. -/
inductive Producer (size : ℕ) where
  | idle
  | loadedHead (elem : Elem size) (head : BitVec 32)
  | loadedTail (elem : Elem size) (head tail : BitVec 32)
  | copying (elem : Elem size) (head : BitVec 32) (done : ℕ)

/-- Where the consumer is inside `zenit_spsc_pop`; `out` is the caller's buffer. -/
inductive Consumer (size : ℕ) where
  | idle
  | loadedHead (head : BitVec 32)
  | loadedTail (head tail : BitVec 32)
  | copying (tail : BitVec 32) (out : Elem size) (done : ℕ)

/-- The queue, the two threads, and what the calls that returned `OK` have pushed and popped. -/
structure State (size : ℕ) where
  slots : ℕ → Elem size
  head : BitVec 32
  tail : BitVec 32
  producer : Producer size
  consumer : Consumer size
  pushed : List (Elem size)
  popped : List (Elem size)

/-- The buffer comes from `malloc`, so the slots hold anything. -/
def create (slots : ℕ → Elem size) : State size := ⟨slots, 0, 0, .idle, .idle, [], []⟩

/-- `index & mask` -/
def slotOf (capacity : ℕ) (index : BitVec 32) : ℕ :=
  (index &&& BitVec.ofNat 32 (capacity - 1)).toNat

/-- What the producer does next: a call with an element if it is idle. -/
def produce (capacity : ℕ) (s : State size) (elem : Elem size) : State size :=
  match s.producer with
  | .idle => { s with producer := .loadedHead elem s.head }
  | .loadedHead elem head => { s with producer := .loadedTail elem head s.tail }
  | .loadedTail elem head tail =>
    if (head - tail).toNat ≥ (BitVec.ofNat 32 capacity).toNat then { s with producer := .idle }
    else { s with producer := .copying elem head 0 }
  | .copying elem head done =>
    if h : done < size then
      { s with
        slots := Function.update s.slots (slotOf capacity head)
          (Function.update (s.slots (slotOf capacity head)) ⟨done, h⟩ (elem ⟨done, h⟩))
        producer := .copying elem head (done + 1) }
    else { s with head := head + 1, producer := .idle, pushed := s.pushed ++ [elem] }

/-- What the consumer does next. -/
def consume (capacity : ℕ) (s : State size) (out : Elem size) : State size :=
  match s.consumer with
  | .idle => { s with consumer := .loadedHead s.head }
  | .loadedHead head => { s with consumer := .loadedTail head s.tail }
  | .loadedTail head tail =>
    if head = tail then { s with consumer := .idle }
    else { s with consumer := .copying tail out 0 }
  | .copying tail out done =>
    if h : done < size then
      { s with
        consumer := .copying tail
          (Function.update out ⟨done, h⟩ (s.slots (slotOf capacity tail) ⟨done, h⟩)) (done + 1) }
    else { s with tail := tail + 1, consumer := .idle, popped := s.popped ++ [out] }

/-- A step of the producer or of the consumer. A thread that is not idle goes on with its call;
otherwise the argument is the element to push, or what the caller's buffer holds before the pop. -/
inductive Act (size : ℕ) where
  | produce (elem : Elem size)
  | consume (out : Elem size)

def step (capacity : ℕ) (s : State size) : Act size → State size
  | .produce elem => produce capacity s elem
  | .consume out => consume capacity s out

/-- An interleaving of the two threads. -/
def run (capacity : ℕ) (s : State size) (acts : List (Act size)) : State size :=
  acts.foldl (step capacity) s

end LibZenit.Spsc
