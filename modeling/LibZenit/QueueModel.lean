import LibZenit.DequeModel

/-!
# The queue of `queue.c`

A queue hands its calls on to a deque, once it has looked for NULL in place of an element or of the
place for one.
-/
namespace LibZenit.Queues
open Deques

structure Queue (α : Type) where
  deque : Deque α
  elemSize : ℕ

variable {α : Type}

def zenitQueueDequeue (queue : Queue α) (out : Bool) : Exec (Queue α × Reply α) :=
  if !out then .ok (queue, ⟨.null, none⟩)
  else (zenitDequePopFront queue.deque).map fun p => ({ queue with deque := p.1 }, p.2)

def zenitQueuePeek (queue : Queue α) : Exec (Option α) := zenitDequeFront queue.deque

def zenitQueueCount (queue : Queue α) : ℕ := zenitDequeCount queue.deque

def zenitQueueEmpty (queue : Queue α) : Bool := zenitDequeEmpty queue.deque

def zenitQueueClear (queue : Queue α) : Queue α :=
  { queue with deque := zenitDequeClear queue.deque }

variable [Inhabited α]

/-- The outcomes are those of the allocations of both handles and of the deque's block. -/
def zenitQueueCreateWithAllocator (handle dequeHandle block : Bool) (elemSize : ℕ) :
    Option (Queue α) :=
  if elemSize = 0 then none
  else if !handle then none
  else (zenitDequeCreateWithAllocator dequeHandle block elemSize).map fun deque =>
    { deque := deque, elemSize := elemSize }

def zenitQueueEnqueue (fuel : ℕ) (ok : Bool) (queue : Queue α) :
    Option α → Exec (Queue α × Reply α)
  | none => .ok (queue, ⟨.null, none⟩)
  | some elem => (zenitDequePushBack fuel ok queue.deque elem).map fun p =>
    ({ queue with deque := p.1 }, p.2)

/-! ## Runs -/

inductive Call (α : Type) where
  | enqueue (ok : Bool) (elem : Option α)
  | dequeue (out : Bool)
  | peek
  | clear

def step (fuel : ℕ) (queue : Queue α) : Call α → Exec (Queue α × Reply α)
  | .enqueue ok elem => zenitQueueEnqueue fuel ok queue elem
  | .dequeue out => zenitQueueDequeue queue out
  | .peek => (zenitQueuePeek queue).map fun elem => (queue, ⟨.ok, elem⟩)
  | .clear => .ok (zenitQueueClear queue, ⟨.ok, none⟩)

end LibZenit.Queues
