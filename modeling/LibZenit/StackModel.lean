import LibZenit.VectorModel

/-!
# The stack of `stack.c`

A stack hands its calls on to a vector, once it has looked for NULL in place of an element or of the
place for one. The top is the last element of the vector.
-/
namespace LibZenit.Stacks
open Vectors

structure Stack (α : Type) where
  vector : Vector α
  elemSize : ℕ

variable {α : Type}

/-- The outcomes are those of the allocations of both handles. -/
def zenitStackCreateWithAllocator (handle vectorHandle : Bool) (elemSize : ℕ) :
    Option (Stack α) :=
  if elemSize = 0 then none
  else if !handle then none
  else (zenitVectorCreate vectorHandle elemSize).map fun vector =>
    { vector := vector, elemSize := elemSize }

def zenitStackPop (stack : Stack α) (out : Bool) : Exec (Stack α × Reply α) :=
  if !out then .ok (stack, ⟨.null, none⟩)
  else (zenitVectorPop stack.vector).map fun p => ({ stack with vector := p.1 }, p.2)

def zenitStackPeek (stack : Stack α) : Exec (Option α) :=
  if stack.vector.count = 0 then .ok none
  else zenitVectorGet stack.vector (stack.vector.count - 1)

def zenitStackCount (stack : Stack α) : ℕ := stack.vector.count

def zenitStackEmpty (stack : Stack α) : Bool := stack.vector.count = 0

def zenitStackClear (stack : Stack α) : Stack α :=
  { stack with vector := zenitVectorClear stack.vector }

def zenitStackPush [Inhabited α] (fuel : ℕ) (ok : Bool) (stack : Stack α) :
    Option α → Exec (Stack α × Reply α)
  | none => .ok (stack, ⟨.null, none⟩)
  | some elem => (zenitVectorPush fuel ok stack.vector elem).map fun p =>
    ({ stack with vector := p.1 }, p.2)

/-! ## Runs -/

inductive Call (α : Type) where
  | push (ok : Bool) (elem : Option α)
  | pop (out : Bool)
  | peek
  | clear

def step [Inhabited α] (fuel : ℕ) (stack : Stack α) : Call α → Exec (Stack α × Reply α)
  | .push ok elem => zenitStackPush fuel ok stack elem
  | .pop out => zenitStackPop stack out
  | .peek => (zenitStackPeek stack).map fun elem => (stack, ⟨.ok, elem⟩)
  | .clear => .ok (zenitStackClear stack, ⟨.ok, none⟩)

end LibZenit.Stacks
