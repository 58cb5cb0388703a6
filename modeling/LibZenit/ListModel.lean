import LibZenit.NodeHeap
import LibZenit.Refinement

/-!
# The doubly linked list of `list.c`

The heap holds the nodes of one list. A call that allocates is given what the allocator returns, an
address or nothing. Loops that follow the links until they meet NULL carry a fuel; a pointer to an
element is modelled by what it points to, and a visitor by the elements it sees.
-/
namespace LibZenit.Lists
open NodeHeap

structure ZList (α : Type) where
  heap : Heap α
  head : ℕ
  tail : ℕ
  elemSize : ℕ
  count : ℕ

variable {α : Type}

/-- `sizeof(struct list_node)` -/
def sizeofNode : ℕ := 16

/-- The request for a node has the size of its links and of the element. -/
def nodeAlloc (alloc : Option ℕ) (elemSize : ℕ) (heap : Heap α) (elem : α) :
    Exec (Option (Heap α × ℕ)) :=
  match alloc with
  | none => .ok none
  | some n =>
    if wrap (sizeofNode + elemSize) ≠ sizeofNode + elemSize then .error .wrappedSize
    else .ok (some (Function.update heap n (some ⟨0, 0, elem⟩), n))

/-- Follow one of the links `i` times. -/
def walk (link : Node α → ℕ) (heap : Heap α) (p : ℕ) : ℕ → Exec ℕ
  | 0 => .ok p
  | i + 1 => (readNode heap p).bind fun node => walk link heap (link node) i

def nodeAt (list : ZList α) (index : ℕ) : Exec ℕ :=
  if index ≥ list.count then .ok 0
  else if index < list.count / 2 then walk Node.next list.heap list.head index
  else walk Node.prev list.heap list.tail (list.count - 1 - index)

def zenitListCreateWithAllocator (ok : Bool) (elemSize : ℕ) : Option (ZList α) :=
  if elemSize = 0 then none
  else if !ok then none
  else some ⟨fun _ => none, 0, 0, elemSize, 0⟩

/-! ## The ends -/

def linkFront (list : ZList α) (heap : Heap α) (n : ℕ) : Exec (ZList α) := do
  let heap ← writeNext heap n list.head
  let heap ← writePrev heap n 0
  let list ← if list.head ≠ 0 then do
      let heap ← writePrev heap list.head n
      pure { list with heap }
    else pure { list with heap, tail := n }
  return { list with head := n, count := wrap (list.count + 1) }

def linkBack (list : ZList α) (heap : Heap α) (n : ℕ) : Exec (ZList α) := do
  let heap ← writePrev heap n list.tail
  let heap ← writeNext heap n 0
  let list ← if list.tail ≠ 0 then do
      let heap ← writeNext heap list.tail n
      pure { list with heap }
    else pure { list with heap, head := n }
  return { list with tail := n, count := wrap (list.count + 1) }

/-- Allocate a node, then link it into the list. -/
def withNode (alloc : Option ℕ) (list : ZList α) (elem : α)
    (link : Heap α → ℕ → Exec (ZList α)) : Exec (ZList α × Reply α) :=
  (nodeAlloc alloc list.elemSize list.heap elem).bind fun r =>
    r.elim (.ok (list, ⟨.alloc, none⟩)) fun (heap, n) =>
      (link heap n).map fun list => (list, ⟨.ok, none⟩)

def zenitListPushFront (alloc : Option ℕ) (list : ZList α) (elem : Option α) :
    Exec (ZList α × Reply α) :=
  match elem with
  | none => .ok (list, ⟨.null, none⟩)
  | some elem => withNode alloc list elem (linkFront list)

def zenitListPushBack (alloc : Option ℕ) (list : ZList α) (elem : Option α) :
    Exec (ZList α × Reply α) :=
  match elem with
  | none => .ok (list, ⟨.null, none⟩)
  | some elem => withNode alloc list elem (linkBack list)

/-- `out` tells whether there is an address for the element. -/
def zenitListPopFront (list : ZList α) (out : Bool) : Exec (ZList α × Reply α) :=
  if !out then .ok (list, ⟨.null, none⟩)
  else if list.count = 0 then .ok (list, ⟨.empty, none⟩)
  else do
    let n := list.head
    let node ← readNode list.heap n
    let list := { list with head := node.next }
    let list ← if list.head ≠ 0 then do
        let heap ← writePrev list.heap list.head 0
        pure { list with heap }
      else pure { list with tail := 0 }
    let heap ← freeNode list.heap n
    return ({ list with heap, count := list.count - 1 }, ⟨.ok, some node.data⟩)

def zenitListPopBack (list : ZList α) (out : Bool) : Exec (ZList α × Reply α) :=
  if !out then .ok (list, ⟨.null, none⟩)
  else if list.count = 0 then .ok (list, ⟨.empty, none⟩)
  else do
    let n := list.tail
    let node ← readNode list.heap n
    let list := { list with tail := node.prev }
    let list ← if list.tail ≠ 0 then do
        let heap ← writeNext list.heap list.tail 0
        pure { list with heap }
      else pure { list with head := 0 }
    let heap ← freeNode list.heap n
    return ({ list with heap, count := list.count - 1 }, ⟨.ok, some node.data⟩)

/-! ## The middle -/

def linkBefore (list : ZList α) (next : ℕ) (heap : Heap α) (n : ℕ) : Exec (ZList α) := do
  let before := (← readNode heap next).prev
  let heap ← writePrev heap n before
  let heap ← writeNext heap n next
  let before := (← readNode heap next).prev
  let heap ← writeNext heap before n
  let heap ← writePrev heap next n
  return { list with heap, count := wrap (list.count + 1) }

def zenitListInsert (alloc : Option ℕ) (list : ZList α) (index : ℕ) (elem : Option α) :
    Exec (ZList α × Reply α) :=
  match elem with
  | none => .ok (list, ⟨.null, none⟩)
  | some elem =>
    if index > list.count then .ok (list, ⟨.param, none⟩)
    else if index = 0 then zenitListPushFront alloc list (some elem)
    else if index = list.count then zenitListPushBack alloc list (some elem)
    else (nodeAt list index).bind fun next => withNode alloc list elem (linkBefore list next)

def zenitListRemove (list : ZList α) (index : ℕ) (out : Bool) : Exec (ZList α × Reply α) :=
  if !out then .ok (list, ⟨.null, none⟩)
  else if index ≥ list.count then .ok (list, ⟨.param, none⟩)
  else if index = 0 then zenitListPopFront list out
  else if index = list.count - 1 then zenitListPopBack list out
  else do
    let n ← nodeAt list index
    let node ← readNode list.heap n
    let heap ← writeNext list.heap node.prev node.next
    let after ← readNode heap n
    let heap ← writePrev heap after.next after.prev
    let heap ← freeNode heap n
    return ({ list with heap, count := list.count - 1 }, ⟨.ok, some node.data⟩)

/-! ## Elements -/

def zenitListGet (list : ZList α) (index : ℕ) : Exec (Option α) :=
  (nodeAt list index).bind fun n =>
    if n = 0 then .ok none else (readNode list.heap n).map fun node => some node.data

def zenitListSet (list : ZList α) (index : ℕ) (elem : Option α) : Exec (ZList α × Reply α) :=
  match elem with
  | none => .ok (list, ⟨.null, none⟩)
  | some elem => do
    let n ← nodeAt list index
    if n = 0 then return (list, ⟨.param, none⟩)
    let heap ← writeData list.heap n elem
    return ({ list with heap }, ⟨.ok, none⟩)

def zenitListCount (list : ZList α) : ℕ := list.count

/-! ## Walks over the whole list -/

def freeAll (heap : Heap α) (p : ℕ) : ℕ → Exec (Heap α)
  | 0 => .error .hang
  | fuel + 1 =>
    if p = 0 then .ok heap
    else do
      let next := (← readNode heap p).next
      let heap ← freeNode heap p
      freeAll heap next fuel

def zenitListClear (fuel : ℕ) (list : ZList α) : Exec (ZList α) :=
  (freeAll list.heap list.head fuel).map fun heap =>
    { list with heap, head := 0, tail := 0, count := 0 }

/-- The elements met on the way along one of the links. -/
def visitAll (link : Node α → ℕ) (heap : Heap α) (p : ℕ) : ℕ → Exec (List α)
  | 0 => .error .hang
  | fuel + 1 =>
    if p = 0 then .ok []
    else (readNode heap p).bind fun node =>
      (visitAll link heap (link node) fuel).map (node.data :: ·)

def zenitListForeach (fuel : ℕ) (list : ZList α) : Exec (List α) :=
  visitAll Node.next list.heap list.head fuel

def zenitListReverseForeach (fuel : ℕ) (list : ZList α) : Exec (List α) :=
  visitAll Node.prev list.heap list.tail fuel

structure Iter where
  index : ℕ
  count : ℕ
  isValid : Bool
  internal : ℕ

def zenitListIter (list : ZList α) : Iter := ⟨0, list.count, true, list.head⟩

def zenitListIterNext (heap : Heap α) (iter : Iter) : Exec (Iter × Option α) :=
  if !iter.isValid then .ok (iter, none)
  else if iter.internal = 0 then .ok (iter, none)
  else (readNode heap iter.internal).map fun node =>
    ({ iter with internal := node.next, index := wrap (iter.index + 1) }, some node.data)

/-- The answers of `n` calls for the next element. -/
def iterate (heap : Heap α) (iter : Iter) : ℕ → Exec (List (Option α))
  | 0 => .ok []
  | n + 1 => (zenitListIterNext heap iter).bind fun (iter, answer) =>
    (iterate heap iter n).map (answer :: ·)

/-! ## Runs -/

inductive Call (α : Type) where
  | pushFront (alloc : Option ℕ) (elem : Option α)
  | pushBack (alloc : Option ℕ) (elem : Option α)
  | popFront (out : Bool)
  | popBack (out : Bool)
  | insert (alloc : Option ℕ) (index : ℕ) (elem : Option α)
  | remove (index : ℕ) (out : Bool)
  | set (index : ℕ) (elem : Option α)
  | get (index : ℕ)
  | clear
  | count
  | foreach
  | reverseForeach
  | iterate (n : ℕ)

inductive Answer (α : Type) where
  | result (reply : Reply α)
  | pointer (elem : Option α)
  | number (n : ℕ)
  | visited (elems : List α)
  | handed (elems : List (Option α))
  | none

def step (fuel : ℕ) (list : ZList α) : Call α → Exec (ZList α × Answer α)
  | .pushFront alloc elem => (zenitListPushFront alloc list elem).map (Prod.map id .result)
  | .pushBack alloc elem => (zenitListPushBack alloc list elem).map (Prod.map id .result)
  | .popFront out => (zenitListPopFront list out).map (Prod.map id .result)
  | .popBack out => (zenitListPopBack list out).map (Prod.map id .result)
  | .insert alloc index elem => (zenitListInsert alloc list index elem).map (Prod.map id .result)
  | .remove index out => (zenitListRemove list index out).map (Prod.map id .result)
  | .set index elem => (zenitListSet list index elem).map (Prod.map id .result)
  | .get index => (zenitListGet list index).map fun elem => (list, .pointer elem)
  | .clear => (zenitListClear fuel list).map fun list => (list, .none)
  | .count => .ok (list, .number (zenitListCount list))
  | .foreach => (zenitListForeach fuel list).map fun elems => (list, .visited elems)
  | .reverseForeach => (zenitListReverseForeach fuel list).map fun elems => (list, .visited elems)
  | .iterate n => (Lists.iterate list.heap (zenitListIter list) n).map
      fun elems => (list, .handed elems)

end LibZenit.Lists
