import LibZenit.GraphModel

/-!
# The traversals of `graph.c`

Both traversals list a vertex as soon as they come across it, in a block that has a slot for every
vertex slot of the graph. The calls of the visitor are part of the result, in their order. A
traversal gets one round for every vertex slot and one to find its worklist empty.
-/
namespace LibZenit.Graphs
open Blocks

variable {C : Type}

/-- A visitor changes what `ctx` points to; it stops the traversal with a non-zero result. -/
abbrev VisitFn (C : Type) := C → ℕ → C × ℤ

/-- The two blocks of a traversal; `next` is `tail` in the queue and `sp` on the stack. -/
structure Worklist where
  visited : List ℕ
  slots : List ℕ
  next : ℕ

/-- `if (!visited[u]) { visited[u] = 1; slots[next++] = u; }`, where `u` is `adj[v][i]`. -/
def discover (g : Graph) (v : ℕ) (s : Worklist) (i : ℕ) : Exec Worklist :=
  (readSlot (g.adj v) i).bind fun u => (readSlot s.visited u).bind fun mark =>
    if mark = 0 then
      (writeSlot s.visited u 1).bind fun visited =>
      (writeSlot s.slots s.next u).map fun slots => ⟨visited, slots, s.next + 1⟩
    else .ok s

def discoverAt (g : Graph) (v : ℕ) : List ℕ → Worklist → Exec Worklist
  | [], s => .ok s
  | i :: positions, s => (discover g v s i).bind (discoverAt g v positions)

/-- The loop over the positions of the list of `v`, in the order the traversal takes. -/
def discoverAll (g : Graph) (v : ℕ) (positions : List ℕ) (s : Worklist) : Exec Worklist :=
  if v < g.vertexCapacity then discoverAt g v positions s else .error .outOfBounds

/-- `while (head < tail)` -/
def bfsLoop (g : Graph) (visit : VisitFn C) : ℕ → ℕ → Worklist → C → Exec (List ℕ × C)
  | 0, _, _, _ => .error .hang
  | fuel + 1, head, s, ctx =>
    if head < s.next then
      (readSlot s.slots head).bind fun v =>
        let p := visit ctx v
        if p.2 ≠ 0 then .ok ([v], p.1)
        else
          (discoverAll g v (List.range (g.counts v)) s).bind fun s =>
          (bfsLoop g visit fuel (head + 1) s p.1).map fun q => (v :: q.1, q.2)
    else .ok ([], ctx)

/-- `while (sp > 0)`; the list is gone through backwards. -/
def dfsLoop (g : Graph) (visit : VisitFn C) : ℕ → Worklist → C → Exec (List ℕ × C)
  | 0, _, _ => .error .hang
  | fuel + 1, s, ctx =>
    if s.next > 0 then
      let s := { s with next := s.next - 1 }
      (readSlot s.slots s.next).bind fun v =>
        let p := visit ctx v
        if p.2 ≠ 0 then .ok ([v], p.1)
        else
          (discoverAll g v (List.range (g.counts v)).reverse s).bind fun s =>
          (dfsLoop g visit fuel s p.1).map fun q => (v :: q.1, q.2)
    else .ok ([], ctx)

/-- What the two have in common. `calloc` checks the product of its arguments, the product for
`malloc` wraps around; `fresh` is what the second block holds at first. -/
def traverse (loop : Worklist → C → Exec (List ℕ × C)) (okVisited okSlots : Bool) (fresh : ℕ → ℕ)
    (g : Graph) (start : ℤ) (ctx : C) : Exec (ZenitError × List ℕ × C) :=
  if !isActive g start then .ok (.param, [], ctx)
  else if !granted okVisited (g.vertexCapacity * 4) then .ok (.alloc, [], ctx)
  else if !granted okSlots (wrap (g.vertexCapacity * 4)) then .ok (.alloc, [], ctx)
  else
    (writeSlot (List.replicate g.vertexCapacity 0) start.toNat 1).bind fun visited =>
    (writeSlot ((List.range (slotsOf 4 g.vertexCapacity)).map fresh) 0 start.toNat).bind
      fun slots => (loop ⟨visited, slots, 1⟩ ctx).map fun q => (.ok, q)

def zenitGraphBfs (okVisited okQueue : Bool) (fresh : ℕ → ℕ) (g : Graph) (start : ℤ)
    (visit : VisitFn C) (ctx : C) : Exec (ZenitError × List ℕ × C) :=
  traverse (bfsLoop g visit (g.vertexCapacity + 1) 0) okVisited okQueue fresh g start ctx

def zenitGraphDfs (okVisited okStack : Bool) (fresh : ℕ → ℕ) (g : Graph) (start : ℤ)
    (visit : VisitFn C) (ctx : C) : Exec (ZenitError × List ℕ × C) :=
  traverse (dfsLoop g visit (g.vertexCapacity + 1)) okVisited okStack fresh g start ctx

end LibZenit.Graphs
