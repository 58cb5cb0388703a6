import LibZenit.Blocks

/-!
# The adjacency lists of `graph.c`

The vertex arrays are functions of the slot, of which the first `vertexCapacity` slots exist.
`adj v` is the block of vertex `v`; the first `counts v` of its slots are in use. Vertex numbers
are `int` in the interface, and the outcomes of the allocations are arguments of the operations.
-/
namespace LibZenit.Graphs
open Blocks

structure Graph where
  adj : ℕ → List ℕ
  counts : ℕ → ℕ
  capacities : ℕ → ℕ
  vertexCount : ℕ
  vertexCapacity : ℕ
  edgeCount : ℕ
  directed : Bool
  removed : ℕ → Bool

def growCapacity (old : ℕ) : ℕ := if old = 0 then 8 else old + old / 2

/-- `(int)n` -/
def toInt (n : ℕ) : ℤ := Int.bmod n (2 ^ 32)

/-- The slots in use of the list of `v`. -/
def neighbors (g : Graph) (v : ℕ) : List ℕ := (g.adj v).take (g.counts v)

/-! ## Growing -/

/-- The outcomes of the four allocations behind the vertex arrays, in their order. -/
structure ArrayAllocs where
  adj : Bool
  counts : Bool
  capacities : Bool
  removed : Bool

def ArrayAllocs.all (ok : ArrayAllocs) : Bool := ok.adj && ok.counts && ok.capacities && ok.removed

/-- The largest of the four arrays holds eight bytes in a slot. -/
def wrapsVertexArrays (cap : ℕ) : Bool := 2 ^ 64 ≤ cap * 8

/-- An array that was resized before a later one failed keeps its first `vertexCapacity` slots. -/
def growVertexArrays (ok : ArrayAllocs) (g : Graph) : Exec (Graph × ZenitError) :=
  let oldCap := g.vertexCapacity
  let newCap := growCapacity oldCap
  if wrapsVertexArrays newCap then .error .wrappedSize
  else if !ok.all then .ok (g, .alloc)
  else .ok ({ g with
    adj := fun i => if oldCap ≤ i ∧ i < newCap then [] else g.adj i
    counts := fun i => if oldCap ≤ i ∧ i < newCap then 0 else g.counts i
    capacities := fun i => if oldCap ≤ i ∧ i < newCap then 0 else g.capacities i
    removed := fun i => if oldCap ≤ i ∧ i < newCap then true else g.removed i
    vertexCapacity := newCap }, .ok)

def growAdjList (ok : Bool) (g : Graph) (vertex : ℕ) : Graph × ZenitError :=
  let newCap := growCapacity (g.capacities vertex)
  if ok then
    ({ g with
      adj := Function.update g.adj vertex (resize 0 newCap (g.adj vertex))
      capacities := Function.update g.capacities vertex newCap }, .ok)
  else (g, .alloc)

/-! ## Creation -/

def emptyGraph (cap : ℕ) (directed : Bool) : Graph where
  adj := fun _ => []
  counts := fun _ => 0
  capacities := fun _ => 0
  vertexCount := 0
  vertexCapacity := cap
  edgeCount := 0
  directed := directed
  removed := fun _ => true

def zenitGraphCreate (handle : Bool) (ok : ArrayAllocs) (initialCapacity : ℕ) (directed : Bool) :
    Exec (Option Graph) :=
  let cap := if initialCapacity = 0 then 8 else initialCapacity
  if !handle then .ok none
  else if wrapsVertexArrays cap then .error .wrappedSize
  else if !ok.all then .ok none
  else .ok (some (emptyGraph cap directed))

/-! ## Vertices -/

/-- `removed[slot] = 0; vertex_count++` -/
def activate (g : Graph) (slot : ℤ) : Exec Graph :=
  if 0 ≤ slot ∧ slot.toNat < g.vertexCapacity then
    .ok { g with
      removed := Function.update g.removed slot.toNat false
      vertexCount := g.vertexCount + 1 }
  else .error .outOfBounds

/-- The first tombstone, or -1. -/
def findTombstone (g : Graph) : ℤ :=
  match (List.range g.vertexCapacity).find? g.removed with
  | some i => toInt i
  | none => -1

def zenitGraphAddVertex (ok : ArrayAllocs) (g : Graph) : Exec (Graph × ZenitError) :=
  let slot := findTombstone g
  if slot = -1 then
    (growVertexArrays ok g).bind fun p =>
      if p.2 ≠ .ok then .ok p else (activate p.1 (toInt p.1.vertexCount)).map (·, .ok)
  else (activate g slot).map (·, .ok)

def Graph.setEdgeCount (g : Graph) (n : ℕ) : Graph := { g with edgeCount := n }

/-- `memmove` the rest of the list of `i` down onto slot `j`, and drop the last slot. -/
def eraseSlot (g : Graph) (i j : ℕ) : Graph :=
  { g with
    adj := Function.update g.adj i (memmove (g.adj i) j (j + 1) (g.counts i - j - 1))
    counts := Function.update g.counts i (g.counts i - 1) }

/-- Erase an occurrence of the removed vertex, which counts as an edge when directed. -/
def eraseOccurrence (g : Graph) (i j : ℕ) : Graph :=
  let g := eraseSlot g i j
  if g.directed then g.setEdgeCount (subSize g.edgeCount 1) else g

/-- The loop of `remove_vertex_from_adj` at position `j` of the list of `i`. -/
def removeVertexFromAdjFrom (i vertex : ℕ) : ℕ → ℕ → Graph → Graph
  | 0, _, g => g
  | fuel + 1, j, g =>
    if j < g.counts i then
      if (g.adj i)[j]? = some vertex then
        removeVertexFromAdjFrom i vertex fuel j (eraseOccurrence g i j)
      else removeVertexFromAdjFrom i vertex fuel (j + 1) g
    else g

/-- Every round drops a slot or passes one. -/
def removeVertexFromAdj (g : Graph) (i vertex : ℕ) : Graph :=
  removeVertexFromAdjFrom i vertex (g.counts i) 0 g

/-- The endpoint checks of the interface. -/
def isActive (g : Graph) (vertex : ℤ) : Bool :=
  0 ≤ vertex && vertex.toNat < g.vertexCapacity && !g.removed vertex.toNat

/-- The pass over every active vertex. -/
def removeIncoming (g : Graph) (vertex : ℕ) : Graph :=
  (List.range g.vertexCapacity).foldl
    (fun g i => if g.removed i then g else removeVertexFromAdj g i vertex) g

/-- Free the list of `v` and turn its slot into a tombstone. -/
def freeSlot (g : Graph) (v : ℕ) : Graph :=
  { g with
    adj := Function.update g.adj v []
    counts := Function.update g.counts v 0
    capacities := Function.update g.capacities v 0
    removed := Function.update g.removed v true
    vertexCount := g.vertexCount - 1 }

def zenitGraphRemoveVertex (g : Graph) (vertex : ℤ) : Graph × ZenitError :=
  if !isActive g vertex then (g, .param)
  else
    let v := vertex.toNat
    let g := g.setEdgeCount (subSize g.edgeCount (g.counts v))
    (freeSlot (removeIncoming g v) v, .ok)

/-! ## Edges -/

def zenitGraphHasEdge (g : Graph) (a b : ℤ) : Bool :=
  isActive g a && isActive g b && (neighbors g a.toNat).contains b.toNat

/-- `adj[a][counts[a]++] = b` -/
def append (g : Graph) (a b : ℕ) : Exec Graph :=
  if g.counts a < (g.adj a).length then
    .ok { g with
      adj := Function.update g.adj a ((g.adj a).set (g.counts a) b)
      counts := Function.update g.counts a (g.counts a + 1) }
  else .error .outOfBounds

/-- Grow the list of `a` when it is full. -/
def ensureRoom (ok : Bool) (g : Graph) (a : ℕ) : Graph × ZenitError :=
  if g.counts a = g.capacities a then growAdjList ok g a else (g, .ok)

/-- The reverse edge of an undirected graph. When its list cannot grow, the forward edge is
taken back. -/
def addReverse (ok : Bool) (g : Graph) (a b : ℕ) : Exec (Graph × ZenitError) :=
  let p := ensureRoom ok g b
  if p.2 ≠ .ok then
    let g := { p.1 with counts := Function.update p.1.counts a (p.1.counts a - 1) }
    .ok (g.setEdgeCount (subSize g.edgeCount 1), p.2)
  else (append p.1 b a).map (·, .ok)

def zenitGraphAddEdge (okFrom okTo : Bool) (g : Graph) (a b : ℤ) : Exec (Graph × ZenitError) :=
  if !isActive g a then .ok (g, .param)
  else if !isActive g b then .ok (g, .param)
  else if zenitGraphHasEdge g a b then .ok (g, .ok)
  else
    let p := ensureRoom okFrom g a.toNat
    if p.2 ≠ .ok then .ok p
    else (append p.1 a.toNat b.toNat).bind fun g =>
      let g := g.setEdgeCount (wrap (g.edgeCount + 1))
      if !g.directed && a ≠ b then addReverse okTo g a.toNat b.toNat else .ok (g, .ok)

def zenitGraphRemoveEdge (g : Graph) (a b : ℤ) : Graph × ZenitError :=
  if !isActive g a then (g, .param)
  else if !isActive g b then (g, .param)
  else
    match (neighbors g a.toNat).idxOf? b.toNat with
    | none => (g, .ok)
    | some i =>
      let g := eraseSlot g a.toNat i
      let g := g.setEdgeCount (subSize g.edgeCount 1)
      if !g.directed && a ≠ b then
        match (neighbors g b.toNat).idxOf? a.toNat with
        | none => (g, .ok)
        | some i => (eraseSlot g b.toNat i, .ok)
      else (g, .ok)

def zenitGraphEdgeCount (g : Graph) : ℕ := g.edgeCount

def zenitGraphVertexCount (g : Graph) : ℕ := g.vertexCount

def zenitGraphClear (g : Graph) : Graph :=
  { g with
    adj := fun i => if i < g.vertexCapacity then [] else g.adj i
    counts := fun i => if i < g.vertexCapacity then 0 else g.counts i
    capacities := fun i => if i < g.vertexCapacity then 0 else g.capacities i
    removed := fun i => if i < g.vertexCapacity then true else g.removed i
    vertexCount := 0
    edgeCount := 0 }

/-! ## Runs -/

inductive Op where
  | addVertex (ok : ArrayAllocs)
  | removeVertex (vertex : ℤ)
  | addEdge (okFrom okTo : Bool) (a b : ℤ)
  | removeEdge (a b : ℤ)
  | clear

def step (g : Graph) : Op → Exec (Graph × ZenitError)
  | .addVertex ok => zenitGraphAddVertex ok g
  | .removeVertex vertex => .ok (zenitGraphRemoveVertex g vertex)
  | .addEdge okFrom okTo a b => zenitGraphAddEdge okFrom okTo g a b
  | .removeEdge a b => .ok (zenitGraphRemoveEdge g a b)
  | .clear => .ok (zenitGraphClear g, .ok)

/-- `Run g₀ h g`: the calls of `h`, with their results, lead from `g₀` to `g`. -/
inductive Run (g₀ : Graph) : List (Op × ZenitError) → Graph → Prop
  | start : Run g₀ [] g₀
  | call {h : List (Op × ZenitError)} {g g' : Graph} {op : Op} {r : ZenitError}
      (prior : Run g₀ h g) (done : step g op = .ok (g', r)) : Run g₀ (h ++ [(op, r)]) g'

/-- Carry out calls behind those of `h`. -/
def exec (h : List (Op × ZenitError)) (g : Graph) : List Op → Exec (List (Op × ZenitError) × Graph)
  | [] => .ok (h, g)
  | op :: ops => (step g op).bind fun p => exec (h ++ [(op, p.2)]) p.1 ops

theorem Run.exec {g₀ g g' : Graph} {h h' : List (Op × ZenitError)} {ops : List Op}
    (hr : Run g₀ h g) (he : Graphs.exec h g ops = .ok (h', g')) : Run g₀ h' g' := by
  induction ops generalizing h g with
  | nil =>
    cases he
    exact hr
  | cons op ops ih =>
    obtain ⟨p, hs, hrest⟩ := bind_eq_ok he
    exact ih (hr.call hs) hrest

end LibZenit.Graphs
