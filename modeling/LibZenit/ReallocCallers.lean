import LibZenit.BitsetModel
import LibZenit.GraphModel
import LibZenit.HeapModel
import LibZenit.Reallocation

/-!
# The callers of `zenit_allocator_realloc`

The heap, the bit set and the graph once more, with the calls of `zenit_allocator_realloc` written
out and the sizes that the callers report. The vector has this in its own model.
-/

namespace LibZenit.Heaps
open Blocks Growth Reallocation

variable {α : Type} [Inhabited α]

def reallocBufferBy (hasRealloc ok : Bool) (h : Heap α) (newCap : ℕ) : Exec (Heap α × ZenitError) :=
  if !ok then .ok (h, .alloc)
  else (zenitAllocatorRealloc hasRealloc default h.buffer (slotsOf h.elemSize h.capacity)
      (slotsOf h.elemSize newCap)).map fun buffer =>
    ({ h with buffer := buffer, capacity := newCap }, .ok)

def zenitHeapPushBy (hasRealloc : Bool) (fuel : ℕ) (ok : Bool) (h : Heap α) (elem : α) :
    Exec (Heap α × ZenitError) :=
  if h.count = h.capacity then
    ((growLoop (wrap (h.capacity + 1)) fuel h.capacity).bind
      (reallocBufferBy hasRealloc ok h)).bind fun p =>
        if p.2 ≠ .ok then .ok p else putLast p.1 elem
  else putLast h elem

def zenitHeapReserveBy (hasRealloc ok : Bool) (h : Heap α) (capacity : ℕ) :
    Exec (Heap α × ZenitError) :=
  if capacity ≤ h.capacity then .ok (h, .ok) else reallocBufferBy hasRealloc ok h capacity

def zenitHeapBuildBy (hasRealloc ok : Bool) (h : Heap α) (array : List α) :
    Exec (Heap α × ZenitError) :=
  if array.length = 0 then .ok ({ h with count := 0 }, .ok)
  else if array.length > h.capacity then
    (reallocBufferBy hasRealloc ok h array.length).bind fun p =>
      if p.2 ≠ .ok then .ok p else fillFrom p.1 array
  else fillFrom h array

def stepBy (hasRealloc : Bool) (fuel : ℕ) (h : Heap α) : Op α → Exec (Heap α × Reply α)
  | .push ok elem => (zenitHeapPushBy hasRealloc fuel ok h elem).map fun p => (p.1, ⟨p.2, none⟩)
  | .build ok array => (zenitHeapBuildBy hasRealloc ok h array).map fun p => (p.1, ⟨p.2, none⟩)
  | .reserve ok capacity =>
    (zenitHeapReserveBy hasRealloc ok h capacity).map fun p => (p.1, ⟨p.2, none⟩)
  | op => step fuel h op

end LibZenit.Heaps

namespace LibZenit.Bitsets
open Blocks Reallocation

def zenitBitsetResizeBy (hasRealloc ok : Bool) (junk : UInt8) (bs : Bitset) (numBits : ℕ) :
    Exec (Bitset × ZenitError) :=
  let newBytes := bytesNeeded numBits
  if !ok then .ok (bs, .alloc)
  else (zenitAllocatorRealloc hasRealloc junk bs.bits bs.numBytes newBytes).bind fun newBits =>
    (if newBytes > bs.numBytes then
      writeSlots newBits bs.numBytes (List.replicate (newBytes - bs.numBytes) 0)
    else .ok newBits).map fun bits => (⟨bits, newBytes, numBits⟩, .ok)

def ensureCapacityBy (hasRealloc : Bool) (fuel : ℕ) (ok : Bool) (junk : UInt8) (bs : Bitset)
    (requiredPos : ℕ) : Exec (Bitset × ZenitError) :=
  let needed := wrap (requiredPos + 1)
  if needed ≤ bs.numBits then .ok (bs, .ok)
  else (growLoop needed fuel bs.numBits).bind fun newCap =>
    zenitBitsetResizeBy hasRealloc ok junk bs newCap

def changeBitBy (hasRealloc : Bool) (change : UInt8 → UInt8) (fuel : ℕ) (ok : Bool) (junk : UInt8)
    (bs : Bitset) (pos : ℕ) : Exec (Bitset × ZenitError) :=
  (ensureCapacityBy hasRealloc fuel ok junk bs pos).bind fun p =>
    if p.2 ≠ .ok then .ok p
    else (readSlot p.1.bits (pos / 8)).bind fun byte =>
      (writeSlot p.1.bits (pos / 8) (change byte)).map fun bits => ({ p.1 with bits := bits }, .ok)

def stepBy (hasRealloc : Bool) (fuel : ℕ) (bs : Bitset) : Call → Exec (Bitset × Reply UInt8)
  | .set ok junk pos =>
    (changeBitBy hasRealloc (fun byte => byte ||| (1 <<< UInt8.ofNat (pos % 8))) fuel ok junk bs
      pos).map fun p => (p.1, ⟨p.2, none⟩)
  | .clear ok junk pos =>
    (changeBitBy hasRealloc (fun byte => byte &&& ~~~(1 <<< UInt8.ofNat (pos % 8))) fuel ok junk bs
      pos).map fun p => (p.1, ⟨p.2, none⟩)
  | .toggle ok junk pos =>
    (changeBitBy hasRealloc (fun byte => byte ^^^ (1 <<< UInt8.ofNat (pos % 8))) fuel ok junk bs
      pos).map fun p => (p.1, ⟨p.2, none⟩)
  | .resize ok junk n =>
    (zenitBitsetResizeBy hasRealloc ok junk bs n).map fun p => (p.1, ⟨p.2, none⟩)
  | call => step fuel bs call

end LibZenit.Bitsets

namespace LibZenit.Graphs
open Blocks Reallocation

/-- The slots of the four vertex arrays. A growth that failed halfway leaves the first of them with
more slots than the graph has. -/
structure ArraySlots where
  adj : ℕ
  counts : ℕ
  capacities : ℕ
  removed : ℕ

/-- A graph with the sizes of its vertex arrays. What the slots from `vertexCapacity` on hold is
never read. -/
structure Stored where
  graph : Graph
  slots : ArraySlots

/-- Reallocate a vertex array of `slots` slots, of which the first `oldCap` are in use. -/
def reallocArray {β : Type} (hasRealloc : Bool) (junk : β) (array : ℕ → β)
    (slots oldCap newCap : ℕ) : Exec (ℕ → β) :=
  let block := (List.range slots).map fun i => if i < oldCap then array i else junk
  (zenitAllocatorRealloc hasRealloc junk block oldCap newCap).map fun block i =>
    if i < oldCap then block[i]?.getD junk else array i

/-- Each array is stored as soon as it is reallocated; the new slots are set when all four are. -/
def growVertexArraysBy (hasRealloc : Bool) (ok : ArrayAllocs) (s : Stored) :
    Exec (Stored × ZenitError) :=
  let oldCap := s.graph.vertexCapacity
  let newCap := growCapacity oldCap
  if wrapsVertexArrays newCap then .error .wrappedSize
  else if !ok.adj then .ok (s, .alloc)
  else (reallocArray hasRealloc [] s.graph.adj s.slots.adj oldCap newCap).bind fun adj =>
    let s := { s with graph.adj := adj, slots.adj := newCap }
    if !ok.counts then .ok (s, .alloc)
    else (reallocArray hasRealloc 0 s.graph.counts s.slots.counts oldCap newCap).bind fun counts =>
      let s := { s with graph.counts := counts, slots.counts := newCap }
      if !ok.capacities then .ok (s, .alloc)
      else (reallocArray hasRealloc 0 s.graph.capacities s.slots.capacities oldCap newCap).bind
        fun capacities =>
          let s := { s with graph.capacities := capacities, slots.capacities := newCap }
          if !ok.removed then .ok (s, .alloc)
          else (reallocArray hasRealloc false s.graph.removed s.slots.removed oldCap newCap).map
            fun removed =>
              let g := { s.graph with
                adj := fun i => if oldCap ≤ i ∧ i < newCap then [] else adj i
                counts := fun i => if oldCap ≤ i ∧ i < newCap then 0 else counts i
                capacities := fun i => if oldCap ≤ i ∧ i < newCap then 0 else capacities i
                removed := fun i => if oldCap ≤ i ∧ i < newCap then true else removed i
                vertexCapacity := newCap }
              (⟨g, { s.slots with removed := newCap }⟩, .ok)

def growAdjListBy (hasRealloc ok : Bool) (g : Graph) (vertex : ℕ) : Exec (Graph × ZenitError) :=
  let oldCap := g.capacities vertex
  let newCap := growCapacity oldCap
  if ok then
    (zenitAllocatorRealloc hasRealloc 0 (g.adj vertex) oldCap newCap).map fun list =>
      ({ g with
        adj := Function.update g.adj vertex list
        capacities := Function.update g.capacities vertex newCap }, .ok)
  else .ok (g, .alloc)

def ensureRoomBy (hasRealloc ok : Bool) (g : Graph) (a : ℕ) : Exec (Graph × ZenitError) :=
  if g.counts a = g.capacities a then growAdjListBy hasRealloc ok g a else .ok (g, .ok)

def addReverseBy (hasRealloc ok : Bool) (g : Graph) (a b : ℕ) : Exec (Graph × ZenitError) :=
  (ensureRoomBy hasRealloc ok g b).bind fun p =>
    if p.2 ≠ .ok then
      let g := { p.1 with counts := Function.update p.1.counts a (p.1.counts a - 1) }
      .ok (g.setEdgeCount (subSize g.edgeCount 1), p.2)
    else (append p.1 b a).map (·, .ok)

def zenitGraphAddVertexBy (hasRealloc : Bool) (ok : ArrayAllocs) (s : Stored) :
    Exec (Stored × ZenitError) :=
  let slot := findTombstone s.graph
  if slot = -1 then
    (growVertexArraysBy hasRealloc ok s).bind fun p =>
      if p.2 ≠ .ok then .ok p
      else (activate p.1.graph (toInt p.1.graph.vertexCount)).map fun g =>
        ({ p.1 with graph := g }, .ok)
  else (activate s.graph slot).map fun g => ({ s with graph := g }, .ok)

def zenitGraphAddEdgeBy (hasRealloc okFrom okTo : Bool) (g : Graph) (a b : ℤ) :
    Exec (Graph × ZenitError) :=
  if !isActive g a then .ok (g, .param)
  else if !isActive g b then .ok (g, .param)
  else if zenitGraphHasEdge g a b then .ok (g, .ok)
  else (ensureRoomBy hasRealloc okFrom g a.toNat).bind fun p =>
    if p.2 ≠ .ok then .ok p
    else (append p.1 a.toNat b.toNat).bind fun g =>
      let g := g.setEdgeCount (wrap (g.edgeCount + 1))
      if !g.directed && a ≠ b then addReverseBy hasRealloc okTo g a.toNat b.toNat else .ok (g, .ok)

def stepBy (hasRealloc : Bool) (s : Stored) : Op → Exec (Stored × ZenitError)
  | .addVertex ok => zenitGraphAddVertexBy hasRealloc ok s
  | .addEdge okFrom okTo a b =>
    (zenitGraphAddEdgeBy hasRealloc okFrom okTo s.graph a b).map fun p =>
      ({ s with graph := p.1 }, p.2)
  | op => (step s.graph op).map fun p => ({ s with graph := p.1 }, p.2)

end LibZenit.Graphs
