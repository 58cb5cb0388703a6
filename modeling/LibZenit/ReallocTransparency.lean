import LibZenit.GraphRuns
import LibZenit.JsonBlocks
import LibZenit.ReallocCallers
import LibZenit.VectorRefinement

/-!
# Allocators without a `realloc_fn`

Every caller of `zenit_allocator_realloc` reports an old size that the old block has and that covers
what it still needs. So a run goes the same way whether the allocator has a `realloc_fn` or not.
New slots hold one value on both sides; it is arbitrary, and may stand for indeterminate contents.
-/

namespace LibZenit.Vectors
open Blocks

variable {α : Type} {v v' : Vector α} {reply : Reply α}

theorem Backed.putLast {elem : α} (h : Backed v)
    (hstep : Vectors.putLast v elem = .ok (v', reply)) : Backed v' := by
  obtain ⟨buffer, hwrite, heq⟩ := map_eq_ok hstep
  cases heq
  exact (length_of_writeSlot hwrite).trans h

theorem Backed.putAt {index : ℕ} {elem : α} (h : Backed v)
    (hstep : Vectors.putAt v index elem = .ok (v', reply)) : Backed v' := by
  obtain ⟨moved, hmove, hrest⟩ := bind_eq_ok hstep
  obtain ⟨buffer, hwrite, heq⟩ := map_eq_ok hrest
  have hlen : moved.length = v.buffer.length := by
    split_ifs at hmove
    · exact length_of_moveSlots hmove
    · rw [Except.ok.inj hmove]
  cases heq
  exact ((length_of_writeSlot hwrite).trans hlen).trans h

variable [Inhabited α]

theorem Backed.reallocBuffer (h : Backed v) (ok : Bool) (newCap : ℕ) :
    Backed (Vectors.reallocBuffer ok v newCap).1 := by
  unfold Vectors.reallocBuffer
  split_ifs
  · simp [Backed, slotsOf, wrap]
  · exact h
  · exact length_resize _ _ _

theorem Backed.withRoom {fuel minCapacity : ℕ} {ok : Bool}
    {go : Vector α → Exec (Vector α × Reply α)} (h : Backed v)
    (hgo : ∀ w, Backed w → go w = .ok (v', reply) → Backed v')
    (hstep : Vectors.withRoom fuel ok v minCapacity go = .ok (v', reply)) : Backed v' := by
  unfold Vectors.withRoom at hstep
  split_ifs at hstep with hfull
  · obtain ⟨p, hgrow, hrest⟩ := bind_eq_ok hstep
    obtain ⟨newCap, -, rfl⟩ := map_eq_ok hgrow
    split_ifs at hrest
    · cases hrest
      exact h.reallocBuffer ok newCap
    · exact hgo _ (h.reallocBuffer ok newCap) hrest
  · exact hgo v h hstep

theorem Backed.step {fuel : ℕ} {op : Op α} (h : Backed v)
    (hstep : Vectors.step fuel v op = .ok (v', reply)) : Backed v' := by
  cases op with
  | push ok elem => exact h.withRoom (fun w hw => hw.putLast) hstep
  | pop =>
    simp only [Vectors.step, zenitVectorPop] at hstep
    split_ifs at hstep
    · cases hstep
      exact h
    · obtain ⟨elem, -, heq⟩ := map_eq_ok hstep
      cases heq
      exact h
  | insert ok index elem =>
    simp only [Vectors.step, zenitVectorInsert] at hstep
    split_ifs at hstep
    · cases hstep
      exact h
    · exact h.withRoom (fun w hw => hw.putAt) hstep
  | remove index =>
    simp only [Vectors.step, zenitVectorRemove] at hstep
    split_ifs at hstep
    · cases hstep
      exact h
    · obtain ⟨elem, -, hrest⟩ := bind_eq_ok hstep
      obtain ⟨buffer, hmove, heq⟩ := map_eq_ok hrest
      cases heq
      exact (length_of_moveSlots hmove).trans h
    · obtain ⟨elem, -, hrest⟩ := bind_eq_ok hstep
      cases hrest
      exact h
  | get index =>
    obtain ⟨elem, -, heq⟩ := map_eq_ok hstep
    cases heq
    exact h
  | set index elem =>
    simp only [Vectors.step, zenitVectorSet] at hstep
    split_ifs at hstep
    · cases hstep
      exact h
    · obtain ⟨buffer, hwrite, heq⟩ := map_eq_ok hstep
      cases heq
      exact (length_of_writeSlot hwrite).trans h
  | reserve ok capacity =>
    simp only [Vectors.step, zenitVectorReserve] at hstep
    split_ifs at hstep
    · cases hstep
      exact h
    · cases hstep
      exact h.reallocBuffer ok capacity
  | shrinkToFit ok =>
    simp only [Vectors.step, zenitVectorShrinkToFit] at hstep
    split_ifs at hstep
    · cases hstep
      exact h
    · cases hstep
      exact h.reallocBuffer ok v.count
  | clear =>
    cases hstep
    exact h

theorem Reachable.backed (h : Reachable v) : Backed v := by
  induction h with
  | create made =>
    unfold zenitVectorCreate at made
    split_ifs at made
    cases made
    simp [Backed, slotsOf, wrap]
  | withCapacity made =>
    unfold zenitVectorCreateWithCapacity at made
    split_ifs at made
    cases made
    exact List.length_replicate
  | step _ done ih => exact ih.step done

/-- A run of a vector is the run of the plain model. -/
theorem Backed.run_stepBy (h : Backed v) (hasRealloc : Bool) (fuel : ℕ) (ops : List (Op α)) :
    Refinement.run (stepBy hasRealloc fuel) v ops = Refinement.run (Vectors.step fuel) v ops :=
  Refinement.run_congr (fun _ _ _ _ hs hstep => hs.step hstep)
    (fun _ op hs => stepBy_eq hs hasRealloc fuel op) h

end LibZenit.Vectors

namespace LibZenit.Heaps
open Blocks

variable {α : Type} {h h' : Heap α} {buf buf' : List α} {compare : α → α → ℤ}

/-! ## Sifting keeps the block -/

theorem length_of_swapElements {i j : ℕ} (h : swapElements buf i j = .ok buf') :
    buf'.length = buf.length := by
  obtain ⟨a, -, h⟩ := bind_eq_ok h
  obtain ⟨b, -, h⟩ := bind_eq_ok h
  obtain ⟨mid, hfirst, hsecond⟩ := bind_eq_ok h
  exact (length_of_writeSlot hsecond).trans (length_of_writeSlot hfirst)

theorem length_of_siftUpLoop {fuel idx : ℕ} (h : siftUpLoop compare fuel buf idx = .ok buf') :
    buf'.length = buf.length := by
  induction fuel generalizing buf idx with
  | zero => cases h
  | succ fuel ih =>
    rw [siftUpLoop] at h
    split_ifs at h
    · rw [Except.ok.inj h]
    · obtain ⟨a, -, h⟩ := bind_eq_ok h
      obtain ⟨b, -, h⟩ := bind_eq_ok h
      split_ifs at h
      · rw [Except.ok.inj h]
      · obtain ⟨mid, hswap, hrest⟩ := bind_eq_ok h
        exact (ih hrest).trans (length_of_swapElements hswap)

theorem length_of_siftDownLoop {n fuel idx : ℕ}
    (h : siftDownLoop compare n fuel buf idx = .ok buf') : buf'.length = buf.length := by
  induction fuel generalizing buf idx with
  | zero => cases h
  | succ fuel ih =>
    rw [siftDownLoop] at h
    obtain ⟨left, -, h⟩ := bind_eq_ok h
    obtain ⟨largest, -, h⟩ := bind_eq_ok h
    split_ifs at h
    · rw [Except.ok.inj h]
    · obtain ⟨mid, hswap, hrest⟩ := bind_eq_ok h
      exact (ih hrest).trans (length_of_swapElements hswap)

/-- The block is as large as its byte size says. -/
def Backed (h : Heap α) : Prop := h.buffer.length = slotsOf h.elemSize h.capacity

theorem Backed.siftDown {idx : ℕ} (hb : Backed h) (hsift : Heaps.siftDown h idx = .ok h') :
    Backed h' := by
  obtain ⟨buffer, hloop, rfl⟩ := map_eq_ok hsift
  exact (length_of_siftDownLoop hloop).trans hb

theorem Backed.heapify {idx : ℕ} (hb : Backed h) (hrun : Heaps.heapify h idx = .ok h') :
    Backed h' := by
  induction idx generalizing h with
  | zero =>
    cases hrun
    exact hb
  | succ idx ih =>
    obtain ⟨mid, hsift, hrest⟩ := bind_eq_ok hrun
    exact ih (hb.siftDown hsift) hrest

theorem Backed.fillFrom {array : List α} {code : ZenitError} (hb : Backed h)
    (hfill : Heaps.fillFrom h array = .ok (h', code)) : Backed h' := by
  obtain ⟨buffer, hcopy, hrest⟩ := bind_eq_ok hfill
  obtain ⟨filled, hheap, heq⟩ := map_eq_ok hrest
  have hlen : buffer.length = h.buffer.length := by
    have hslots := slotsOf_le h.elemSize array.length
    simp only [copyIn] at hcopy
    split_ifs at hcopy with hroom
    rw [← Except.ok.inj hcopy, List.length_append, List.length_take, List.length_drop]
    omega
  have hcopied : Backed { h with buffer := buffer, count := array.length } := hlen.trans hb
  cases heq
  exact hcopied.heapify hheap

theorem Backed.putLast {elem : α} {code : ZenitError} (hb : Backed h)
    (hput : Heaps.putLast h elem = .ok (h', code)) : Backed h' := by
  obtain ⟨buffer, hwrite, hrest⟩ := bind_eq_ok hput
  obtain ⟨sifted, hsift, heq⟩ := map_eq_ok hrest
  obtain ⟨final, hloop, rfl⟩ := map_eq_ok hsift
  cases heq
  exact ((length_of_siftUpLoop hloop).trans (length_of_writeSlot hwrite)).trans hb

theorem Backed.pop {reply : Reply α} (hb : Backed h)
    (hpop : zenitHeapPop h = .ok (h', reply)) : Backed h' := by
  unfold zenitHeapPop at hpop
  split_ifs at hpop
  · cases hpop
    exact hb
  obtain ⟨out, -, hrest⟩ := bind_eq_ok hpop
  simp only at hrest
  split_ifs at hrest
  · obtain ⟨last, -, hrest⟩ := bind_eq_ok hrest
    obtain ⟨buffer, hwrite, hrest⟩ := bind_eq_ok hrest
    obtain ⟨sifted, hsift, heq⟩ := map_eq_ok hrest
    have hmoved : Backed { h with buffer := buffer, count := h.count - 1 } :=
      (length_of_writeSlot hwrite).trans hb
    cases heq
    exact hmoved.siftDown hsift
  · cases hrest
    exact hb

variable [Inhabited α]

theorem Backed.reallocBuffer (hb : Backed h) (ok : Bool) (newCap : ℕ) :
    Backed (Heaps.reallocBuffer ok h newCap).1 := by
  unfold Heaps.reallocBuffer
  split_ifs
  · exact hb
  · exact length_resize _ _ _

theorem Backed.step {fuel : ℕ} {op : Op α} {reply : Reply α} (hb : Backed h)
    (hstep : Heaps.step fuel h op = .ok (h', reply)) : Backed h' := by
  cases op with
  | push ok elem =>
    obtain ⟨p, hpush, heq⟩ := map_eq_ok hstep
    cases heq
    unfold zenitHeapPush at hpush
    split_ifs at hpush
    · obtain ⟨q, hgrow, hrest⟩ := bind_eq_ok hpush
      obtain ⟨newCap, -, rfl⟩ := map_eq_ok hgrow
      split_ifs at hrest
      · rw [← Except.ok.inj hrest]
        exact hb.reallocBuffer ok newCap
      · exact (hb.reallocBuffer ok newCap).putLast hrest
    · exact hb.putLast hpush
  | pop => exact hb.pop hstep
  | peek =>
    obtain ⟨elem, -, heq⟩ := map_eq_ok hstep
    cases heq
    exact hb
  | build ok array =>
    obtain ⟨p, hbuild, heq⟩ := map_eq_ok hstep
    cases heq
    unfold zenitHeapBuild at hbuild
    simp only at hbuild
    split_ifs at hbuild
    · rw [← Except.ok.inj hbuild]
      exact hb
    · rw [← Except.ok.inj hbuild]
      exact hb.reallocBuffer ok array.length
    · exact (hb.reallocBuffer ok array.length).fillFrom hbuild
    · exact hb.fillFrom hbuild
  | reserve ok capacity =>
    cases hstep
    unfold zenitHeapReserve
    split_ifs
    · exact hb
    · exact hb.reallocBuffer ok capacity
  | clear =>
    cases hstep
    exact hb

theorem Reachable.backed (hr : Reachable h) : Backed h := by
  induction hr with
  | create made =>
    unfold zenitHeapCreateWithCapacity at made
    split_ifs at made
    cases made
    exact List.length_replicate
  | step _ done ih => exact ih.step done

/-! ## Either kind of allocator -/

theorem reallocBufferBy_eq (hb : Backed h) (hasRealloc ok : Bool) (newCap : ℕ) :
    reallocBufferBy hasRealloc ok h newCap = .ok (reallocBuffer ok h newCap) := by
  rw [reallocBufferBy, reallocBuffer, ← hb, Reallocation.zenitAllocatorRealloc_eq]
  split_ifs <;> rfl

theorem stepBy_eq (hb : Backed h) (hasRealloc : Bool) (fuel : ℕ) (op : Op α) :
    stepBy hasRealloc fuel h op = Heaps.step fuel h op := by
  cases op with
  | push ok elem =>
    have hrealloc : reallocBufferBy hasRealloc ok h = fun n => .ok (reallocBuffer ok h n) :=
      funext (reallocBufferBy_eq hb hasRealloc ok)
    rw [stepBy, Heaps.step, zenitHeapPushBy, zenitHeapPush, grow, hrealloc]
    cases Growth.growLoop (wrap (h.capacity + 1)) fuel h.capacity <;> rfl
  | build ok array =>
    rw [stepBy, Heaps.step, zenitHeapBuildBy, zenitHeapBuild, reallocBufferBy_eq hb]
    rfl
  | reserve ok capacity =>
    rw [stepBy, Heaps.step, zenitHeapReserveBy, zenitHeapReserve, reallocBufferBy_eq hb]
    split_ifs <;> rfl
  | pop | peek | clear => rfl

theorem Backed.run_stepBy (hb : Backed h) (hasRealloc : Bool) (fuel : ℕ) (ops : List (Op α)) :
    Refinement.run (stepBy hasRealloc fuel) h ops = Refinement.run (Heaps.step fuel) h ops :=
  Refinement.run_congr (fun _ _ _ _ hs hstep => hs.step hstep)
    (fun _ op hs => stepBy_eq hs hasRealloc fuel op) hb

end LibZenit.Heaps

namespace LibZenit.Bitsets
open Blocks

variable {bs bs' : Bitset} {code : ZenitError}

/-- The block is as large as the bit set thinks. -/
def Backed (bs : Bitset) : Prop := bs.bits.length = bs.numBytes

theorem create_backed {handle block : Bool} {numBits : ℕ}
    (h : zenitBitsetCreate handle block numBits = some bs) : Backed bs := by
  unfold zenitBitsetCreate at h
  split_ifs at h
  cases h
  exact List.length_replicate

theorem Backed.resize {ok : Bool} {junk : UInt8} {numBits : ℕ} (h : Backed bs)
    (hres : zenitBitsetResize ok junk bs numBits = .ok (bs', code)) : Backed bs' := by
  simp only [zenitBitsetResize] at hres
  split_ifs at hres
  · cases hres
    exact h
  · obtain ⟨bits, hwrite, heq⟩ := map_eq_ok hres
    cases heq
    exact (length_of_writeSlots hwrite).trans (length_resize _ _ _)
  · cases hres
    exact length_resize _ _ _

theorem Backed.ensureCapacity {fuel pos : ℕ} {ok : Bool} {junk : UInt8} (h : Backed bs)
    (hres : Bitsets.ensureCapacity fuel ok junk bs pos = .ok (bs', code)) : Backed bs' := by
  simp only [Bitsets.ensureCapacity] at hres
  split_ifs at hres
  · cases hres
    exact h
  · obtain ⟨newCap, -, hrest⟩ := bind_eq_ok hres
    exact h.resize hrest

theorem Backed.changeBit {change : UInt8 → UInt8} {fuel pos : ℕ} {ok : Bool} {junk : UInt8}
    (h : Backed bs) (hres : Bitsets.changeBit change fuel ok junk bs pos = .ok (bs', code)) :
    Backed bs' := by
  obtain ⟨⟨mid, r⟩, hroom, hrest⟩ := bind_eq_ok hres
  split_ifs at hrest
  · cases hrest
    exact h.ensureCapacity hroom
  · obtain ⟨byte, -, hrest⟩ := bind_eq_ok hrest
    obtain ⟨bits, hwrite, heq⟩ := map_eq_ok hrest
    cases heq
    exact (length_of_writeSlot hwrite).trans (h.ensureCapacity hroom)

theorem Backed.step {fuel : ℕ} {call : Call} {reply : Reply UInt8} (h : Backed bs)
    (hstep : Bitsets.step fuel bs call = .ok (bs', reply)) : Backed bs' := by
  cases call with
  | set ok junk pos =>
    obtain ⟨⟨mid, r⟩, hchange, heq⟩ := map_eq_ok hstep
    cases heq
    exact h.changeBit hchange
  | clear ok junk pos =>
    obtain ⟨⟨mid, r⟩, hchange, heq⟩ := map_eq_ok hstep
    cases heq
    exact h.changeBit hchange
  | toggle ok junk pos =>
    obtain ⟨⟨mid, r⟩, hchange, heq⟩ := map_eq_ok hstep
    cases heq
    exact h.changeBit hchange
  | test pos =>
    obtain ⟨bit, -, heq⟩ := map_eq_ok hstep
    cases heq
    exact h
  | setAll =>
    obtain ⟨mid, hall, heq⟩ := map_eq_ok hstep
    obtain ⟨bits, hwrite, rfl⟩ := map_eq_ok hall
    cases heq
    exact (length_of_writeSlots hwrite).trans h
  | clearAll =>
    obtain ⟨mid, hall, heq⟩ := map_eq_ok hstep
    obtain ⟨bits, hwrite, rfl⟩ := map_eq_ok hall
    cases heq
    exact (length_of_writeSlots hwrite).trans h
  | resize ok junk numBits =>
    obtain ⟨⟨mid, r⟩, hresize, heq⟩ := map_eq_ok hstep
    cases heq
    exact h.resize hresize

theorem resizeBy_eq (h : Backed bs) (hasRealloc ok : Bool) (junk : UInt8) (numBits : ℕ) :
    zenitBitsetResizeBy hasRealloc ok junk bs numBits = zenitBitsetResize ok junk bs numBits := by
  have hold : bs.numBytes = bs.bits.length := h.symm
  rw [zenitBitsetResizeBy, zenitBitsetResize, hold, Reallocation.zenitAllocatorRealloc_eq]
  rfl

theorem changeBitBy_eq (h : Backed bs) (hasRealloc : Bool) (change : UInt8 → UInt8) (fuel : ℕ)
    (ok : Bool) (junk : UInt8) (pos : ℕ) :
    changeBitBy hasRealloc change fuel ok junk bs pos = changeBit change fuel ok junk bs pos := by
  simp only [changeBitBy, changeBit, ensureCapacityBy, ensureCapacity, resizeBy_eq h]

theorem stepBy_eq (h : Backed bs) (hasRealloc : Bool) (fuel : ℕ) (call : Call) :
    stepBy hasRealloc fuel bs call = Bitsets.step fuel bs call := by
  cases call with
  | set ok junk pos => rw [stepBy, changeBitBy_eq h, Bitsets.step, zenitBitsetSet]
  | clear ok junk pos => rw [stepBy, changeBitBy_eq h, Bitsets.step, zenitBitsetClear]
  | toggle ok junk pos => rw [stepBy, changeBitBy_eq h, Bitsets.step, zenitBitsetToggle]
  | resize ok junk numBits => rw [stepBy, resizeBy_eq h, Bitsets.step]
  | test _ | setAll | clearAll => rfl

theorem Backed.run_stepBy (h : Backed bs) (hasRealloc : Bool) (fuel : ℕ) (calls : List Call) :
    Refinement.run (stepBy hasRealloc fuel) bs calls =
      Refinement.run (Bitsets.step fuel) bs calls :=
  Refinement.run_congr (fun _ _ _ _ hs hstep => hs.step hstep)
    (fun _ call hs => stepBy_eq hs hasRealloc fuel call) h

end LibZenit.Bitsets

namespace LibZenit.Graphs
open Blocks Reallocation

variable {s s' : Stored} {g : Graph} {ok : ArrayAllocs}

/-- The vertex arrays have a slot for every vertex. -/
structure Covered (s : Stored) : Prop where
  adj : s.graph.vertexCapacity ≤ s.slots.adj
  counts : s.graph.vertexCapacity ≤ s.slots.counts
  capacities : s.graph.vertexCapacity ≤ s.slots.capacities
  removed : s.graph.vertexCapacity ≤ s.slots.removed

/-! ## Vertex arrays -/

theorem reallocArray_eq {β : Type} {slots oldCap newCap : ℕ} (hslots : oldCap ≤ slots)
    (hcap : oldCap ≤ newCap) (hasRealloc : Bool) (junk : β) (array : ℕ → β) :
    reallocArray hasRealloc junk array slots oldCap newCap = .ok array := by
  obtain ⟨new, hnew, htake⟩ := zenitAllocatorRealloc_keeps
    (by simpa using hslots : oldCap ≤ ((List.range slots).map fun i =>
      if i < oldCap then array i else junk).length) hasRealloc junk newCap
  rw [reallocArray, hnew]
  refine congrArg Except.ok (funext fun i => ?_)
  change (if i < oldCap then new[i]?.getD junk else array i) = array i
  split_ifs with hi
  · have hget := congrArg (·[i]?) htake
    simp only [List.getElem?_take, hi, if_true, min_eq_left hcap, List.getElem?_map] at hget
    rw [hget, List.getElem?_range (by omega), Option.map_some, if_pos hi, Option.getD_some]
  · rfl

/-- The slots behind a growth, which may have stopped at any of the arrays. -/
def slotsAfter (ok : ArrayAllocs) (newCap : ℕ) (slots : ArraySlots) : ArraySlots :=
  if !ok.adj then slots
  else if !ok.counts then { slots with adj := newCap }
  else if !ok.capacities then { slots with adj := newCap, counts := newCap }
  else if !ok.removed then ⟨newCap, newCap, newCap, slots.removed⟩
  else ⟨newCap, newCap, newCap, newCap⟩

theorem growVertexArraysBy_eq (h : Covered s) (hasRealloc : Bool) (ok : ArrayAllocs) :
    growVertexArraysBy hasRealloc ok s = (growVertexArrays ok s.graph).map fun p =>
      (⟨p.1, slotsAfter ok (growCapacity s.graph.vertexCapacity) s.slots⟩, p.2) := by
  have hle := growCapacity_le s.graph.vertexCapacity
  simp only [growVertexArraysBy, growVertexArrays, reallocArray_eq h.adj hle,
    reallocArray_eq h.counts hle, reallocArray_eq h.capacities hle, reallocArray_eq h.removed hle,
    Except.bind, Except.map, slotsAfter, ArrayAllocs.all]
  obtain ⟨okAdj, okCounts, okCapacities, okRemoved⟩ := ok
  cases wrapsVertexArrays (growCapacity s.graph.vertexCapacity) <;> cases okAdj <;>
    cases okCounts <;> cases okCapacities <;> cases okRemoved <;> rfl

theorem slotsAfter_all (h : ok.all = true) (newCap : ℕ) (slots : ArraySlots) :
    slotsAfter ok newCap slots = ⟨newCap, newCap, newCap, newCap⟩ := by
  simp only [ArrayAllocs.all, Bool.and_eq_true] at h
  simp [slotsAfter, h]

/-- A growth that failed leaves the arrays at their old size or larger. -/
theorem Covered.slotsAfter (h : Covered s) (ok : ArrayAllocs) :
    Covered ⟨s.graph, slotsAfter ok (growCapacity s.graph.vertexCapacity) s.slots⟩ := by
  have hle := growCapacity_le s.graph.vertexCapacity
  unfold Graphs.slotsAfter
  split_ifs
  · exact h
  · exact ⟨hle, h.counts, h.capacities, h.removed⟩
  · exact ⟨hle, hle, h.capacities, h.removed⟩
  · exact ⟨hle, hle, hle, h.removed⟩
  · exact ⟨hle, hle, hle, hle⟩

/-! ## Adjacency lists -/

theorem growAdjListBy_eq {v : ℕ} (hi : Blocked g) (hv : v < g.vertexCapacity)
    (hasRealloc ok : Bool) : growAdjListBy hasRealloc ok g v = .ok (growAdjList ok g v) := by
  have hold : g.capacities v = (g.adj v).length := (hi v hv).1.symm
  simp only [growAdjListBy, growAdjList, hold, zenitAllocatorRealloc_eq]
  cases ok <;> rfl

theorem ensureRoomBy_eq {v : ℕ} (hi : Blocked g) (hv : v < g.vertexCapacity)
    (hasRealloc ok : Bool) : ensureRoomBy hasRealloc ok g v = .ok (ensureRoom ok g v) := by
  rw [ensureRoomBy, ensureRoom, growAdjListBy_eq hi hv]
  split_ifs <;> rfl

theorem addReverseBy_eq {b : ℕ} (hi : Blocked g) (hb : b < g.vertexCapacity) (hasRealloc ok : Bool)
    (a : ℕ) : addReverseBy hasRealloc ok g a b = addReverse ok g a b := by
  rw [addReverseBy, addReverse, ensureRoomBy_eq hi hb]
  rfl

theorem addEdgeBy_eq (hi : Blocked g) (hasRealloc okFrom okTo : Bool) (a b : ℤ) :
    zenitGraphAddEdgeBy hasRealloc okFrom okTo g a b = zenitGraphAddEdge okFrom okTo g a b := by
  rw [zenitGraphAddEdgeBy, zenitGraphAddEdge]
  split_ifs with hfrom hto hedge
  · rfl
  · rfl
  · rfl
  · obtain ⟨-, ha, -⟩ := isActive_iff.mp (by simpa using hfrom)
    obtain ⟨-, hb, -⟩ := isActive_iff.mp (by simpa using hto)
    obtain ⟨hsame, hroom⟩ := ensureRoom_spec hi ha okFrom
    rw [ensureRoomBy_eq hi ha]
    simp only [Except.bind]
    rcases hroom with hrefused | ⟨hok, hlt⟩
    · rw [if_pos (by simp [hrefused]), if_pos (by simp [hrefused])]
    · have ha' := hsame.frame.vertexCapacity ▸ ha
      obtain ⟨g', happ, hframe, hblocked, -⟩ := append_spec hsame.blocked ha' hlt b.toNat
      have hb' : b.toNat < g'.vertexCapacity := by
        rw [hframe.vertexCapacity, hsame.frame.vertexCapacity]
        exact hb
      have hcounted : Blocked (g'.setEdgeCount (wrap (g'.edgeCount + 1))) := hblocked
      rw [if_neg (by simp [hok]), if_neg (by simp [hok]), happ]
      simp only
      rw [addReverseBy_eq hcounted hb']

/-! ## Runs -/

/-- The slots of the vertex arrays behind a call. -/
def slotsBehind (s : Stored) : Op → ArraySlots
  | .addVertex ok =>
    if findTombstone s.graph = -1 then
      slotsAfter ok (growCapacity s.graph.vertexCapacity) s.slots
    else s.slots
  | _ => s.slots

/-- A call does to the graph what it does in the plain model. -/
theorem stepBy_eq (hi : Invariant s.graph) (h : Covered s) (hasRealloc : Bool) (op : Op) :
    stepBy hasRealloc s op = (step s.graph op).map fun p => (⟨p.1, slotsBehind s op⟩, p.2) := by
  cases op with
  | addVertex ok =>
    rw [stepBy, zenitGraphAddVertexBy, step, slotsBehind]
    by_cases hnone : findTombstone s.graph = -1
    · rw [if_pos hnone, if_pos hnone, addVertex_of_full hnone, growVertexArraysBy_eq h, bind_map,
        map_bind]
      congr 1
      funext p
      by_cases hok : p.2 ≠ .ok
      · rw [if_pos hok, if_pos hok]
        rfl
      · rw [if_neg hok, if_neg hok]
        cases activate p.1 (toInt p.1.vertexCount) <;> rfl
    · rw [if_neg hnone, if_neg hnone, addVertex_of_tombstone rfl hnone]
      cases activate s.graph (findTombstone s.graph) <;> rfl
  | addEdge okFrom okTo a b =>
    simp only [stepBy, addEdgeBy_eq hi.blocked, step, slotsBehind]
  | removeVertex _ | removeEdge _ _ | clear => simp only [stepBy, slotsBehind]

theorem growVertexArrays_code {g' : Graph} {code : ZenitError}
    (h : growVertexArrays ok g = .ok (g', code)) : code = .ok ↔ ok.all = true := by
  simp only [growVertexArrays] at h
  split_ifs at h with hwraps hall
  · cases h
    simpa using hall
  · cases h
    simpa using hall

theorem Covered.addVertex {g' : Graph} {code : ZenitError} (h : Covered s)
    (hadd : zenitGraphAddVertex ok s.graph = .ok (g', code)) :
    Covered ⟨g', slotsBehind s (.addVertex ok)⟩ := by
  rw [slotsBehind]
  by_cases hnone : findTombstone s.graph = -1
  · rw [if_pos hnone]
    rw [addVertex_of_full hnone] at hadd
    obtain ⟨⟨g₁, r₁⟩, hgrow, hrest⟩ := bind_eq_ok hadd
    have hall := growVertexArrays_code hgrow
    obtain ⟨rfl, rfl⟩ | ⟨rfl, hcap, -⟩ := growVertexArrays_cases hgrow
    · rw [if_pos (by simp)] at hrest
      cases hrest
      exact h.slotsAfter ok
    · rw [if_neg (by simp)] at hrest
      obtain ⟨hact, -⟩ := map_ok_cases hrest
      obtain ⟨-, -, rfl⟩ := activate_cases hact
      rw [slotsAfter_all (hall.mp rfl)]
      exact ⟨hcap.le, hcap.le, hcap.le, hcap.le⟩
  · rw [if_neg hnone]
    rw [addVertex_of_tombstone rfl hnone] at hadd
    obtain ⟨hact, -⟩ := map_ok_cases hadd
    obtain ⟨-, -, rfl⟩ := activate_cases hact
    exact ⟨h.adj, h.counts, h.capacities, h.removed⟩

theorem Covered.step {op : Op} {code : ZenitError} (hi : Invariant s.graph) (h : Covered s)
    (hstep : stepBy false s op = .ok (s', code)) : Invariant s'.graph ∧ Covered s' := by
  rw [stepBy_eq hi h] at hstep
  obtain ⟨⟨g', r⟩, hdone, heq⟩ := map_eq_ok hstep
  cases heq
  refine ⟨step_invariant hi hdone, ?_⟩
  by_cases hop : ∃ ok, op = .addVertex ok
  · obtain ⟨ok, rfl⟩ := hop
    exact h.addVertex hdone
  · have hother : ∀ ok, op ≠ .addVertex ok := fun ok heq => hop ⟨ok, heq⟩
    have hcap := step_keeps_capacity hi hother hdone
    have hslots : slotsBehind s op = s.slots := by
      cases op with
      | addVertex ok => exact absurd rfl (hother ok)
      | removeVertex _ | addEdge _ _ _ _ | removeEdge _ _ | clear => rfl
    rw [hslots]
    exact ⟨hcap.trans_le h.adj, hcap.trans_le h.counts, hcap.trans_le h.capacities,
      hcap.trans_le h.removed⟩

/-- A new graph, whose arrays have a slot for each vertex and no more. -/
def stored (g : Graph) : Stored :=
  ⟨g, ⟨g.vertexCapacity, g.vertexCapacity, g.vertexCapacity, g.vertexCapacity⟩⟩

theorem stored_covered (g : Graph) : Covered (stored g) := ⟨le_rfl, le_rfl, le_rfl, le_rfl⟩

theorem Covered.run_stepBy (hi : Invariant s.graph) (h : Covered s) (ops : List Op) :
    Refinement.run (stepBy true) s ops = Refinement.run (stepBy false) s ops :=
  @Refinement.run_congr _ _ _ (stepBy false) s ops (stepBy true)
    (fun s => Invariant s.graph ∧ Covered s) (fun _ _ _ _ hs hstep => hs.2.step hs.1 hstep)
    (fun _ op hs => by rw [stepBy_eq hs.1 hs.2, stepBy_eq hs.1 hs.2]) ⟨hi, h⟩

end LibZenit.Graphs

namespace LibZenit

/-- Every run of a vector, a heap, a bit set or a graph, and every parse of a document, has the same
results and leaves the same contents with a `realloc_fn` and without. -/
theorem realloc_transparent :
    (∀ (α : Type) [Inhabited α] (fuel : ℕ) (v : Vectors.Vector α) (ops : List (Vectors.Op α)),
      Vectors.Reachable v → Refinement.run (Vectors.stepBy true fuel) v ops =
        Refinement.run (Vectors.stepBy false fuel) v ops) ∧
    (∀ (α : Type) [Inhabited α] (fuel : ℕ) (h : Heaps.Heap α) (ops : List (Heaps.Op α)),
      Heaps.Reachable h → Refinement.run (Heaps.stepBy true fuel) h ops =
        Refinement.run (Heaps.stepBy false fuel) h ops) ∧
    (∀ (handle block : Bool) (numBits fuel : ℕ) (bs : Bitsets.Bitset)
      (calls : List Bitsets.Call), Bitsets.zenitBitsetCreate handle block numBits = some bs →
        Refinement.run (Bitsets.stepBy true fuel) bs calls =
          Refinement.run (Bitsets.stepBy false fuel) bs calls) ∧
    (∀ (handle directed : Bool) (ok : Graphs.ArrayAllocs) (n : ℕ) (g : Graphs.Graph)
      (ops : List Graphs.Op), Graphs.zenitGraphCreate handle ok n directed = .ok (some g) →
        Refinement.run (Graphs.stepBy true) (Graphs.stored g) ops =
          Refinement.run (Graphs.stepBy false) (Graphs.stored g) ops) ∧
    ∀ (D : Type) (grants : ℕ → Bool) (junk : Json.Value D) (mem : List UInt8) (len : ℕ)
      (num : ℕ → Option (D × ℕ)) (fuel n : ℕ),
      JsonBlocks.zenitJsonParseWithLengthAndAllocator ⟨grants, true⟩ junk mem len num fuel n =
        JsonBlocks.zenitJsonParseWithLengthAndAllocator ⟨grants, false⟩ junk mem len num fuel
          n := by
  refine ⟨?_, ?_, ?_, ?_, ?_⟩
  · intro α _ fuel v ops hv
    rw [hv.backed.run_stepBy true, hv.backed.run_stepBy false]
  · intro α _ fuel h ops hh
    rw [hh.backed.run_stepBy true, hh.backed.run_stepBy false]
  · intro handle block numBits fuel bs calls hbs
    have hbacked := Bitsets.create_backed hbs
    rw [hbacked.run_stepBy true, hbacked.run_stepBy false]
  · intro handle directed ok n g ops hg
    exact (Graphs.stored_covered g).run_stepBy (Graphs.create_invariant hg) ops
  · intro D grants junk mem len num fuel n
    exact JsonBlocks.parse_realloc grants junk mem len num fuel n

/-- A graph of two slots. The growth for the third vertex first stops at the capacities, with two
arrays already grown, and then succeeds. -/
theorem half_grown_graph_transparent :
    ∃ g, Graphs.zenitGraphCreate true ⟨true, true, true, true⟩ 2 true = .ok (some g) ∧
      Refinement.run (Graphs.stepBy true) (Graphs.stored g)
          [.addVertex ⟨true, true, true, true⟩, .addVertex ⟨true, true, true, true⟩,
            .addVertex ⟨true, true, false, true⟩, .addVertex ⟨true, true, true, true⟩] =
        Refinement.run (Graphs.stepBy false) (Graphs.stored g)
          [.addVertex ⟨true, true, true, true⟩, .addVertex ⟨true, true, true, true⟩,
            .addVertex ⟨true, true, false, true⟩, .addVertex ⟨true, true, true, true⟩] :=
  ⟨_, rfl, realloc_transparent.2.2.2.1 true true ⟨true, true, true, true⟩ 2 _ _ rfl⟩

end LibZenit
