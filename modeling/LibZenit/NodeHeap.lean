import LibZenit.Blocks

/-!
# A heap of nodes with two links

Address 0 is NULL. An access to an address without a node is a fault, and so is a second free.
-/
namespace LibZenit.NodeHeap

structure Node (α : Type) where
  prev : ℕ
  next : ℕ
  data : α

abbrev Heap (α : Type) := ℕ → Option (Node α)

variable {α : Type} {heap : Heap α} {p q v : ℕ}

/-! ## Access -/

def nextOf (heap : Heap α) (p : ℕ) : ℕ := (heap p).elim 0 Node.next

def prevOf (heap : Heap α) (p : ℕ) : ℕ := (heap p).elim 0 Node.prev

def dataOf (heap : Heap α) (p : ℕ) : Option α := (heap p).map Node.data

def readNode (heap : Heap α) (p : ℕ) : Exec (Node α) :=
  (heap p).elim (.error .outOfBounds) .ok

/-- Replace a node by one that is made of it. -/
def modifyNode (heap : Heap α) (p : ℕ) (f : Node α → Node α) : Exec (Heap α) :=
  (readNode heap p).map fun node => Function.update heap p (some (f node))

/-- `p->next = v` -/
def writeNext (heap : Heap α) (p v : ℕ) : Exec (Heap α) := modifyNode heap p ({ · with next := v })

/-- `p->prev = v` -/
def writePrev (heap : Heap α) (p v : ℕ) : Exec (Heap α) := modifyNode heap p ({ · with prev := v })

def writeData (heap : Heap α) (p : ℕ) (a : α) : Exec (Heap α) :=
  modifyNode heap p ({ · with data := a })

def freeNode (heap : Heap α) (p : ℕ) : Exec (Heap α) :=
  (readNode heap p).map fun _ => Function.update heap p none

/-! ## What an access does -/

/-- There is a node at the address. -/
def Live (heap : Heap α) (p : ℕ) : Prop := (heap p).isSome

theorem Live.of_dataOf {a : α} (h : dataOf heap p = some a) : Live heap p := by
  obtain ⟨node, hnode, -⟩ := Option.map_eq_some_iff.mp h
  simp [Live, hnode]

theorem live_iff (heap : Heap α) (p : ℕ) : Live heap p ↔ (dataOf heap p).isSome := by
  simp [Live, dataOf]

theorem Live.transfer {heap' : Heap α} (h : Live heap p) (hdata : dataOf heap' = dataOf heap) :
    Live heap' p := by
  rwa [live_iff, hdata, ← live_iff]

theorem readNode_eq (h : Live heap p) :
    ∃ node, readNode heap p = .ok node ∧ node.next = nextOf heap p ∧ node.prev = prevOf heap p ∧
      dataOf heap p = some node.data := by
  obtain ⟨node, hnode⟩ := Option.isSome_iff_exists.mp h
  exact ⟨node, by simp [readNode, hnode], by simp [nextOf, hnode], by simp [prevOf, hnode],
    by simp [dataOf, hnode]⟩

theorem nextOf_update (heap : Heap α) (p : ℕ) (x : Option (Node α)) :
    nextOf (Function.update heap p x) = Function.update (nextOf heap) p (x.elim 0 Node.next) :=
  Function.comp_update (fun x : Option (Node α) => x.elim 0 Node.next) heap p x

theorem prevOf_update (heap : Heap α) (p : ℕ) (x : Option (Node α)) :
    prevOf (Function.update heap p x) = Function.update (prevOf heap) p (x.elim 0 Node.prev) :=
  Function.comp_update (fun x : Option (Node α) => x.elim 0 Node.prev) heap p x

theorem dataOf_update (heap : Heap α) (p : ℕ) (x : Option (Node α)) :
    dataOf (Function.update heap p x) = Function.update (dataOf heap) p (x.map Node.data) :=
  Function.comp_update (Option.map Node.data) heap p x

/-- A write to a node, seen through its three fields. -/
theorem modifyNode_eq (h : Live heap p) (f : Node α → Node α) :
    ∃ node heap', heap p = some node ∧ modifyNode heap p f = .ok heap' ∧
      nextOf heap' = Function.update (nextOf heap) p (f node).next ∧
      prevOf heap' = Function.update (prevOf heap) p (f node).prev ∧
      dataOf heap' = Function.update (dataOf heap) p (some (f node).data) := by
  obtain ⟨node, hnode⟩ := Option.isSome_iff_exists.mp h
  refine ⟨node, Function.update heap p (some (f node)), hnode, ?_, nextOf_update _ _ _,
    prevOf_update _ _ _, dataOf_update _ _ _⟩
  simp [modifyNode, readNode, hnode, Except.map]

theorem writeNext_eq (h : Live heap p) (v : ℕ) :
    ∃ heap', writeNext heap p v = .ok heap' ∧ nextOf heap' = Function.update (nextOf heap) p v ∧
      prevOf heap' = prevOf heap ∧ dataOf heap' = dataOf heap := by
  obtain ⟨node, heap', hnode, hwrite, hnext, hprev, hdata⟩ :=
    modifyNode_eq h ({ · with next := v })
  refine ⟨heap', hwrite, hnext, ?_, ?_⟩
  · rw [hprev, Function.update_eq_self_iff, prevOf, hnode, Option.elim_some]
  · rw [hdata, Function.update_eq_self_iff, dataOf, hnode, Option.map_some]

theorem writePrev_eq (h : Live heap p) (v : ℕ) :
    ∃ heap', writePrev heap p v = .ok heap' ∧ nextOf heap' = nextOf heap ∧
      prevOf heap' = Function.update (prevOf heap) p v ∧ dataOf heap' = dataOf heap := by
  obtain ⟨node, heap', hnode, hwrite, hnext, hprev, hdata⟩ :=
    modifyNode_eq h ({ · with prev := v })
  refine ⟨heap', hwrite, ?_, hprev, ?_⟩
  · rw [hnext, Function.update_eq_self_iff, nextOf, hnode, Option.elim_some]
  · rw [hdata, Function.update_eq_self_iff, dataOf, hnode, Option.map_some]

theorem writeData_eq (h : Live heap p) (a : α) :
    ∃ heap', writeData heap p a = .ok heap' ∧ nextOf heap' = nextOf heap ∧
      prevOf heap' = prevOf heap ∧ dataOf heap' = Function.update (dataOf heap) p (some a) := by
  obtain ⟨node, heap', hnode, hwrite, hnext, hprev, hdata⟩ :=
    modifyNode_eq h ({ · with data := a })
  refine ⟨heap', hwrite, ?_, ?_, hdata⟩
  · rw [hnext, Function.update_eq_self_iff, nextOf, hnode, Option.elim_some]
  · rw [hprev, Function.update_eq_self_iff, prevOf, hnode, Option.elim_some]

theorem freeNode_eq (h : Live heap p) :
    ∃ heap', freeNode heap p = .ok heap' ∧ nextOf heap' = Function.update (nextOf heap) p 0 ∧
      prevOf heap' = Function.update (prevOf heap) p 0 ∧
      dataOf heap' = Function.update (dataOf heap) p none := by
  obtain ⟨node, hnode⟩ := Option.isSome_iff_exists.mp h
  refine ⟨Function.update heap p none, ?_, nextOf_update _ _ _, prevOf_update _ _ _,
    dataOf_update _ _ _⟩
  simp [freeNode, readNode, hnode, Except.map]

/-! ## The other way round -/

def Node.swap (node : Node α) : Node α := ⟨node.next, node.prev, node.data⟩

/-- The heap with the two links of every node exchanged. -/
def swapLinks (heap : Heap α) : Heap α := fun p => (heap p).map Node.swap

@[simp] theorem swapLinks_swapLinks (heap : Heap α) : swapLinks (swapLinks heap) = heap := by
  funext p
  cases hp : heap p <;> simp [swapLinks, hp, Node.swap]

@[simp] theorem nextOf_swapLinks (heap : Heap α) : nextOf (swapLinks heap) = prevOf heap := by
  funext p
  cases hp : heap p <;> simp [swapLinks, nextOf, prevOf, hp, Node.swap]

@[simp] theorem prevOf_swapLinks (heap : Heap α) : prevOf (swapLinks heap) = nextOf heap := by
  funext p
  cases hp : heap p <;> simp [swapLinks, nextOf, prevOf, hp, Node.swap]

@[simp] theorem dataOf_swapLinks (heap : Heap α) : dataOf (swapLinks heap) = dataOf heap := by
  funext p
  cases hp : heap p <;> simp [swapLinks, dataOf, hp, Node.swap]

theorem swapLinks_update (heap : Heap α) (p : ℕ) (x : Option (Node α)) :
    swapLinks (Function.update heap p x) = Function.update (swapLinks heap) p (x.map Node.swap) :=
  Function.comp_update (Option.map Node.swap) heap p x

theorem readNode_swapLinks (heap : Heap α) (p : ℕ) :
    readNode (swapLinks heap) p = (readNode heap p).map Node.swap := by
  cases hp : heap p <;> simp [readNode, swapLinks, hp, Except.map]

theorem modifyNode_swapLinks {f g : Node α → Node α}
    (hfg : ∀ node, f (Node.swap node) = (g node).swap) (heap : Heap α) (p : ℕ) :
    modifyNode (swapLinks heap) p f = (modifyNode heap p g).map swapLinks := by
  rw [modifyNode, modifyNode, readNode_swapLinks]
  cases readNode heap p with
  | error e => rfl
  | ok node => simp [Except.map, swapLinks_update, hfg]

theorem writeNext_swapLinks (heap : Heap α) (p v : ℕ) :
    writeNext (swapLinks heap) p v = (writePrev heap p v).map swapLinks :=
  modifyNode_swapLinks (f := ({ · with next := v })) (g := ({ · with prev := v }))
    (fun _ => rfl) heap p

theorem writePrev_swapLinks (heap : Heap α) (p v : ℕ) :
    writePrev (swapLinks heap) p v = (writeNext heap p v).map swapLinks :=
  modifyNode_swapLinks (f := ({ · with prev := v })) (g := ({ · with next := v }))
    (fun _ => rfl) heap p

end LibZenit.NodeHeap
