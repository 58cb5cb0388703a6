import LibZenit.LinkedChain
import LibZenit.ListModel

/-!
# The nodes of a list

The nodes form a doubly linked chain between head and tail. What follows the links from the head
reads the sequence, and what follows them from the tail reads it backwards: the chain that the
other links make is the same one reversed.
-/
namespace LibZenit.Lists
open NodeHeap LinkedChain

variable {α : Type} {list list' : ZList α} {heap heap' : Heap α} {nodes xs ys : List ℕ}
  {v : List α} {p n x y : ℕ} {elem : α}

/-! ## Representation -/

/-- The addresses `nodes` are linked to a list that holds the sequence `v`. -/
structure Represents (list : ZList α) (nodes : List ℕ) (v : List α) : Prop where
  chain : DList (nextOf list.heap) (prevOf list.heap) 0 list.head nodes
  tail : list.tail = nodes.getLastD 0
  count : list.count = nodes.length
  data : nodes.map (dataOf list.heap) = v.map some
  addresses : ∀ p ∈ nodes, p < 2 ^ 64
  size : list.elemSize < 2 ^ 63

theorem live_of_data (h : nodes.map (dataOf heap) = v.map some) (hp : p ∈ nodes) :
    Live heap p := by
  have hmem : dataOf heap p ∈ v.map some := h ▸ List.mem_map_of_mem hp
  obtain ⟨a, -, ha⟩ := List.mem_map.mp hmem
  exact Live.of_dataOf ha.symm

theorem Represents.live (h : Represents list nodes v) (hp : p ∈ nodes) : Live list.heap p :=
  live_of_data h.data hp

theorem Represents.length (h : Represents list nodes v) : nodes.length = v.length := by
  simpa using congrArg List.length h.data

theorem Represents.backward (h : Represents list nodes v) :
    DList (prevOf list.heap) (nextOf list.heap) 0 list.tail nodes.reverse := by
  rw [h.tail]
  exact h.chain.reverse

/-- There are fewer nodes than addresses. -/
theorem length_lt_of_addresses (hnodup : nodes.Nodup) (hnonnull : 0 ∉ nodes)
    (haddr : ∀ p ∈ nodes, p < 2 ^ 64) : nodes.length < 2 ^ 64 := by
  have hsub : (0 :: nodes).toFinset ⊆ Finset.range (2 ^ 64) := by
    intro q hq
    rw [List.mem_toFinset, List.mem_cons] at hq
    obtain rfl | hq := hq
    · simp
    · exact Finset.mem_range.mpr (haddr q hq)
  have hcard := Finset.card_le_card hsub
  rw [List.toFinset_card_of_nodup (List.nodup_cons.mpr ⟨hnonnull, hnodup⟩),
    Finset.card_range, List.length_cons] at hcard
  exact hcard

theorem Represents.nonnull (h : Represents list nodes v) : 0 ∉ nodes :=
  fun hmem => h.chain.nonnull 0 hmem rfl

theorem Represents.small (h : Represents list nodes v) : nodes.length < 2 ^ 64 :=
  length_lt_of_addresses h.chain.nodup h.nonnull h.addresses

/-! ## Walks -/

theorem walk_eq {link : Node α → ℕ} {linkOf : ℕ → ℕ}
    (hlink : ∀ node q, readNode heap q = .ok node → link node = linkOf q)
    (hlive : ∀ q ∈ nodes, Live heap q) (hseg : Seg linkOf p nodes 0) {i : ℕ}
    (hi : nodes[i]? = some x) : walk link heap p i = .ok x := by
  induction nodes generalizing p i with
  | nil => simp at hi
  | cons q nodes ih =>
    obtain ⟨rfl, hseg⟩ := hseg
    cases i with
    | zero =>
      cases hi
      rfl
    | succ i =>
      obtain ⟨node, hread, -⟩ := readNode_eq (hlive p List.mem_cons_self)
      rw [walk, hread]
      rw [← hlink node p hread] at hseg
      exact ih (fun q hq => hlive q (List.mem_cons_of_mem p hq)) hseg hi

theorem next_link (node : Node α) (q : ℕ) (h : readNode heap q = .ok node) :
    node.next = nextOf heap q := by
  cases hq : heap q <;> simp_all [readNode, nextOf]

theorem prev_link (node : Node α) (q : ℕ) (h : readNode heap q = .ok node) :
    node.prev = prevOf heap q := by
  cases hq : heap q <;> simp_all [readNode, prevOf]

/-- The same node is found from both ends. -/
theorem walk_both (h : Represents list nodes v) {i : ℕ} (hi : nodes[i]? = some x) :
    walk Node.next list.heap list.head i = .ok x ∧
      walk Node.prev list.heap list.tail (list.count - 1 - i) = .ok x := by
  have hlt : i < nodes.length := (List.getElem?_eq_some_iff.mp hi).1
  refine ⟨walk_eq next_link (fun q hq => h.live hq) h.chain.seg hi, ?_⟩
  refine walk_eq prev_link (fun q hq => h.live (List.mem_reverse.mp hq)) h.backward.seg ?_
  rw [h.count, List.getElem?_reverse (by omega), ← hi]
  congr 1
  omega

theorem nodeAt_eq (h : Represents list nodes v) {i : ℕ} (hi : nodes[i]? = some x) :
    nodeAt list i = .ok x := by
  have hlt : i < nodes.length := (List.getElem?_eq_some_iff.mp hi).1
  rw [nodeAt, if_neg (by rw [h.count]; omega)]
  split_ifs
  · exact (walk_both h hi).1
  · exact (walk_both h hi).2

theorem nodeAt_none (h : Represents list nodes v) {i : ℕ} (hi : nodes.length ≤ i) :
    nodeAt list i = .ok 0 := by
  rw [nodeAt, if_pos (by rw [h.count]; exact hi)]

end LibZenit.Lists
