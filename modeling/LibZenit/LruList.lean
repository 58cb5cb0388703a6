import LibZenit.LinkedChain
import LibZenit.LruModel

/-!
# The recency list and the free list

Both lists run through `next`. `Linked` says that together with the nodes held in local variables
they partition the node indices; each helper of the source moves one node between the three.
-/
namespace LibZenit.Lru
open LinkedChain Slots

variable {keySize valueSize : ℕ} {c : Cache keySize valueSize} {node : ℕ}
  {order frees xs ys : List ℕ}

/-- Read a link array. -/
abbrev link (xs : List ℕ) (i : ℕ) : ℕ := slot lruNone xs i

structure Linked (c : Cache keySize valueSize) (order frees loose : List ℕ) : Prop where
  nextLen : c.next.length = c.capacity
  prevLen : c.prev.length = c.capacity
  small : c.capacity ≤ lruNone
  chain : DList (link c.next) (link c.prev) lruNone c.head order
  tailEq : c.tail = order.getLastD lruNone
  free : Seg (link c.next) c.freeHead frees lruNone
  cells : (order ++ frees ++ loose).Perm (List.range c.capacity)

/-- Everything but the two lists is the same. -/
structure SameData (c c' : Cache keySize valueSize) : Prop where
  capacity : c'.capacity = c.capacity
  count : c'.count = c.count
  keys : c'.keys = c.keys
  values : c'.values = c.values
  hashIndex : c'.hashIndex = c.hashIndex
  hashTable : c'.hashTable = c.hashTable
  hashCapacity : c'.hashCapacity = c.hashCapacity
  evictFn : c'.evictFn = c.evictFn

theorem SameData.refl (c : Cache keySize valueSize) : SameData c c :=
  ⟨rfl, rfl, rfl, rfl, rfl, rfl, rfl, rfl⟩

theorem SameData.trans {c₁ c₂ c₃ : Cache keySize valueSize} (h : SameData c₁ c₂)
    (h' : SameData c₂ c₃) : SameData c₁ c₃ :=
  ⟨h'.1.trans h.1, h'.2.trans h.2, h'.3.trans h.3, h'.4.trans h.4, h'.5.trans h.5, h'.6.trans h.6,
    h'.7.trans h.7, h'.8.trans h.8⟩

section Facts

variable {loose : List ℕ}

theorem Linked.lt (h : Linked c order frees loose) (hm : node ∈ order ++ frees ++ loose) :
    node < c.capacity := List.mem_range.mp (h.cells.mem_iff.mp hm)

theorem Linked.lt_of_order (h : Linked c order frees loose) (hm : node ∈ order) :
    node < c.capacity := h.lt (by simp [hm])

theorem Linked.ne_none (h : Linked c order frees loose) (hm : node < c.capacity) :
    node ≠ lruNone := by
  have := h.small
  omega

theorem Linked.nodup (h : Linked c order frees loose) : (order ++ frees ++ loose).Nodup :=
  h.cells.nodup_iff.mpr List.nodup_range

theorem Linked.order_not_free (h : Linked c order frees loose) (hm : node ∈ order) :
    node ∉ frees := by
  have nd := (List.nodup_append.mp (List.nodup_append.mp h.nodup).1).2.2
  exact fun hf => nd node hm node hf rfl

theorem Linked.loose_not_listed (h : Linked c order frees [node]) : node ∉ order ∧ node ∉ frees := by
  have nd := (List.nodup_append.mp h.nodup).2.2
  exact ⟨fun hm => nd node (by simp [hm]) node (by simp) rfl,
    fun hm => nd node (by simp [hm]) node (by simp) rfl⟩

theorem Linked.length_order_le (h : Linked c order frees loose) : order.length ≤ c.capacity := by
  have hlen := h.cells.length_eq
  simp only [List.length_append, List.length_range] at hlen
  omega

end Facts

/-! ## Guarded link writes -/

/-- A link array after a write that is skipped for the sentinel. -/
def relink (xs : List ℕ) (i v : ℕ) : List ℕ := if i = lruNone then xs else xs.set i v

theorem length_relink (xs : List ℕ) (i v : ℕ) : (relink xs i v).length = xs.length := by
  unfold relink
  split_ifs <;> simp

theorem link_relink {i z : ℕ} (v : ℕ) (hi : i ≠ lruNone → i < xs.length) (hz : z ≠ lruNone) :
    link (relink xs i v) z = if z = i then v else link xs z := by
  unfold relink
  by_cases h : i = lruNone
  · rw [if_pos h, if_neg (fun he => hz (he.trans h))]
  · rw [if_neg h, link, slot_set (hi h)]

/-- The cache after `lru_unlink`. -/
def unlinked (c : Cache keySize valueSize) (node : ℕ) : Cache keySize valueSize :=
  { c with
    head := if link c.prev node = lruNone then link c.next node else c.head
    tail := if link c.next node = lruNone then link c.prev node else c.tail
    next := (relink c.next (link c.prev node) (link c.next node)).set node lruNone
    prev := (relink c.prev (link c.next node) (link c.prev node)).set node lruNone }

theorem lruUnlink_eq (hnl : node < c.next.length) (hpl : node < c.prev.length)
    (hp : link c.prev node ≠ lruNone → link c.prev node < c.next.length)
    (hn : link c.next node ≠ lruNone → link c.next node < c.prev.length) :
    lruUnlink c node = some (unlinked c node) := by
  unfold lruUnlink
  rw [getElem?_eq_slot lruNone hpl, getElem?_eq_slot lruNone hnl]
  simp only [Option.bind_eq_bind, Option.bind_some]
  by_cases h1 : link c.prev node = lruNone
  all_goals
    by_cases h2 : link c.next node = lruNone
    all_goals
      simp [unlinked, relink, h1, h2, store, hp, hn, hnl, hpl]

/-- The cache after `lru_push_front`. -/
def pushed (c : Cache keySize valueSize) (node : ℕ) : Cache keySize valueSize :=
  { c with
    head := node
    tail := if c.head = lruNone then node else c.tail
    next := c.next.set node c.head
    prev := relink (c.prev.set node lruNone) c.head node }

theorem lruPushFront_eq (hnl : node < c.next.length) (hpl : node < c.prev.length)
    (hh : c.head ≠ lruNone → c.head < c.prev.length) :
    lruPushFront c node = some (pushed c node) := by
  unfold lruPushFront
  by_cases h : c.head = lruNone
  · simp [pushed, relink, h, store, hnl, hpl]
  · simp [pushed, relink, h, store, hnl, hpl, hh h]

/-! ## Moving a node -/

theorem Linked.unlink (h : Linked c (xs ++ node :: ys) frees []) :
    ∃ c', lruUnlink c node = some c' ∧ SameData c c' ∧ Linked c' (xs ++ ys) frees [node] := by
  have hnl := h.nextLen
  have hpl := h.prevLen
  have hnode : node < c.capacity := h.lt_of_order (by simp)
  have hprev := h.chain.prev_eq
  have hnext := h.chain.next_eq
  have hpm : link c.prev node ≠ lruNone → link c.prev node ∈ xs := fun hne => by
    rw [hprev] at hne ⊢
    exact getLastD_mem hne
  have hnm : link c.next node ≠ lruNone → link c.next node ∈ ys := fun hne => by
    rw [hnext] at hne ⊢
    exact headD_mem hne
  have hp : link c.prev node ≠ lruNone → link c.prev node < c.next.length := fun hne => by
    rw [hnl]
    exact h.lt_of_order (by simp [hpm hne])
  have hn : link c.next node ≠ lruNone → link c.next node < c.prev.length := fun hne => by
    rw [hpl]
    exact h.lt_of_order (by simp [hnm hne])
  obtain ⟨-, -, hnx, hny, -⟩ := h.chain.append_facts
  have hlisted : ∀ z ∈ xs ++ ys, z ≠ node ∧ z ≠ lruNone := fun z hz => by
    have hz' : z ∈ xs ++ node :: ys := by
      rcases List.mem_append.mp hz with hz | hz <;> simp [hz]
    refine ⟨?_, h.chain.nonnull z hz'⟩
    rintro rfl
    simp [hnx, hny] at hz
  have hcells : (xs ++ ys ++ frees ++ [node]).Perm (List.range c.capacity) := by
    refine List.Perm.trans ?_ h.cells
    simp only [List.append_assoc, List.append_nil]
    refine List.Perm.append_left xs ?_
    rw [← List.append_assoc]
    exact List.perm_append_singleton node (ys ++ frees)
  refine ⟨unlinked c node, lruUnlink_eq (by omega) (by omega) hp hn,
    ⟨rfl, rfl, rfl, rfl, rfl, rfl, rfl, rfl⟩, ?_⟩
  refine ⟨?_, ?_, h.small, h.chain.unlink ?_ ?_, ?_, ?_, hcells⟩
  · simp [unlinked, length_relink, hnl]
  · simp [unlinked, length_relink, hpl]
  · intro z hz
    obtain ⟨hzn, hz0⟩ := hlisted z hz
    simp only [unlinked, link]
    rw [slot_set (by rw [length_relink]; omega), if_neg hzn]
    exact link_relink _ hp hz0
  · intro z hz
    obtain ⟨hzn, hz0⟩ := hlisted z hz
    simp only [unlinked, link]
    rw [slot_set (by rw [length_relink]; omega), if_neg hzn]
    exact link_relink _ hn hz0
  · simp only [unlinked]
    rw [h.tailEq, hnext, hprev]
    cases ys with
    | nil => simp
    | cons y ys =>
      have hy : y ≠ lruNone := h.chain.nonnull y (by simp)
      simp [hy]
  · refine h.free.congr fun z hz => ?_
    have hzc : z < c.capacity := h.lt (by simp [hz])
    have hzo : z ∉ xs ++ node :: ys := fun hm => h.order_not_free hm hz
    simp only [unlinked, link]
    rw [slot_set (by rw [length_relink]; omega), if_neg (by rintro rfl; simp at hzo)]
    refine (link_relink _ hp (h.ne_none hzc)).trans (if_neg ?_)
    rintro rfl
    exact hzo (by simp [hpm (h.ne_none hzc)])

theorem Linked.pushFront (h : Linked c order frees [node]) :
    ∃ c', lruPushFront c node = some c' ∧ SameData c c' ∧ Linked c' (node :: order) frees [] := by
  have hnl := h.nextLen
  have hpl := h.prevLen
  have hnode : node < c.capacity := h.lt (by simp)
  obtain ⟨hno, hnf⟩ := h.loose_not_listed
  have hhead := h.chain.head_eq
  have hhm : c.head ≠ lruNone → c.head ∈ order := fun hne => by
    rw [hhead] at hne ⊢
    exact headD_mem hne
  have hh : c.head ≠ lruNone → c.head < c.prev.length := fun hne => by
    rw [hpl]
    exact h.lt_of_order (hhm hne)
  have hprev : ∀ z ≠ lruNone, link (relink (c.prev.set node lruNone) c.head node) z =
      if z = c.head then node else if z = node then lruNone else link c.prev z := fun z hz => by
    rw [link_relink node (by simpa using hh) hz, link, slot_set (by omega)]
  have hcells : (node :: order ++ frees ++ []).Perm (List.range c.capacity) := by
    refine List.Perm.trans ?_ h.cells
    simpa using (List.perm_append_singleton node (order ++ frees)).symm
  refine ⟨pushed c node, lruPushFront_eq (by omega) (by omega) hh,
    ⟨rfl, rfl, rfl, rfl, rfl, rfl, rfl, rfl⟩, ?_⟩
  refine ⟨by simpa [pushed] using hnl, by simpa [pushed, length_relink] using hpl, h.small, ?_, ?_,
    ?_, hcells⟩
  · refine h.chain.pushFront (h.ne_none hnode) hno ?_ ?_ (fun z hz => ?_) fun z hz => ?_
    · simp only [pushed, link]
      rw [slot_set (by omega), if_pos rfl]
    · refine (hprev node (h.ne_none hnode)).trans ?_
      rw [if_neg, if_pos rfl]
      intro he
      have hm := hhm (he ▸ h.ne_none hnode)
      exact hno (he ▸ hm)
    · simp only [pushed, link]
      rw [slot_set (by omega), if_neg (by rintro rfl; exact hno hz)]
    · refine (hprev z (h.chain.nonnull z hz)).trans ?_
      rw [if_neg (by rintro rfl; exact hno hz : z ≠ node)]
      rfl
  · simp only [pushed]
    rw [h.tailEq, hhead]
    cases order with
    | nil => simp
    | cons y ys =>
      have hy : y ≠ lruNone := h.chain.nonnull y (by simp)
      simp [hy]
  · refine h.free.congr fun z hz => ?_
    simp only [pushed, link]
    rw [slot_set (by omega), if_neg (by rintro rfl; exact hnf hz)]

theorem Linked.moveToFront (h : Linked c (xs ++ node :: ys) frees []) :
    ∃ c', lruMoveToFront c node = some c' ∧ SameData c c' ∧
      Linked c' (node :: (xs ++ ys)) frees [] := by
  unfold lruMoveToFront
  by_cases hh : c.head = node
  · -- the head cannot have a predecessor in the list
    have hxs : xs = [] := by
      cases xs with
      | nil => rfl
      | cons x xs =>
        obtain rfl : x = node := h.chain.head_eq.symm.trans hh
        exact absurd (h.chain.append_facts.2.2.1) (by simp)
    subst hxs
    exact ⟨c, if_pos hh, SameData.refl c, h⟩
  · obtain ⟨c₁, e₁, d₁, h₁⟩ := h.unlink
    obtain ⟨c₂, e₂, d₂, h₂⟩ := h₁.pushFront
    refine ⟨c₂, ?_, d₁.trans d₂, h₂⟩
    simp [hh, e₁, e₂]

theorem Linked.pop (h : Linked c order (node :: frees) []) :
    freelistPop c = some (node, { c with freeHead := link c.next node }) ∧
      Linked { c with freeHead := link c.next node } order frees [node] := by
  have hnode : node < c.next.length := by
    rw [h.nextLen]
    exact h.lt (by simp)
  have hhead : c.freeHead = node := h.free.1
  constructor
  · simp [freelistPop, hhead, getElem?_eq_slot lruNone hnode]
  · refine ⟨h.nextLen, h.prevLen, h.small, h.chain, h.tailEq, h.free.2, ?_⟩
    refine List.Perm.trans ?_ h.cells
    simp only [List.append_assoc, List.append_nil]
    exact List.Perm.append_left order (List.perm_append_singleton node frees)

theorem Linked.push (h : Linked c order frees [node]) :
    ∃ c', freelistPush c node = some c' ∧ SameData c c' ∧ Linked c' order (node :: frees) [] := by
  have hnl := h.nextLen
  have hnode : node < c.next.length := by
    rw [hnl]
    exact h.lt (by simp)
  obtain ⟨hno, hnf⟩ := h.loose_not_listed
  have hlink : ∀ z, link (c.next.set node c.freeHead) z =
      if z = node then c.freeHead else link c.next z := fun z => slot_set hnode z
  refine ⟨{ c with next := c.next.set node c.freeHead, freeHead := node }, ?_,
    ⟨rfl, rfl, rfl, rfl, rfl, rfl, rfl, rfl⟩, ?_⟩
  · simp [freelistPush, store_eq hnode]
  · refine ⟨by simpa using hnl, h.prevLen, h.small, ?_, h.tailEq, ?_, ?_⟩
    · refine h.chain.congr (fun z hz => ?_) fun z _ => rfl
      rw [hlink, if_neg (by rintro rfl; exact hno hz)]
    · refine ⟨rfl, ?_⟩
      rw [hlink, if_pos rfl]
      refine h.free.congr fun z hz => ?_
      rw [hlink, if_neg (by rintro rfl; exact hnf hz)]
    · refine List.Perm.trans ?_ h.cells
      simp only [List.append_assoc, List.append_nil]
      exact List.Perm.append_left order (List.perm_append_singleton node frees).symm

end LibZenit.Lru
