import LibZenit.GraphRuns

/-!
# The edge counter

The counter agrees with the edges of the graph as long as no vertex with a self-loop is removed
from a directed graph. There the loop is charged twice: once with the list of the vertex and once
by the pass over all lists.
-/
namespace LibZenit.Graphs

variable {g g' : Graph} {r : ZenitError} {a b v slot : ℕ}

/-- Every edge once: ordered pairs when directed, pairs in one order when undirected. -/
def logicalEdges (g : Graph) : Finset (ℕ × ℕ) :=
  (Finset.range g.vertexCapacity ×ˢ Finset.range g.vertexCapacity).filter fun e =>
    zenitGraphHasEdge g e.1 e.2 = true ∧ (g.directed = true ∨ e.1 ≤ e.2)

theorem mem_logicalEdges (hi : Invariant g) {u w : ℕ} : (u, w) ∈ logicalEdges g ↔
    u < g.vertexCapacity ∧ w ∈ neighbors g u ∧ (g.directed = true ∨ u ≤ w) := by
  simp only [logicalEdges, Finset.mem_filter, Finset.mem_product, Finset.mem_range, hi.hasEdge_iff,
    Int.toNat_natCast]
  constructor
  · rintro ⟨⟨hu, -⟩, ⟨-, -, -, hw⟩, ho⟩
    exact ⟨hu, hw, ho⟩
  · rintro ⟨hu, hw, ho⟩
    exact ⟨⟨hu, (hi.active u hu w hw).1⟩, ⟨by omega, by omega, hu, hw⟩, ho⟩

/-- Vertex numbers fit `int`, so the number of edges fits `size_t`. -/
theorem card_logicalEdges_lt (hi : Invariant g) : (logicalEdges g).card < 2 ^ 64 := by
  obtain ⟨m, hm⟩ : ∃ m, m = 2 ^ 31 := ⟨_, rfl⟩
  have hsmall := hi.small
  rw [← hm] at hsmall
  have hsub : logicalEdges g ⊆ Finset.range m ×ˢ Finset.range m := by
    intro e he
    obtain ⟨hu, hw, -⟩ := (mem_logicalEdges hi).mp he
    obtain ⟨hwlt, hwr⟩ := hi.active e.1 hu e.2 hw
    rw [Finset.mem_product, Finset.mem_range, Finset.mem_range]
    exact ⟨hsmall e.1 hu (hi.active_of_mem hu hw), hsmall e.2 hwlt hwr⟩
  have hcard := Finset.card_le_card hsub
  rw [Finset.card_product, Finset.card_range, hm] at hcard
  omega

/-! ## Adding and removing one edge -/

/-- The pair that stands for the edge between `a` and `b`. -/
def edgeOf (directed : Bool) (a b : ℕ) : ℕ × ℕ :=
  if directed = true ∨ a ≤ b then (a, b) else (b, a)

theorem eq_edgeOf_iff {directed : Bool} {u w : ℕ} (ho : directed = true ∨ u ≤ w) :
    (u, w) = edgeOf directed a b ↔
      (u = a ∧ w = b) ∨ (directed = false ∧ u = b ∧ w = a) := by
  unfold edgeOf
  cases directed with
  | true => simp
  | false =>
    simp only [Bool.false_eq_true, false_or] at ho
    by_cases hab : a ≤ b
    · simp only [hab, or_true, if_true, Prod.mk.injEq, true_and]
      constructor
      · exact Or.inl
      · rintro (h | ⟨rfl, rfl⟩)
        · exact h
        · exact ⟨by omega, by omega⟩
    · simp only [hab, Bool.false_eq_true, or_self, if_false, Prod.mk.injEq, true_and]
      constructor
      · exact Or.inr
      · rintro (⟨rfl, rfl⟩ | h)
        · omega
        · exact h

theorem edgeOf_mem_iff (hi : Invariant g) (ha : a < g.vertexCapacity) (hb : b < g.vertexCapacity) :
    edgeOf g.directed a b ∈ logicalEdges g ↔ b ∈ neighbors g a := by
  unfold edgeOf
  split_ifs with ho
  · rw [mem_logicalEdges hi]
    exact ⟨fun h => h.2.1, fun h => ⟨ha, h, ho⟩⟩
  · rw [mem_logicalEdges hi]
    have hd : g.directed = false := by
      by_contra hc
      exact ho (Or.inl (by simpa using hc))
    have hab : b ≤ a := by
      by_contra hc
      exact ho (Or.inr (by omega))
    exact ⟨fun h => hi.symmetric hd b hb a h.2.1,
      fun h => ⟨hb, hi.symmetric hd a ha b h, Or.inr hab⟩⟩

theorem Linked.logicalEdges (hi : Invariant g) (hi' : Invariant g') (ha : a < g.vertexCapacity)
    (hb : b < g.vertexCapacity) (h : Linked a b g g') :
    logicalEdges g' = insert (edgeOf g.directed a b) (logicalEdges g) := by
  ext ⟨u, w⟩
  rw [Finset.mem_insert, mem_logicalEdges hi', mem_logicalEdges hi, h.frame.vertexCapacity,
    h.frame.directed, h.mem_iff]
  constructor
  · rintro ⟨hu, hw | hw, ho⟩
    · exact Or.inr ⟨hu, hw, ho⟩
    · exact Or.inl ((eq_edgeOf_iff ho).mpr hw)
  · rintro (he | ⟨hu, hw, ho⟩)
    · have ho : g.directed = true ∨ u ≤ w := by
        unfold edgeOf at he
        split_ifs at he with hc
        · cases he
          exact hc
        · cases he
          exact Or.inr (by omega)
      have hab := (eq_edgeOf_iff ho).mp he
      refine ⟨?_, Or.inr hab, ho⟩
      rcases hab with ⟨rfl, -⟩ | ⟨-, rfl, -⟩
      · exact ha
      · exact hb
    · exact ⟨hu, Or.inl hw, ho⟩

theorem Unlinked.logicalEdges (hi : Invariant g) (hi' : Invariant g') (ha : a < g.vertexCapacity)
    (hb : b < g.vertexCapacity) (h : Unlinked a b g g') :
    logicalEdges g' = (logicalEdges g).erase (edgeOf g.directed a b) := by
  ext ⟨u, w⟩
  rw [Finset.mem_erase, mem_logicalEdges hi', mem_logicalEdges hi, h.frame.vertexCapacity,
    h.frame.directed, h.mem_iff hi ha hb]
  constructor
  · rintro ⟨hu, ⟨hw, hab, hba⟩, ho⟩
    refine ⟨fun he => ?_, hu, hw, ho⟩
    rcases (eq_edgeOf_iff ho).mp he with hc | hc
    · exact hab hc
    · exact hba hc
  · rintro ⟨hne, hu, hw, ho⟩
    exact ⟨hu, ⟨hw, fun hc => hne ((eq_edgeOf_iff ho).mpr (Or.inl hc)),
      fun hc => hne ((eq_edgeOf_iff ho).mpr (Or.inr hc))⟩, ho⟩

/-! ## Removing a vertex -/

def incident (g : Graph) (v : ℕ) : Finset (ℕ × ℕ) :=
  (logicalEdges g).filter fun e => e.1 = v ∨ e.2 = v

theorem Dropped.logicalEdges (hi : Invariant g) (h : Dropped v g g') :
    logicalEdges g' = logicalEdges g \ incident g v := by
  ext ⟨u, w⟩
  simp only [Finset.mem_sdiff, incident, Finset.mem_filter, mem_logicalEdges (h.invariant hi),
    mem_logicalEdges hi, h.capacity, h.directed, not_and, not_or]
  constructor
  · rintro ⟨hu, hw, ho⟩
    rw [h.rows u hu] at hw
    split_ifs at hw with huv
    · simp at hw
    · obtain ⟨hw, hwv⟩ := List.mem_filter.mp hw
      exact ⟨⟨hu, hw, ho⟩, fun _ => ⟨huv, by simpa using hwv⟩⟩
  · rintro ⟨⟨hu, hw, ho⟩, hne⟩
    obtain ⟨huv, hwv⟩ := hne ⟨hu, hw, ho⟩
    refine ⟨hu, ?_, ho⟩
    rw [h.rows u hu, if_neg huv]
    exact List.mem_filter.mpr ⟨hw, by simpa using hwv⟩

theorem Dropped.card (hi : Invariant g) (h : Dropped v g g') :
    (Graphs.logicalEdges g').card + (incident g v).card = (Graphs.logicalEdges g).card := by
  rw [h.logicalEdges hi]
  exact Finset.card_sdiff_add_card_eq_card (Finset.filter_subset _ _)

theorem charge_undirected (hd : g.directed = false) :
    removalCharge g v = (neighbors g v).length := by
  simp [removalCharge, charged, hd]

/-- An undirected edge at `v` is a neighbour of `v`. -/
theorem card_incident_undirected (hi : Invariant g) (hv : v < g.vertexCapacity)
    (hd : g.directed = false) : (incident g v).card = (neighbors g v).length := by
  have himage : incident g v = (neighbors g v).toFinset.image fun w => (min v w, max v w) := by
    ext ⟨u, w⟩
    simp only [incident, Finset.mem_filter, mem_logicalEdges hi, Finset.mem_image,
      List.mem_toFinset, Prod.mk.injEq, hd, Bool.false_eq_true, false_or]
    constructor
    · rintro ⟨⟨hu, hw, hle⟩, rfl | rfl⟩
      · exact ⟨w, hw, by omega, by omega⟩
      · exact ⟨u, hi.symmetric hd u hu w hw, by omega, by omega⟩
    · rintro ⟨x, hx, rfl, rfl⟩
      have hxlt := (hi.active v hv x hx).1
      rcases le_total v x with hle | hle
      · rw [min_eq_left hle, max_eq_right hle]
        exact ⟨⟨hv, hx, hle⟩, Or.inl rfl⟩
      · rw [min_eq_right hle, max_eq_left hle]
        exact ⟨⟨hxlt, hi.symmetric hd v hv x hx, hle⟩, Or.inr rfl⟩
  rw [himage, Finset.card_image_of_injOn, List.toFinset_card_of_nodup (hi.nodup v hv)]
  intro x _ y _ hxy
  simp only [Prod.mk.injEq] at hxy
  omega

/-- The vertices with an edge to `v`. -/
def sources (g : Graph) (v : ℕ) : Finset ℕ := (activeSlots g).filter fun u => v ∈ neighbors g u

theorem charge_directed (hi : Invariant g) (hd : g.directed = true) :
    removalCharge g v = (neighbors g v).length + (sources g v).card := by
  have hsum : ∀ u ∈ activeSlots g,
      charged g.directed v (neighbors g u) = if v ∈ neighbors g u then 1 else 0 := by
    intro u hu
    simp only [activeSlots, Finset.mem_filter, Finset.mem_range] at hu
    simp only [charged, hd, if_true]
    exact List.Nodup.count (hi.nodup u hu.1)
  rw [removalCharge, Finset.sum_congr rfl hsum, sources, Finset.card_filter]

theorem card_incident_directed (hi : Invariant g) (hv : v < g.vertexCapacity)
    (hd : g.directed = true) :
    (incident g v).card + (if v ∈ neighbors g v then 1 else 0) =
      (neighbors g v).length + (sources g v).card := by
  obtain ⟨out, hout⟩ : ∃ s, s = (neighbors g v).toFinset.image fun w => (v, w) := ⟨_, rfl⟩
  obtain ⟨inc, hinc⟩ : ∃ s, s = (sources g v).image fun u => (u, v) := ⟨_, rfl⟩
  have hunion : incident g v = out ∪ inc := by
    ext ⟨u, w⟩
    simp only [incident, hout, hinc, Finset.mem_filter, mem_logicalEdges hi, Finset.mem_union,
      Finset.mem_image, List.mem_toFinset, Prod.mk.injEq, hd, true_or, and_true, sources,
      activeSlots, Finset.mem_range]
    constructor
    · rintro ⟨⟨hu, hw⟩, rfl | rfl⟩
      · exact Or.inl ⟨w, hw, rfl, rfl⟩
      · exact Or.inr ⟨u, ⟨⟨hu, hi.active_of_mem hu hw⟩, hw⟩, rfl, rfl⟩
    · rintro (⟨x, hx, rfl, rfl⟩ | ⟨x, ⟨⟨hx, -⟩, hmem⟩, rfl, rfl⟩)
      · exact ⟨⟨hv, hx⟩, Or.inl rfl⟩
      · exact ⟨⟨hx, hmem⟩, Or.inr rfl⟩
  have hinter : (out ∩ inc).card = if v ∈ neighbors g v then 1 else 0 := by
    have hset : out ∩ inc = if v ∈ neighbors g v then {(v, v)} else ∅ := by
      ext ⟨u, w⟩
      simp only [hout, hinc, Finset.mem_inter, Finset.mem_image, List.mem_toFinset,
        Prod.mk.injEq, sources, Finset.mem_filter]
      split_ifs with hloop
      · have hvact : v ∈ activeSlots g := by
          simp [activeSlots, hv, hi.active_of_mem hv hloop]
        simp only [Finset.mem_singleton, Prod.mk.injEq]
        constructor
        · rintro ⟨⟨x, -, rfl, rfl⟩, ⟨y, -, -, rfl⟩⟩
          exact ⟨rfl, rfl⟩
        · rintro ⟨rfl, rfl⟩
          exact ⟨⟨_, hloop, rfl, rfl⟩, ⟨_, ⟨hvact, hloop⟩, rfl, rfl⟩⟩
      · simp only [Finset.notMem_empty, iff_false]
        rintro ⟨⟨x, hx, rfl, rfl⟩, ⟨y, -, -, rfl⟩⟩
        exact hloop hx
    rw [hset]
    split_ifs
    · exact Finset.card_singleton _
    · exact Finset.card_empty
  have hcard := Finset.card_union_add_card_inter out inc
  have hcout : out.card = (neighbors g v).length := by
    rw [hout, Finset.card_image_of_injective _ (Prod.mk_right_injective v),
      List.toFinset_card_of_nodup (hi.nodup v hv)]
  have hcinc : inc.card = (sources g v).card := by
    rw [hinc, Finset.card_image_of_injective _ (Prod.mk_left_injective v)]
  rw [hunion]
  omega

/-- The charge is the number of edges at `v`, and one more for a directed self-loop. -/
theorem removalCharge_eq (hi : Invariant g) (hv : v < g.vertexCapacity) :
    removalCharge g v = (incident g v).card +
      if g.directed = true ∧ v ∈ neighbors g v then 1 else 0 := by
  by_cases hd : g.directed = true
  · rw [charge_directed hi hd, ← card_incident_directed hi hv hd]
    simp [hd]
  · have hd' : g.directed = false := by simpa using hd
    rw [charge_undirected hd', card_incident_undirected hi hv hd']
    simp [hd']

/-! ## One call -/

/-- The counter is the number of edges. -/
def Counted (g : Graph) : Prop := zenitGraphEdgeCount g = (logicalEdges g).card

/-- The call removes a vertex that carries a self-loop from a directed graph. -/
def RemovesLoop (g : Graph) (op : Op) : Prop :=
  ∃ x, op = .removeVertex x ∧ g.directed = true ∧ zenitGraphHasEdge g x x = true

theorem Activated.counted (hi : Invariant g) (h : Activated slot g g') (hc : Counted g) :
    Counted g' := by
  have hset : Graphs.logicalEdges g' = Graphs.logicalEdges g := by
    ext ⟨u, w⟩
    rw [mem_logicalEdges (h.invariant hi), mem_logicalEdges hi, h.directed]
    constructor
    · rintro ⟨hu, hw, ho⟩
      rw [h.rows u hu] at hw
      split_ifs at hw with hlt
      · exact ⟨hlt, hw, ho⟩
      · simp at hw
    · rintro ⟨hu, hw, ho⟩
      have hu' : u < g'.vertexCapacity := by
        have := h.grown
        omega
      exact ⟨hu', by rw [h.rows u hu', if_pos hu]; exact hw, ho⟩
  rw [Counted, zenitGraphEdgeCount, h.counter, hset]
  exact hc

theorem SameRows.counted (hi : Invariant g) (h : SameRows g g') (hc : Counted g) : Counted g' := by
  have hset : Graphs.logicalEdges g' = Graphs.logicalEdges g := by
    ext ⟨u, w⟩
    rw [mem_logicalEdges (h.invariant hi), mem_logicalEdges hi, h.frame.directed,
      h.frame.vertexCapacity, h.rows]
  rw [Counted, zenitGraphEdgeCount, h.counter, hset]
  exact hc

theorem Linked.counted (hi : Invariant g) (hi' : Invariant g') (ha : a < g.vertexCapacity)
    (hb : b < g.vertexCapacity) (hnot : b ∉ neighbors g a) (h : Linked a b g g')
    (hc : Counted g) : Counted g' := by
  have hlt := card_logicalEdges_lt hi'
  have hnew : edgeOf g.directed a b ∉ Graphs.logicalEdges g := by
    rwa [edgeOf_mem_iff hi ha hb]
  rw [h.logicalEdges hi hi' ha hb, Finset.card_insert_of_notMem hnew] at hlt
  rw [Counted, zenitGraphEdgeCount, h.counter, h.logicalEdges hi hi' ha hb,
    Finset.card_insert_of_notMem hnew, ← hc]
  rw [← hc] at hlt
  exact wrap_of_lt hlt

theorem Unlinked.counted (hi : Invariant g) (hi' : Invariant g') (ha : a < g.vertexCapacity)
    (hb : b < g.vertexCapacity) (hmem : b ∈ neighbors g a) (h : Unlinked a b g g')
    (hc : Counted g) : Counted g' := by
  have hold := (edgeOf_mem_iff hi ha hb).mpr hmem
  have hpos := Finset.card_pos.mpr ⟨_, hold⟩
  rw [Counted, zenitGraphEdgeCount, h.counter, h.logicalEdges hi hi' ha hb,
    Finset.card_erase_of_mem hold, ← hc]
  rw [← hc] at hpos
  exact subSize_of_le hpos hi.counter

theorem subSize_charge {n k e : ℕ} (hn : n < 2 ^ 64) (he : e ≤ 1) :
    subSize (n + k) (k + e) = n ↔ e = 0 := by
  simp only [subSize, wrap]
  omega

theorem Dropped.counted_iff (hi : Invariant g) (h : Dropped v g g') (hc : Counted g) :
    Counted g' ↔ ¬(g.directed = true ∧ v ∈ neighbors g v) := by
  have hcard := h.card hi
  have hlt' := card_logicalEdges_lt (h.invariant hi)
  rw [Counted, zenitGraphEdgeCount] at hc ⊢
  rw [h.counter, hc, ← hcard, removalCharge_eq hi h.slot_lt]
  by_cases hloop : g.directed = true ∧ v ∈ neighbors g v
  · rw [if_pos hloop, subSize_charge hlt' le_rfl]
    simp [hloop]
  · rw [if_neg hloop, subSize_charge hlt' (Nat.zero_le 1)]
    simp only [hloop, not_false_eq_true]

/-- A call keeps the counter exact if and only if it removes no directed self-loop. -/
theorem step_counted_iff (hi : Invariant g) {op : Op} (h : step g op = .ok (g', r))
    (hc : Counted g) : Counted g' ↔ ¬RemovesLoop g op := by
  have hi' := step_invariant hi h
  have hother : (∀ x, op ≠ .removeVertex x) → ¬RemovesLoop g op := by
    rintro hne ⟨x, rfl, -⟩
    exact hne x rfl
  cases op with
  | addVertex ok =>
    refine ⟨fun _ => hother (by simp), fun _ => ?_⟩
    obtain ⟨-, rfl⟩ | ⟨-, slot, hs⟩ := addVertex_cases hi h
    · exact hc
    · exact hs.counted hi hc
  | removeVertex x =>
    have hloop : RemovesLoop g (.removeVertex x) ↔
        g.directed = true ∧ zenitGraphHasEdge g x x = true := by
      constructor
      · rintro ⟨y, he, hd⟩
        cases he
        exact hd
      · exact fun hd => ⟨x, rfl, hd⟩
    rw [hloop, hi.hasEdge_iff]
    obtain ⟨-, rfl, hx⟩ | ⟨-, hx, hdrop⟩ := removeVertex_cases hi (Except.ok.inj h)
    · refine ⟨fun _ => ?_, fun _ => hc⟩
      rintro ⟨-, hpos, -, hlt, hmem⟩
      have hact : isActive g' x = true := isActive_iff.mpr ⟨hpos, hi.active _ hlt _ hmem⟩
      rw [hx] at hact
      cases hact
    · obtain ⟨hpos, hlt, -⟩ := isActive_iff.mp hx
      rw [hdrop.counted_iff hi hc]
      simp [hpos, hlt]
  | addEdge okFrom okTo x y =>
    refine ⟨fun _ => hother (by simp), fun _ => ?_⟩
    obtain ⟨-, rfl, -⟩ | ⟨-, rfl, -⟩ | ⟨-, hs⟩ | ⟨-, hx, hy, hnot, hl⟩ := addEdge_result hi h
    · exact hc
    · exact hc
    · exact hs.counted hi hc
    · exact hl.counted hi hi' (isActive_iff.mp hx).2.1 (isActive_iff.mp hy).2.1 hnot hc
  | removeEdge x y =>
    refine ⟨fun _ => hother (by simp), fun _ => ?_⟩
    obtain ⟨-, rfl, -⟩ | ⟨-, hx, hy, ⟨-, rfl⟩ | ⟨hmem, hu⟩⟩ :=
      removeEdge_cases hi (Except.ok.inj h)
    · exact hc
    · exact hc
    · exact hu.counted hi hi' (isActive_iff.mp hx).2.1 (isActive_iff.mp hy).2.1 hmem hc
  | clear =>
    refine ⟨fun _ => hother (by simp), fun _ => ?_⟩
    cases h
    have hnone : Graphs.logicalEdges (zenitGraphClear g) = ∅ := by
      apply Finset.filter_false_of_mem
      intro e _
      rw [clear_denotes g]
      simp
    rw [Counted, hnone]
    rfl

/-! ## Whole runs -/

/-- The counter is exact in every state of a run if and only if no call of the run removes a
directed self-loop. -/
theorem edge_counter_exact_iff {handle directed : Bool} {ok : ArrayAllocs} {n : ℕ} {g₀ : Graph}
    {h : List (Op × ZenitError)}
    (hcreate : zenitGraphCreate handle ok n directed = .ok (some g₀)) (hr : Run g₀ h g) :
    (∀ p g', p <+: h → Run g₀ p g' → zenitGraphEdgeCount g' = (logicalEdges g').card) ↔
      ∀ p op r g', p ++ [(op, r)] <+: h → Run g₀ p g' →
        ¬(∃ x, op = .removeVertex x ∧ g'.directed = true ∧ zenitGraphHasEdge g' x x = true) := by
  have h₀ := create_invariant hcreate
  obtain ⟨-, -, -, hedges, -, hremoved⟩ := create_cases hcreate
  have hstart : Counted g₀ := by
    have hnone : logicalEdges g₀ = ∅ := by
      apply Finset.filter_false_of_mem
      simp [zenitGraphHasEdge, isActive, hremoved]
    rw [Counted, zenitGraphEdgeCount, hedges, hnone]
    rfl
  refine hr.forall_iff (fun _ g => Counted g) (fun _ g op _ => RemovesLoop g op) hstart ?_
  intro p g₁ op r g₂ prior hgood done
  exact step_counted_iff (prior.invariant h₀) done (hgood p g₁ (List.prefix_refl p) prior)

/-- A loop that is added and removed as an edge leaves an exact counter behind. -/
theorem removed_loop_edge_counted : ∃ g,
    Run (emptyGraph 8 true) [(.addVertex ⟨true, true, true, true⟩, .ok),
      (.addEdge true true 0 0, .ok), (.removeEdge 0 0, .ok)] g ∧
    zenitGraphEdgeCount g = (logicalEdges g).card := by
  have hcreate : zenitGraphCreate true ⟨true, true, true, true⟩ 0 true =
      .ok (some (emptyGraph 8 true)) := rfl
  have hexec : exec [] (emptyGraph 8 true) [.addVertex ⟨true, true, true, true⟩,
      .addEdge true true 0 0, .removeEdge 0 0] = .ok (_, _) := rfl
  have hrun := Run.start.exec hexec
  refine ⟨_, hrun, (edge_counter_exact_iff hcreate hrun).mpr ?_ _ _ (List.prefix_refl _) hrun⟩
  rintro p op r g' hp - ⟨x, rfl, -⟩
  have hmem := hp.subset (List.mem_append_right p (List.mem_singleton_self _))
  simp at hmem

/-- Removing the only vertex, with its self-loop, from a directed graph. -/
theorem removed_loop_vertex_underflows : ∃ g,
    zenitGraphCreate true ⟨true, true, true, true⟩ 0 true = .ok (some (emptyGraph 8 true)) ∧
    Run (emptyGraph 8 true) [(.addVertex ⟨true, true, true, true⟩, .ok),
      (.addEdge true true 0 0, .ok), (.removeVertex 0, .ok)] g ∧
    zenitGraphEdgeCount g = 2 ^ 64 - 1 ∧ (logicalEdges g).card = 0 := by
  have hexec : exec [] (emptyGraph 8 true) [.addVertex ⟨true, true, true, true⟩,
      .addEdge true true 0 0, .removeVertex 0] = .ok (_, _) := rfl
  exact ⟨_, rfl, Run.start.exec hexec, rfl, rfl⟩

end LibZenit.Graphs
