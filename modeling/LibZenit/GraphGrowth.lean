import LibZenit.GraphRuns

/-!
# Growth of the vertex arrays

With no tombstone left the arrays grow by half, rounded down, and the new vertex takes slot
`vertex_count`. A single slot grows to a single slot, and the vertex then lies outside it.
-/
namespace LibZenit.Graphs
open Blocks

variable {g g' : Graph} {r : ZenitError} {slot : ℕ}

/-- No slot is a tombstone. -/
def Full (g : Graph) : Prop := ∀ i < g.vertexCapacity, g.removed i = false

/-- The value of `slot` when `zenit_graph_add_vertex` comes to activate it. Growing does not
change `vertex_count`. -/
def chosenSlot (g : Graph) : ℤ :=
  if findTombstone g = -1 then toInt g.vertexCount else findTombstone g

/-- A growth of the full arrays adds slots, and the call that needed it takes one of them. -/
def GrowsSafely (g : Graph) : Prop :=
  Full g → ∀ ok g₁, growVertexArrays ok g = .ok (g₁, .ok) →
    g.vertexCapacity < g₁.vertexCapacity ∧
    ∃ g', zenitGraphAddVertex ok g = .ok (g', .ok) ∧ g'.vertexCapacity = g₁.vertexCapacity ∧
      0 ≤ chosenSlot g ∧ (chosenSlot g).toNat < g₁.vertexCapacity ∧
      g₁.removed (chosenSlot g).toNat = true ∧ isActive g (chosenSlot g) = false ∧
      isActive g' (chosenSlot g) = true

/-- Calls of `zenit_graph_add_vertex`, with the slots that the successful ones activated. -/
def addVertices : List ArrayAllocs → Graph → Exec (List ℤ × Graph)
  | [], g => .ok ([], g)
  | ok :: oks, g => (zenitGraphAddVertex ok g).bind fun p =>
    (addVertices oks p.1).map fun q => (if p.2 = .ok then chosenSlot g :: q.1 else q.1, q.2)

/-! ## The slot of a call -/

theorem Full.findTombstone (hfull : Full g) : findTombstone g = -1 := by
  obtain ⟨hnone, -⟩ | ⟨i, -, hlt, hr, -⟩ := findTombstone_cases g
  · exact hnone
  · rw [hfull i hlt] at hr
    cases hr

theorem Full.vertexCount (hi : Invariant g) (hfull : Full g) :
    g.vertexCount = g.vertexCapacity := by
  rw [hi.vertexCount, activeSlots_full hfull]

/-- A full graph has at most `2 ^ 31` slots. -/
theorem Full.capacity_le (hi : Invariant g) (hfull : Full g) : g.vertexCapacity ≤ 2 ^ 31 :=
  tombstone_le hi le_rfl hfull

/-- The slot that is activated is the first one that is not active. -/
theorem Activated.eq_chosenSlot (hi : Invariant g) (hs : Activated slot g g') :
    chosenSlot g = slot := by
  obtain ⟨hnone, hfull⟩ | ⟨i, hsome, hlt, hr, hbefore⟩ := findTombstone_cases g
  · have heq : slot = g.vertexCapacity := by
      rcases Nat.lt_trichotomy slot g.vertexCapacity with hlt | heq | hgt
      · have hfresh := hs.fresh hlt
        rw [hfull slot hlt] at hfresh
        cases hfresh
      · exact heq
      · exact absurd (hs.first _ hgt).1 (lt_irrefl _)
    rw [chosenSlot, if_pos hnone, Full.vertexCount hi hfull, ← heq, toInt_of_lt hs.slot_small]
  · have heq : slot = i := by
      rcases Nat.lt_trichotomy slot i with hlt' | heq | hgt
      · have hfresh := hs.fresh (by omega)
        rw [hbefore slot hlt'] at hfresh
        cases hfresh
      · exact heq
      · have hfirst := (hs.first i hgt).2
        rw [hr] at hfirst
        cases hfirst
    have hne := toInt_ne_neg_one (tombstone_le hi hlt.le hbefore)
    rw [chosenSlot, hsome, if_neg hne, ← heq, toInt_of_lt hs.slot_small]

theorem Activated.isActive_before (hs : Activated slot g g') : isActive g (slot : ℤ) = false := by
  rw [Bool.eq_false_iff]
  intro hact
  obtain ⟨-, hlt, hr⟩ := isActive_iff.mp hact
  rw [Int.toNat_natCast] at hlt hr
  rw [hs.fresh hlt] at hr
  cases hr

theorem Activated.isActive_keeps (hs : Activated slot g g') {x : ℤ} (hx : isActive g x = true) :
    isActive g' x = true := by
  obtain ⟨hpos, hlt, hr⟩ := isActive_iff.mp hx
  have hgrown := hs.grown
  refine isActive_iff.mpr ⟨hpos, by omega, ?_⟩
  rw [hs.removed _ (by omega)]
  split_ifs
  · rfl
  · exact hr

/-! ## One call -/

theorem growVertexArrays_removed {ok : ArrayAllocs} {g₁ : Graph}
    (hgrow : growVertexArrays ok g = .ok (g₁, .ok)) :
    g₁.vertexCapacity = growCapacity g.vertexCapacity ∧ g₁.vertexCount = g.vertexCount ∧
      ∀ v, g.vertexCapacity ≤ v → v < g₁.vertexCapacity → g₁.removed v = true := by
  obtain ⟨he, -⟩ | ⟨-, hcap, hcount, -, -, hslots⟩ := growVertexArrays_cases hgrow
  · cases he
  · exact ⟨hcap, hcount, fun v hge hlt => ((hslots v hlt).2 hge).2.2.2⟩

theorem addVertex_of_growth (hfull : Full g) {ok : ArrayAllocs} {g₁ : Graph}
    (hgrow : growVertexArrays ok g = .ok (g₁, .ok)) :
    zenitGraphAddVertex ok g = (activate g₁ (toInt g₁.vertexCount)).map (·, .ok) := by
  simp only [addVertex_of_full hfull.findTombstone, hgrow, Except.bind, ne_eq, not_true_eq_false,
    if_false]

theorem growsSafely_of_room (hi : Invariant g) (hone : g.vertexCapacity ≠ 1)
    (hcap : g.vertexCapacity < 2 ^ 31) : GrowsSafely g := by
  intro hfull ok g₁ hgrow
  obtain ⟨hcap₁, hcount₁, hnew⟩ := growVertexArrays_removed hgrow
  have hlt : g.vertexCapacity < g₁.vertexCapacity := by
    rw [hcap₁]
    exact growCapacity_lt hone
  have hvc := hfull.vertexCount hi
  obtain ⟨g', hact⟩ := activate_ok (g := g₁) (n := g.vertexCapacity) hlt hcap
  rw [← hvc, ← hcount₁] at hact
  have hs := activated_of_growth hi hfull hgrow hact
  have hchosen := hs.eq_chosenSlot hi
  obtain ⟨-, -, heq⟩ := activate_cases hact
  have hcap' : g'.vertexCapacity = g₁.vertexCapacity := by rw [heq]
  rw [hchosen, Int.toNat_natCast]
  refine ⟨hlt, g', ?_, hcap', by omega, hlt, hnew _ le_rfl hlt, hs.isActive_before,
    hs.isActive_slot⟩
  rw [addVertex_of_growth hfull hgrow, hact]
  rfl

/-- All four allocations granted. -/
def grantAll : ArrayAllocs := ⟨true, true, true, true⟩

theorem growVertexArrays_grantAll (hcap : g.vertexCapacity ≤ 2 ^ 31) :
    ∃ g₁, growVertexArrays grantAll g = .ok (g₁, .ok) := by
  have hle : growCapacity g.vertexCapacity < 2 ^ 33 := by
    unfold growCapacity
    split_ifs <;> omega
  have hwrap : wrapsVertexArrays (growCapacity g.vertexCapacity) = false := by
    simp only [wrapsVertexArrays, decide_eq_false_iff_not]
    omega
  unfold growVertexArrays
  rw [if_neg (by simp [hwrap]), if_neg (by decide)]
  exact ⟨_, rfl⟩

/-- A full graph grows safely unless it has a single slot, which does not grow, or `2 ^ 31` slots,
where the next number is not an `int`. -/
theorem growsSafely_iff (hi : Invariant g) (hfull : Full g) :
    GrowsSafely g ↔ g.vertexCapacity ≠ 1 ∧ g.vertexCapacity < 2 ^ 31 := by
  constructor
  · intro hsafe
    obtain ⟨g₁, hgrow⟩ := growVertexArrays_grantAll (hfull.capacity_le hi)
    obtain ⟨hlt, g', -, -, hpos, -⟩ := hsafe hfull grantAll g₁ hgrow
    obtain ⟨hcap₁, -⟩ := growVertexArrays_removed hgrow
    constructor
    · intro hone
      rw [hcap₁, hone] at hlt
      exact absurd hlt (by decide)
    · rw [chosenSlot, if_pos hfull.findTombstone, hfull.vertexCount hi] at hpos
      exact small_of_toInt (hfull.capacity_le hi) hpos
  · rintro ⟨hone, hcap⟩
    exact growsSafely_of_room hi hone hcap

/-! ## Runs -/

theorem Run.capacity_one {g₀ : Graph} {h : List (Op × ZenitError)} (h₀ : Invariant g₀)
    (hone : g₀.vertexCapacity = 1) (hr : Run g₀ h g) : g.vertexCapacity = 1 := by
  induction hr with
  | start => exact hone
  | call prior done ih =>
    rcases step_capacity (prior.invariant h₀) done with hc | hc
    · rw [hc, ih]
    · rw [hc, ih]
      rfl

theorem addVertices_cons {ok : ArrayAllocs} {oks : List ArrayAllocs} {slots : List ℤ}
    {g₁ : Graph} (hstep : zenitGraphAddVertex ok g = .ok (g₁, r))
    (hrest : addVertices oks g₁ = .ok (slots, g')) :
    addVertices (ok :: oks) g =
      .ok (if r = .ok then chosenSlot g :: slots else slots, g') := by
  simp only [addVertices, hstep, Except.bind, hrest, Except.map]

/-- The slots of a run are those that were not active before and are active after it. -/
theorem addVertices_spec {oks : List ArrayAllocs} (hi : Invariant g)
    (hone : g.vertexCapacity ≠ 1) (hcount : g.vertexCount + oks.length ≤ 2 ^ 31) :
    ∃ slots g', addVertices oks g = .ok (slots, g') ∧ slots.Nodup ∧
      (∀ x ∈ slots, isActive g x = false ∧ isActive g' x = true) ∧
      ∀ x, isActive g x = true → isActive g' x = true := by
  induction oks generalizing g with
  | nil => exact ⟨[], g, rfl, List.nodup_nil, by simp, fun _ hx => hx⟩
  | cons ok oks ih =>
    rw [List.length_cons] at hcount
    obtain ⟨⟨g₁, r⟩, hstep⟩ := addVertex_progress hi hone (by omega) ok
    have hcall : step g (.addVertex ok) = .ok (g₁, r) := hstep
    have hi₁ := step_invariant hi hcall
    obtain ⟨rfl, rfl⟩ | ⟨rfl, slot, hs⟩ := addVertex_cases hi hstep
    · obtain ⟨slots, g', hrest, hrun⟩ := ih hi hone (by omega)
      exact ⟨slots, g', addVertices_cons hstep hrest, hrun⟩
    · have hone₁ : g₁.vertexCapacity ≠ 1 := by
        rcases hs.capacity with hc | ⟨hc, -⟩
        · rwa [hc]
        · rw [hc]
          exact growCapacity_ne_one hone
      have hcount₁ := hs.vertexCount
      obtain ⟨slots, g', hrest, hnodup, hslots, hkeep⟩ := ih hi₁ hone₁ (by omega)
      refine ⟨_, g', addVertices_cons hstep hrest, ?_⟩
      rw [if_pos rfl, hs.eq_chosenSlot hi]
      refine ⟨List.nodup_cons.mpr ⟨fun hmem => ?_, hnodup⟩, fun x hx => ?_,
        fun x hx => hkeep x (hs.isActive_keeps hx)⟩
      · have hnot := (hslots _ hmem).1
        rw [hs.isActive_slot] at hnot
        cases hnot
      · rcases List.mem_cons.mp hx with rfl | hmem
        · exact ⟨hs.isActive_before, hkeep _ hs.isActive_slot⟩
        · refine ⟨?_, (hslots x hmem).2⟩
          have hnot := (hslots x hmem).1
          by_contra hact
          rw [hs.isActive_keeps (by simpa using hact)] at hnot
          cases hnot

/-- In every reachable graph with no tombstone a growth is safe exactly when the graph was not
created with one slot and has fewer than `2 ^ 31`. Outside a graph of one slot, the vertices of up
to `2 ^ 31` calls are distinct and in bounds. -/
theorem vertex_growth_safe_iff {handle directed : Bool} {ok : ArrayAllocs} {n : ℕ} {g₀ : Graph}
    (hcreate : zenitGraphCreate handle ok n directed = .ok (some g₀)) :
    (∀ h g, Run g₀ h g → Full g → (GrowsSafely g ↔ n ≠ 1 ∧ g.vertexCapacity < 2 ^ 31)) ∧
    ∀ oks : List ArrayAllocs, n ≠ 1 → oks.length ≤ 2 ^ 31 →
      ∃ slots g, addVertices oks g₀ = .ok (slots, g) ∧ slots.Nodup ∧
        ∀ x ∈ slots, isActive g x = true := by
  have h₀ := create_invariant hcreate
  obtain ⟨hcap₀, -, hcount₀, -⟩ := create_cases hcreate
  have hone₀ : g₀.vertexCapacity = 1 ↔ n = 1 := by
    rw [hcap₀]
    split_ifs <;> omega
  constructor
  · intro h g hr hfull
    have hone : g.vertexCapacity = 1 ↔ n = 1 := by
      rw [← hone₀]
      refine ⟨fun hg => ?_, fun hg₀ => hr.capacity_one h₀ hg₀⟩
      by_contra hne
      exact hr.capacity_ne_one h₀ hne hg
    rw [growsSafely_iff (hr.invariant h₀) hfull, ne_eq, hone]
  · intro oks hn hlen
    have hroom : g₀.vertexCount + oks.length ≤ 2 ^ 31 := by omega
    obtain ⟨slots, g, hrun, hnodup, hslots, -⟩ := addVertices_spec h₀ (mt hone₀.mp hn) hroom
    exact ⟨slots, g, hrun, hnodup, fun x hx => (hslots x hx).2⟩

/-- A graph of two slots, with three vertices. -/
theorem two_slots_grow : ∃ slots g,
    addVertices [grantAll, grantAll, grantAll] (emptyGraph 2 true) = .ok (slots, g) ∧
      slots.Nodup ∧ ∀ x ∈ slots, isActive g x = true := by
  have hcreate : zenitGraphCreate true grantAll 2 true = .ok (some (emptyGraph 2 true)) := rfl
  exact (vertex_growth_safe_iff hcreate).2 _ (by decide) (by decide)

/-- A graph of one slot. The arrays "grow" to one slot, and the second vertex is written behind
them. -/
theorem one_slot_does_not_grow : ∃ g,
    zenitGraphCreate true grantAll 1 true = .ok (some (emptyGraph 1 true)) ∧
    Run (emptyGraph 1 true) [(.addVertex grantAll, .ok)] g ∧ Full g ∧ ¬GrowsSafely g ∧
    addVertices [grantAll, grantAll] (emptyGraph 1 true) = .error .outOfBounds := by
  have hexec : exec [] (emptyGraph 1 true) [.addVertex grantAll] = .ok (_, _) := rfl
  have hrun := Run.start.exec hexec
  have hcreate : zenitGraphCreate true grantAll 1 true = .ok (some (emptyGraph 1 true)) := rfl
  refine ⟨_, hcreate, hrun, ?_, ?_, rfl⟩
  · unfold Full
    decide
  · rw [growsSafely_iff (hrun.invariant (create_invariant hcreate)) (by unfold Full; decide)]
    exact fun hg => hg.1 rfl

end LibZenit.Graphs
