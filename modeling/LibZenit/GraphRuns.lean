import LibZenit.GraphSteps

/-!
# A graph denotes the edges that were added and not removed

The edges of a run are replayed from its successful calls. In every state of a run the edge
queries answer this set, and the representation invariant holds.
-/
namespace LibZenit.Graphs

variable {g g' : Graph} {r : ZenitError} {a b v slot : ℕ}

/-! ## The replayed edges -/

/-- The pairs that one edge stands for. -/
def orientations (directed : Bool) (x y : ℤ) : Set (ℤ × ℤ) :=
  if directed then {(x, y)} else {(x, y), (y, x)}

def replayCall (directed : Bool) (edges : Set (ℤ × ℤ)) : Op × ZenitError → Set (ℤ × ℤ)
  | (.addEdge _ _ x y, .ok) => edges ∪ orientations directed x y
  | (.removeEdge x y, .ok) => edges \ orientations directed x y
  | (.removeVertex x, .ok) => {e ∈ edges | e.1 ≠ x ∧ e.2 ≠ x}
  | (.clear, .ok) => ∅
  | _ => edges

def replay (directed : Bool) (calls : List (Op × ZenitError)) : Set (ℤ × ℤ) :=
  calls.foldl (replayCall directed) ∅

/-- The edge queries of `g` answer the set. -/
def Denotes (g : Graph) (edges : Set (ℤ × ℤ)) : Prop :=
  ∀ x y, zenitGraphHasEdge g x y = true ↔ (x, y) ∈ edges

/-! ## One call -/

/-- Lists mention active vertices only, so one end decides an edge. -/
theorem Invariant.hasEdge_iff (hi : Invariant g) {x y : ℤ} : zenitGraphHasEdge g x y = true ↔
    0 ≤ x ∧ 0 ≤ y ∧ x.toNat < g.vertexCapacity ∧ y.toNat ∈ neighbors g x.toNat := by
  rw [Graphs.hasEdge_iff, isActive_iff, isActive_iff]
  constructor
  · rintro ⟨⟨hx, hxlt, -⟩, ⟨hy, -, -⟩, hmem⟩
    exact ⟨hx, hy, hxlt, hmem⟩
  · rintro ⟨hx, hy, hxlt, hmem⟩
    exact ⟨⟨hx, hxlt, hi.active_of_mem hxlt hmem⟩, ⟨hy, hi.active _ hxlt _ hmem⟩, hmem⟩

theorem mem_orientations {directed : Bool} {x y u w : ℤ} : (u, w) ∈ orientations directed x y ↔
    (u = x ∧ w = y) ∨ (directed = false ∧ u = y ∧ w = x) := by
  cases directed with
  | false => simp [orientations]
  | true => simp [orientations]

theorem toNat_eq_iff {x y : ℤ} (hx : 0 ≤ x) (hy : 0 ≤ y) : x.toNat = y.toNat ↔ x = y := by
  omega

theorem Activated.denotes (hi : Invariant g) (h : Activated slot g g') {edges : Set (ℤ × ℤ)}
    (hd : Denotes g edges) : Denotes g' edges := by
  intro x y
  rw [← hd x y, (h.invariant hi).hasEdge_iff, hi.hasEdge_iff]
  constructor
  · rintro ⟨hx, hy, hxlt, hmem⟩
    rw [h.rows _ hxlt] at hmem
    split_ifs at hmem with hlt
    · exact ⟨hx, hy, hlt, hmem⟩
    · simp at hmem
  · rintro ⟨hx, hy, hxlt, hmem⟩
    have hxlt' : x.toNat < g'.vertexCapacity := by
      have := h.grown
      omega
    exact ⟨hx, hy, hxlt', by rw [h.rows _ hxlt', if_pos hxlt]; exact hmem⟩

theorem Dropped.denotes (hi : Invariant g) {x : ℤ} (hx : 0 ≤ x) (h : Dropped x.toNat g g')
    {edges : Set (ℤ × ℤ)} (hd : Denotes g edges) :
    Denotes g' {e ∈ edges | e.1 ≠ x ∧ e.2 ≠ x} := by
  intro u w
  rw [Set.mem_ofPred_eq, ← hd u w, (h.invariant hi).hasEdge_iff, hi.hasEdge_iff, h.capacity]
  constructor
  · rintro ⟨hu, hw, hult, hmem⟩
    rw [h.rows _ hult] at hmem
    split_ifs at hmem with hux
    · simp at hmem
    · obtain ⟨hmem, hwx⟩ := List.mem_filter.mp hmem
      simp only [ne_eq, decide_not, Bool.not_eq_true', decide_eq_false_iff_not] at hwx
      exact ⟨⟨hu, hw, hult, hmem⟩, fun he => hux (congrArg Int.toNat he),
        fun he => hwx (congrArg Int.toNat he)⟩
  · rintro ⟨⟨hu, hw, hult, hmem⟩, hux, hwx⟩
    have hux' : u.toNat ≠ x.toNat := fun he => hux ((toNat_eq_iff hu hx).mp he)
    have hwx' : w.toNat ≠ x.toNat := fun he => hwx ((toNat_eq_iff hw hx).mp he)
    refine ⟨hu, hw, hult, ?_⟩
    rw [h.rows _ hult, if_neg hux']
    exact List.mem_filter.mpr ⟨hmem, by simpa using hwx'⟩

theorem SameRows.denotes (hi : Invariant g) (h : SameRows g g') {edges : Set (ℤ × ℤ)}
    (hd : Denotes g edges) : Denotes g' edges := by
  intro x y
  rw [← hd x y, (h.invariant hi).hasEdge_iff, hi.hasEdge_iff, h.frame.vertexCapacity, h.rows]

/-- An edge between two numbers that are not negative, compared with one of the arguments. -/
theorem edge_eq_iff {x y u w : ℤ} (hx : 0 ≤ x) (hy : 0 ≤ y) (hu : 0 ≤ u) (hw : 0 ≤ w) :
    (u.toNat = x.toNat ∧ w.toNat = y.toNat) ↔ (u = x ∧ w = y) := by
  rw [toNat_eq_iff hu hx, toNat_eq_iff hw hy]

theorem Linked.denotes (hi : Invariant g) {x y : ℤ} (hx : isActive g x = true)
    (hy : isActive g y = true) (hnot : y.toNat ∉ neighbors g x.toNat)
    (h : Linked x.toNat y.toNat g g') {edges : Set (ℤ × ℤ)} (hd : Denotes g edges) :
    Denotes g' (edges ∪ orientations g.directed x y) := by
  obtain ⟨hx0, hxlt, hxr⟩ := isActive_iff.mp hx
  obtain ⟨hy0, hylt, hyr⟩ := isActive_iff.mp hy
  have hi' := h.invariant hi hxlt hxr hylt hyr hnot
  intro u w
  rw [Set.mem_union, ← hd u w, mem_orientations, hi'.hasEdge_iff, hi.hasEdge_iff,
    h.frame.vertexCapacity, h.mem_iff]
  constructor
  · rintro ⟨hu, hw, hult, hmem | hmem | ⟨hdir, hmem⟩⟩
    · exact Or.inl ⟨hu, hw, hult, hmem⟩
    · exact Or.inr (Or.inl ((edge_eq_iff hx0 hy0 hu hw).mp hmem))
    · exact Or.inr (Or.inr ⟨hdir, (edge_eq_iff hy0 hx0 hu hw).mp hmem⟩)
  · rintro (⟨hu, hw, hult, hmem⟩ | ⟨rfl, rfl⟩ | ⟨hdir, rfl, rfl⟩)
    · exact ⟨hu, hw, hult, Or.inl hmem⟩
    · exact ⟨hx0, hy0, hxlt, Or.inr (Or.inl ⟨rfl, rfl⟩)⟩
    · exact ⟨hy0, hx0, hylt, Or.inr (Or.inr ⟨hdir, rfl, rfl⟩)⟩

theorem Unlinked.denotes (hi : Invariant g) {x y : ℤ} (hx : isActive g x = true)
    (hy : isActive g y = true) (h : Unlinked x.toNat y.toNat g g') {edges : Set (ℤ × ℤ)}
    (hd : Denotes g edges) : Denotes g' (edges \ orientations g.directed x y) := by
  obtain ⟨hx0, hxlt, -⟩ := isActive_iff.mp hx
  obtain ⟨hy0, hylt, -⟩ := isActive_iff.mp hy
  have hi' := h.invariant hi hxlt hylt
  intro u w
  rw [Set.mem_sdiff, ← hd u w, mem_orientations, hi'.hasEdge_iff, hi.hasEdge_iff,
    h.frame.vertexCapacity, h.mem_iff hi hxlt hylt]
  constructor
  · rintro ⟨hu, hw, hult, hmem, hxy, hyx⟩
    refine ⟨⟨hu, hw, hult, hmem⟩, ?_⟩
    rintro (hc | ⟨hdir, hc⟩)
    · exact hxy ((edge_eq_iff hx0 hy0 hu hw).mpr hc)
    · exact hyx ⟨hdir, (edge_eq_iff hy0 hx0 hu hw).mpr hc⟩
  · rintro ⟨⟨hu, hw, hult, hmem⟩, hnot⟩
    refine ⟨hu, hw, hult, hmem, fun hc => ?_, fun hc => ?_⟩
    · exact hnot (Or.inl ((edge_eq_iff hx0 hy0 hu hw).mp hc))
    · exact hnot (Or.inr ⟨hc.1, (edge_eq_iff hy0 hx0 hu hw).mp hc.2⟩)

/-- Removing a pair that is no edge. -/
theorem denotes_absent (hi : Invariant g) {x y : ℤ} (hx : isActive g x = true)
    (hy : isActive g y = true) (hnot : y.toNat ∉ neighbors g x.toNat) {edges : Set (ℤ × ℤ)}
    (hd : Denotes g edges) : Denotes g (edges \ orientations g.directed x y) := by
  obtain ⟨-, hxlt, -⟩ := isActive_iff.mp hx
  obtain ⟨-, hylt, -⟩ := isActive_iff.mp hy
  intro u w
  rw [Set.mem_sdiff, ← hd u w, mem_orientations]
  refine ⟨fun he => ⟨he, ?_⟩, And.left⟩
  obtain ⟨-, -, -, hmem⟩ := hi.hasEdge_iff.mp he
  rintro (⟨rfl, rfl⟩ | ⟨hdir, rfl, rfl⟩)
  · exact hnot hmem
  · exact hnot (hi.symmetric hdir _ hylt _ hmem)

/-- Adding a pair that is an edge. -/
theorem denotes_present (hi : Invariant g) {x y : ℤ} (he : zenitGraphHasEdge g x y = true)
    {edges : Set (ℤ × ℤ)} (hd : Denotes g edges) :
    Denotes g (edges ∪ orientations g.directed x y) := by
  obtain ⟨hx, hy, hxlt, hmem⟩ := hi.hasEdge_iff.mp he
  intro u w
  rw [Set.mem_union, ← hd u w, mem_orientations]
  refine ⟨Or.inl, ?_⟩
  rintro (h | ⟨rfl, rfl⟩ | ⟨hdir, rfl, rfl⟩)
  · exact h
  · exact he
  · exact hi.hasEdge_iff.mpr ⟨hy, hx, (hi.active _ hxlt _ hmem).1, hi.symmetric hdir _ hxlt _ hmem⟩

theorem clear_denotes (g : Graph) : Denotes (zenitGraphClear g) ∅ := by
  intro x y
  have hnone : isActive (zenitGraphClear g) x = false := by
    by_cases hlt : x.toNat < g.vertexCapacity
    · simp [isActive, zenitGraphClear, hlt]
    · simp [isActive, zenitGraphClear, hlt]
  simp [zenitGraphHasEdge, hnone]

theorem step_denotes (hi : Invariant g) {op : Op} (h : step g op = .ok (g', r))
    {edges : Set (ℤ × ℤ)} (hd : Denotes g edges) :
    Denotes g' (replayCall g.directed edges (op, r)) ∧ g'.directed = g.directed := by
  cases op with
  | addVertex ok =>
    obtain ⟨rfl, rfl⟩ | ⟨rfl, slot, hs⟩ := addVertex_cases hi h
    · exact ⟨hd, rfl⟩
    · exact ⟨hs.denotes hi hd, hs.directed⟩
  | removeVertex x =>
    obtain ⟨rfl, rfl, -⟩ | ⟨rfl, hx, hdrop⟩ := removeVertex_cases hi (Except.ok.inj h)
    · exact ⟨hd, rfl⟩
    · exact ⟨hdrop.denotes hi (isActive_iff.mp hx).1 hd, hdrop.directed⟩
  | addEdge okFrom okTo x y =>
    obtain ⟨rfl, rfl, -⟩ | ⟨rfl, rfl, he⟩ | ⟨rfl, hs⟩ | ⟨rfl, hx, hy, hnot, hl⟩ :=
      addEdge_result hi h
    · exact ⟨hd, rfl⟩
    · exact ⟨denotes_present hi he hd, rfl⟩
    · exact ⟨hs.denotes hi hd, hs.frame.directed⟩
    · exact ⟨hl.denotes hi hx hy hnot hd, hl.frame.directed⟩
  | removeEdge x y =>
    obtain ⟨rfl, rfl, -⟩ | ⟨rfl, hx, hy, ⟨hnot, rfl⟩ | ⟨-, hu⟩⟩ :=
      removeEdge_cases hi (Except.ok.inj h)
    · exact ⟨hd, rfl⟩
    · exact ⟨denotes_absent hi hx hy hnot hd, rfl⟩
    · exact ⟨hu.denotes hi hx hy hd, hu.frame.directed⟩
  | clear =>
    cases h
    exact ⟨clear_denotes g, rfl⟩

theorem step_keeps_capacity (hi : Invariant g) {op : Op} (hop : ∀ ok, op ≠ .addVertex ok)
    (h : step g op = .ok (g', r)) : g'.vertexCapacity = g.vertexCapacity := by
  cases op with
  | addVertex ok => exact absurd rfl (hop ok)
  | removeVertex x =>
    obtain ⟨-, rfl, -⟩ | ⟨-, -, hdrop⟩ := removeVertex_cases hi (Except.ok.inj h)
    · rfl
    · exact hdrop.capacity
  | addEdge okFrom okTo x y =>
    obtain ⟨-, rfl, -⟩ | ⟨-, rfl, -⟩ | ⟨-, hs⟩ | ⟨-, -, -, -, hl⟩ := addEdge_result hi h
    · rfl
    · rfl
    · exact hs.frame.vertexCapacity
    · exact hl.frame.vertexCapacity
  | removeEdge x y =>
    obtain ⟨-, rfl, -⟩ | ⟨-, -, -, ⟨-, rfl⟩ | ⟨-, hu⟩⟩ := removeEdge_cases hi (Except.ok.inj h)
    · rfl
    · rfl
    · exact hu.frame.vertexCapacity
  | clear =>
    cases h
    rfl

theorem step_capacity (hi : Invariant g) {op : Op} (h : step g op = .ok (g', r)) :
    g'.vertexCapacity = g.vertexCapacity ∨
      g'.vertexCapacity = growCapacity g.vertexCapacity := by
  by_cases hop : ∃ ok, op = .addVertex ok
  · obtain ⟨ok, rfl⟩ := hop
    obtain ⟨-, rfl⟩ | ⟨-, slot, hs⟩ := addVertex_cases hi h
    · exact Or.inl rfl
    · exact hs.capacity.imp_right And.left
  · exact Or.inl (step_keeps_capacity hi (fun ok heq => hop ⟨ok, heq⟩) h)

/-- Only `zenit_graph_add_vertex` can leave the arrays. -/
theorem step_progress (hi : Invariant g) (hone : g.vertexCapacity ≠ 1)
    (hcap : g.vertexCapacity < 2 ^ 31) (op : Op) : ∃ g' r, step g op = .ok (g', r) := by
  cases op with
  | addVertex ok =>
    have hcount := vertexCount_le hi
    obtain ⟨p, hp⟩ := addVertex_progress hi hone (by omega) ok
    exact ⟨p.1, p.2, hp⟩
  | removeVertex x => exact ⟨_, _, rfl⟩
  | addEdge okFrom okTo x y =>
    obtain ⟨g', r, h, -⟩ := addEdge_spec hi okFrom okTo x y
    exact ⟨g', r, h⟩
  | removeEdge x y => exact ⟨_, _, rfl⟩
  | clear => exact ⟨_, _, rfl⟩

/-! ## Runs and their beginnings -/

theorem Run.last {g₀ : Graph} {h : List (Op × ZenitError)} {op : Op}
    (hr : Run g₀ (h ++ [(op, r)]) g') : ∃ g, Run g₀ h g ∧ step g op = .ok (g', r) := by
  obtain ⟨k, hk⟩ : ∃ k, k = h ++ [(op, r)] := ⟨_, rfl⟩
  rw [← hk] at hr
  cases hr with
  | start => simp at hk
  | call prior done =>
    obtain ⟨rfl, hlast⟩ := List.append_inj' hk rfl
    cases hlast
    exact ⟨_, prior, done⟩

theorem Run.unique {g₀ : Graph} {h : List (Op × ZenitError)} (hr : Run g₀ h g)
    (hr' : Run g₀ h g') : g = g' := by
  induction hr generalizing g' with
  | start =>
    generalize hk : ([] : List (Op × ZenitError)) = k at hr'
    cases hr' with
    | start => rfl
    | call => simp at hk
  | call _ done ih =>
    obtain ⟨g₁, prior', done'⟩ := hr'.last
    rw [← ih prior', done] at done'
    cases done'
    rfl

theorem Run.upTo {g₀ : Graph} {h p : List (Op × ZenitError)} (hr : Run g₀ h g) (hp : p <+: h) :
    ∃ g', Run g₀ p g' := by
  induction hr with
  | start =>
    rw [List.prefix_nil.mp hp]
    exact ⟨_, .start⟩
  | call prior done ih =>
    rcases List.prefix_concat_iff.mp hp with rfl | hp
    · exact ⟨_, prior.call done⟩
    · exact ih hp

/-- A property that a call breaks exactly when it is bad holds along a run exactly when no call of
the run is bad. -/
theorem Run.forall_iff {g₀ : Graph} {h : List (Op × ZenitError)} (hr : Run g₀ h g)
    (P : List (Op × ZenitError) → Graph → Prop)
    (Bad : List (Op × ZenitError) → Graph → Op → ZenitError → Prop) (h₀ : P [] g₀)
    (hstep : ∀ p g₁ op r g₂, Run g₀ p g₁ → (∀ q g', q <+: p → Run g₀ q g' → P q g') →
      step g₁ op = .ok (g₂, r) → (P (p ++ [(op, r)]) g₂ ↔ ¬Bad p g₁ op r)) :
    (∀ p g', p <+: h → Run g₀ p g' → P p g') ↔
      ∀ p op r g', p ++ [(op, r)] <+: h → Run g₀ p g' → ¬Bad p g' op r := by
  constructor
  · intro hall p op r g₁ hp hrun
    obtain ⟨g₂, hrun₂⟩ := hr.upTo hp
    obtain ⟨g₁', prior, done⟩ := hrun₂.last
    rw [← hrun.unique prior] at done
    have hgood : ∀ q g', q <+: p → Run g₀ q g' → P q g' := fun q g' hq =>
      hall q g' (hq.trans ((List.prefix_append p _).trans hp))
    exact (hstep p g₁ op r g₂ hrun hgood done).mp (hall _ g₂ hp hrun₂)
  · intro hnone
    clear hr
    -- every beginning of the run is reached by good calls only
    have hgood : ∀ p, p <+: h → ∀ q g', q <+: p → Run g₀ q g' → P q g' := by
      intro p
      induction p using List.reverseRecOn with
      | nil =>
        intro _ q g' hq hrun
        rw [List.prefix_nil.mp hq] at hrun ⊢
        rw [← Run.start.unique hrun]
        exact h₀
      | append_singleton p c ih =>
        intro hp q g' hq hrun
        have hp' : p <+: h := (List.prefix_append p _).trans hp
        rcases List.prefix_concat_iff.mp hq with rfl | hq
        · obtain ⟨g₁, prior, done⟩ := hrun.last
          exact (hstep p g₁ _ _ g' prior (ih hp') done).mpr (hnone p _ _ g₁ hp prior)
        · exact ih hp' q g' hq hrun
    exact fun p g' hp => hgood p hp p g' (List.prefix_refl p)

/-! ## Whole runs -/

theorem Run.denotes {g₀ : Graph} {h : List (Op × ZenitError)} (h₀ : Invariant g₀)
    (hempty : Denotes g₀ ∅) (hr : Run g₀ h g) :
    Denotes g (replay g₀.directed h) ∧ g.directed = g₀.directed := by
  induction hr with
  | start => exact ⟨hempty, rfl⟩
  | call prior done ih =>
    obtain ⟨hd, hdir⟩ := step_denotes (prior.invariant h₀) done ih.1
    rw [replay, List.foldl_append, List.foldl_cons, List.foldl_nil, ← ih.2]
    exact ⟨ih.2 ▸ hd, hdir⟩

theorem Run.capacity_ne_one {g₀ : Graph} {h : List (Op × ZenitError)} (h₀ : Invariant g₀)
    (hone : g₀.vertexCapacity ≠ 1) (hr : Run g₀ h g) : g.vertexCapacity ≠ 1 := by
  induction hr with
  | start => exact hone
  | call prior done ih =>
    rcases step_capacity (prior.invariant h₀) done with hc | hc
    · rw [hc]
      exact ih
    · rw [hc]
      exact growCapacity_ne_one ih

/-- In every state of a run the invariant holds, the edge queries answer the replayed edges, and
the next call stays inside the arrays. -/
theorem graph_denotes_replayed_edges {handle directed : Bool} {ok : ArrayAllocs} {n : ℕ}
    {g₀ : Graph} {h : List (Op × ZenitError)} (hn : n = 0 ∨ 2 ≤ n)
    (hcreate : zenitGraphCreate handle ok n directed = .ok (some g₀)) (hr : Run g₀ h g)
    (hcap : g.vertexCapacity < 2 ^ 31) :
    WellFormed g ∧ (∀ x y, zenitGraphHasEdge g x y = true ↔ (x, y) ∈ replay directed h) ∧
      ∀ op, ∃ g' r, step g op = .ok (g', r) := by
  have h₀ := create_invariant hcreate
  obtain ⟨hcap₀, hdir₀, -, -, -, hremoved⟩ := create_cases hcreate
  have hempty : Denotes g₀ ∅ := by
    intro x y
    simp [zenitGraphHasEdge, isActive, hremoved]
  have hone : g₀.vertexCapacity ≠ 1 := by
    rw [hcap₀]
    split_ifs <;> omega
  have hd := (hr.denotes h₀ hempty).1
  rw [hdir₀] at hd
  have hi := hr.invariant h₀
  exact ⟨hi.wellFormed, hd, fun op => step_progress hi (hr.capacity_ne_one h₀ hone) hcap op⟩

/-- Two vertices and one edge of an undirected graph. -/
theorem undirected_edge_denoted : ∃ g,
    Run (emptyGraph 2 false) [(.addVertex ⟨true, true, true, true⟩, .ok),
      (.addVertex ⟨true, true, true, true⟩, .ok), (.addEdge true true 0 1, .ok)] g ∧
    WellFormed g ∧ zenitGraphHasEdge g 1 0 = true := by
  have hcreate : zenitGraphCreate true ⟨true, true, true, true⟩ 2 false =
      .ok (some (emptyGraph 2 false)) := rfl
  have hexec : exec [] (emptyGraph 2 false) [.addVertex ⟨true, true, true, true⟩,
      .addVertex ⟨true, true, true, true⟩, .addEdge true true 0 1] = .ok (_, _) := rfl
  have hrun := Run.start.exec hexec
  have h := graph_denotes_replayed_edges (Or.inr le_rfl) hcreate hrun (by decide)
  exact ⟨_, hrun, h.1, (h.2.1 1 0).mpr (by simp [replay, replayCall, orientations])⟩

end LibZenit.Graphs
