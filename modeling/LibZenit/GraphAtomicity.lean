import LibZenit.ReallocTransparency
import LibZenit.GraphTraversal

/-!
# A refused allocation leaves the graph as it was

A call that runs out of memory may leave arrays and one list enlarged. Nothing that the interface
shows depends on that, now or later: a larger list only spares a later call a request.
-/
namespace LibZenit.Graphs
open Blocks Refinement

variable {g g' g₁ g₁' : Graph} {r r' : ZenitError} {a b v : ℕ} {x y : ℤ}

/-- What the interface shows of a graph. -/
structure SameView (g g' : Graph) : Prop where
  vertexCapacity : g'.vertexCapacity = g.vertexCapacity
  vertexCount : g'.vertexCount = g.vertexCount
  edgeCount : g'.edgeCount = g.edgeCount
  directed : g'.directed = g.directed
  removed : ∀ v < g.vertexCapacity, g'.removed v = g.removed v
  rows : ∀ v < g.vertexCapacity, neighbors g' v = neighbors g v
  counts : ∀ v < g.vertexCapacity, g'.counts v = g.counts v

/-- The same view, where a list may have been enlarged once more in `g'`. -/
structure Enlarged (g g' : Graph) : Prop where
  view : SameView g g'
  blocked : Blocked g
  blocked' : Blocked g'
  room : ∀ v < g.vertexCapacity, g'.capacities v = g.capacities v ∨
    g'.capacities v = growCapacity (g.capacities v)

theorem SameView.refl (g : Graph) : SameView g g :=
  ⟨rfl, rfl, rfl, rfl, fun _ _ => rfl, fun _ _ => rfl, fun _ _ => rfl⟩

theorem SameView.symm (h : SameView g g') : SameView g' g where
  vertexCapacity := h.vertexCapacity.symm
  vertexCount := h.vertexCount.symm
  edgeCount := h.edgeCount.symm
  directed := h.directed.symm
  removed v hv := (h.removed v (h.vertexCapacity ▸ hv)).symm
  rows v hv := (h.rows v (h.vertexCapacity ▸ hv)).symm
  counts v hv := (h.counts v (h.vertexCapacity ▸ hv)).symm

theorem SameView.trans (h : SameView g g') (h' : SameView g' g₁) : SameView g g₁ where
  vertexCapacity := h'.vertexCapacity.trans h.vertexCapacity
  vertexCount := h'.vertexCount.trans h.vertexCount
  edgeCount := h'.edgeCount.trans h.edgeCount
  directed := h'.directed.trans h.directed
  removed v hv := (h'.removed v (h.vertexCapacity.symm ▸ hv)).trans (h.removed v hv)
  rows v hv := (h'.rows v (h.vertexCapacity.symm ▸ hv)).trans (h.rows v hv)
  counts v hv := (h'.counts v (h.vertexCapacity.symm ▸ hv)).trans (h.counts v hv)

theorem SameRows.sameView (hb : Blocked g) (h : SameRows g g') : SameView g g' where
  vertexCapacity := h.frame.vertexCapacity
  vertexCount := h.frame.vertexCount
  edgeCount := h.counter
  directed := h.frame.directed
  removed v _ := by rw [h.frame.removed]
  rows v _ := h.rows v
  counts v hv := by
    rw [← length_neighbors hb hv, ← h.rows v,
      length_neighbors h.blocked (h.frame.vertexCapacity ▸ hv)]

theorem SameView.isActive (h : SameView g g') (x : ℤ) : isActive g' x = isActive g x := by
  simp only [Graphs.isActive, h.vertexCapacity]
  by_cases hlt : x.toNat < g.vertexCapacity
  · rw [h.removed _ hlt]
  · simp [hlt]

theorem SameView.hasEdge (h : SameView g g') (x y : ℤ) :
    zenitGraphHasEdge g' x y = zenitGraphHasEdge g x y := by
  simp only [zenitGraphHasEdge, h.isActive]
  by_cases hx : Graphs.isActive g x = true
  · rw [h.rows _ (isActive_iff.mp hx).2.1]
  · simp [hx]

theorem SameView.activeSlots (h : SameView g g') : activeSlots g' = activeSlots g := by
  unfold Graphs.activeSlots
  rw [h.vertexCapacity]
  exact Finset.filter_congr fun v hv => by rw [h.removed v (Finset.mem_range.mp hv)]

/-- The lengths of the lists follow from the lists. -/
theorem Enlarged.of_rows (hb : Blocked g) (hb' : Blocked g')
    (hcap : g'.vertexCapacity = g.vertexCapacity) (hcount : g'.vertexCount = g.vertexCount)
    (hedges : g'.edgeCount = g.edgeCount) (hdir : g'.directed = g.directed)
    (hremoved : ∀ v < g.vertexCapacity, g'.removed v = g.removed v)
    (hrows : ∀ v < g.vertexCapacity, neighbors g' v = neighbors g v)
    (hroom : ∀ v < g.vertexCapacity, g'.capacities v = g.capacities v ∨
      g'.capacities v = growCapacity (g.capacities v)) : Enlarged g g' := by
  refine ⟨⟨hcap, hcount, hedges, hdir, hremoved, hrows, fun v hv => ?_⟩, hb, hb', hroom⟩
  rw [← length_neighbors hb hv, ← hrows v hv, length_neighbors hb' (hcap ▸ hv)]

/-- A change of the lists alone that leaves their sizes as they are. -/
theorem Enlarged.of_frames (h : Enlarged g g') (hf : Frame g g₁) (hf' : Frame g' g₁')
    (hb : Blocked g₁) (hb' : Blocked g₁') (hedges : g₁'.edgeCount = g₁.edgeCount)
    (hrows : ∀ v < g.vertexCapacity, neighbors g₁' v = neighbors g₁ v)
    (hcaps : g₁.capacities = g.capacities) (hcaps' : g₁'.capacities = g'.capacities) :
    Enlarged g₁ g₁' := by
  refine Enlarged.of_rows hb hb' ?_ ?_ hedges ?_ (fun v hv => ?_) (fun v hv => ?_) fun v hv => ?_
  · rw [hf'.vertexCapacity, hf.vertexCapacity, h.view.vertexCapacity]
  · rw [hf'.vertexCount, hf.vertexCount, h.view.vertexCount]
  · rw [hf'.directed, hf.directed, h.view.directed]
  · rw [hf.vertexCapacity] at hv
    rw [hf'.removed, hf.removed, h.view.removed v hv]
  · exact hrows v (hf.vertexCapacity ▸ hv)
  · rw [hf.vertexCapacity] at hv
    rw [hcaps, hcaps']
    exact h.room v hv

/-- The same reply, and graphs that differ at most in their room. -/
abbrev SameReply : Exec (Graph × ZenitError) → Exec (Graph × ZenitError) → Prop :=
  SameOutcome Enlarged

/-! ## Adding a vertex -/

theorem SameView.findTombstone (h : SameView g g') : findTombstone g' = findTombstone g := by
  unfold Graphs.findTombstone
  have hfind : (List.range g'.vertexCapacity).find? g'.removed =
      (List.range g.vertexCapacity).find? g.removed := by
    rw [h.vertexCapacity]
    exact List.find?_congr fun v hv => h.removed v (List.mem_range.mp hv)
  rw [hfind]

theorem Enlarged.activate (h : Enlarged g g') (slot : ℤ) :
    Alike Enlarged (activate g slot) (activate g' slot) := by
  unfold Graphs.activate
  by_cases hslot : 0 ≤ slot ∧ slot.toNat < g.vertexCapacity
  · rw [if_pos hslot, if_pos (by rwa [h.view.vertexCapacity])]
    refine Enlarged.of_rows h.blocked h.blocked' h.view.vertexCapacity ?_ h.view.edgeCount
      h.view.directed (fun v hv => ?_) h.view.rows h.room
    · simp only [h.view.vertexCount]
    · simp only [Function.update_apply, h.view.removed v hv]
  · rw [if_neg hslot, if_neg (by rwa [h.view.vertexCapacity])]
    rfl

theorem Enlarged.growVertexArrays (h : Enlarged g g') (ok : ArrayAllocs) :
    SameReply (growVertexArrays ok g) (growVertexArrays ok g') := by
  unfold Graphs.growVertexArrays
  simp only [h.view.vertexCapacity]
  split_ifs
  · rfl
  · exact ⟨h, rfl⟩
  · have hlow : ∀ v, ¬(g.vertexCapacity ≤ v ∧ v < growCapacity g.vertexCapacity) →
        v < growCapacity g.vertexCapacity → v < g.vertexCapacity := fun v hv hlt => by omega
    refine ⟨Enlarged.of_rows ?_ ?_ rfl h.view.vertexCount h.view.edgeCount h.view.directed
      (fun v hv => ?_) (fun v hv => ?_) (fun v hv => ?_), rfl⟩
    · intro v hv
      simp only
      split_ifs with hnew
      · simp
      · exact h.blocked v (hlow v hnew hv)
    · intro v hv
      simp only
      split_ifs with hnew
      · simp
      · exact h.blocked' v (h.view.vertexCapacity.symm ▸ hlow v hnew hv)
    · simp only
      split_ifs with hnew
      · rfl
      · exact h.view.removed v (hlow v hnew hv)
    · simp only [neighbors]
      split_ifs with hnew
      · rfl
      · exact h.view.rows v (hlow v hnew hv)
    · simp only
      split_ifs with hnew
      · exact .inl rfl
      · exact h.room v (hlow v hnew hv)

theorem Enlarged.addVertex (h : Enlarged g g') (ok : ArrayAllocs) :
    SameReply (zenitGraphAddVertex ok g) (zenitGraphAddVertex ok g') := by
  unfold zenitGraphAddVertex
  simp only [h.view.findTombstone]
  split_ifs
  · refine (h.growVertexArrays ok).bind fun p p' hp => ?_
    obtain ⟨hsim, hcode⟩ := hp
    rw [← hcode]
    split_ifs
    · exact ⟨hsim, hcode⟩
    · rw [hsim.view.vertexCount]
      generalize toInt p.1.vertexCount = slot
      exact (hsim.activate slot).map fun _ _ hab => ⟨hab, rfl⟩
  · exact (h.activate _).map fun _ _ hab => ⟨hab, rfl⟩

/-! ## Removing -/

theorem capacities_removeVertexFromAdjFrom (i vertex fuel j : ℕ) (g : Graph) :
    (removeVertexFromAdjFrom i vertex fuel j g).capacities = g.capacities := by
  induction fuel generalizing j g with
  | zero => rfl
  | succ fuel ih =>
    rw [removeVertexFromAdjFrom]
    split_ifs
    · rw [ih]
      unfold eraseOccurrence
      simp only
      split_ifs <;> rfl
    · exact ih (j + 1) g
    · rfl

theorem capacities_removeIncoming (g : Graph) (vertex : ℕ) :
    (removeIncoming g vertex).capacities = g.capacities := by
  unfold removeIncoming
  generalize List.range g.vertexCapacity = slots
  induction slots generalizing g with
  | nil => rfl
  | cons i slots ih =>
    rw [List.foldl_cons, ih]
    split_ifs
    · rfl
    · exact capacities_removeVertexFromAdjFrom i vertex _ 0 g

theorem capacities_removeVertex (hx : isActive g x = true) :
    (zenitGraphRemoveVertex g x).1.capacities = Function.update g.capacities x.toNat 0 := by
  simp only [zenitGraphRemoveVertex, hx, Bool.not_true, Bool.false_eq_true, if_false, freeSlot,
    capacities_removeIncoming]
  rfl

theorem SameView.removalCharge (h : SameView g g') (hv : v < g.vertexCapacity) :
    removalCharge g' v = removalCharge g v := by
  unfold Graphs.removalCharge
  rw [h.rows v hv, h.activeSlots, h.directed]
  congr 1
  refine Finset.sum_congr rfl fun u hu => ?_
  rw [h.rows u (Finset.mem_range.mp (Finset.mem_filter.mp hu).1)]

theorem Enlarged.removeVertex (hi : Invariant g) (hi' : Invariant g') (h : Enlarged g g')
    (hcall : zenitGraphRemoveVertex g x = (g₁, r))
    (hcall' : zenitGraphRemoveVertex g' x = (g₁', r')) : Enlarged g₁ g₁' ∧ r = r' := by
  have hactive := h.view.isActive x
  obtain ⟨hr, hg, hx⟩ | ⟨hr, hx, hd⟩ := removeVertex_cases hi hcall
  · obtain ⟨hr', hg', -⟩ | ⟨-, hx', -⟩ := removeVertex_cases hi' hcall'
    · rw [hr, hr', hg, hg']
      exact ⟨h, rfl⟩
    · rw [hactive, hx] at hx'
      cases hx'
  · obtain ⟨-, -, hx'⟩ | ⟨hr', hx', hd'⟩ := removeVertex_cases hi' hcall'
    · rw [hactive, hx] at hx'
      cases hx'
    · have hcaps := capacities_removeVertex hx
      have hcaps' := capacities_removeVertex hx'
      rw [hcall] at hcaps
      rw [hcall'] at hcaps'
      refine ⟨Enlarged.of_rows hd.blocked hd'.blocked ?_ ?_ ?_ ?_ (fun v hv => ?_) (fun v hv => ?_)
        fun v hv => ?_, hr.trans hr'.symm⟩
      · rw [hd'.capacity, hd.capacity, h.view.vertexCapacity]
      · rw [hd'.vertexCount, hd.vertexCount, h.view.vertexCount]
      · rw [hd'.counter, hd.counter, h.view.edgeCount, h.view.removalCharge hd.slot_lt]
      · rw [hd'.directed, hd.directed, h.view.directed]
      · rw [hd.capacity] at hv
        rw [hd'.removed, hd.removed, Function.update_apply, Function.update_apply,
          h.view.removed v hv]
      · rw [hd.capacity] at hv
        rw [hd'.rows v (h.view.vertexCapacity.symm ▸ hv), hd.rows v hv, h.view.rows v hv]
      · rw [hd.capacity] at hv
        rw [hcaps, hcaps', Function.update_apply, Function.update_apply]
        split_ifs
        · exact .inl rfl
        · exact h.room v hv

theorem capacities_removeEdge (g : Graph) (x y : ℤ) :
    (zenitGraphRemoveEdge g x y).1.capacities = g.capacities := by
  unfold zenitGraphRemoveEdge
  split_ifs
  · rfl
  · rfl
  · cases (neighbors g x.toNat).idxOf? y.toNat with
    | none => rfl
    | some i =>
      simp only
      split_ifs
      · split <;> rfl
      · rfl

theorem Enlarged.removeEdge (hi : Invariant g) (hi' : Invariant g') (h : Enlarged g g')
    (hcall : zenitGraphRemoveEdge g x y = (g₁, r))
    (hcall' : zenitGraphRemoveEdge g' x y = (g₁', r')) : Enlarged g₁ g₁' ∧ r = r' := by
  have hcaps := capacities_removeEdge g x y
  have hcaps' := capacities_removeEdge g' x y
  rw [hcall] at hcaps
  rw [hcall'] at hcaps'
  have hx := h.view.isActive x
  have hy := h.view.isActive y
  obtain ⟨hr, hg, hxy⟩ | ⟨hr, hxa, hya, hcases⟩ := removeEdge_cases hi hcall
  · obtain ⟨hr', hg', -⟩ | ⟨-, hxa', hya', -⟩ := removeEdge_cases hi' hcall'
    · rw [hr, hr', hg, hg']
      exact ⟨h, rfl⟩
    · exact absurd ⟨hx ▸ hxa', hy ▸ hya'⟩ hxy
  · have hxlt := (isActive_iff.mp hxa).2.1
    have hylt := (isActive_iff.mp hya).2.1
    obtain ⟨-, -, hxy'⟩ | ⟨hr', -, -, hcases'⟩ := removeEdge_cases hi' hcall'
    · exact absurd ⟨hx.trans hxa, hy.trans hya⟩ hxy'
    · refine ⟨?_, hr.trans hr'.symm⟩
      rw [h.view.rows _ hxlt] at hcases'
      obtain ⟨hnot, hg⟩ | ⟨hmem, hu⟩ := hcases
      · obtain ⟨-, hg'⟩ | ⟨hmem', -⟩ := hcases'
        · rw [hg, hg']
          exact h
        · exact absurd hmem' hnot
      · obtain ⟨hnot', -⟩ | ⟨-, hu'⟩ := hcases'
        · exact absurd hmem hnot'
        · refine h.of_frames hu.frame hu'.frame hu.blocked hu'.blocked ?_ (fun v hv => ?_) hcaps
            hcaps'
          · rw [hu'.counter, hu.counter, h.view.edgeCount]
          · rw [hu'.rows, hu.rows, h.view.rows v hv, h.view.rows _ hxlt, h.view.rows _ hylt,
              h.view.directed]

theorem Enlarged.clear (h : Enlarged g g') : Enlarged (zenitGraphClear g) (zenitGraphClear g') := by
  have hcap := h.view.vertexCapacity
  refine Enlarged.of_rows (clear_invariant g).blocked (clear_invariant g').blocked hcap rfl rfl
    h.view.directed (fun v hv => ?_) (fun v hv => ?_) fun v hv => .inl ?_
  · have hv₁ : v < g.vertexCapacity := hv
    simp [zenitGraphClear, hv₁, hcap]
  · have hv₁ : v < g.vertexCapacity := hv
    simp [neighbors, zenitGraphClear, hv₁, hcap]
  · have hv₁ : v < g.vertexCapacity := hv
    simp [zenitGraphClear, hv₁, hcap]

/-! ## Adding an edge -/

/-- Growing a list that the other graph has enlarged already. -/
theorem Enlarged.catchUp (h : Enlarged g g') (hv : v < g.vertexCapacity)
    (hroom : g'.capacities v = growCapacity (g.capacities v)) :
    Enlarged (growAdjList true g v).1 g' := by
  have hsame := growAdjList_rows h.blocked hv true
  refine ⟨(hsame.sameView h.blocked).symm.trans h.view, hsame.blocked, h.blocked', fun w hw => ?_⟩
  by_cases hwv : w = v
  · subst hwv
    exact .inl (by simp [growAdjList, hroom])
  · simpa [growAdjList, hwv] using h.room w hw

/-- Growing the same list in both. -/
theorem Enlarged.growBoth (h : Enlarged g g') (hv : v < g.vertexCapacity)
    (hroom : g'.capacities v = g.capacities v) :
    Enlarged (growAdjList true g v).1 (growAdjList true g' v).1 := by
  have hsame := growAdjList_rows h.blocked hv true
  have hsame' := growAdjList_rows h.blocked' (h.view.vertexCapacity.symm ▸ hv) true
  refine ⟨(hsame.sameView h.blocked).symm.trans (h.view.trans (hsame'.sameView h.blocked')),
    hsame.blocked, hsame'.blocked, fun w hw => ?_⟩
  by_cases hwv : w = v
  · subst hwv
    exact .inl (by simp [growAdjList, hroom])
  · simpa [growAdjList, hwv] using h.room w hw

/-- A request that only the smaller graph has to make is granted. -/
theorem Enlarged.ensureRoom (h : Enlarged g g') (hv : v < g.vertexCapacity) (ok' : Bool) :
    ∃ ok, (ok' = true → ok = true) ∧
      Enlarged (ensureRoom ok g v).1 (ensureRoom ok' g' v).1 ∧
      (ensureRoom ok g v).2 = (ensureRoom ok' g' v).2 := by
  have hcounts := h.view.counts v hv
  unfold Graphs.ensureRoom
  rcases h.room v hv with hroom | hroom
  · refine ⟨ok', id, ?_⟩
    rw [hcounts, hroom]
    split_ifs
    · cases ok' with
      | false => exact ⟨h, rfl⟩
      | true => exact ⟨h.growBoth hv hroom, rfl⟩
    · exact ⟨h, rfl⟩
  · obtain ⟨-, hle, hone⟩ := h.blocked v hv
    have hgrow := growCapacity_lt hone
    rw [hcounts, hroom, if_neg (by omega : ¬g.counts v = growCapacity (g.capacities v))]
    by_cases hfull : g.counts v = g.capacities v
    · refine ⟨true, fun _ => rfl, ?_⟩
      rw [if_pos hfull]
      exact ⟨h.catchUp hv hroom, rfl⟩
    · refine ⟨ok', id, ?_⟩
      rw [if_neg hfull]
      exact ⟨h, rfl⟩

theorem Enlarged.setEdgeCount (h : Enlarged g g') (n : ℕ) :
    Enlarged (g.setEdgeCount n) (g'.setEdgeCount n) :=
  ⟨⟨h.view.vertexCapacity, h.view.vertexCount, rfl, h.view.directed, h.view.removed, h.view.rows,
    h.view.counts⟩, h.blocked, h.blocked', h.room⟩

theorem capacities_append (h : append g a b = .ok g') : g'.capacities = g.capacities := by
  unfold append at h
  split_ifs at h
  rw [← Except.ok.inj h]

theorem Enlarged.append (h : Enlarged g g') (ha : a < g.vertexCapacity)
    (hroom : g.counts a < g.capacities a) (b : ℕ) :
    ∃ g₁ g₁', append g a b = .ok g₁ ∧ append g' a b = .ok g₁' ∧ Enlarged g₁ g₁' ∧ Frame g g₁ := by
  have hcap := h.view.vertexCapacity
  have ha' : a < g'.vertexCapacity := hcap.symm ▸ ha
  have hroom' : g'.counts a < g'.capacities a := by
    have hgrow := growCapacity_le (g.capacities a)
    have hcounts := h.view.counts a ha
    rcases h.room a ha with hr | hr <;> omega
  obtain ⟨g₁, happ, hframe, hb₁, hedges, -, hrows⟩ := append_spec h.blocked ha hroom b
  obtain ⟨g₁', happ', hframe', hb₁', hedges', -, hrows'⟩ := append_spec h.blocked' ha' hroom' b
  refine ⟨g₁, g₁', happ, happ', h.of_frames hframe hframe' hb₁ hb₁' ?_ (fun v hv => ?_)
    (capacities_append happ) (capacities_append happ'), hframe⟩
  · rw [hedges', hedges, h.view.edgeCount]
  · rw [hrows', hrows, h.view.rows v hv, h.view.rows a ha]

/-- `counts[a]--` -/
def retract (g : Graph) (a : ℕ) : Graph :=
  { g with counts := Function.update g.counts a (g.counts a - 1) }

theorem neighbors_retract_eq (g : Graph) (a u : ℕ) : neighbors (retract g a) u =
    if u = a then (neighbors g a).take (g.counts a - 1) else neighbors g u := by
  by_cases hua : u = a
  · subst hua
    simp only [neighbors, retract, Function.update_self, if_pos]
    rw [List.take_take, min_eq_left (Nat.sub_le _ _)]
  · simp [neighbors, retract, hua]

theorem retract_blocked (hb : Blocked g) (a : ℕ) : Blocked (retract g a) := by
  intro u hu
  obtain ⟨hlen, hle, hone⟩ := hb u hu
  by_cases hua : u = a
  · subst hua
    simpa [retract] using ⟨hlen, by omega, hone⟩
  · simpa [retract, hua] using ⟨hlen, hle, hone⟩

theorem Enlarged.retract (h : Enlarged g g') (ha : a < g.vertexCapacity) :
    Enlarged (retract g a) (retract g' a) := by
  refine Enlarged.of_rows (retract_blocked h.blocked a) (retract_blocked h.blocked' a)
    h.view.vertexCapacity h.view.vertexCount h.view.edgeCount h.view.directed h.view.removed
    (fun v hv => ?_) h.room
  rw [neighbors_retract_eq, neighbors_retract_eq, h.view.rows v hv, h.view.rows a ha,
    h.view.counts a ha]

theorem Enlarged.addReverse (h : Enlarged g g') (ha : a < g.vertexCapacity)
    (hb : b < g.vertexCapacity) (ok' : Bool) : ∃ ok, (ok' = true → ok = true) ∧
      SameReply (addReverse ok g a b) (addReverse ok' g' a b) := by
  obtain ⟨ok, hok, hsim, hcode⟩ := h.ensureRoom hb ok'
  obtain ⟨hsame, hroom⟩ := ensureRoom_spec h.blocked hb ok
  have hcap := hsame.frame.vertexCapacity
  refine ⟨ok, hok, ?_⟩
  unfold Graphs.addReverse
  simp only [← hcode]
  rcases hroom with hrefused | ⟨hgranted, hlt⟩
  · rw [if_pos (by simp [hrefused]), if_pos (by simp [hrefused])]
    have hback := hsim.retract (hcap.symm ▸ ha)
    refine ⟨?_, rfl⟩
    have hedges := hsim.view.edgeCount
    have hfinal := hback.setEdgeCount (subSize (Graphs.ensureRoom ok g b).1.edgeCount 1)
    simp only [Graphs.retract] at hfinal
    rwa [hedges]
  · rw [if_neg (by simp [hgranted]), if_neg (by simp [hgranted])]
    obtain ⟨g₁, g₁', happ, happ', hsim₁, -⟩ := hsim.append (hcap.symm ▸ hb) hlt a
    rw [happ, happ']
    exact ⟨hsim₁, rfl⟩

theorem Enlarged.addEdge (h : Enlarged g g') (okFrom' okTo' : Bool) (x y : ℤ) :
    ∃ okFrom okTo, (okFrom' = true → okFrom = true) ∧ (okTo' = true → okTo = true) ∧
      SameReply (zenitGraphAddEdge okFrom okTo g x y) (zenitGraphAddEdge okFrom' okTo' g' x y) := by
  unfold zenitGraphAddEdge
  simp only [h.view.isActive, h.view.hasEdge]
  by_cases hx : isActive g x = true
  swap
  · exact ⟨okFrom', okTo', id, id, by simpa [hx] using ⟨h, rfl⟩⟩
  by_cases hy : isActive g y = true
  swap
  · exact ⟨okFrom', okTo', id, id, by simpa [hx, hy] using ⟨h, rfl⟩⟩
  by_cases hedge : zenitGraphHasEdge g x y = true
  · exact ⟨okFrom', okTo', id, id, by simpa [hx, hy, hedge] using ⟨h, rfl⟩⟩
  have hxlt := (isActive_iff.mp hx).2.1
  have hylt := (isActive_iff.mp hy).2.1
  obtain ⟨okFrom, hfrom, hsim, hcode⟩ := h.ensureRoom hxlt okFrom'
  obtain ⟨hsame, hroom⟩ := ensureRoom_spec h.blocked hxlt okFrom
  have hcap := hsame.frame.vertexCapacity
  simp only [hx, hy, hedge, Bool.not_true, Bool.false_eq_true, if_false]
  rcases hroom with hrefused | ⟨hgranted, hlt⟩
  · refine ⟨okFrom, okTo', hfrom, id, ?_⟩
    rw [if_pos (by simp [hrefused]), if_pos (by simp [← hcode, hrefused])]
    exact ⟨hsim, hcode⟩
  · obtain ⟨g₁, g₁', happ, happ', hsim₁, hframe⟩ := hsim.append (hcap.symm ▸ hxlt) hlt y.toNat
    have hcap₁ := hframe.vertexCapacity.trans hcap
    have hcounted := hsim₁.setEdgeCount (wrap (g₁.edgeCount + 1))
    obtain ⟨okTo, hto, hreverse⟩ := hcounted.addReverse (a := x.toNat) (b := y.toNat)
      (hcap₁.symm ▸ hxlt) (hcap₁.symm ▸ hylt) okTo'
    refine ⟨okFrom, okTo, hfrom, hto, ?_⟩
    rw [if_neg (by simp [hgranted]), if_neg (by simp [← hcode, hgranted]), happ, happ']
    simp only [Except.bind, hsim₁.view.edgeCount]
    by_cases hboth : (!(g₁.setEdgeCount (wrap (g₁.edgeCount + 1))).directed &&
        decide (x ≠ y)) = true
    · rw [if_pos hboth, if_pos (by rwa [hcounted.view.directed])]
      exact hreverse
    · rw [if_neg hboth, if_neg (by rwa [hcounted.view.directed])]
      exact ⟨hcounted, rfl⟩

/-! ## Traversals -/

theorem Enlarged.readSlot_adj (h : Enlarged g g') (hv : v < g.vertexCapacity) {i : ℕ}
    (hi : i < g.counts v) : readSlot (g'.adj v) i = readSlot (g.adj v) i := by
  have hi' : i < g'.counts v := by rwa [h.view.counts v hv]
  unfold readSlot
  rw [getElem?_adj hi, getElem?_adj hi', h.view.rows v hv]

theorem Enlarged.discoverAt (h : Enlarged g g') (hv : v < g.vertexCapacity) {positions : List ℕ}
    (hpos : ∀ i ∈ positions, i < g.counts v) (s : Worklist) :
    discoverAt g' v positions s = discoverAt g v positions s := by
  induction positions generalizing s with
  | nil => rfl
  | cons i positions ih =>
    have hrest : ∀ i ∈ positions, i < g.counts v := fun k hk => hpos k (by simp [hk])
    rw [Graphs.discoverAt, Graphs.discoverAt, discover, discover,
      h.readSlot_adj hv (hpos i (by simp))]
    exact congrArg _ (funext fun s => ih hrest s)

/-- The positions are those of the list, in either order. -/
theorem Enlarged.discoverAll (h : Enlarged g g') (v : ℕ) (s : Worklist) :
    discoverAll g' v (List.range (g'.counts v)) s = discoverAll g v (List.range (g.counts v)) s ∧
      discoverAll g' v (List.range (g'.counts v)).reverse s =
        discoverAll g v (List.range (g.counts v)).reverse s := by
  unfold Graphs.discoverAll
  rw [h.view.vertexCapacity]
  split_ifs with hv
  · rw [h.view.counts v hv]
    exact ⟨h.discoverAt hv (fun i hi => List.mem_range.mp hi) s,
      h.discoverAt hv (fun i hi => List.mem_range.mp (List.mem_reverse.mp hi)) s⟩
  · exact ⟨rfl, rfl⟩

theorem Enlarged.bfsLoop {C : Type} (h : Enlarged g g') (visit : VisitFn C) (fuel head : ℕ)
    (s : Worklist) (ctx : C) :
    bfsLoop g' visit fuel head s ctx = bfsLoop g visit fuel head s ctx := by
  induction fuel generalizing head s ctx with
  | zero => rfl
  | succ fuel ih => simp only [Graphs.bfsLoop, (h.discoverAll _ _).1, ih]

theorem Enlarged.dfsLoop {C : Type} (h : Enlarged g g') (visit : VisitFn C) (fuel : ℕ)
    (s : Worklist) (ctx : C) : dfsLoop g' visit fuel s ctx = dfsLoop g visit fuel s ctx := by
  induction fuel generalizing s ctx with
  | zero => rfl
  | succ fuel ih => simp only [Graphs.dfsLoop, (h.discoverAll _ _).2, ih]

/-- Everything that can be asked of a graph has the same answer. -/
structure SameAnswers (g g' : Graph) : Prop extends SameView g g' where
  active : ∀ x, Graphs.isActive g' x = Graphs.isActive g x
  edges : ∀ x y, zenitGraphHasEdge g' x y = zenitGraphHasEdge g x y
  bfs : ∀ (C : Type) (okVisited okQueue : Bool) (fresh : ℕ → ℕ) (start : ℤ) (visit : VisitFn C)
    (ctx : C), zenitGraphBfs okVisited okQueue fresh g' start visit ctx =
      zenitGraphBfs okVisited okQueue fresh g start visit ctx
  dfs : ∀ (C : Type) (okVisited okStack : Bool) (fresh : ℕ → ℕ) (start : ℤ) (visit : VisitFn C)
    (ctx : C), zenitGraphDfs okVisited okStack fresh g' start visit ctx =
      zenitGraphDfs okVisited okStack fresh g start visit ctx

theorem Enlarged.sameAnswers (h : Enlarged g g') : SameAnswers g g' where
  toSameView := h.view
  active := h.view.isActive
  edges := h.view.hasEdge
  bfs C okVisited okQueue fresh start visit ctx := by
    simp only [zenitGraphBfs, traverse, h.view.isActive, h.view.vertexCapacity, h.bfsLoop]
  dfs C okVisited okStack fresh start visit ctx := by
    simp only [zenitGraphDfs, traverse, h.view.isActive, h.view.vertexCapacity, h.dfsLoop]

/-! ## Refused allocations -/

theorem ensureRoom_capacities (ok : Bool) (g : Graph) (a v : ℕ) :
    (ensureRoom ok g a).1.capacities v = g.capacities v ∨
      (ensureRoom ok g a).1.capacities v = growCapacity (g.capacities v) := by
  unfold ensureRoom growAdjList
  split_ifs
  · by_cases hva : v = a
    · subst hva
      exact .inr (by simp)
    · exact .inl (by simp [hva])
  · exact .inl rfl
  · exact .inl rfl

theorem ensureRoom_refused {ok : Bool} (h : (ensureRoom ok g a).2 ≠ .ok) :
    (ensureRoom ok g a).1 = g := by
  unfold ensureRoom growAdjList at h ⊢
  split_ifs at h ⊢ with hfull hok
  · exact absurd rfl h
  · rfl
  · rfl

/-- A reverse list that was not enlarged. -/
theorem capacities_addReverse {ok : Bool} (h : addReverse ok g a b = .ok (g', .alloc)) :
    g'.capacities = g.capacities := by
  simp only [addReverse] at h
  split_ifs at h with hrefused
  · obtain ⟨hg, -⟩ := Prod.mk.inj (Except.ok.inj h)
    rw [← hg, Graph.setEdgeCount, ensureRoom_refused hrefused]
  · obtain ⟨-, hcode⟩ := map_ok_cases h
    cases hcode

/-- At most the list of the first vertex has been enlarged. -/
theorem capacities_addEdge {okFrom okTo : Bool}
    (h : zenitGraphAddEdge okFrom okTo g x y = .ok (g', .alloc)) (v : ℕ) :
    g'.capacities v = g.capacities v ∨ g'.capacities v = growCapacity (g.capacities v) := by
  simp only [zenitGraphAddEdge] at h
  split_ifs at h with hx hy hedge hrefused
  · cases h
  · cases h
  · cases h
  · obtain ⟨hg, -⟩ := Prod.mk.inj (Except.ok.inj h)
    exact hg ▸ ensureRoom_capacities okFrom g x.toNat v
  · obtain ⟨g₁, happ, hrest⟩ := bind_eq_ok h
    have hcaps : g'.capacities = g₁.capacities := by
      split_ifs at hrest
      · rw [capacities_addReverse hrest, Graph.setEdgeCount]
      · cases hrest
    rw [hcaps, capacities_append happ]
    exact ensureRoom_capacities okFrom g x.toNat v

theorem step_alloc {op : Op} (hi : Invariant g) (h : step g op = .ok (g', .alloc)) :
    Enlarged g g' := by
  cases op with
  | addVertex ok =>
    obtain ⟨-, rfl⟩ | ⟨hr, -⟩ := addVertex_cases hi h
    · exact ⟨.refl g', hi.blocked, hi.blocked, fun _ _ => .inl rfl⟩
    · cases hr
  | removeVertex x =>
    obtain ⟨hr, -⟩ | ⟨hr, -⟩ := removeVertex_cases hi (Except.ok.inj h)
    · cases hr
    · cases hr
  | addEdge okFrom okTo x y =>
    obtain ⟨hr, -⟩ | ⟨hr, -⟩ | ⟨-, hsame⟩ | ⟨hr, -⟩ := addEdge_result hi h
    · cases hr
    · cases hr
    · exact ⟨hsame.sameView hi.blocked, hi.blocked, hsame.blocked, fun v _ =>
        capacities_addEdge h v⟩
    · cases hr
  | removeEdge x y =>
    obtain ⟨hr, -⟩ | ⟨hr, -⟩ := removeEdge_cases hi (Except.ok.inj h)
    · cases hr
    · cases hr
  | clear => cases h

/-! ## Runs -/

/-- The same call, in which lists that could not grow may do so. -/
inductive Eased : Op → Op → Prop
  | same (op : Op) : Eased op op
  | addEdge {okFrom okTo okFrom' okTo' : Bool} (hfrom : okFrom = true → okFrom' = true)
      (hto : okTo = true → okTo' = true) (a b : ℤ) :
      Eased (.addEdge okFrom okTo a b) (.addEdge okFrom' okTo' a b)

/-- No list is refused its growth. -/
def ListsGrow : Op → Prop
  | .addEdge okFrom okTo _ _ => okFrom = true ∧ okTo = true
  | _ => True

theorem Eased.eq_of_listsGrow {op op' : Op} (h : Eased op op') (hgrow : ListsGrow op) :
    op' = op := by
  cases h with
  | same => rfl
  | addEdge hfrom hto a b => rw [hgrow.1, hgrow.2, hfrom hgrow.1, hto hgrow.2]

theorem eq_of_listsGrow {ops ops' : List Op} (h : List.Forall₂ Eased ops ops')
    (hgrow : ∀ op ∈ ops, ListsGrow op) : ops' = ops := by
  induction h with
  | nil => rfl
  | cons hop _ ih =>
    rw [hop.eq_of_listsGrow (hgrow _ (by simp)), ih fun op hmem => hgrow op (by simp [hmem])]

theorem Enlarged.step (hi : Invariant g) (hi' : Invariant g') (h : Enlarged g g') (op' : Op) :
    ∃ op, Eased op' op ∧ SameReply (step g op) (step g' op') := by
  cases op' with
  | addVertex ok => exact ⟨_, .same _, h.addVertex ok⟩
  | removeVertex x => exact ⟨_, .same _, h.removeVertex hi hi' rfl rfl⟩
  | addEdge okFrom' okTo' x y =>
    obtain ⟨okFrom, okTo, hfrom, hto, hsame⟩ := h.addEdge okFrom' okTo' x y
    exact ⟨_, .addEdge hfrom hto x y, hsame⟩
  | removeEdge x y => exact ⟨_, .same _, h.removeEdge hi hi' rfl rfl⟩
  | clear => exact ⟨_, .same _, h.clear, rfl⟩

/-- A graph in memory, in a state that calls lead to. -/
structure Consistent (s : Stored) : Prop where
  invariant : Invariant s.graph
  covered : Covered s

variable {hasRealloc : Bool} {s s' t t' : Stored}

theorem Consistent.step {op : Op} (h : Consistent s)
    (hdone : stepBy hasRealloc s op = .ok (s', r)) : Consistent s' := by
  rw [stepBy_eq h.invariant h.covered] at hdone
  rw [← stepBy_eq h.invariant h.covered false] at hdone
  obtain ⟨hi, hcov⟩ := h.covered.step h.invariant hdone
  exact ⟨hi, hcov⟩

theorem Consistent.run {calls : List Op} {replies : List ZenitError} (h : Consistent s)
    (hrun : run (stepBy hasRealloc) s calls = .ok (s', replies)) : Consistent s' := by
  induction calls generalizing s replies with
  | nil =>
    cases hrun
    exact h
  | cons op calls ih =>
    obtain ⟨p, hdone, hrest⟩ := bind_eq_ok hrun
    obtain ⟨q, hq, heq⟩ := map_eq_ok hrest
    cases heq
    exact ih (h.step hdone) hq

/-- Calls on sound graphs have the outcomes of the calls on the graphs alone. -/
theorem Consistent.sameOutcome {rel : Graph → Graph → Prop} {op op' : Op} (hs : Consistent s)
    (ht : Consistent t) (h : SameOutcome rel (Graphs.step s.graph op) (Graphs.step t.graph op')) :
    SameOutcome (fun s t => Consistent s ∧ Consistent t ∧ rel s.graph t.graph)
      (stepBy hasRealloc s op) (stepBy hasRealloc t op') := by
  have hstep := stepBy_eq hs.invariant hs.covered hasRealloc op
  have hstep' := stepBy_eq ht.invariant ht.covered hasRealloc op'
  obtain ⟨e, hp, hq⟩ | ⟨p, q, hp, hq, hrel, hcode⟩ := h.cases
  · rw [hstep, hstep', hp, hq]
    exact (rfl : e = e)
  · rw [hp] at hstep
    rw [hq] at hstep'
    rw [hstep, hstep']
    exact ⟨⟨hs.step hstep, ht.step hstep', hrel⟩, hcode⟩

/-- A run on an enlarged graph is a run on the other, in which some requests may be granted. -/
theorem Consistent.run_enlarged (hs : Consistent s) (ht : Consistent t)
    (h : Enlarged s.graph t.graph) (calls : List Op) : ∃ calls', List.Forall₂ Eased calls calls' ∧ ∀ k,
      SameOutcome (fun s t => Consistent s ∧ Consistent t ∧ Enlarged s.graph t.graph)
        (Refinement.run (stepBy hasRealloc) s (calls'.take k))
        (Refinement.run (stepBy hasRealloc) t (calls.take k)) := by
  refine run_eased Eased.same (fun s t op' h => ?_) ⟨hs, ht, h⟩
  obtain ⟨op, heased, hsame⟩ := h.2.2.step h.1.invariant h.2.1.invariant op'
  exact ⟨op, heased, h.1.sameOutcome h.2.1 hsame⟩

/-- The sizes of the vertex arrays make no difference. -/
theorem Consistent.run_same (hs : Consistent s) (ht : Consistent t) (h : t.graph = s.graph)
    (calls : List Op) :
    SameOutcome (fun s t => Consistent s ∧ Consistent t ∧ t.graph = s.graph)
      (Refinement.run (stepBy hasRealloc) s calls)
      (Refinement.run (stepBy hasRealloc) t calls) := by
  have hstep : ∀ s t op, (Consistent s ∧ Consistent t ∧ t.graph = s.graph) →
      ∃ op', op = op' ∧ SameOutcome (fun s t => Consistent s ∧ Consistent t ∧ t.graph = s.graph)
        (stepBy hasRealloc s op') (stepBy hasRealloc t op) := by
    rintro s t op ⟨hs, ht, heq⟩
    have hsame : SameOutcome (fun g g' => g' = g) (Graphs.step s.graph op)
        (Graphs.step t.graph op) := by
      rw [heq]
      exact .refl (fun _ => ⟨rfl, rfl⟩) _
    exact ⟨op, rfl, hs.sameOutcome ht hsame⟩
  obtain ⟨calls', heq, hruns⟩ := run_eased (fun _ => rfl) hstep ⟨hs, ht, h⟩
  obtain rfl : calls = calls' := List.forall₂_eq_eq_eq ▸ heq
  have hall := hruns calls.length
  rwa [List.take_length] at hall

/-- Behind a refused allocation every later run goes as it would have gone without the call. Where
that run had to enlarge a list that is enlarged already, this succeeds. -/
theorem refused_growth_atomic {handle directed : Bool} {ok : ArrayAllocs} {n : ℕ} {g₀ : Graph}
    (hg : zenitGraphCreate handle ok n directed = .ok (some g₀)) (hasRealloc : Bool)
    {calls : List Op} {s s' : Stored} {replies : List ZenitError}
    (hrun : run (stepBy hasRealloc) (stored g₀) calls = .ok (s, replies)) {op : Op}
    (hop : stepBy hasRealloc s op = .ok (s', .alloc)) :
    SameAnswers s.graph s'.graph ∧ activeSlots s'.graph = activeSlots s.graph ∧
      (∀ later, ∃ later', List.Forall₂ Eased later later' ∧
        ((∀ op ∈ later, ListsGrow op) → later' = later) ∧
        ∀ k, SameOutcome (fun t t' => SameAnswers t.graph t'.graph)
          (run (stepBy hasRealloc) s (later'.take k))
          (run (stepBy hasRealloc) s' (later.take k))) ∧
      ((∃ ok, op = .addVertex ok) → ∀ later,
        SameOutcome (fun t t' => t'.graph = t.graph) (run (stepBy hasRealloc) s later)
          (run (stepBy hasRealloc) s' later)) := by
  have hs : Consistent s := Consistent.run ⟨create_invariant hg, stored_covered g₀⟩ hrun
  have hs' := hs.step hop
  have hplain := hop
  rw [stepBy_eq hs.invariant hs.covered] at hplain
  obtain ⟨⟨g', r⟩, hdone, heq⟩ := map_eq_ok hplain
  cases heq
  have hlarge := step_alloc hs.invariant hdone
  refine ⟨hlarge.sameAnswers, hlarge.view.activeSlots, fun later => ?_, ?_⟩
  · obtain ⟨later', heased, hruns⟩ := hs.run_enlarged hs' hlarge later
    exact ⟨later', heased, eq_of_listsGrow heased, fun k => (hruns k).mono fun p q h =>
      ⟨h.1.2.2.sameAnswers, h.2⟩⟩
  · rintro ⟨ok, rfl⟩ later
    obtain ⟨-, hsame⟩ | ⟨hr, -⟩ := addVertex_cases hs.invariant hdone
    · exact (hs.run_same hs' hsame later).mono fun p q h => ⟨h.1.2.2, h.2⟩
    · cases hr

/-- The list of vertex 0 has grown when that of vertex 1 cannot. -/
theorem refused_reverse_growth : ∃ g s s',
    zenitGraphCreate true ⟨true, true, true, true⟩ 2 false = .ok (some g) ∧
    run (stepBy true) (stored g)
      [.addVertex ⟨true, true, true, true⟩, .addVertex ⟨true, true, true, true⟩] =
        .ok (s, [.ok, .ok]) ∧
    stepBy true s (.addEdge true false 0 1) = .ok (s', .alloc) ∧
    SameAnswers s.graph s'.graph ∧ s.graph.capacities 0 = 0 ∧ s'.graph.capacities 0 = 8 := by
  have hcreate : zenitGraphCreate true ⟨true, true, true, true⟩ 2 false =
      .ok (some (emptyGraph 2 false)) := rfl
  have hrun : run (stepBy true) (stored (emptyGraph 2 false))
      [.addVertex ⟨true, true, true, true⟩, .addVertex ⟨true, true, true, true⟩] =
        .ok (_, _) := rfl
  have hop := refused_growth_atomic hcreate true hrun
    (rfl : stepBy true _ (.addEdge true false 0 1) = .ok (_, .alloc))
  exact ⟨_, _, _, hcreate, hrun, rfl, hop.1, rfl, rfl⟩

end LibZenit.Graphs
