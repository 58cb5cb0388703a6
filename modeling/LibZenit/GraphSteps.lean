import LibZenit.GraphInvariant

/-!
# Removing vertices, adding and removing edges

The effect of each call on the lists, and that it keeps the invariant.
-/
namespace LibZenit.Graphs
open Blocks

variable {g g' : Graph} {r : ZenitError} {a b v w slot : ℕ}

/-! ## Removing a vertex -/

/-- The charge of `zenit_graph_remove_vertex` on the edge counter. -/
def removalCharge (g : Graph) (v : ℕ) : ℕ :=
  (neighbors g v).length + ((activeSlots g).sum fun u => charged g.directed v (neighbors g u))

/-- The effect of a successful `zenit_graph_remove_vertex`. -/
structure Dropped (v : ℕ) (g g' : Graph) : Prop where
  slot_lt : v < g.vertexCapacity
  wasActive : g.removed v = false
  capacity : g'.vertexCapacity = g.vertexCapacity
  directed : g'.directed = g.directed
  removed : g'.removed = Function.update g.removed v true
  rows : ∀ u < g.vertexCapacity, neighbors g' u =
    if u = v then [] else (neighbors g u).filter (· ≠ v)
  blocked : Blocked g'
  vertexCount : g'.vertexCount = g.vertexCount - 1
  counter : g'.edgeCount = subSize g.edgeCount (removalCharge g v)

theorem sum_charged (g : Graph) (v : ℕ) :
    (((List.range g.vertexCapacity).filter (!g.removed ·)).map
      fun u => charged g.directed v (neighbors g u)).sum =
      (activeSlots g).sum fun u => charged g.directed v (neighbors g u) := by
  have hnodup : ((List.range g.vertexCapacity).filter (!g.removed ·)).Nodup :=
    List.nodup_range.filter _
  rw [← List.sum_toFinset _ hnodup]
  congr 1
  ext u
  simp [activeSlots]

theorem neighbors_freeSlot (g : Graph) (v u : ℕ) :
    neighbors (freeSlot g v) u = if u = v then [] else neighbors g u := by
  by_cases h : u = v
  · simp [neighbors, freeSlot, h]
  · simp [neighbors, freeSlot, h]

theorem freeSlot_blocked (hb : Blocked g) (v : ℕ) : Blocked (freeSlot g v) := by
  intro u hu
  by_cases h : u = v
  · simp [freeSlot, h]
  · simpa [freeSlot, h] using hb u hu

theorem removeVertex_cases (hi : Invariant g) {x : ℤ}
    (h : zenitGraphRemoveVertex g x = (g', r)) :
    (r = .param ∧ g' = g ∧ isActive g x = false) ∨
      (r = .ok ∧ isActive g x = true ∧ Dropped x.toNat g g') := by
  unfold zenitGraphRemoveVertex at h
  by_cases hx : isActive g x = true
  · obtain ⟨hpos, hlt, hr⟩ := isActive_iff.mp hx
    obtain ⟨g₁, hg₁⟩ : ∃ g₁, g₁ = g.setEdgeCount (subSize g.edgeCount (g.counts x.toNat)) :=
      ⟨_, rfl⟩
    have hframe₁ : Frame g g₁ := hg₁ ▸ setEdgeCount_frame g _
    have hb₁ : Blocked g₁ := hg₁ ▸ setEdgeCount_blocked hi.blocked _
    have hrow₁ : ∀ u, neighbors g₁ u = neighbors g u := fun u => by
      rw [hg₁, neighbors_setEdgeCount]
    have he₁ : g₁.edgeCount = subSize g.edgeCount (g.counts x.toNat) := by
      rw [hg₁]
      rfl
    have hs := removeIncoming_swept hb₁ (by rw [he₁]; exact subSize_lt _ _) x.toNat
    simp only [hx, Bool.not_true, Bool.false_eq_true, if_false, ← hg₁, Prod.mk.injEq] at h
    obtain ⟨rfl, rfl⟩ := h
    have hcap : (removeIncoming g₁ x.toNat).vertexCapacity = g.vertexCapacity := by
      rw [hs.frame.vertexCapacity, hframe₁.vertexCapacity]
    refine Or.inr ⟨rfl, hx, hlt, hr, hcap, hs.frame.directed.trans hframe₁.directed, ?_,
      fun u hu => ?_, freeSlot_blocked hs.blocked _, ?_, ?_⟩
    · simp only [freeSlot, hs.frame.removed, hframe₁.removed]
    · have hrow := hs.rows u
      rw [hrow₁, hframe₁.removed, hframe₁.vertexCapacity] at hrow
      rw [neighbors_freeSlot, hrow]
      by_cases hr : g.removed u = false
      · simp [hu, hr]
      · simp [hi.tombstone u hu (by simpa using hr)]
    · simp only [freeSlot, hs.frame.vertexCount, hframe₁.vertexCount]
    · have hdir := hframe₁.directed
      have hcapeq := hframe₁.vertexCapacity
      have hrem := hframe₁.removed
      simp only [freeSlot, hs.counter, he₁, subSize_subSize, hdir, hcapeq, hrem, hrow₁]
      rw [sum_charged, removalCharge, length_neighbors hi.blocked hlt]
  · simp only [Bool.not_eq_true] at hx
    simp only [hx, Bool.not_false, if_true, Prod.mk.injEq] at h
    exact Or.inl ⟨h.2.symm, h.1.symm, hx⟩

theorem Dropped.invariant (hi : Invariant g) (h : Dropped v g g') : Invariant g' := by
  have hrow : ∀ u < g.vertexCapacity, ∀ w ∈ neighbors g' u,
      u ≠ v ∧ w ≠ v ∧ w ∈ neighbors g u := by
    intro u hu w hw
    rw [h.rows u hu] at hw
    split_ifs at hw with huv
    · simp at hw
    · obtain ⟨hw, hne⟩ := List.mem_filter.mp hw
      exact ⟨huv, by simpa using hne, hw⟩
  have hrem : ∀ u, g'.removed u = if u = v then true else g.removed u := by
    intro u
    rw [h.removed, Function.update_apply]
  have hset : activeSlots g' = (activeSlots g).erase v := by
    ext u
    simp only [activeSlots, h.capacity, Finset.mem_filter, Finset.mem_range, Finset.mem_erase,
      hrem]
    split_ifs with huv
    · simp [huv]
    · simp [huv]
  have hmem : v ∈ activeSlots g := by
    simp [activeSlots, h.slot_lt, h.wasActive]
  constructor
  · exact h.blocked
  · intro u hu
    rw [h.capacity] at hu
    rw [h.rows u hu]
    split_ifs
    · simp
    · exact (hi.nodup u hu).filter _
  · intro u hu w hw
    rw [h.capacity] at hu ⊢
    obtain ⟨-, hwv, hw⟩ := hrow u hu w hw
    rw [hrem, if_neg hwv]
    exact hi.active u hu w hw
  · intro u hu hr
    rw [h.capacity] at hu
    rw [hrem] at hr
    rw [h.rows u hu]
    split_ifs at hr ⊢ with huv
    · rfl
    · rw [hi.tombstone u hu hr, List.filter_nil]
  · intro hd u hu w hw
    rw [h.capacity] at hu
    obtain ⟨huv, hwv, hw⟩ := hrow u hu w hw
    rw [h.rows w (hi.active u hu w hw).1, if_neg hwv]
    have hback := hi.symmetric (h.directed ▸ hd) u hu w hw
    exact List.mem_filter.mpr ⟨hback, by simpa using huv⟩
  · rw [h.vertexCount, hset, Finset.card_erase_of_mem hmem, hi.vertexCount]
  · intro u hu hr
    rw [h.capacity] at hu
    rw [hrem] at hr
    split_ifs at hr
    exact hi.small u hu hr
  · rw [h.counter]
    exact subSize_lt _ _

/-! ## Adding an edge -/

/-- The effect of `zenit_graph_add_edge` on a pair that was no edge. -/
structure Linked (a b : ℕ) (g g' : Graph) : Prop where
  frame : Frame g g'
  blocked : Blocked g'
  rows : ∀ u, neighbors g' u =
    if u = a then neighbors g a ++ [b]
    else if g.directed = false ∧ u = b then neighbors g b ++ [a] else neighbors g u
  counter : g'.edgeCount = wrap (g.edgeCount + 1)

/-- Taking back the slot that was appended last. -/
theorem neighbors_retract {g₀ : Graph} (hb : Blocked g) (ha : a < g.vertexCapacity)
    (hrows : ∀ u, neighbors g u = if u = a then neighbors g₀ a ++ [b] else neighbors g₀ u) (u : ℕ) :
    neighbors { g with counts := Function.update g.counts a (g.counts a - 1) } u =
      neighbors g₀ u := by
  by_cases h : u = a
  · subst h
    have hrow := hrows u
    have hlen := length_neighbors hb ha
    rw [if_pos rfl] at hrow
    rw [hrow, List.length_append, List.length_singleton] at hlen
    have htake : (g.adj u).take (g.counts u - 1) = (neighbors g u).take (g.counts u - 1) := by
      rw [neighbors, List.take_take, min_eq_left (by omega)]
    rw [hrow, List.take_left' (by omega)] at htake
    rw [← htake]
    simp [neighbors]
  · have hrow := hrows u
    rw [if_neg h] at hrow
    rw [← hrow]
    simp [neighbors, h]

theorem subSize_wrap_succ {n : ℕ} (h : n < 2 ^ 64) : subSize (wrap (n + 1)) 1 = n := by
  simp only [subSize, wrap]
  omega

/-- The reverse edge is added, or the graph is as before the forward edge. -/
theorem addReverse_spec {g₀ : Graph} (hb : Blocked g) (ha : a < g.vertexCapacity)
    (hlt : b < g.vertexCapacity) (hab : a ≠ b) (hframe : Frame g₀ g)
    (hrows : ∀ u, neighbors g u = if u = a then neighbors g₀ a ++ [b] else neighbors g₀ u)
    (he : g₀.edgeCount < 2 ^ 64) (hcounter : g.edgeCount = wrap (g₀.edgeCount + 1))
    (hd : g₀.directed = false) (ok : Bool) :
    ∃ g' r, addReverse ok g a b = .ok (g', r) ∧
      ((r = .alloc ∧ SameRows g₀ g') ∨ (r = .ok ∧ Linked a b g₀ g')) := by
  obtain ⟨hsame, hroom⟩ := ensureRoom_spec hb hlt ok
  obtain ⟨p, hp⟩ : ∃ p, p = ensureRoom ok g b := ⟨_, rfl⟩
  simp only [addReverse, ← hp]
  rw [← hp] at hsame hroom
  have hcap := hsame.frame.vertexCapacity
  have hrows' : ∀ u, neighbors p.1 u =
      if u = a then neighbors g₀ a ++ [b] else neighbors g₀ u := fun u => by
    rw [hsame.rows u, hrows u]
  rcases hroom with hr | ⟨hr, hroom⟩
  · refine ⟨_, _, if_pos (by rw [hr]; simp), Or.inl ⟨hr, ?_, ?_, ?_, ?_⟩⟩
    · exact (hframe.trans hsame.frame).trans ⟨rfl, rfl, rfl, rfl⟩
    · intro u hu
      obtain ⟨hlen, hle, hone⟩ := hsame.blocked u hu
      by_cases h : u = a
      · subst h
        simpa [Graph.setEdgeCount] using ⟨hlen, by omega, hone⟩
      · simpa [Graph.setEdgeCount, h] using ⟨hlen, hle, hone⟩
    · intro u
      rw [neighbors_setEdgeCount]
      exact neighbors_retract hsame.blocked (by omega) hrows' u
    · simp only [Graph.setEdgeCount, hsame.counter, hcounter]
      exact subSize_wrap_succ he
  · obtain ⟨g', happ, hframe', hb', hedges, -, hrow⟩ :=
      append_spec hsame.blocked (by omega : b < p.1.vertexCapacity) hroom a
    refine ⟨g', .ok, ?_, Or.inr ⟨rfl, (hframe.trans hsame.frame).trans hframe', hb', ?_, ?_⟩⟩
    · rw [if_neg (by rw [hr]; simp), happ]
      rfl
    · intro u
      simp only [hrow u, hrows', hd, true_and]
      by_cases hua : u = a
      · simp [hua, hab]
      · by_cases hub : u = b
        · subst hub
          simp [hua]
        · simp [hua, hub]
    · rw [hedges, hsame.counter, hcounter]

theorem addEdge_spec (hi : Invariant g) (okFrom okTo : Bool) (x y : ℤ) :
    ∃ g' r, zenitGraphAddEdge okFrom okTo g x y = .ok (g', r) ∧
      ((r = .param ∧ g' = g ∧ ¬(isActive g x = true ∧ isActive g y = true)) ∨
       (r = .ok ∧ g' = g ∧ zenitGraphHasEdge g x y = true) ∨
       (r = .alloc ∧ SameRows g g') ∨
       (r = .ok ∧ isActive g x = true ∧ isActive g y = true ∧
          y.toNat ∉ neighbors g x.toNat ∧ Linked x.toNat y.toNat g g')) := by
  unfold zenitGraphAddEdge
  by_cases hx : isActive g x = true
  swap
  · exact ⟨g, .param, by simp [hx], Or.inl ⟨rfl, rfl, fun h => hx h.1⟩⟩
  by_cases hy : isActive g y = true
  swap
  · exact ⟨g, .param, by simp [hy], Or.inl ⟨rfl, rfl, fun h => hy h.2⟩⟩
  by_cases hedge : zenitGraphHasEdge g x y = true
  · exact ⟨g, .ok, by simp [hx, hy, hedge], Or.inr (Or.inl ⟨rfl, rfl, hedge⟩)⟩
  obtain ⟨hxpos, hxlt, -⟩ := isActive_iff.mp hx
  obtain ⟨hypos, hylt, -⟩ := isActive_iff.mp hy
  have hnot : y.toNat ∉ neighbors g x.toNat := fun h => hedge (hasEdge_iff.mpr ⟨hx, hy, h⟩)
  obtain ⟨hsame, hroom⟩ := ensureRoom_spec hi.blocked hxlt okFrom
  obtain ⟨p, hp⟩ : ∃ p, p = ensureRoom okFrom g x.toNat := ⟨_, rfl⟩
  rw [if_neg (by simp [hx]), if_neg (by simp [hy]), if_neg hedge, ← hp]
  rw [← hp] at hsame hroom
  rcases hroom with hr | ⟨hr, hroom⟩
  · exact ⟨p.1, .alloc, by rw [if_pos (by rw [hr]; simp), ← hr],
      Or.inr (Or.inr (Or.inl ⟨rfl, hsame⟩))⟩
  have hcap := hsame.frame.vertexCapacity
  obtain ⟨g₁, happ, hframe, hb₁, hedges, -, hrow⟩ :=
    append_spec hsame.blocked (by omega : x.toNat < p.1.vertexCapacity) hroom y.toNat
  simp only [hsame.rows] at hrow
  rw [if_neg (by rw [hr]; simp), happ]
  simp only [Except.bind]
  have hframe₁ : Frame g g₁ := hsame.frame.trans hframe
  obtain ⟨g₂, hg₂⟩ : ∃ g₂, g₂ = g₁.setEdgeCount (wrap (g₁.edgeCount + 1)) := ⟨_, rfl⟩
  rw [← hg₂]
  have hframe₂ : Frame g g₂ := hframe₁.trans (hg₂ ▸ setEdgeCount_frame g₁ _)
  have hb₂ : Blocked g₂ := hg₂ ▸ setEdgeCount_blocked hb₁ _
  have hrow₂ : ∀ u, neighbors g₂ u =
      if u = x.toNat then neighbors g x.toNat ++ [y.toNat] else neighbors g u := fun u => by
    rw [hg₂, neighbors_setEdgeCount, hrow u]
  have hcounter : g₂.edgeCount = wrap (g.edgeCount + 1) := by
    rw [hg₂, ← hsame.counter, ← hedges]
    rfl
  by_cases hboth : (!g₂.directed && x ≠ y) = true
  · simp only [Bool.and_eq_true, Bool.not_eq_true', decide_eq_true_eq] at hboth
    obtain ⟨hd, hne⟩ := hboth
    rw [hframe₂.directed] at hd
    have hcap₂ := hframe₂.vertexCapacity
    obtain ⟨g', r, heq, hres⟩ := addReverse_spec hb₂ (by omega) (by omega)
      (by omega : x.toNat ≠ y.toNat) hframe₂ hrow₂ hi.counter hcounter hd okTo
    refine ⟨g', r, ?_, ?_⟩
    · rw [if_pos (by simp [hframe₂.directed, hd, hne]), heq]
    · rcases hres with ⟨hr, hs⟩ | ⟨hr, hl⟩
      · exact Or.inr (Or.inr (Or.inl ⟨hr, hs⟩))
      · exact Or.inr (Or.inr (Or.inr ⟨hr, hx, hy, hnot, hl⟩))
  · refine ⟨g₂, .ok, by rw [if_neg hboth],
      Or.inr (Or.inr (Or.inr ⟨rfl, hx, hy, hnot, hframe₂, hb₂, fun u => ?_, hcounter⟩))⟩
    rw [hrow₂ u]
    by_cases hu : u = x.toNat
    · simp [hu]
    · have hno : ¬(g.directed = false ∧ u = y.toNat) := by
        rintro ⟨hd, rfl⟩
        apply hboth
        rw [hframe₂.directed, hd]
        simpa using fun he => hu (by rw [he])
      simp [hu, hno]

/-- Lists that change inside a frame: what has to be checked of the new ones. -/
theorem Invariant.relist (hi : Invariant g) (hf : Frame g g') (hb : Blocked g')
    (hnodup : ∀ u < g.vertexCapacity, (neighbors g' u).Nodup)
    (hactive : ∀ u < g.vertexCapacity, ∀ w ∈ neighbors g' u,
      g.removed u = false ∧ w < g.vertexCapacity ∧ g.removed w = false)
    (hsymm : g.directed = false → ∀ u < g.vertexCapacity, ∀ w ∈ neighbors g' u,
      u ∈ neighbors g' w)
    (hcounter : g'.edgeCount < 2 ^ 64) : Invariant g' := by
  have hset : activeSlots g' = activeSlots g := by
    simp only [activeSlots, hf.vertexCapacity, hf.removed]
  constructor
  · exact hb
  · simpa only [hf.vertexCapacity] using hnodup
  · intro u hu w hw
    rw [hf.vertexCapacity] at hu ⊢
    rw [hf.removed]
    exact (hactive u hu w hw).2
  · intro u hu hr
    rw [hf.vertexCapacity] at hu
    rw [hf.removed] at hr
    rw [List.eq_nil_iff_forall_not_mem]
    intro w hw
    rw [(hactive u hu w hw).1] at hr
    cases hr
  · simpa only [hf.vertexCapacity, hf.directed] using hsymm
  · rw [hf.vertexCount, hset, hi.vertexCount]
  · simpa only [hf.vertexCapacity, hf.removed] using hi.small
  · exact hcounter

theorem Invariant.active_of_mem (hi : Invariant g) (hv : v < g.vertexCapacity)
    (hw : w ∈ neighbors g v) : g.removed v = false := by
  by_contra hr
  rw [hi.tombstone v hv (by simpa using hr)] at hw
  simp at hw

theorem SameRows.invariant (hi : Invariant g) (h : SameRows g g') : Invariant g' := by
  refine hi.relist h.frame h.blocked ?_ ?_ ?_ (by rw [h.counter]; exact hi.counter)
  · simpa only [h.rows] using hi.nodup
  · intro u hu w hw
    rw [h.rows u] at hw
    exact ⟨hi.active_of_mem hu hw, hi.active u hu w hw⟩
  · simpa only [h.rows] using hi.symmetric

theorem Linked.mem_iff (h : Linked a b g g') {u w : ℕ} : w ∈ neighbors g' u ↔
    w ∈ neighbors g u ∨ (u = a ∧ w = b) ∨ (g.directed = false ∧ u = b ∧ w = a) := by
  rw [h.rows u]
  by_cases hua : u = a
  · subst hua
    simp only [if_pos, List.mem_append, List.mem_singleton, true_and]
    constructor
    · rintro (hw | hw)
      · exact Or.inl hw
      · exact Or.inr (Or.inl hw)
    · rintro (hw | hw | ⟨-, hub, hwa⟩)
      · exact Or.inl hw
      · exact Or.inr hw
      · exact Or.inr (hwa.trans hub)
  · by_cases hub : g.directed = false ∧ u = b
    · obtain ⟨hd, rfl⟩ := hub
      simp [hua, hd]
    · simp only [hua, hub, if_false, false_and, false_or]
      constructor
      · exact Or.inl
      · rintro (hw | ⟨hd, hu, -⟩)
        · exact hw
        · exact absurd ⟨hd, hu⟩ hub

theorem Linked.invariant (hi : Invariant g) (ha : a < g.vertexCapacity)
    (hra : g.removed a = false) (hb : b < g.vertexCapacity) (hrb : g.removed b = false)
    (hnot : b ∉ neighbors g a) (h : Linked a b g g') : Invariant g' := by
  refine hi.relist h.frame h.blocked (fun u hu => ?_) (fun u hu w hw => ?_)
    (fun hd u hu w hw => ?_) ?_
  · rw [h.rows u]
    split_ifs with hua hub
    · rw [← List.concat_eq_append]
      exact (hi.nodup a ha).concat hnot
    · have hback : a ∉ neighbors g b := fun hm => hnot (hi.symmetric hub.1 b hb a hm)
      rw [← List.concat_eq_append]
      exact (hi.nodup b hb).concat hback
    · exact hi.nodup u hu
  · rcases h.mem_iff.mp hw with hw | ⟨rfl, rfl⟩ | ⟨-, rfl, rfl⟩
    · exact ⟨hi.active_of_mem hu hw, hi.active u hu w hw⟩
    · exact ⟨hra, hb, hrb⟩
    · exact ⟨hrb, ha, hra⟩
  · rw [h.mem_iff]
    rcases h.mem_iff.mp hw with hw | ⟨rfl, rfl⟩ | ⟨-, rfl, rfl⟩
    · exact Or.inl (hi.symmetric hd u hu w hw)
    · exact Or.inr (Or.inr ⟨hd, rfl, rfl⟩)
    · exact Or.inr (Or.inl ⟨rfl, rfl⟩)
  · rw [h.counter]
    exact Nat.mod_lt _ (by norm_num)

/-! ## Removing an edge -/

/-- The effect of `zenit_graph_remove_edge` on an edge. -/
structure Unlinked (a b : ℕ) (g g' : Graph) : Prop where
  frame : Frame g g'
  blocked : Blocked g'
  rows : ∀ u, neighbors g' u =
    if u = a then (neighbors g a).erase b
    else if g.directed = false ∧ u = b then (neighbors g b).erase a else neighbors g u
  counter : g'.edgeCount = subSize g.edgeCount 1

/-- Erasing the slot that the scan found. -/
theorem eraseSlot_found (hb : Blocked g) (ha : a < g.vertexCapacity) {i : ℕ}
    (h : (neighbors g a).idxOf? b = some i) :
    Blocked (eraseSlot g a i) ∧ ∀ u, neighbors (eraseSlot g a i) u =
      if u = a then (neighbors g a).erase b else neighbors g u := by
  have hlt : i < g.counts a := by
    obtain ⟨hlt, -⟩ := List.idxOf?_eq_some_iff.mp h
    rwa [length_neighbors hb ha] at hlt
  have herase : (neighbors g a).erase b = (neighbors g a).eraseIdx i := by
    rw [List.erase_eq_eraseIdx, h]
  exact ⟨eraseSlot_blocked hb ha hlt, fun u => by rw [herase, neighbors_eraseSlot hb ha hlt u]⟩

theorem removeEdge_cases (hi : Invariant g) {x y : ℤ} (h : zenitGraphRemoveEdge g x y = (g', r)) :
    (r = .param ∧ g' = g ∧ ¬(isActive g x = true ∧ isActive g y = true)) ∨
      (r = .ok ∧ isActive g x = true ∧ isActive g y = true ∧
        ((y.toNat ∉ neighbors g x.toNat ∧ g' = g) ∨
          (y.toNat ∈ neighbors g x.toNat ∧ Unlinked x.toNat y.toNat g g'))) := by
  unfold zenitGraphRemoveEdge at h
  by_cases hx : isActive g x = true
  swap
  · simp only [hx, Bool.not_false, if_true, Prod.mk.injEq] at h
    exact Or.inl ⟨h.2.symm, h.1.symm, fun hc => hx hc.1⟩
  by_cases hy : isActive g y = true
  swap
  · simp only [hx, hy, Bool.not_true, Bool.not_false, Bool.false_eq_true, if_true, if_false,
      Prod.mk.injEq] at h
    exact Or.inl ⟨h.2.symm, h.1.symm, fun hc => hy hc.2⟩
  obtain ⟨hxpos, hxlt, -⟩ := isActive_iff.mp hx
  obtain ⟨hypos, hylt, -⟩ := isActive_iff.mp hy
  rw [if_neg (by simp [hx]), if_neg (by simp [hy])] at h
  right
  cases hidx : (neighbors g x.toNat).idxOf? y.toNat with
  | none =>
    rw [hidx] at h
    cases h
    exact ⟨rfl, hx, hy, Or.inl ⟨List.idxOf?_eq_none_iff.mp hidx, rfl⟩⟩
  | some i =>
    have hmem : y.toNat ∈ neighbors g x.toNat := by
      rw [← List.isSome_idxOf?, hidx]
      rfl
    obtain ⟨hb₁, hrow₁⟩ := eraseSlot_found hi.blocked hxlt hidx
    rw [hidx] at h
    simp only at h
    obtain ⟨g₁, hg₁⟩ : ∃ g₁, g₁ =
        (eraseSlot g x.toNat i).setEdgeCount (subSize (eraseSlot g x.toNat i).edgeCount 1) :=
      ⟨_, rfl⟩
    rw [← hg₁] at h
    have hframe : Frame g g₁ := by
      rw [hg₁]
      exact (eraseSlot_frame g _ _).trans (setEdgeCount_frame _ _)
    have hcounter : g₁.edgeCount = subSize g.edgeCount 1 := by
      rw [hg₁]
      rfl
    have hb₂ : Blocked g₁ := hg₁ ▸ setEdgeCount_blocked hb₁ _
    have hrow₂ : ∀ u, neighbors g₁ u =
        if u = x.toNat then (neighbors g x.toNat).erase y.toNat else neighbors g u := by
      intro u
      rw [hg₁, neighbors_setEdgeCount, hrow₁ u]
    have hcap := hframe.vertexCapacity
    by_cases hboth : (!g₁.directed && x ≠ y) = true
    · rw [if_pos hboth] at h
      simp only [Bool.and_eq_true, Bool.not_eq_true', decide_eq_true_eq] at hboth
      obtain ⟨hd, hne⟩ := hboth
      rw [hframe.directed] at hd
      have hxy : y.toNat ≠ x.toNat := by omega
      have hback : x.toNat ∈ neighbors g₁ y.toNat := by
        rw [hrow₂, if_neg hxy]
        exact hi.symmetric hd _ hxlt _ hmem
      cases hidx' : (neighbors g₁ y.toNat).idxOf? x.toNat with
      | none => exact absurd hback (List.idxOf?_eq_none_iff.mp hidx')
      | some k =>
        rw [hidx'] at h
        cases h
        obtain ⟨hb₃, hrow₃⟩ := eraseSlot_found hb₂ (by omega) hidx'
        refine ⟨rfl, hx, hy, Or.inr ⟨hmem, hframe.trans (eraseSlot_frame g₁ _ _), hb₃,
          fun u => ?_, hcounter⟩⟩
        rw [hrow₃ u]
        by_cases hux : u = x.toNat
        · subst hux
          simp [hxy.symm, hrow₂]
        · by_cases huy : u = y.toNat
          · subst huy
            simp [hxy, hrow₂, hd]
          · simp [hux, huy, hrow₂]
    · rw [if_neg hboth] at h
      cases h
      refine ⟨rfl, hx, hy, Or.inr ⟨hmem, hframe, hb₂, fun u => ?_, hcounter⟩⟩
      rw [hrow₂ u]
      by_cases hux : u = x.toNat
      · simp [hux]
      · have hno : ¬(g.directed = false ∧ u = y.toNat) := by
          rintro ⟨hd, rfl⟩
          apply hboth
          rw [hframe.directed, hd]
          simpa using fun he => hux (by rw [he])
        simp [hux, hno]

theorem Unlinked.mem_iff (hi : Invariant g) (ha : a < g.vertexCapacity) (hb : b < g.vertexCapacity)
    (h : Unlinked a b g g') {u w : ℕ} : w ∈ neighbors g' u ↔
    w ∈ neighbors g u ∧ ¬(u = a ∧ w = b) ∧ ¬(g.directed = false ∧ u = b ∧ w = a) := by
  rw [h.rows u]
  by_cases hua : u = a
  · subst hua
    rw [if_pos rfl, (hi.nodup u ha).mem_erase_iff]
    constructor
    · rintro ⟨hne, hw⟩
      exact ⟨hw, fun hc => hne hc.2, fun hc => hne (hc.2.2.trans hc.2.1)⟩
    · rintro ⟨hw, hne, -⟩
      exact ⟨fun hc => hne ⟨rfl, hc⟩, hw⟩
  · by_cases hub : g.directed = false ∧ u = b
    · obtain ⟨hd, rfl⟩ := hub
      rw [if_neg hua, if_pos ⟨hd, rfl⟩, (hi.nodup u hb).mem_erase_iff]
      simp [hua, hd, and_comm]
    · rw [if_neg hua, if_neg hub]
      constructor
      · exact fun hw => ⟨hw, fun hc => hua hc.1, fun hc => hub ⟨hc.1, hc.2.1⟩⟩
      · exact And.left

theorem Unlinked.invariant (hi : Invariant g) (ha : a < g.vertexCapacity)
    (hb : b < g.vertexCapacity) (h : Unlinked a b g g') : Invariant g' := by
  refine hi.relist h.frame h.blocked (fun u hu => ?_) (fun u hu w hw => ?_)
    (fun hd u hu w hw => ?_) (by rw [h.counter]; exact subSize_lt _ _)
  · rw [h.rows u]
    split_ifs
    · exact (hi.nodup a ha).erase b
    · exact (hi.nodup b hb).erase a
    · exact hi.nodup u hu
  · obtain ⟨hw, -⟩ := (h.mem_iff hi ha hb).mp hw
    exact ⟨hi.active_of_mem hu hw, hi.active u hu w hw⟩
  · obtain ⟨hw, hab, hba⟩ := (h.mem_iff hi ha hb).mp hw
    refine (h.mem_iff hi ha hb).mpr ⟨hi.symmetric hd u hu w hw, ?_, ?_⟩
    · rintro ⟨rfl, rfl⟩
      exact hba ⟨hd, rfl, rfl⟩
    · rintro ⟨-, rfl, rfl⟩
      exact hab ⟨rfl, rfl⟩

/-! ## Clearing -/

theorem clear_invariant (g : Graph) : Invariant (zenitGraphClear g) := by
  have hnil : ∀ v < g.vertexCapacity, neighbors (zenitGraphClear g) v = [] := by
    intro v hv
    simp [neighbors, zenitGraphClear, hv]
  have hrem : ∀ v < g.vertexCapacity, (zenitGraphClear g).removed v = true := by
    intro v hv
    simp [zenitGraphClear, hv]
  constructor
  · intro v hv
    have hv' : v < g.vertexCapacity := hv
    simp [zenitGraphClear, hv']
  · intro v hv
    rw [hnil v hv]
    exact List.nodup_nil
  · intro v hv w hw
    rw [hnil v hv] at hw
    simp at hw
  · exact fun v hv _ => hnil v hv
  · intro _ v hv w hw
    rw [hnil v hv] at hw
    simp at hw
  · have hempty : activeSlots (zenitGraphClear g) = ∅ := by
      apply Finset.filter_false_of_mem
      intro v hv
      rw [hrem v (Finset.mem_range.mp hv)]
      simp
    rw [hempty]
    rfl
  · intro v hv hr
    rw [hrem v hv] at hr
    cases hr
  · exact Nat.two_pow_pos 64

/-! ## Any call -/

theorem addEdge_result (hi : Invariant g) {okFrom okTo : Bool} {x y : ℤ}
    (h : zenitGraphAddEdge okFrom okTo g x y = .ok (g', r)) :
    (r = .param ∧ g' = g ∧ ¬(isActive g x = true ∧ isActive g y = true)) ∨
      (r = .ok ∧ g' = g ∧ zenitGraphHasEdge g x y = true) ∨
      (r = .alloc ∧ SameRows g g') ∨
      (r = .ok ∧ isActive g x = true ∧ isActive g y = true ∧
        y.toNat ∉ neighbors g x.toNat ∧ Linked x.toNat y.toNat g g') := by
  obtain ⟨g₁, r₁, heq, hres⟩ := addEdge_spec hi okFrom okTo x y
  rw [h] at heq
  cases heq
  exact hres

theorem step_invariant (hi : Invariant g) {op : Op} (h : step g op = .ok (g', r)) :
    Invariant g' := by
  cases op with
  | addVertex ok =>
    obtain ⟨-, rfl⟩ | ⟨-, slot, hs⟩ := addVertex_cases hi h
    · exact hi
    · exact hs.invariant hi
  | removeVertex x =>
    obtain ⟨-, rfl, -⟩ | ⟨-, -, hd⟩ := removeVertex_cases hi (Except.ok.inj h)
    · exact hi
    · exact hd.invariant hi
  | addEdge okFrom okTo x y =>
    obtain ⟨-, rfl, -⟩ | ⟨-, rfl, -⟩ | ⟨-, hs⟩ | ⟨-, hx, hy, hnot, hl⟩ := addEdge_result hi h
    · exact hi
    · exact hi
    · exact hs.invariant hi
    · obtain ⟨-, hxlt, hxr⟩ := isActive_iff.mp hx
      obtain ⟨-, hylt, hyr⟩ := isActive_iff.mp hy
      exact hl.invariant hi hxlt hxr hylt hyr hnot
  | removeEdge x y =>
    obtain ⟨-, rfl, -⟩ | ⟨-, hx, hy, ⟨-, rfl⟩ | ⟨-, hu⟩⟩ := removeEdge_cases hi (Except.ok.inj h)
    · exact hi
    · exact hi
    · exact hu.invariant hi (isActive_iff.mp hx).2.1 (isActive_iff.mp hy).2.1
  | clear =>
    cases h
    exact clear_invariant g

theorem Run.invariant {g₀ : Graph} {h : List (Op × ZenitError)} (h₀ : Invariant g₀)
    (hr : Run g₀ h g) : Invariant g := by
  induction hr with
  | start => exact h₀
  | call _ done ih => exact step_invariant ih done

end LibZenit.Graphs
