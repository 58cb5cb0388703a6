import LibZenit.GraphModel

/-!
# What the operations do to the adjacency lists

Each lemma gives the slots in use after an operation from those before it. Everything else that
an operation on one list keeps is collected in `Frame`.
-/
namespace LibZenit.Graphs
open Blocks

variable {g g' : Graph} {a b i j v vertex : ℕ}

/-- The block of every vertex has the recorded size, which is never one slot, and its slots in
use fit into it. -/
def Blocked (g : Graph) : Prop :=
  ∀ v < g.vertexCapacity, (g.adj v).length = g.capacities v ∧ g.counts v ≤ g.capacities v ∧
    g.capacities v ≠ 1

/-- `g'` differs from `g` in its lists and its edge counter only. -/
structure Frame (g g' : Graph) : Prop where
  vertexCapacity : g'.vertexCapacity = g.vertexCapacity
  vertexCount : g'.vertexCount = g.vertexCount
  directed : g'.directed = g.directed
  removed : g'.removed = g.removed

theorem Frame.refl (g : Graph) : Frame g g := ⟨rfl, rfl, rfl, rfl⟩

theorem Frame.trans {g₁ g₂ g₃ : Graph} (h : Frame g₁ g₂) (h' : Frame g₂ g₃) : Frame g₁ g₃ :=
  ⟨h'.vertexCapacity.trans h.vertexCapacity, h'.vertexCount.trans h.vertexCount,
    h'.directed.trans h.directed, h'.removed.trans h.removed⟩

theorem Frame.isActive (h : Frame g g') (vertex : ℤ) : isActive g' vertex = isActive g vertex := by
  simp only [Graphs.isActive, h.vertexCapacity, h.removed]

theorem length_neighbors (hb : Blocked g) (hv : v < g.vertexCapacity) :
    (neighbors g v).length = g.counts v := by
  have h := hb v hv
  rw [neighbors, List.length_take, min_eq_left (by omega)]

theorem subSize_lt (m n : ℕ) : subSize m n < 2 ^ 64 := Nat.mod_lt _ (by norm_num)

theorem subSize_subSize (m n k : ℕ) : subSize (subSize m n) k = subSize m (n + k) := by
  simp only [subSize, wrap]
  omega

@[simp] theorem neighbors_setEdgeCount (g : Graph) (n v : ℕ) :
    neighbors (g.setEdgeCount n) v = neighbors g v := rfl

theorem setEdgeCount_blocked (hb : Blocked g) (n : ℕ) : Blocked (g.setEdgeCount n) := hb

theorem setEdgeCount_frame (g : Graph) (n : ℕ) : Frame g (g.setEdgeCount n) := ⟨rfl, rfl, rfl, rfl⟩

/-! ## Erasing a slot -/

theorem eraseSlot_frame (g : Graph) (i j : ℕ) : Frame g (eraseSlot g i j) := ⟨rfl, rfl, rfl, rfl⟩

theorem eraseSlot_blocked (hb : Blocked g) (hi : i < g.vertexCapacity) (hj : j < g.counts i) :
    Blocked (eraseSlot g i j) := by
  intro v hv
  have hbi := hb i hi
  by_cases h : v = i
  · subst h
    simp only [eraseSlot, Function.update_self]
    rw [length_memmove (by omega) (by omega)]
    omega
  · simpa [eraseSlot, Function.update_of_ne h] using hb v hv

theorem neighbors_eraseSlot (hb : Blocked g) (hi : i < g.vertexCapacity) (hj : j < g.counts i)
    (v : ℕ) :
    neighbors (eraseSlot g i j) v =
      if v = i then (neighbors g i).eraseIdx j else neighbors g v := by
  have hbi := hb i hi
  by_cases h : v = i
  · subst h
    simp only [neighbors, eraseSlot, Function.update_self, if_pos]
    exact take_memmove_down hj (by omega)
  · simp [neighbors, eraseSlot, h]

/-! ## Removing every occurrence of a vertex -/

/-- The occurrences that `remove_vertex_from_adj` takes off the edge counter. -/
def charged (directed : Bool) (vertex : ℕ) (l : List ℕ) : ℕ :=
  if directed then l.count vertex else 0

theorem getElem?_adj (hj : j < g.counts i) :
    (g.adj i)[j]? = (neighbors g i)[j]? := by
  rw [neighbors, List.getElem?_take_of_lt hj]

/-- What one list looks like when the scan has passed its first `j` slots. -/
structure Scanned (i vertex j : ℕ) (g g' : Graph) : Prop where
  frame : Frame g g'
  blocked : Blocked g'
  rows : ∀ v, neighbors g' v =
    if v = i then (neighbors g i).take j ++ ((neighbors g i).drop j).filter (· ≠ vertex)
    else neighbors g v
  counter : g'.edgeCount =
    subSize g.edgeCount (charged g.directed vertex ((neighbors g i).drop j))
  bounded : g'.edgeCount < 2 ^ 64

theorem scanned_done (hb : Blocked g) (hi : i < g.vertexCapacity) (hj : g.counts i ≤ j)
    (he : g.edgeCount < 2 ^ 64) : Scanned i vertex j g g := by
  have hlen := length_neighbors hb hi
  have hdrop : (neighbors g i).drop j = [] := List.drop_eq_nil_of_le (by omega)
  have htake : (neighbors g i).take j = neighbors g i := List.take_of_length_le (by omega)
  refine ⟨Frame.refl g, hb, fun v => ?_, ?_, he⟩
  · split_ifs with h
    · simp [h, hdrop, htake]
    · rfl
  · simp [hdrop, charged, subSize_zero he]

/-- The slot `j` holds another vertex. -/
theorem Scanned.pass (hj : j < (neighbors g i).length) (hne : (neighbors g i)[j] ≠ vertex)
    (h : Scanned i vertex (j + 1) g g') : Scanned i vertex j g g' := by
  have hdrop := List.drop_eq_getElem_cons hj
  refine ⟨h.frame, h.blocked, fun v => ?_, ?_, h.bounded⟩
  · rw [h.rows v]
    split_ifs with hv
    · rw [hdrop, List.filter_cons_of_pos (by simpa using hne), List.take_succ_eq_append_getElem hj,
        List.append_assoc, List.singleton_append]
    · rfl
  · rw [h.counter, hdrop, charged, charged, List.count_cons_of_ne hne]

theorem eraseOccurrence_eq (he : g.edgeCount < 2 ^ 64) : eraseOccurrence g i j =
    (eraseSlot g i j).setEdgeCount (subSize g.edgeCount (if g.directed then 1 else 0)) := by
  unfold eraseOccurrence
  by_cases hd : g.directed
  · simp [eraseSlot, hd]
  · simp [eraseSlot, Graph.setEdgeCount, hd, subSize_zero he]

/-- The slot `j` holds the vertex and is erased. -/
theorem Scanned.erase (hb : Blocked g) (hi : i < g.vertexCapacity)
    (hj : j < (neighbors g i).length) (heq : (neighbors g i)[j] = vertex)
    (he : g.edgeCount < 2 ^ 64) (h : Scanned i vertex j (eraseOccurrence g i j) g') :
    Scanned i vertex j g g' := by
  rw [eraseOccurrence_eq he] at h
  have hlen := length_neighbors hb hi
  have hdrop := List.drop_eq_getElem_cons hj
  have hrow := neighbors_eraseSlot hb hi (by omega : j < g.counts i)
  have hrest : ((neighbors g i).eraseIdx j).drop j = (neighbors g i).drop (j + 1) := by
    rw [List.eraseIdx_eq_take_drop_succ, List.drop_left' (by simp; omega)]
  have hframe := ((eraseSlot_frame g i j).trans (setEdgeCount_frame _ _)).trans h.frame
  refine ⟨hframe, h.blocked, fun v => ?_, ?_, h.bounded⟩
  · rw [h.rows v]
    simp only [neighbors_setEdgeCount, hrow, if_pos]
    split_ifs with hv
    · rw [hrest, hdrop, List.filter_cons_of_neg (by simpa using heq),
        List.eraseIdx_eq_take_drop_succ, List.take_left' (by simp; omega)]
    · rfl
  · rw [h.counter]
    simp only [neighbors_setEdgeCount, hrow, if_pos]
    rw [hrest, hdrop]
    simp only [Graph.setEdgeCount, eraseSlot, subSize_subSize, charged, List.count_cons, heq]
    by_cases hd : g.directed
    · simp [hd, Nat.add_comm]
    · simp [hd]

theorem removeVertexFromAdjFrom_scanned (fuel : ℕ) (hb : Blocked g) (hi : i < g.vertexCapacity)
    (hfuel : g.counts i ≤ j + fuel) (he : g.edgeCount < 2 ^ 64) :
    Scanned i vertex j g (removeVertexFromAdjFrom i vertex fuel j g) := by
  induction fuel generalizing g j with
  | zero => exact scanned_done hb hi hfuel he
  | succ fuel ih =>
    rw [removeVertexFromAdjFrom]
    by_cases hj : j < g.counts i
    · have hlen := length_neighbors hb hi
      have hlt : j < (neighbors g i).length := by omega
      rw [if_pos hj, getElem?_adj hj, List.getElem?_eq_getElem hlt]
      by_cases hv : (neighbors g i)[j] = vertex
      · rw [if_pos (by rw [hv])]
        refine Scanned.erase hb hi hlt hv he ?_
        rw [eraseOccurrence_eq he]
        have hcounts : (eraseSlot g i j).counts i ≤ j + fuel := by
          simp only [eraseSlot, Function.update_self]
          omega
        exact ih (eraseSlot_blocked hb hi hj) hi hcounts (subSize_lt _ _)
      · rw [if_neg (by simpa using hv)]
        exact Scanned.pass hlt hv (ih hb hi (by omega) he)
    · rw [if_neg hj]
      exact scanned_done hb hi (by omega) he

theorem removeVertexFromAdj_scanned (hb : Blocked g) (hi : i < g.vertexCapacity)
    (he : g.edgeCount < 2 ^ 64) :
    Scanned i vertex 0 g (removeVertexFromAdj g i vertex) :=
  removeVertexFromAdjFrom_scanned _ hb hi (by omega) he

/-- The slots the pass has visited no longer hold the vertex. -/
structure Swept (l : List ℕ) (vertex : ℕ) (g g' : Graph) : Prop where
  frame : Frame g g'
  blocked : Blocked g'
  rows : ∀ v, neighbors g' v =
    if v ∈ l ∧ g.removed v = false then (neighbors g v).filter (· ≠ vertex) else neighbors g v
  counter : g'.edgeCount = subSize g.edgeCount
    ((l.filter (!g.removed ·)).map fun v => charged g.directed vertex (neighbors g v)).sum
  bounded : g'.edgeCount < 2 ^ 64

theorem Swept.skip {l : List ℕ} (hi : g.removed i = true) (h : Swept l vertex g g') :
    Swept (i :: l) vertex g g' := by
  refine ⟨h.frame, h.blocked, fun v => ?_, ?_, h.bounded⟩
  · rw [h.rows v]
    by_cases hv : v = i
    · subst hv
      simp [hi]
    · simp [hv]
  · rw [h.counter, List.filter_cons_of_neg (by simpa using hi)]

theorem Swept.scan {l : List ℕ} {g₁ : Graph} (hi : g.removed i = false) (hl : i ∉ l)
    (h : Scanned i vertex 0 g g₁) (h' : Swept l vertex g₁ g') : Swept (i :: l) vertex g g' := by
  refine ⟨h.frame.trans h'.frame, h'.blocked, fun v => ?_, ?_, h'.bounded⟩
  · rw [h'.rows v, h.rows v, h.frame.removed]
    by_cases hv : v = i
    · subst hv
      simp [hi, hl]
    · simp [hv]
  · have hrow : ∀ v ∈ l.filter (!g.removed ·), neighbors g₁ v = neighbors g v := by
      intro v hv
      have hne : v ≠ i := fun he => hl (he ▸ (List.mem_filter.mp hv).1)
      rw [h.rows v, if_neg hne]
    rw [h'.counter, h.counter, subSize_subSize, h.frame.removed, h.frame.directed,
      List.filter_cons_of_pos (by simpa using hi), List.map_cons, List.sum_cons, List.drop_zero,
      List.map_congr_left fun v hv => by rw [hrow v hv]]

theorem sweep {l : List ℕ} (hl : l.Nodup) (hlt : ∀ i ∈ l, i < g.vertexCapacity) (hb : Blocked g)
    (he : g.edgeCount < 2 ^ 64) :
    Swept l vertex g
      (l.foldl (fun g i => if g.removed i then g else removeVertexFromAdj g i vertex) g) := by
  induction l generalizing g with
  | nil => exact ⟨Frame.refl g, hb, fun v => by simp, by simp [subSize_zero he], he⟩
  | cons i l ih =>
    have hi : i < g.vertexCapacity := hlt i (by simp)
    have hrest : ∀ k ∈ l, k < g.vertexCapacity := fun k hk => hlt k (by simp [hk])
    rw [List.foldl_cons]
    by_cases hr : g.removed i = true
    · rw [if_pos hr]
      exact Swept.skip hr (ih hl.of_cons hrest hb he)
    · rw [if_neg hr]
      have hs : Scanned i vertex 0 g (removeVertexFromAdj g i vertex) :=
        removeVertexFromAdj_scanned hb hi he
      have hrest' : ∀ k ∈ l, k < (removeVertexFromAdj g i vertex).vertexCapacity := by
        rw [hs.frame.vertexCapacity]
        exact hrest
      exact Swept.scan (by simpa using hr) (List.nodup_cons.mp hl).1 hs
        (ih hl.of_cons hrest' hs.blocked hs.bounded)

theorem removeIncoming_swept (hb : Blocked g) (he : g.edgeCount < 2 ^ 64) (vertex : ℕ) :
    Swept (List.range g.vertexCapacity) vertex g (removeIncoming g vertex) :=
  sweep List.nodup_range (fun _ h => List.mem_range.mp h) hb he

/-! ## Appending -/

theorem growCapacity_lt {n : ℕ} (h : n ≠ 1) : n < growCapacity n := by
  unfold growCapacity
  split_ifs <;> omega

theorem growCapacity_ne_one {n : ℕ} (h : n ≠ 1) : growCapacity n ≠ 1 := by
  unfold growCapacity
  split_ifs <;> omega

/-- The lists before and after are the same; a list may have a larger block. -/
structure SameRows (g g' : Graph) : Prop where
  frame : Frame g g'
  blocked : Blocked g'
  rows : ∀ v, neighbors g' v = neighbors g v
  counter : g'.edgeCount = g.edgeCount

theorem SameRows.refl (hb : Blocked g) : SameRows g g := ⟨Frame.refl g, hb, fun _ => rfl, rfl⟩

theorem growAdjList_rows (hb : Blocked g) (ha : a < g.vertexCapacity) (ok : Bool) :
    SameRows g (growAdjList ok g a).1 := by
  cases ok with
  | false => exact SameRows.refl hb
  | true =>
    obtain ⟨hlen, hcount, hone⟩ := hb a ha
    have hgrow := growCapacity_lt hone
    refine ⟨⟨rfl, rfl, rfl, rfl⟩, fun v hv => ?_, fun v => ?_, rfl⟩
    · by_cases h : v = a
      · subst h
        have hle : g.counts v ≤ growCapacity (g.capacities v) := by omega
        simpa [growAdjList] using ⟨hle, growCapacity_ne_one hone⟩
      · simpa [growAdjList, h] using hb v hv
    · by_cases h : v = a
      · subst h
        have htake := take_resize 0 (by omega : g.counts v ≤ (g.adj v).length)
          (by omega : g.counts v ≤ growCapacity (g.capacities v))
        simpa [neighbors, growAdjList] using htake
      · simp [neighbors, growAdjList, h]

theorem growAdjList_ok (hb : Blocked g) (ha : a < g.vertexCapacity) (ok : Bool) :
    (growAdjList ok g a).2 = .alloc ∨
      (growAdjList ok g a).2 = .ok ∧
        (growAdjList ok g a).1.counts a < (growAdjList ok g a).1.capacities a := by
  obtain ⟨-, hcount, hone⟩ := hb a ha
  cases ok with
  | false => exact Or.inl rfl
  | true =>
    have hgrow := growCapacity_lt hone
    exact Or.inr ⟨rfl, by simp only [growAdjList, if_pos, Function.update_self]; omega⟩

/-- Room was there, was made, or could not be made. -/
theorem ensureRoom_spec (hb : Blocked g) (ha : a < g.vertexCapacity) (ok : Bool) :
    SameRows g (ensureRoom ok g a).1 ∧ ((ensureRoom ok g a).2 = .alloc ∨
      (ensureRoom ok g a).2 = .ok ∧
        (ensureRoom ok g a).1.counts a < (ensureRoom ok g a).1.capacities a) := by
  have hba := hb a ha
  unfold ensureRoom
  split_ifs with h
  · exact ⟨growAdjList_rows hb ha ok, growAdjList_ok hb ha ok⟩
  · exact ⟨SameRows.refl hb, Or.inr ⟨rfl, by simp only; omega⟩⟩

theorem append_spec (hb : Blocked g) (ha : a < g.vertexCapacity)
    (hroom : g.counts a < g.capacities a) (b : ℕ) :
    ∃ g', append g a b = .ok g' ∧ Frame g g' ∧ Blocked g' ∧ g'.edgeCount = g.edgeCount ∧
      g'.counts a = g.counts a + 1 ∧
      ∀ v, neighbors g' v = if v = a then neighbors g a ++ [b] else neighbors g v := by
  obtain ⟨hlen, hcount, hone⟩ := hb a ha
  have hlt : g.counts a < (g.adj a).length := by omega
  refine ⟨_, if_pos hlt, ⟨rfl, rfl, rfl, rfl⟩, fun v hv => ?_, rfl, by simp, fun v => ?_⟩
  · by_cases h : v = a
    · subst h
      simpa using ⟨hlen, by omega, hone⟩
    · simpa [h] using hb v hv
  · by_cases h : v = a
    · subst h
      simp only [neighbors, Function.update_self, if_pos]
      rw [take_succ_set hlt]
    · simp [neighbors, h]

end LibZenit.Graphs
