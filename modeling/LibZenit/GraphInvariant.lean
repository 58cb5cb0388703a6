import LibZenit.GraphRows

/-!
# The representation invariant of a graph

`WellFormed` is what the interface relies on. `Invariant` adds what keeps it going: the sizes of
the blocks, vertex numbers that fit `int`, and an edge counter in the range of `size_t`. It holds
after every call that has not left the arrays, for every initial capacity.
-/
namespace LibZenit.Graphs
open Blocks

variable {g g' : Graph} {r : ZenitError} {a b v w slot : ℕ}

def activeSlots (g : Graph) : Finset ℕ :=
  (Finset.range g.vertexCapacity).filter fun v => g.removed v = false

structure WellFormed (g : Graph) : Prop where
  nodup : ∀ v < g.vertexCapacity, (neighbors g v).Nodup
  active : ∀ v < g.vertexCapacity, ∀ w ∈ neighbors g v,
    w < g.vertexCapacity ∧ g.removed w = false
  fits : ∀ v < g.vertexCapacity, g.counts v ≤ g.capacities v ∧
    (neighbors g v).length = g.counts v
  tombstone : ∀ v < g.vertexCapacity, g.removed v = true → g.counts v = 0
  symmetric : g.directed = false → ∀ v < g.vertexCapacity, ∀ w ∈ neighbors g v,
    v ∈ neighbors g w
  vertexCount : g.vertexCount = (activeSlots g).card

structure Invariant (g : Graph) : Prop where
  blocked : Blocked g
  nodup : ∀ v < g.vertexCapacity, (neighbors g v).Nodup
  active : ∀ v < g.vertexCapacity, ∀ w ∈ neighbors g v,
    w < g.vertexCapacity ∧ g.removed w = false
  tombstone : ∀ v < g.vertexCapacity, g.removed v = true → neighbors g v = []
  symmetric : g.directed = false → ∀ v < g.vertexCapacity, ∀ w ∈ neighbors g v,
    v ∈ neighbors g w
  vertexCount : g.vertexCount = (activeSlots g).card
  small : ∀ v < g.vertexCapacity, g.removed v = false → v < 2 ^ 31
  counter : g.edgeCount < 2 ^ 64

theorem Invariant.wellFormed (hi : Invariant g) : WellFormed g where
  nodup := hi.nodup
  active := hi.active
  fits v hv := ⟨(hi.blocked v hv).2.1, length_neighbors hi.blocked hv⟩
  tombstone v hv hr := by
    rw [← length_neighbors hi.blocked hv, hi.tombstone v hv hr, List.length_nil]
  symmetric := hi.symmetric
  vertexCount := hi.vertexCount

theorem isActive_iff {x : ℤ} :
    isActive g x = true ↔ 0 ≤ x ∧ x.toNat < g.vertexCapacity ∧ g.removed x.toNat = false := by
  simp [isActive, and_assoc]

theorem hasEdge_iff {x y : ℤ} : zenitGraphHasEdge g x y = true ↔
    isActive g x = true ∧ isActive g y = true ∧ y.toNat ∈ neighbors g x.toNat := by
  simp [zenitGraphHasEdge, and_assoc]

/-! ## Creation -/

theorem create_cases {handle directed : Bool} {ok : ArrayAllocs} {n : ℕ}
    (h : zenitGraphCreate handle ok n directed = .ok (some g)) :
    g.vertexCapacity = (if n = 0 then 8 else n) ∧ g.directed = directed ∧ g.vertexCount = 0 ∧
      g.edgeCount = 0 ∧ (∀ v, g.adj v = [] ∧ g.counts v = 0 ∧ g.capacities v = 0) ∧
      ∀ v, g.removed v = true := by
  simp only [zenitGraphCreate] at h
  split_ifs at h <;> simp only [Except.ok.injEq, Option.some.injEq, reduceCtorEq] at h
  all_goals subst h; simp_all [emptyGraph]

theorem create_invariant {handle directed : Bool} {ok : ArrayAllocs} {n : ℕ}
    (h : zenitGraphCreate handle ok n directed = .ok (some g)) : Invariant g := by
  obtain ⟨-, -, hcount, hedges, hlists, hremoved⟩ := create_cases h
  have hnil : ∀ v, neighbors g v = [] := fun v => by simp [neighbors, (hlists v).1]
  constructor
  · intro v _
    simp [hlists v]
  · simp [hnil]
  · simp [hnil]
  · simp [hnil]
  · simp [hnil]
  · simp [hcount, activeSlots, hremoved]
  · simp [hremoved]
  · simp [hedges]

/-! ## Adding a vertex -/

theorem toInt_of_lt {n : ℕ} (h : n < 2 ^ 31) : toInt n = n := by
  unfold toInt
  rw [Int.bmod_eq_of_le] <;> omega

theorem toInt_limit : toInt (2 ^ 31) = -2 ^ 31 := by decide

/-- The effect of a successful `zenit_graph_add_vertex`: the first slot that was not active. -/
structure Activated (slot : ℕ) (g g' : Graph) : Prop where
  capacity : g'.vertexCapacity = g.vertexCapacity ∨
    g'.vertexCapacity = growCapacity g.vertexCapacity ∧ slot = g.vertexCapacity
  grown : g.vertexCapacity ≤ g'.vertexCapacity
  slot_lt : slot < g'.vertexCapacity
  slot_small : slot < 2 ^ 31
  first : ∀ i < slot, i < g.vertexCapacity ∧ g.removed i = false
  fresh : slot < g.vertexCapacity → g.removed slot = true
  removed : ∀ v < g'.vertexCapacity, g'.removed v =
    if v = slot then false else if v < g.vertexCapacity then g.removed v else true
  rows : ∀ v < g'.vertexCapacity, neighbors g' v =
    if v < g.vertexCapacity then neighbors g v else []
  blocked : Blocked g'
  vertexCount : g'.vertexCount = g.vertexCount + 1
  counter : g'.edgeCount = g.edgeCount
  directed : g'.directed = g.directed

theorem Activated.isActive_slot (hs : Activated slot g g') : isActive g' (slot : ℤ) = true :=
  isActive_iff.mpr ⟨by omega, hs.slot_lt, by
    rw [Int.toNat_natCast, hs.removed slot hs.slot_lt, if_pos rfl]⟩

theorem activate_cases {slot : ℤ} (h : activate g slot = .ok g') :
    0 ≤ slot ∧ slot.toNat < g.vertexCapacity ∧ g' = { g with
      removed := Function.update g.removed slot.toNat false
      vertexCount := g.vertexCount + 1 } := by
  unfold activate at h
  split_ifs at h with hs
  exact ⟨hs.1, hs.2, (Except.ok.inj h).symm⟩

theorem findTombstone_cases (g : Graph) :
    (findTombstone g = -1 ∧ ∀ i < g.vertexCapacity, g.removed i = false) ∨
      ∃ i, findTombstone g = toInt i ∧ i < g.vertexCapacity ∧ g.removed i = true ∧
        ∀ k < i, g.removed k = false := by
  unfold findTombstone
  cases h : (List.range g.vertexCapacity).find? g.removed with
  | none =>
    left
    refine ⟨rfl, fun i hi => ?_⟩
    simpa using List.find?_eq_none.mp h i (List.mem_range.mpr hi)
  | some i =>
    right
    obtain ⟨hr, hmem, hbefore⟩ := List.find?_range_eq_some.mp h
    exact ⟨i, rfl, List.mem_range.mp hmem, hr, fun k hk => by simpa using hbefore k hk⟩

/-- Slot `2 ^ 31` is never active, so the first tombstone is not behind it. -/
theorem tombstone_le (hi : Invariant g) {n : ℕ} (hle : n ≤ g.vertexCapacity)
    (hbefore : ∀ k < n, g.removed k = false) : n ≤ 2 ^ 31 := by
  by_contra hgt
  exact absurd (hi.small (2 ^ 31) (by omega) (hbefore _ (by omega))) (lt_irrefl _)

theorem small_of_toInt {n : ℕ} (hle : n ≤ 2 ^ 31) (hpos : 0 ≤ toInt n) : n < 2 ^ 31 := by
  rcases Nat.lt_or_eq_of_le hle with h | rfl
  · exact h
  · rw [toInt_limit] at hpos
    omega

theorem activated_of_tombstone (hi : Invariant g) {i : ℕ} (hlt : i < g.vertexCapacity)
    (hr : g.removed i = true) (hbefore : ∀ k < i, g.removed k = false)
    (h : activate g (toInt i) = .ok g') : Activated i g g' := by
  obtain ⟨hpos, -, rfl⟩ := activate_cases h
  have hsmall := small_of_toInt (tombstone_le hi hlt.le hbefore) hpos
  simp only [toInt_of_lt hsmall, Int.toNat_natCast]
  refine ⟨Or.inl rfl, le_rfl, hlt, hsmall, fun k hk => ⟨by omega, hbefore k hk⟩, fun _ => hr,
    fun v hv => ?_, fun v hv => ?_, hi.blocked, rfl, rfl, rfl⟩
  · have hv' : v < g.vertexCapacity := hv
    simp [Function.update_apply, hv']
  · have hv' : v < g.vertexCapacity := hv
    simp [neighbors, hv']

theorem activeSlots_full (h : ∀ i < g.vertexCapacity, g.removed i = false) :
    (activeSlots g).card = g.vertexCapacity := by
  rw [activeSlots, Finset.filter_true_of_mem fun i hi => h i (Finset.mem_range.mp hi),
    Finset.card_range]

theorem growVertexArrays_cases {ok : ArrayAllocs} (h : growVertexArrays ok g = .ok (g', r)) :
    (r = .alloc ∧ g' = g) ∨ (r = .ok ∧ g'.vertexCapacity = growCapacity g.vertexCapacity ∧
      g'.vertexCount = g.vertexCount ∧ g'.edgeCount = g.edgeCount ∧ g'.directed = g.directed ∧
      ∀ v < g'.vertexCapacity,
        (v < g.vertexCapacity → g'.adj v = g.adj v ∧ g'.counts v = g.counts v ∧
          g'.capacities v = g.capacities v ∧ g'.removed v = g.removed v) ∧
        (g.vertexCapacity ≤ v → g'.adj v = [] ∧ g'.counts v = 0 ∧ g'.capacities v = 0 ∧
          g'.removed v = true)) := by
  unfold growVertexArrays at h
  simp only at h
  split_ifs at h <;> simp only [Except.ok.injEq, Prod.mk.injEq] at h
  · exact Or.inl ⟨h.2.symm, h.1.symm⟩
  · obtain ⟨rfl, rfl⟩ := h
    refine Or.inr ⟨rfl, rfl, rfl, rfl, rfl, fun v hv => ⟨fun hlt => ?_, fun hge => ?_⟩⟩
    · have hnot : ¬(g.vertexCapacity ≤ v ∧ v < growCapacity g.vertexCapacity) := by omega
      simp [hnot]
    · have hnew : g.vertexCapacity ≤ v ∧ v < growCapacity g.vertexCapacity := ⟨hge, hv⟩
      simp [hnew]

theorem growCapacity_le (n : ℕ) : n ≤ growCapacity n := by
  unfold growCapacity
  split_ifs <;> omega

theorem activated_of_growth (hi : Invariant g) {ok : ArrayAllocs} {g₁ : Graph}
    (hfull : ∀ i < g.vertexCapacity, g.removed i = false)
    (hgrow : growVertexArrays ok g = .ok (g₁, .ok))
    (h : activate g₁ (toInt g₁.vertexCount) = .ok g') : Activated g.vertexCapacity g g' := by
  obtain ⟨he, -⟩ | ⟨-, hcap, hcount, hedges, hdir, hslots⟩ := growVertexArrays_cases hgrow
  · cases he
  have hvc : g₁.vertexCount = g.vertexCapacity := by
    rw [hcount, hi.vertexCount, activeSlots_full hfull]
  have hle := growCapacity_le g.vertexCapacity
  rw [hvc] at h
  obtain ⟨hpos, hlt, rfl⟩ := activate_cases h
  have hsmall := small_of_toInt (tombstone_le hi le_rfl hfull) hpos
  rw [toInt_of_lt hsmall, Int.toNat_natCast] at hlt
  simp only [toInt_of_lt hsmall, Int.toNat_natCast]
  refine ⟨Or.inr ⟨hcap, rfl⟩, by simpa [hcap] using hle, hlt, hsmall,
    fun k hk => ⟨hk, hfull k hk⟩, fun h => absurd h (lt_irrefl _), fun v hv => ?_, fun v hv => ?_,
    fun v hv => ?_, by simp [hcount], hedges, hdir⟩
  · rcases Nat.lt_or_ge v g.vertexCapacity with hlt | hge
    · simp [Function.update_apply, hlt, ((hslots v hv).1 hlt).2.2.2]
    · simp [Function.update_apply, hge, ((hslots v hv).2 hge).2.2.2]
  · rcases Nat.lt_or_ge v g.vertexCapacity with hlt | hge
    · obtain ⟨ha, hc, -⟩ := (hslots v hv).1 hlt
      simp [neighbors, ha, hc, hlt]
    · obtain ⟨ha, -⟩ := (hslots v hv).2 hge
      simp [neighbors, ha, Nat.not_lt.mpr hge]
  · rcases Nat.lt_or_ge v g.vertexCapacity with hlt | hge
    · obtain ⟨ha, hc, hcaps, -⟩ := (hslots v hv).1 hlt
      simpa [ha, hc, hcaps] using hi.blocked v hlt
    · obtain ⟨ha, hc, hcaps, -⟩ := (hslots v hv).2 hge
      simp [ha, hc, hcaps]

theorem toInt_ne_neg_one {n : ℕ} (hle : n ≤ 2 ^ 31) : toInt n ≠ -1 := by
  rcases Nat.lt_or_eq_of_le hle with h | rfl
  · rw [toInt_of_lt h]
    omega
  · rw [toInt_limit]
    omega

theorem addVertex_of_tombstone {ok : ArrayAllocs} {s : ℤ} (h : findTombstone g = s)
    (hs : s ≠ -1) : zenitGraphAddVertex ok g = (activate g s).map (·, .ok) := by
  subst h
  exact if_neg hs

theorem addVertex_of_full {ok : ArrayAllocs} (h : findTombstone g = -1) :
    zenitGraphAddVertex ok g = (growVertexArrays ok g).bind fun p =>
      if p.2 ≠ .ok then .ok p else (activate p.1 (toInt p.1.vertexCount)).map (·, .ok) :=
  if_pos h

theorem map_ok_cases {x : Exec Graph} (h : x.map (·, ZenitError.ok) = .ok (g', r)) :
    x = .ok g' ∧ r = .ok := by
  cases x with
  | error e => cases h
  | ok g => cases h; exact ⟨rfl, rfl⟩

theorem addVertex_cases (hi : Invariant g) {ok : ArrayAllocs}
    (h : zenitGraphAddVertex ok g = .ok (g', r)) :
    (r = .alloc ∧ g' = g) ∨ (r = .ok ∧ ∃ slot, Activated slot g g') := by
  obtain ⟨hnone, hfull⟩ | ⟨i, hsome, hlt, hr, hbefore⟩ := findTombstone_cases g
  · rw [addVertex_of_full hnone] at h
    cases hgrow : growVertexArrays ok g with
    | error e => simp [hgrow, Except.bind] at h
    | ok p =>
      obtain ⟨g₁, r₁⟩ := p
      rw [hgrow] at h
      simp only [Except.bind] at h
      obtain ⟨rfl, rfl⟩ | ⟨rfl, -⟩ := growVertexArrays_cases hgrow
      · cases h
        exact Or.inl ⟨rfl, rfl⟩
      · rw [if_neg (by simp)] at h
        obtain ⟨hact, rfl⟩ := map_ok_cases h
        exact Or.inr ⟨rfl, _, activated_of_growth hi hfull hgrow hact⟩
  · have hne := toInt_ne_neg_one (tombstone_le hi hlt.le hbefore)
    rw [addVertex_of_tombstone hsome hne] at h
    obtain ⟨hact, rfl⟩ := map_ok_cases h
    exact Or.inr ⟨rfl, i, activated_of_tombstone hi hlt hr hbefore hact⟩

theorem activate_ok {n : ℕ} (hlt : n < g.vertexCapacity) (hsmall : n < 2 ^ 31) :
    ∃ g', activate g (toInt n) = .ok g' := by
  have hin : 0 ≤ toInt n ∧ (toInt n).toNat < g.vertexCapacity := by
    rw [toInt_of_lt hsmall, Int.toNat_natCast]
    exact ⟨by omega, hlt⟩
  exact ⟨_, if_pos hin⟩

theorem growVertexArrays_ok (hcap : g.vertexCapacity < 2 ^ 31) (ok : ArrayAllocs) :
    ∃ p, growVertexArrays ok g = .ok p := by
  have hle : growCapacity g.vertexCapacity < 2 ^ 32 := by
    unfold growCapacity
    split_ifs <;> omega
  have hwrap : ¬wrapsVertexArrays (growCapacity g.vertexCapacity) = true := by
    simp only [wrapsVertexArrays, decide_eq_true_eq]
    omega
  unfold growVertexArrays
  simp only [if_neg hwrap]
  split_ifs
  · exact ⟨_, rfl⟩
  · exact ⟨_, rfl⟩

theorem vertexCount_le (hi : Invariant g) : g.vertexCount ≤ g.vertexCapacity := by
  rw [hi.vertexCount, activeSlots]
  exact (Finset.card_filter_le _ _).trans_eq (Finset.card_range _)

/-- The slots below the first tombstone are counted. -/
theorem tombstone_le_count (hi : Invariant g) {n : ℕ} (hle : n ≤ g.vertexCapacity)
    (hbefore : ∀ k < n, g.removed k = false) : n ≤ g.vertexCount := by
  have hsub : Finset.range n ⊆ activeSlots g := by
    intro k hk
    have hlt := Finset.mem_range.mp hk
    simp only [activeSlots, Finset.mem_filter, Finset.mem_range]
    exact ⟨by omega, hbefore k hlt⟩
  have hcard := Finset.card_le_card hsub
  rwa [Finset.card_range, ← hi.vertexCount] at hcard

/-- With fewer than `2 ^ 31` vertices, and not in a single slot, a vertex is added or memory has
run out. -/
theorem addVertex_progress (hi : Invariant g) (hone : g.vertexCapacity ≠ 1)
    (hcount : g.vertexCount < 2 ^ 31) (ok : ArrayAllocs) :
    ∃ p, zenitGraphAddVertex ok g = .ok p := by
  obtain ⟨hnone, hfull⟩ | ⟨i, hsome, hlt, -, hbefore⟩ := findTombstone_cases g
  · rw [addVertex_of_full hnone]
    have hvc : g.vertexCount = g.vertexCapacity := by
      rw [hi.vertexCount, activeSlots_full hfull]
    obtain ⟨⟨g₁, r₁⟩, hgrow⟩ := growVertexArrays_ok (hvc ▸ hcount) ok
    simp only [hgrow, Except.bind]
    by_cases hr : r₁ = .ok
    · subst hr
      obtain ⟨he, -⟩ | ⟨-, hcap₁, hcount₁, -⟩ := growVertexArrays_cases hgrow
      · cases he
      have hlt : g₁.vertexCount < g₁.vertexCapacity := by
        rw [hcount₁, hvc, hcap₁]
        exact growCapacity_lt hone
      obtain ⟨g₂, hact⟩ := activate_ok hlt (by omega)
      exact ⟨(g₂, .ok), by rw [if_neg (by simp), hact]; rfl⟩
    · exact ⟨_, if_pos hr⟩
  · have hle := tombstone_le_count hi hlt.le hbefore
    obtain ⟨g₂, hact⟩ := activate_ok hlt (by omega)
    have hne := toInt_ne_neg_one (by omega : i ≤ 2 ^ 31)
    exact ⟨(g₂, .ok), by rw [addVertex_of_tombstone hsome hne, hact]; rfl⟩

theorem Activated.invariant (hi : Invariant g) (h : Activated slot g g') : Invariant g' := by
  have hrow : ∀ v < g'.vertexCapacity, ∀ w ∈ neighbors g' v, v < g.vertexCapacity ∧
      w ∈ neighbors g v := by
    intro v hv w hw
    rw [h.rows v hv] at hw
    split_ifs at hw with hlt
    · exact ⟨hlt, hw⟩
    · simp at hw
  have hkeep : ∀ v < g.vertexCapacity, g.removed v = false → g'.removed v = false := by
    intro v hv hr
    rw [h.removed v (by have := h.grown; omega)]
    split_ifs
    · rfl
    · exact hr
  have hset : activeSlots g' = insert slot (activeSlots g) := by
    ext v
    simp only [activeSlots, Finset.mem_filter, Finset.mem_range, Finset.mem_insert]
    constructor
    · rintro ⟨hv, hr⟩
      rw [h.removed v hv] at hr
      split_ifs at hr with he hlt
      · exact Or.inl he
      · exact Or.inr ⟨hlt, hr⟩
    · rintro (rfl | ⟨hv, hr⟩)
      · exact ⟨h.slot_lt, by rw [h.removed _ h.slot_lt, if_pos rfl]⟩
      · exact ⟨by have := h.grown; omega, hkeep v hv hr⟩
  have hnot : slot ∉ activeSlots g := by
    simp only [activeSlots, Finset.mem_filter, Finset.mem_range, not_and]
    intro hlt
    rw [h.fresh hlt]
    simp
  constructor
  · exact h.blocked
  · intro v hv
    rw [h.rows v hv]
    split_ifs with hlt
    · exact hi.nodup v hlt
    · simp
  · intro v hv w hw
    obtain ⟨hlt, hw⟩ := hrow v hv w hw
    obtain ⟨hwlt, hwr⟩ := hi.active v hlt w hw
    exact ⟨by have := h.grown; omega, hkeep w hwlt hwr⟩
  · intro v hv hr
    rw [h.removed v hv] at hr
    rw [h.rows v hv]
    by_cases hlt : v < g.vertexCapacity
    · rw [if_pos hlt] at hr ⊢
      split_ifs at hr
      exact hi.tombstone v hlt hr
    · rw [if_neg hlt]
  · intro hd v hv w hw
    obtain ⟨hlt, hw⟩ := hrow v hv w hw
    have hwlt := (hi.active v hlt w hw).1
    rw [h.rows w (by have := h.grown; omega), if_pos hwlt]
    exact hi.symmetric (h.directed ▸ hd) v hlt w hw
  · rw [h.vertexCount, hset, Finset.card_insert_of_notMem hnot, hi.vertexCount]
  · intro v hv hr
    rw [h.removed v hv] at hr
    split_ifs at hr with he hlt
    · exact he ▸ h.slot_small
    · exact hi.small v hlt hr
  · rw [h.counter]
    exact hi.counter

end LibZenit.Graphs
