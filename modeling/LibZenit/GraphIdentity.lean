import LibZenit.GraphRuns

/-!
# Vertex numbers after a removal

`zenit_graph_add_vertex` takes the first tombstone. Until the first removal since the last clear
the active slots are the lowest ones, so the next removed number is the next one to come back.
-/
namespace LibZenit.Graphs

variable {g g' : Graph} {r : ZenitError} {h : List (Op × ZenitError)} {v slot : ℕ}

def retireCall (ids : Set ℤ) : Op × ZenitError → Set ℤ
  | (.removeVertex x, .ok) => insert x ids
  | (.clear, .ok) => ∅
  | _ => ids

/-- The numbers of the vertices removed since the last clear. -/
def retired (calls : List (Op × ZenitError)) : Set ℤ := calls.foldl retireCall ∅

theorem retired_append (h : List (Op × ZenitError)) (c : Op × ZenitError) :
    retired (h ++ [c]) = retireCall (retired h) c := by
  rw [retired, List.foldl_append, List.foldl_cons, List.foldl_nil, retired]

/-- No removed number names an active vertex. -/
def Retired (h : List (Op × ZenitError)) (g : Graph) : Prop :=
  ∀ x ∈ retired h, isActive g x = false

/-- The slots used since the last clear lie below `top`; those not active were removed. -/
structure Issued (top : ℕ) (h : List (Op × ZenitError)) (g : Graph) : Prop where
  below : ∀ v < g.vertexCapacity, g.removed v = false → v < top
  used : ∀ v < top, v < g.vertexCapacity ∧ (g.removed v = true → (v : ℤ) ∈ retired h)
  range : ∀ x ∈ retired h, 0 ≤ x ∧ x.toNat < top

/-! ## Adding a vertex -/

/-- With a removed number below, the slot that is taken is a removed one. -/
theorem Activated.reuses {top : ℕ} (hi : Issued top h g) (hret : Retired h g)
    (hs : Activated slot g g') (hne : (retired h).Nonempty) : (slot : ℤ) ∈ retired h := by
  obtain ⟨x, hx⟩ := hne
  obtain ⟨hpos, hlt⟩ := hi.range x hx
  have hle : slot ≤ x.toNat := by
    by_contra hgt
    obtain ⟨hcap, hr⟩ := hs.first x.toNat (by omega)
    have hact : isActive g x = true := isActive_iff.mpr ⟨hpos, hcap, hr⟩
    rw [hret x hx] at hact
    cases hact
  obtain ⟨hcap, hmem⟩ := hi.used slot (by omega)
  exact hmem (hs.fresh hcap)

/-- With no number removed, the next slot above the used ones is taken. -/
theorem Activated.issued {top : ℕ} (hi : Issued top h g) (hs : Activated slot g g')
    (hnone : retired h = ∅) {c : Op × ZenitError} (hc : retired (h ++ [c]) = retired h) :
    Issued (top + 1) (h ++ [c]) g' := by
  have hfull : ∀ v < top, v < g.vertexCapacity ∧ g.removed v = false := by
    intro v hv
    obtain ⟨hcap, hmem⟩ := hi.used v hv
    refine ⟨hcap, ?_⟩
    by_contra hr
    have := hmem (by simpa using hr)
    rw [hnone] at this
    exact this
  have hslot : slot = top := by
    rcases Nat.lt_trichotomy slot top with hlt | heq | hgt
    · obtain ⟨hcap, hr⟩ := hfull slot hlt
      rw [hs.fresh hcap] at hr
      cases hr
    · exact heq
    · obtain ⟨hcap, hr⟩ := hs.first top hgt
      exact absurd (hi.below top hcap hr) (lt_irrefl _)
  have hgrown := hs.grown
  have hslt := hs.slot_lt
  refine ⟨fun v hv hr => ?_, fun v hv => ⟨by omega, fun hr => ?_⟩, ?_⟩
  · rw [hs.removed v hv] at hr
    split_ifs at hr with he hlt
    · omega
    · have := hi.below v hlt hr
      omega
  · rw [hs.removed v (by omega)] at hr
    split_ifs at hr with he hlt
    · rw [(hfull v (by omega)).2] at hr
      cases hr
    · exact absurd (hfull v (by omega)).1 hlt
  · rw [hc, hnone]
    simp

/-! ## The other calls -/

theorem Issued.same {top : ℕ} (hi : Issued top h g) {c : Op × ZenitError}
    (hc : retired (h ++ [c]) = retired h) (hcap : g'.vertexCapacity = g.vertexCapacity)
    (hrem : g'.removed = g.removed) : Issued top (h ++ [c]) g' := by
  refine ⟨?_, ?_, ?_⟩
  · rw [hcap, hrem]
    exact hi.below
  · rw [hcap, hrem, hc]
    exact hi.used
  · rw [hc]
    exact hi.range

theorem Retired.same (hret : Retired h g) {c : Op × ZenitError}
    (hc : retired (h ++ [c]) = retired h) (hcap : g'.vertexCapacity = g.vertexCapacity)
    (hrem : g'.removed = g.removed) : Retired (h ++ [c]) g' := by
  intro x hx
  rw [hc] at hx
  rw [isActive, hcap, hrem]
  exact hret x hx

theorem Dropped.issued {top : ℕ} {x : ℤ} (hi : Issued top h g) (hx : isActive g x = true)
    (hd : Dropped x.toNat g g') {c : Op × ZenitError}
    (hc : retired (h ++ [c]) = insert x (retired h)) : Issued top (h ++ [c]) g' := by
  obtain ⟨hpos, hlt, hr⟩ := isActive_iff.mp hx
  have hrem : ∀ v, g'.removed v = if v = x.toNat then true else g.removed v := fun v => by
    rw [hd.removed, Function.update_apply]
  refine ⟨fun v hv hvr => ?_, fun v hv => ⟨?_, fun hvr => ?_⟩, fun y hy => ?_⟩
  · rw [hd.capacity] at hv
    rw [hrem v] at hvr
    split_ifs at hvr
    exact hi.below v hv hvr
  · rw [hd.capacity]
    exact (hi.used v hv).1
  · rw [hc]
    rw [hrem v] at hvr
    split_ifs at hvr with he
    · exact Or.inl (by omega)
    · exact Or.inr ((hi.used v hv).2 hvr)
  · rw [hc] at hy
    rcases hy with rfl | hy
    · exact ⟨hpos, hi.below _ hlt hr⟩
    · exact hi.range y hy

theorem Dropped.retired {x : ℤ} (hret : Retired h g) (hd : Dropped x.toNat g g')
    {c : Op × ZenitError} (hc : Graphs.retired (h ++ [c]) = insert x (Graphs.retired h)) :
    Retired (h ++ [c]) g' := by
  intro y hy
  rw [hc] at hy
  by_contra hact
  obtain ⟨hpos, hlt, hr⟩ := isActive_iff.mp (by simpa using hact)
  rw [hd.removed, Function.update_apply] at hr
  split_ifs at hr with he
  rcases hy with rfl | hy
  · exact he rfl
  · rw [hd.capacity] at hlt
    have hold : isActive g y = true := isActive_iff.mpr ⟨hpos, hlt, hr⟩
    rw [hret y hy] at hold
    cases hold

/-- The effect of a call on the slots in use, as far as vertex numbers are concerned. -/
inductive SlotEffect (g : Graph) : Op → ZenitError → Graph → Prop
  | keep {op : Op} {r : ZenitError} {g' : Graph} (hcap : g'.vertexCapacity = g.vertexCapacity)
      (hrem : g'.removed = g.removed) (hcall : ∀ ids, retireCall ids (op, r) = ids)
      (hadd : ∀ ok, (op, r) ≠ (.addVertex ok, .ok)) : SlotEffect g op r g'
  | activate {ok : ArrayAllocs} {g' : Graph} {slot : ℕ} (hs : Activated slot g g') :
      SlotEffect g (.addVertex ok) .ok g'
  | drop {x : ℤ} {g' : Graph} (hx : isActive g x = true) (hd : Dropped x.toNat g g') :
      SlotEffect g (.removeVertex x) .ok g'
  | clear : SlotEffect g .clear .ok (zenitGraphClear g)

theorem step_slotEffect (hi : Invariant g) {op : Op} (hdone : step g op = .ok (g', r)) :
    SlotEffect g op r g' := by
  cases op with
  | addVertex ok =>
    obtain ⟨rfl, rfl⟩ | ⟨rfl, slot, hs⟩ := addVertex_cases hi hdone
    · exact .keep rfl rfl (fun _ => rfl) (by simp)
    · exact .activate hs
  | removeVertex x =>
    obtain ⟨rfl, rfl, -⟩ | ⟨rfl, hx, hd⟩ := removeVertex_cases hi (Except.ok.inj hdone)
    · exact .keep rfl rfl (fun _ => rfl) (by simp)
    · exact .drop hx hd
  | addEdge okFrom okTo x y =>
    obtain ⟨rfl, rfl, -⟩ | ⟨rfl, rfl, -⟩ | ⟨rfl, hs⟩ | ⟨rfl, -, -, -, hl⟩ :=
      addEdge_result hi hdone
    · exact .keep rfl rfl (fun _ => rfl) (by simp)
    · exact .keep rfl rfl (fun _ => rfl) (by simp)
    · exact .keep hs.frame.vertexCapacity hs.frame.removed (fun _ => rfl) (by simp)
    · exact .keep hl.frame.vertexCapacity hl.frame.removed (fun _ => rfl) (by simp)
  | removeEdge x y =>
    obtain ⟨rfl, rfl, -⟩ | ⟨rfl, -, -, ⟨-, rfl⟩ | ⟨-, hu⟩⟩ :=
      removeEdge_cases hi (Except.ok.inj hdone)
    · exact .keep rfl rfl (fun _ => rfl) (by simp)
    · exact .keep rfl rfl (fun _ => rfl) (by simp)
    · exact .keep hu.frame.vertexCapacity hu.frame.removed (fun _ => rfl) (by simp)
  | clear =>
    cases hdone
    exact .clear

/-! ## Whole runs -/

/-- A successful `zenit_graph_add_vertex` with a number removed since the last clear. -/
def AddsAfterRemoval (h : List (Op × ZenitError)) (_ : Graph) (op : Op) (r : ZenitError) : Prop :=
  (∃ ok, op = .addVertex ok) ∧ r = .ok ∧ (retired h).Nonempty

theorem issued_step {top : ℕ} (hinv : Invariant g) (hi : Issued top h g) {op : Op}
    (hdone : step g op = .ok (g', r)) (hok : ¬AddsAfterRemoval h g op r) :
    ∃ top', Issued top' (h ++ [(op, r)]) g' := by
  cases step_slotEffect hinv hdone with
  | keep hcap hrem hcall _ => exact ⟨top, hi.same (by rw [retired_append, hcall]) hcap hrem⟩
  | activate hs =>
    have hnone : retired h = ∅ := by
      by_contra hc
      exact hok ⟨⟨_, rfl⟩, rfl, Set.nonempty_iff_ne_empty.mpr hc⟩
    exact ⟨top + 1, hs.issued hi hnone (by rw [retired_append]; rfl)⟩
  | drop hx hd => exact ⟨top, hd.issued hi hx (by rw [retired_append]; rfl)⟩
  | clear =>
    refine ⟨0, fun v hv hr => ?_, by simp, ?_⟩
    · have hv' : v < g.vertexCapacity := hv
      simp [zenitGraphClear, hv'] at hr
    · rw [retired_append]
      simp [retireCall]

theorem retired_step_iff {top : ℕ} (hinv : Invariant g) (hi : Issued top h g) (hret : Retired h g)
    {op : Op} (hdone : step g op = .ok (g', r)) :
    Retired (h ++ [(op, r)]) g' ↔ ¬AddsAfterRemoval h g op r := by
  cases step_slotEffect hinv hdone with
  | keep hcap hrem hcall hadd =>
    refine ⟨fun _ => ?_, fun _ => hret.same (by rw [retired_append, hcall]) hcap hrem⟩
    rintro ⟨⟨ok, rfl⟩, rfl, -⟩
    exact hadd ok rfl
  | activate hs =>
    constructor
    · rintro hret' ⟨-, -, hne⟩
      have hgone := hret' _ (by rw [retired_append]; exact hs.reuses hi hret hne)
      rw [hs.isActive_slot] at hgone
      cases hgone
    · intro hok x hx
      rw [retired_append] at hx
      exact absurd ⟨⟨_, rfl⟩, rfl, ⟨x, hx⟩⟩ hok
  | drop hx hd =>
    refine ⟨fun _ => ?_, fun _ => hd.retired hret (by rw [retired_append]; rfl)⟩
    rintro ⟨⟨ok, he⟩, -⟩
    cases he
  | clear =>
    refine ⟨fun _ => ?_, fun _ x hx => ?_⟩
    · rintro ⟨⟨ok, he⟩, -⟩
      cases he
    · rw [retired_append] at hx
      exact hx.elim

/-- As long as no removed number came back, the used slots are the lowest ones. -/
theorem Run.issued {g₀ : Graph} (h₀ : Invariant g₀) (hempty : ∀ v, g₀.removed v = true)
    (hr : Run g₀ h g) (hgood : ∀ q g', q <+: h → Run g₀ q g' → Retired q g') :
    ∃ top, Issued top h g := by
  induction hr with
  | start =>
    refine ⟨0, fun v _ hv => ?_, by simp, by simp [retired]⟩
    rw [hempty v] at hv
    cases hv
  | @call p g₁ g₂ op r prior done ih =>
    have hprior : ∀ q g', q <+: p → Run g₀ q g' → Retired q g' := fun q g' hq =>
      hgood q g' (hq.trans (List.prefix_append p _))
    obtain ⟨top, hi⟩ := ih hprior
    have hret := hprior p g₁ (List.prefix_refl p) prior
    have hret' := hgood _ g₂ (List.prefix_refl _) (prior.call done)
    have hok := (retired_step_iff (prior.invariant h₀) hi hret done).mp hret'
    exact issued_step (prior.invariant h₀) hi done hok

/-- Removed numbers stay dead along a run if and only if no vertex is added between a removal and
the next clear. -/
theorem removed_numbers_stay_dead_iff {handle directed : Bool} {ok : ArrayAllocs} {n : ℕ}
    {g₀ : Graph} (hcreate : zenitGraphCreate handle ok n directed = .ok (some g₀))
    (hr : Run g₀ h g) :
    (∀ p g', p <+: h → Run g₀ p g' → ∀ x ∈ retired p, isActive g' x = false) ↔
      ∀ p ok, p ++ [(.addVertex ok, .ok)] <+: h → retired p = ∅ := by
  have h₀ := create_invariant hcreate
  obtain ⟨-, -, -, -, -, hremoved⟩ := create_cases hcreate
  have hiff := hr.forall_iff Retired AddsAfterRemoval (by simp [Retired, retired])
    (fun p g₁ op r g₂ prior hgood done => by
      obtain ⟨top, hi⟩ := prior.issued h₀ hremoved hgood
      exact retired_step_iff (prior.invariant h₀) hi
        (hgood p g₁ (List.prefix_refl p) prior) done)
  rw [show (∀ p g', p <+: h → Run g₀ p g' → ∀ x ∈ retired p, isActive g' x = false) ↔
    (∀ p g', p <+: h → Run g₀ p g' → Retired p g') from Iff.rfl, hiff]
  constructor
  · intro hnone p ok hp
    by_contra hne
    obtain ⟨g', hrun⟩ := hr.upTo ((List.prefix_append p _).trans hp)
    exact hnone p _ _ g' hp hrun ⟨⟨ok, rfl⟩, rfl, Set.nonempty_iff_ne_empty.mpr hne⟩
  · rintro hempty p op r g' hp - ⟨⟨ok, rfl⟩, rfl, hne⟩
    rw [hempty p ok hp] at hne
    exact Set.not_nonempty_empty hne

/-- A vertex that is removed and not followed by another one. -/
theorem removed_number_dead : ∃ g,
    Run (emptyGraph 8 true) [(.addVertex ⟨true, true, true, true⟩, .ok),
      (.removeVertex 0, .ok)] g ∧ isActive g 0 = false := by
  have hcreate : zenitGraphCreate true ⟨true, true, true, true⟩ 0 true =
      .ok (some (emptyGraph 8 true)) := rfl
  have hexec : exec [] (emptyGraph 8 true) [.addVertex ⟨true, true, true, true⟩,
      .removeVertex 0] = .ok (_, _) := rfl
  have hrun : Run (emptyGraph 8 true) [(.addVertex ⟨true, true, true, true⟩, .ok),
      (.removeVertex 0, .ok)] _ := Run.start.exec hexec
  refine ⟨_, hrun, (removed_numbers_stay_dead_iff hcreate hrun).mpr ?_ _ _
    (List.prefix_refl _) hrun 0 (Set.mem_insert _ _)⟩
  rintro p ok ⟨t, ht⟩
  rcases p with - | ⟨c, - | ⟨d, p⟩⟩
  · rfl
  · simp at ht
  · simp at ht

/-- The vertex added after a removal gets the removed number. -/
theorem removed_number_comes_back : ∃ g,
    zenitGraphCreate true ⟨true, true, true, true⟩ 0 true = .ok (some (emptyGraph 8 true)) ∧
    Run (emptyGraph 8 true) [(.addVertex ⟨true, true, true, true⟩, .ok),
      (.removeVertex 0, .ok), (.addVertex ⟨true, true, true, true⟩, .ok)] g ∧
    isActive g 0 = true := by
  have hexec : exec [] (emptyGraph 8 true) [.addVertex ⟨true, true, true, true⟩,
      .removeVertex 0, .addVertex ⟨true, true, true, true⟩] = .ok (_, _) := rfl
  exact ⟨_, rfl, Run.start.exec hexec, rfl⟩

end LibZenit.Graphs
