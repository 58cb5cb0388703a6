import Mathlib.Tactic

/-!
# Linear probing

A table of `cap` slots is seen through two views: `occ i` is the key stored in slot `i`, and
`used i` says that a probe does not stop there for lack of an entry. `Probed` is the invariant that
makes lookups exact: keys are unique and the probe path of every stored key is unbroken.
-/
namespace LibZenit.LinearProbe

/-! ## Probe paths -/

/-- Stepping with a mask walks the residues in order. -/
theorem mask_step (k start j : ℕ) :
    ((start + j) % 2 ^ k + 1) &&& (2 ^ k - 1) = (start + (j + 1)) % 2 ^ k := by
  rw [Nat.and_two_pow_sub_one_eq_mod, Nat.mod_add_mod, Nat.add_assoc]

/-- Every slot lies on the probe path from every start. -/
theorem exists_offset (start : ℕ) {cap i : ℕ} (hi : i < cap) : ∃ j < cap, (start + j) % cap = i := by
  have hs := Nat.mod_lt start (by omega : 0 < cap)
  have hd := Nat.div_add_mod start cap
  refine ⟨(i + (cap - start % cap)) % cap, Nat.mod_lt _ (by omega), ?_⟩
  rw [Nat.add_mod_mod, ← Nat.mod_add_mod, show start % cap + (i + (cap - start % cap)) =
    i + cap by omega, Nat.add_mod_right, Nat.mod_eq_of_lt hi]

/-- A path meets no slot twice in a round. -/
theorem offset_injOn (start cap : ℕ) : Set.InjOn (fun j => (start + j) % cap) (Set.Iio cap) := by
  intro i hi j hj h
  have hmod : i % cap = j % cap := Nat.ModEq.add_left_cancel' start h
  rwa [Nat.mod_eq_of_lt hi, Nat.mod_eq_of_lt hj] at hmod

/-- In one round a path meets every slot exactly once. -/
theorem offset_bijOn (start cap : ℕ) :
    Set.BijOn (fun j => (start + j) % cap) (Set.Iio cap) (Set.Iio cap) := by
  refine ⟨fun j hj => ?_, offset_injOn start cap, fun i hi => exists_offset start hi⟩
  exact Nat.mod_lt _ (Nat.zero_lt_of_lt hj)

/-- A path that meets some unused slot meets a first one. -/
theorem exists_first (start : ℕ) {cap i : ℕ} {used : ℕ → Prop} (hi : i < cap) (hu : ¬used i) :
    ∃ e < cap, ¬used ((start + e) % cap) ∧ ∀ l < e, used ((start + l) % cap) := by
  classical
  obtain ⟨j, hj, he⟩ := exists_offset start hi
  have hex : ∃ j, ¬used ((start + j) % cap) := ⟨j, by rwa [he]⟩
  have hle : Nat.find hex ≤ j := Nat.find_min' hex (by rwa [he])
  exact ⟨Nat.find hex, by omega, Nat.find_spec hex, fun l hl => not_not.mp (Nat.find_min hex hl)⟩

/-! ## The table invariant -/

variable {κ : Type*} {cap : ℕ} {home : κ → ℕ} {occ occ' : ℕ → Option κ}
  {used used' : ℕ → Prop} {k : κ} {i r : ℕ}

/-- `i` is on the probe path of `k`, and every slot before it on the path is in use. -/
def Reachable (cap : ℕ) (home : κ → ℕ) (used : ℕ → Prop) (k : κ) (i : ℕ) : Prop :=
  ∃ j < cap, i = (home k + j) % cap ∧ ∀ l < j, used ((home k + l) % cap)

structure Probed (cap : ℕ) (home : κ → ℕ) (occ : ℕ → Option κ) (used : ℕ → Prop) : Prop where
  reach : ∀ i < cap, ∀ k, occ i = some k → Reachable cap home used k i
  unique : ∀ i < cap, ∀ l < cap, ∀ k, occ i = some k → occ l = some k → i = l
  stored : ∀ i < cap, ∀ k, occ i = some k → used i

theorem Probed.empty (h : ∀ i < cap, occ i = none) : Probed cap home occ used :=
  ⟨fun i hi k hk => by simp [h i hi] at hk, fun i hi _ _ k hk => by simp [h i hi] at hk,
    fun i hi k hk => by simp [h i hi] at hk⟩

/-- A probe that reaches an unused slot without meeting the key has shown the key absent. -/
theorem Probed.absent (h : Probed cap home occ used) {j : ℕ} (hr : ¬used ((home k + j) % cap))
    (hm : ∀ l < j, occ ((home k + l) % cap) ≠ some k) : ∀ i < cap, occ i ≠ some k := by
  intro i hi hk
  obtain ⟨l, hl, rfl, hused⟩ := h.reach i hi k hk
  by_cases hlj : l < j
  · exact hm l hlj hk
  · by_cases he : l = j
    · subst he
      exact hr (h.stored _ hi k hk)
    · exact hr (hused j (by omega))

/-- Storing a new key in a reachable slot that holds no entry. -/
theorem Probed.insert (h : Probed cap home occ used) (habs : ∀ i < cap, occ i ≠ some k)
    (hreach : Reachable cap home used k r) (hocc : ∀ i < cap, occ' i = if i = r then some k else occ i)
    (hused : ∀ i < cap, used i → used' i) (hr : used' r) : Probed cap home occ' used' := by
  have hlift : ∀ k i, Reachable cap home used k i → Reachable cap home used' k i := by
    intro k i ⟨j, hj, he, hu⟩
    exact ⟨j, hj, he, fun l hl => hused _ (Nat.mod_lt _ (by omega)) (hu l hl)⟩
  refine ⟨fun i hi x hx => ?_, fun i hi l hl x hx hy => ?_, fun i hi x hx => ?_⟩
  · rw [hocc i hi] at hx
    split_ifs at hx with he
    · obtain rfl : k = x := by simpa using hx
      exact he ▸ hlift k r hreach
    · exact hlift x i (h.reach i hi x hx)
  · rw [hocc i hi] at hx
    rw [hocc l hl] at hy
    split_ifs at hx hy with h1 h2 h2
    · exact h1.trans h2.symm
    · obtain rfl : k = x := by simpa using hx
      exact absurd hy (habs l hl)
    · obtain rfl : k = x := by simpa using hy
      exact absurd hx (habs i hi)
    · exact h.unique i hi l hl x hx hy
  · rw [hocc i hi] at hx
    split_ifs at hx with he
    · exact he ▸ hr
    · exact hused i hi (h.stored i hi x hx)

/-- Dropping entries while the used slots stay used: tombstones. -/
theorem Probed.mono (h : Probed cap home occ used)
    (hocc : ∀ i < cap, ∀ k, occ' i = some k → occ i = some k)
    (hused : ∀ i < cap, used i → used' i) : Probed cap home occ' used' := by
  refine ⟨fun i hi k hk => ?_, fun i hi l hl k hx hy => ?_, fun i hi k hk => ?_⟩
  · obtain ⟨j, hj, he, hu⟩ := h.reach i hi k (hocc i hi k hk)
    exact ⟨j, hj, he, fun l hl => hused _ (Nat.mod_lt _ (by omega)) (hu l hl)⟩
  · exact h.unique i hi l hl k (hocc i hi k hx) (hocc l hl k hy)
  · exact hused i hi (h.stored i hi k (hocc i hi k hk))

end LibZenit.LinearProbe
