import Mathlib.Tactic

/-!
# Rearranging and partitioning a range of slots

Arrays are functions of the slot. The partition is the one with two indices that move towards each
other and exchange what they stop at. Its pivot is not a copy: it is whatever slot `lo` holds, and
the first exchange is the only one to change it.
-/
namespace LibZenit.Partitioning

variable {α : Type*} {le : α → α → Prop} {f g h : ℕ → α} {lo lo' mid hi hi' i i' j j' k n : ℕ}

/-! ## Rearranging -/

/-- `g` holds what `f` holds, and only the slots of `[lo, hi)` have exchanged their contents. -/
def Rearranged (lo hi : ℕ) (f g : ℕ → α) : Prop :=
  ∃ σ : Equiv.Perm ℕ, (∀ k, σ k ≠ k → lo ≤ k ∧ k < hi) ∧ ∀ k, g k = f (σ k)

theorem Rearranged.refl (lo hi : ℕ) (f : ℕ → α) : Rearranged lo hi f f :=
  ⟨1, fun _ h => absurd rfl h, fun _ => rfl⟩

theorem Rearranged.trans (hfg : Rearranged lo hi f g) (hgh : Rearranged lo hi g h) :
    Rearranged lo hi f h := by
  obtain ⟨σ, hσ, hg⟩ := hfg
  obtain ⟨τ, hτ, hh⟩ := hgh
  refine ⟨σ * τ, fun k hk => ?_, fun k => by rw [hh, hg, Equiv.Perm.mul_apply]⟩
  by_cases hfix : τ k = k
  · rw [Equiv.Perm.mul_apply, hfix] at hk
    exact hσ k hk
  · exact hτ k hfix

theorem Rearranged.mono (h : Rearranged lo hi f g) (hlo : lo' ≤ lo) (hhi : hi ≤ hi') :
    Rearranged lo' hi' f g := by
  obtain ⟨σ, hσ, hg⟩ := h
  exact ⟨σ, fun k hk => ⟨hlo.trans (hσ k hk).1, (hσ k hk).2.trans_le hhi⟩, hg⟩

theorem rearranged_swap (hi₁ : lo ≤ i) (hi₂ : i < hi) (hj₁ : lo ≤ j) (hj₂ : j < hi) :
    Rearranged lo hi f fun k => f (Equiv.swap i j k) := by
  refine ⟨Equiv.swap i j, fun k hk => ?_, fun _ => rfl⟩
  rcases Equiv.swap_apply_ne_self_iff.mp hk with ⟨-, rfl | rfl⟩
  · exact ⟨hi₁, hi₂⟩
  · exact ⟨hj₁, hj₂⟩

theorem Rearranged.outside (h : Rearranged lo hi f g) (hk : k < lo ∨ hi ≤ k) : g k = f k := by
  obtain ⟨σ, hσ, hg⟩ := h
  have hfix : σ k = k := by
    by_contra hne
    have hin := hσ k hne
    omega
  rw [hg, hfix]

theorem Rearranged.inside (h : Rearranged lo hi f g) (hlo : lo ≤ k) (hhi : k < hi) :
    ∃ k', lo ≤ k' ∧ k' < hi ∧ g k = f k' := by
  obtain ⟨σ, hσ, hg⟩ := h
  by_cases hfix : σ k = k
  · exact ⟨k, hlo, hhi, by rw [hg, hfix]⟩
  · -- a slot that moves comes from one that moves
    have hmoves : σ (σ k) ≠ σ k := fun he => hfix (σ.injective he)
    exact ⟨σ k, (hσ _ hmoves).1, (hσ _ hmoves).2, hg k⟩

theorem Rearranged.perm (h : Rearranged 0 n f g) :
    ((List.range n).map g).Perm ((List.range n).map f) := by
  obtain ⟨σ, hσ, hg⟩ := h
  have hmem : ∀ k, σ k ∈ List.range n ↔ k ∈ List.range n := by
    intro k
    by_cases hfix : σ k = k
    · rw [hfix]
    · have hmoves : σ (σ k) ≠ σ k := fun he => hfix (σ.injective he)
      rw [List.mem_range, List.mem_range]
      exact iff_of_true (hσ _ hmoves).2 (hσ k hfix).2
  have hrange : ((List.range n).map σ).Perm (List.range n) := by
    refine (List.perm_ext_iff_of_nodup (List.nodup_range.map σ.injective) List.nodup_range).mpr ?_
    intro k
    rw [List.mem_map]
    constructor
    · rintro ⟨i, hi, rfl⟩
      exact (hmem i).mpr hi
    · intro hk
      exact ⟨σ.symm k, (hmem _).mp (by rwa [Equiv.apply_symm_apply]), σ.apply_symm_apply k⟩
  have hmap : (List.range n).map g = ((List.range n).map σ).map f := by
    rw [List.map_map]
    exact List.map_congr_left fun k _ => hg k
  rw [hmap]
  exact hrange.map f

/-! ## Sorted ranges -/

def SortedOn (le : α → α → Prop) (lo hi : ℕ) (f : ℕ → α) : Prop :=
  ∀ i j, lo ≤ i → i < j → j < hi → le (f i) (f j)

/-- The slots of `[lo, mid)` are at most those of `[mid, hi)`. -/
def Below (le : α → α → Prop) (lo mid hi : ℕ) (f : ℕ → α) : Prop :=
  ∀ i j, lo ≤ i → i < mid → mid ≤ j → j < hi → le (f i) (f j)

theorem SortedOn.congr (h : SortedOn le lo hi f) (hfg : ∀ k, lo ≤ k → k < hi → g k = f k) :
    SortedOn le lo hi g := by
  intro i j hi hij hj
  rw [hfg i hi (hij.trans hj), hfg j (hi.trans hij.le) hj]
  exact h i j hi hij hj

theorem Below.rearranged_left (h : Below le lo mid hi f) (hr : Rearranged lo mid f g) :
    Below le lo mid hi g := by
  intro i j hlo hmid hmid' hhi
  obtain ⟨i', hlo', hmid'', he⟩ := hr.inside hlo hmid
  rw [he, hr.outside (.inr hmid')]
  exact h i' j hlo' hmid'' hmid' hhi

theorem Below.rearranged_right (h : Below le lo mid hi f) (hr : Rearranged mid hi f g) :
    Below le lo mid hi g := by
  intro i j hlo hmid hmid' hhi
  obtain ⟨j', hmid'', hhi', he⟩ := hr.inside hmid' hhi
  rw [he, hr.outside (.inl hmid)]
  exact h i j' hlo hmid hmid'' hhi'

theorem SortedOn.join (hl : SortedOn le lo mid f) (hr : SortedOn le mid hi f)
    (h : Below le lo mid hi f) : SortedOn le lo hi f := by
  intro i j hlo hij hhi
  by_cases hj : j < mid
  · exact hl i j hlo hij hj
  by_cases hi : i < mid
  · exact h i j hlo hi (not_lt.mp hj) hhi
  · exact hr i j (not_lt.mp hi) hij hhi

/-! ## The rounds of the partition -/

/-- Between two rounds, after the first: the slots up to `i` are at most the pivot, those from `j`
on are at least the pivot. -/
structure Halfway (le : α → α → Prop) (lo hi i j : ℕ) (f : ℕ → α) : Prop where
  lo_le : lo ≤ i
  lt : i < j
  le_hi : j ≤ hi
  low : ∀ k, lo ≤ k → k ≤ i → le (f k) (f lo)
  high : ∀ k, j ≤ k → k ≤ hi → le (f lo) (f k)

/-- The first round stops at slot `lo` itself, so its exchange brings in another pivot, which is at
most the one it replaces. -/
theorem halfway_first (refl : ∀ a, le a a) (trans : ∀ a b c, le a b → le b c → le a c)
    (hj : lo < j) (hhi : j ≤ hi) (hstop : le (f j) (f lo))
    (hpass : ∀ k, j < k → k ≤ hi → le (f lo) (f k)) :
    Halfway le lo hi lo j fun k => f (Equiv.swap lo j k) := by
  refine ⟨le_rfl, hj, hhi, fun k hlo hk => ?_, fun k hjk hk => ?_⟩
  · rw [Nat.le_antisymm hk hlo]
    exact refl _
  · rw [Equiv.swap_apply_left]
    by_cases he : k = j
    · rw [he, Equiv.swap_apply_right]
      exact hstop
    · rw [Equiv.swap_apply_of_ne_of_ne (by omega) he]
      exact trans _ _ _ hstop (hpass k (by omega) hk)

/-- A later round leaves slot `lo` alone. -/
theorem Halfway.exchange (h : Halfway le lo hi i j f) (hi' : i < i') (hij : i' < j') (hj' : j' < j)
    (hup : ∀ k, i < k → k < i' → le (f k) (f lo)) (hstop : le (f lo) (f i'))
    (hdown : ∀ k, j' < k → k < j → le (f lo) (f k)) (hstop' : le (f j') (f lo)) :
    Halfway le lo hi i' j' fun k => f (Equiv.swap i' j' k) := by
  have hlo := h.lo_le
  have hhi := h.le_hi
  have hpivot : Equiv.swap i' j' lo = lo := Equiv.swap_apply_of_ne_of_ne (by omega) (by omega)
  refine ⟨by omega, hij, by omega, fun k hk hk' => ?_, fun k hk hk' => ?_⟩
  · simp only [hpivot]
    by_cases he : k = i'
    · rw [he, Equiv.swap_apply_left]
      exact hstop'
    · rw [Equiv.swap_apply_of_ne_of_ne he (by omega)]
      by_cases hki : k ≤ i
      · exact h.low k hk hki
      · exact hup k (by omega) (by omega)
  · simp only [hpivot]
    by_cases he : k = j'
    · rw [he, Equiv.swap_apply_right]
      exact hstop
    · rw [Equiv.swap_apply_of_ne_of_ne (by omega) he]
      by_cases hkj : j ≤ k
      · exact h.high k hkj hk'
      · exact hdown k (by omega) (by omega)

/-- The indices have met, and `j'` ends the lower part. -/
theorem Halfway.finish (trans : ∀ a b c, le a b → le b c → le a c) (h : Halfway le lo hi i j f)
    (hij : j' ≤ i') (hup : ∀ k, i < k → k < i' → le (f k) (f lo))
    (hdown : ∀ k, j' < k → k < j → le (f lo) (f k)) (hstop : le (f j') (f lo)) :
    Below le lo (j' + 1) (hi + 1) f := by
  intro k l hk hkj hl hlh
  have hlow : le (f k) (f lo) := by
    by_cases hki : k ≤ i
    · exact h.low k hk hki
    by_cases hkj' : k = j'
    · rw [hkj']
      exact hstop
    · exact hup k (by omega) (by omega)
  have hhigh : le (f lo) (f l) := by
    by_cases hjl : j ≤ l
    · exact h.high l hjl (by omega)
    · exact hdown l (by omega) (by omega)
  exact trans _ _ _ hlow hhigh

end LibZenit.Partitioning
