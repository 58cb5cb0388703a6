import Mathlib.Tactic

/-!
# Heap order

A complete binary tree is laid out in the slots `0, …, n - 1`. Sifting breaks the order at one node
`k`: above it on the way up, below it on the way down. Each round moves the break along one edge.
-/
namespace LibZenit.BinaryHeap

def parent (i : ℕ) : ℕ := (i - 1) / 2

theorem parent_lt {i : ℕ} (h : 0 < i) : parent i < i := by
  unfold parent
  omega

theorem parent_eq_iff {i k : ℕ} (h : 0 < i) : parent i = k ↔ i = 2 * k + 1 ∨ i = 2 * k + 2 := by
  unfold parent
  omega

variable {α : Type*} (le : α → α → Prop) {f : ℕ → α} {i j k s n : ℕ}

/-- The order at every node whose parent is at `s` or behind. -/
def OrderedFrom (s n : ℕ) (f : ℕ → α) : Prop :=
  ∀ i, 0 < i → i < n → s ≤ parent i → le (f i) (f (parent i))

/-- The order everywhere but between `k` and its parent. The children of `k` keep below that
parent. -/
structure BrokenAbove (k n : ℕ) (f : ℕ → α) : Prop where
  edge : ∀ i, 0 < i → i < n → i ≠ k → le (f i) (f (parent i))
  bridge : ∀ i, 0 < i → i < n → parent i = k → 0 < k → le (f i) (f (parent k))

/-- The order from `s` on but between `k` and its children, which keep below the parent of `k`. -/
structure BrokenBelow (s k n : ℕ) (f : ℕ → α) : Prop where
  edge : ∀ i, 0 < i → i < n → s ≤ parent i → parent i ≠ k → le (f i) (f (parent i))
  bridge : ∀ i, 0 < i → i < n → parent i = k → 0 < k → s ≤ parent k → le (f i) (f (parent k))

variable {le}

/-! ## Up -/

theorem BrokenAbove.finish (h : BrokenAbove le k n f) (hk : k = 0 ∨ le (f k) (f (parent k))) :
    OrderedFrom le 0 n f := by
  intro i hpos hi _
  by_cases hik : i = k
  · subst hik
    exact hk.resolve_left (by omega)
  · exact h.edge i hpos hi hik

theorem BrokenAbove.move (trans : ∀ a b c, le a b → le b c → le a c) (h : BrokenAbove le k n f)
    (hpos : 0 < k) (hk : k < n) (hle : le (f (parent k)) (f k)) :
    BrokenAbove le (parent k) n (fun i => f (Equiv.swap k (parent k) i)) := by
  have hlt := parent_lt hpos
  constructor
  · intro i hi hin hne
    by_cases hik : i = k
    · subst hik
      simp only [Equiv.swap_apply_left, Equiv.swap_apply_right]
      exact hle
    rw [Equiv.swap_apply_of_ne_of_ne hik hne]
    by_cases hpk : parent i = k
    · rw [hpk, Equiv.swap_apply_left]
      exact h.bridge i hi hin hpk hpos
    by_cases hpp : parent i = parent k
    · rw [hpp, Equiv.swap_apply_right]
      have hedge := h.edge i hi hin hik
      rw [hpp] at hedge
      exact trans _ _ _ hedge hle
    · rw [Equiv.swap_apply_of_ne_of_ne hpk hpp]
      exact h.edge i hi hin hik
  · intro i hi hin hpi hparent
    have hup := h.edge (parent k) hparent (by omega) (by omega)
    have hlt' := parent_lt hparent
    rw [Equiv.swap_apply_of_ne_of_ne (by omega : parent (parent k) ≠ k) (by omega)]
    by_cases hik : i = k
    · subst hik
      rw [Equiv.swap_apply_left]
      exact hup
    · have hne : i ≠ parent k := by
        have := parent_lt hi
        omega
      rw [Equiv.swap_apply_of_ne_of_ne hik hne]
      have hedge := h.edge i hi hin hik
      rw [hpi] at hedge
      exact trans _ _ _ hedge hup

/-! ## Down -/

theorem BrokenBelow.finish (h : BrokenBelow le s k n f)
    (hk : ∀ i, 0 < i → i < n → parent i = k → le (f i) (f k)) : OrderedFrom le s n f := by
  intro i hpos hi hs
  by_cases hpk : parent i = k
  · rw [hpk]
    exact hk i hpos hi hpk
  · exact h.edge i hpos hi hs hpk

theorem BrokenBelow.move (h : BrokenBelow le s k n f) {c : ℕ} (hpos : 0 < c) (hc : c < n)
    (hpc : parent c = k) (hkc : le (f k) (f c))
    (hmax : ∀ i, 0 < i → i < n → parent i = k → i ≠ c → le (f i) (f c)) (hsk : s ≤ k) :
    BrokenBelow le s c n (fun i => f (Equiv.swap k c i)) := by
  have hlt : k < c := hpc ▸ parent_lt hpos
  constructor
  · intro i hi hin hs hne
    by_cases hpk : parent i = k
    · rw [hpk, Equiv.swap_apply_left]
      by_cases hic : i = c
      · subst hic
        rw [Equiv.swap_apply_right]
        exact hkc
      · have hik : i ≠ k := by
          have := parent_lt hi
          omega
        rw [Equiv.swap_apply_of_ne_of_ne hik hic]
        exact hmax i hi hin hpk hic
    · have hic : i ≠ c := fun he => hpk (he ▸ hpc)
      rw [Equiv.swap_apply_of_ne_of_ne hpk hne]
      by_cases hik : i = k
      · subst hik
        rw [Equiv.swap_apply_left]
        exact h.bridge c hpos hc hpc hi hs
      · rw [Equiv.swap_apply_of_ne_of_ne hik hic]
        exact h.edge i hi hin hs hpk
  · intro i hi hin hpi _ _
    have hci : c < i := hpi ▸ parent_lt hi
    rw [hpc, Equiv.swap_apply_left, Equiv.swap_apply_of_ne_of_ne (by omega) (by omega), ← hpi]
    exact h.edge i hi hin (by omega) (by omega)

/-! ## The root -/

theorem OrderedFrom.le_root (refl : ∀ a, le a a) (trans : ∀ a b c, le a b → le b c → le a c)
    (h : OrderedFrom le 0 n f) : ∀ i < n, le (f i) (f 0) := by
  intro i
  induction i using Nat.strong_induction_on with
  | _ i ih =>
    intro hi
    rcases Nat.eq_zero_or_pos i with rfl | hpos
    · exact refl _
    · have hlt := parent_lt hpos
      exact trans _ _ _ (h i hpos hi (Nat.zero_le _)) (ih (parent i) hlt (by omega))

/-- The parents start in the first half. -/
theorem orderedFrom_half (n : ℕ) (f : ℕ → α) : OrderedFrom le (n / 2) n f := by
  intro i hpos hi hs
  unfold parent at hs
  omega

end LibZenit.BinaryHeap
