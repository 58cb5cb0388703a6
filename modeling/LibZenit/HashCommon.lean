import LibZenit.Basics
import Mathlib.Data.Nat.Size
import Mathlib.Data.Vector.Defs

/-!
# `_hash_common.h`

FNV-1a and the power-of-two rounding shared by the map, the set and the LRU cache.
-/
namespace LibZenit.HashCommon

def hashDefaultCapacity : ℕ := 16
def hashLoadPercent : ℕ := 75
def hashGrowthFactor : ℕ := 2

/-- Three-state slots of the map and the set. -/
inductive SlotState where
  | empty
  | occupied
  | deleted
  deriving DecidableEq, Repr

/-- Decrement, smear the highest bit to the right, increment; all modulo `2 ^ 64`. -/
def roundPow2 (n : ℕ) : ℕ :=
  let n := wrap (n + sizeMax)
  let n := n ||| n >>> 1
  let n := n ||| n >>> 2
  let n := n ||| n >>> 4
  let n := n ||| n >>> 8
  let n := n ||| n >>> 16
  let n := n ||| n >>> 32
  wrap (n + 1)

def hashFnv1a (data : List UInt8) : UInt64 :=
  data.foldl (fun h b => (h ^^^ b.toUInt64) * 1099511628211) 14695981039346656037

/-- Keys and values are byte strings of a fixed size. -/
abbrev Bytes (n : ℕ) := List.Vector UInt8 n

def mask (capacity : ℕ) : ℕ := wrap (capacity + sizeMax)

/-- The first index tried for a key. -/
def home {keySize : ℕ} (capacity : ℕ) (key : Bytes keySize) : ℕ :=
  (hashFnv1a key.toList).toNat &&& mask capacity

theorem mask_two_pow {k : ℕ} (hk : k ≤ 63) : mask (2 ^ k) = 2 ^ k - 1 := by
  have hpow : 2 ^ k ≤ 2 ^ 63 := Nat.pow_le_pow_right (by norm_num) hk
  have hpos : 0 < 2 ^ k := by positivity
  unfold mask wrap sizeMax
  omega

theorem home_lt {keySize k : ℕ} (hk : k ≤ 63) (key : Bytes keySize) : home (2 ^ k) key < 2 ^ k := by
  have hpos : 0 < 2 ^ k := by positivity
  unfold home
  rw [mask_two_pow hk, Nat.and_two_pow_sub_one_eq_mod]
  exact Nat.mod_lt _ hpos

/-! ## Rounding -/

/-- The bits of `n` within distance `d` above position `i`. -/
def Smeared (n m d : ℕ) : Prop := ∀ i, m.testBit i = true ↔ ∃ j < d, n.testBit (i + j) = true

theorem Smeared.double {n m d : ℕ} (h : Smeared n m d) : Smeared n (m ||| m >>> d) (d + d) := by
  intro i
  rw [Nat.testBit_or, Nat.testBit_shiftRight, Bool.or_eq_true, h i, h (d + i)]
  constructor
  · rintro (⟨j, hj, hb⟩ | ⟨j, hj, hb⟩)
    · exact ⟨j, by omega, hb⟩
    · exact ⟨d + j, by omega, by rwa [show i + (d + j) = d + i + j by omega]⟩
  · rintro ⟨j, hj, hb⟩
    by_cases hd : j < d
    · exact Or.inl ⟨j, hd, hb⟩
    · exact Or.inr ⟨j - d, by omega, by rwa [show d + i + (j - d) = i + j by omega]⟩

/-- Smearing a number over its whole width fills everything below its highest bit. -/
theorem Smeared.eq_ones {n m w : ℕ} (h : Smeared n m w) (hn : n < 2 ^ w) :
    m = 2 ^ n.size - 1 := by
  apply Nat.eq_of_testBit_eq
  intro i
  rw [Nat.testBit_two_pow_sub_one, Bool.eq_iff_iff, h i, decide_eq_true_eq, Nat.lt_size]
  constructor
  · rintro ⟨j, -, hb⟩
    exact (Nat.pow_le_pow_right (by norm_num) (by omega)).trans (Nat.ge_two_pow_of_testBit hb)
  · intro hle
    obtain ⟨k, hk, hb⟩ := Nat.exists_ge_and_testBit_of_ge_two_pow hle
    have hkw : k < w := by
      by_contra hge
      have := Nat.ge_two_pow_of_testBit hb
      have := Nat.pow_le_pow_right (n := 2) (by norm_num) (not_lt.mp hge)
      omega
    exact ⟨k - i, by omega, by rwa [show i + (k - i) = k by omega]⟩

theorem roundPow2_eq_wrap {n : ℕ} (h0 : 1 ≤ n) (h : n ≤ sizeMax) :
    roundPow2 n = wrap (2 ^ (n - 1).size) := by
  unfold sizeMax at h
  have hdec : wrap (n + sizeMax) = n - 1 := by
    unfold wrap sizeMax
    omega
  have hone : Smeared (n - 1) (n - 1) 1 := by
    intro i
    simp
  have hones := hone.double.double.double.double.double.double.eq_ones (by omega)
  have hpos : 0 < 2 ^ (n - 1).size := by positivity
  unfold roundPow2
  rw [hdec]
  dsimp only at hones ⊢
  rw [hones, Nat.sub_add_cancel hpos]

theorem roundPow2_eq {n : ℕ} (h0 : 1 ≤ n) (h : n ≤ 2 ^ 63) : roundPow2 n = 2 ^ (n - 1).size := by
  have hsize : (n - 1).size ≤ 63 := Nat.size_le.mpr (by omega)
  have hpow : 2 ^ (n - 1).size ≤ 2 ^ 63 := Nat.pow_le_pow_right (by norm_num) hsize
  rw [roundPow2_eq_wrap h0 (by unfold sizeMax; omega), wrap_of_lt (by omega)]

theorem le_roundPow2 {n : ℕ} (h0 : 1 ≤ n) (h : n ≤ 2 ^ 63) : n ≤ roundPow2 n := by
  rw [roundPow2_eq h0 h]
  have := Nat.lt_size_self (n - 1)
  omega

/-- Above `2 ^ 63` the increment wraps to zero. -/
theorem roundPow2_eq_zero {n : ℕ} (h : 2 ^ 63 < n) (hn : n ≤ sizeMax) : roundPow2 n = 0 := by
  have hn' := hn
  unfold sizeMax at hn'
  have hlow : 63 < (n - 1).size := Nat.lt_size.mpr (by omega)
  have hsize : (n - 1).size ≤ 64 := Nat.size_le.mpr (by omega)
  have h64 : (n - 1).size = 64 := by omega
  rw [roundPow2_eq_wrap (by omega) hn, h64]
  rfl

end LibZenit.HashCommon
