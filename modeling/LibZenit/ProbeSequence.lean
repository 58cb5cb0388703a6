import LibZenit.HashTableModel
import LibZenit.LinearProbe
import LibZenit.LruModel

/-!
# The slots that a probe visits

The map, the set and the LRU cache walk through their tables in the same way: from the masked hash
one slot further each time, round the end. A capacity is a power of two, so that the walk comes to
every slot.
-/
namespace LibZenit.HashTable
open HashCommon LinearProbe

/-! ## Rounding -/

/-- The least power of two that is not below the request. -/
theorem roundPow2_isLeast {n : ℕ} (h0 : 1 ≤ n) (h : n ≤ 2 ^ 63) :
    IsLeast {m | n ≤ m ∧ ∃ k, m = 2 ^ k} (roundPow2 n) := by
  refine ⟨⟨le_roundPow2 h0 h, (n - 1).size, roundPow2_eq h0 h⟩, ?_⟩
  rintro _ ⟨hle, k, rfl⟩
  rw [roundPow2_eq h0 h]
  have hsize : (n - 1).size ≤ k := Nat.size_le.mpr (by omega)
  exact Nat.pow_le_pow_right (by norm_num) hsize

/-- A capacity is a power of two, unless the rounding has wrapped to zero. -/
theorem roundPow2_cases {n : ℕ} (hn : n ≤ sizeMax) :
    roundPow2 n = 0 ∨ ∃ k ≤ 63, roundPow2 n = 2 ^ k := by
  rcases Nat.eq_zero_or_pos n with rfl | h0
  · exact .inl (by decide)
  · by_cases h : n ≤ 2 ^ 63
    · exact .inr ⟨(n - 1).size, Nat.size_le.mpr (by omega), roundPow2_eq h0 h⟩
    · exact .inl (roundPow2_eq_zero (not_le.mp h) hn)

/-! ## The sequence -/

/-- `index = hash & mask`, and then `index = (index + 1) & mask` each time. -/
def probeIndex (capacity hash : ℕ) : ℕ → ℕ
  | 0 => hash &&& mask capacity
  | i + 1 => (probeIndex capacity hash i + 1) &&& mask capacity

theorem probeIndex_two_pow {k : ℕ} (hk : k ≤ 63) (hash i : ℕ) :
    probeIndex (2 ^ k) hash i = (hash + i) % 2 ^ k := by
  induction i with
  | zero => rw [probeIndex, mask_two_pow hk, Nat.and_two_pow_sub_one_eq_mod, Nat.add_zero]
  | succ i ih => rw [probeIndex, ih, mask_two_pow hk, mask_step]

theorem probeIndex_bijOn {k : ℕ} (hk : k ≤ 63) (hash : ℕ) :
    Set.BijOn (probeIndex (2 ^ k) hash) (Set.Iio (2 ^ k)) (Set.Iio (2 ^ k)) :=
  (offset_bijOn hash (2 ^ k)).congr fun i _ => (probeIndex_two_pow hk hash i).symm

/-- Rounding gives the least power of two not below the request, and in a table of any capacity
that it gives a probe from any hash visits every slot exactly once in its first round. -/
theorem rounding_and_probing :
    (∀ n, 1 ≤ n → n ≤ 2 ^ 63 → IsLeast {m | n ≤ m ∧ ∃ k, m = 2 ^ k} (roundPow2 n)) ∧
    ∀ n ≤ sizeMax, ∀ hash, Set.BijOn (probeIndex (roundPow2 n) hash) (Set.Iio (roundPow2 n))
      (Set.Iio (roundPow2 n)) := by
  refine ⟨fun n h0 h => roundPow2_isLeast h0 h, fun n hn hash => ?_⟩
  obtain hzero | ⟨k, hk, hpow⟩ := roundPow2_cases hn
  · have hempty : Set.Iio (roundPow2 n) = ∅ := by
      rw [hzero]
      exact Set.Iio_bot
    rw [hempty]
    exact Set.bijOn_empty _
  · rw [hpow]
    exact probeIndex_bijOn hk hash

/-! ## The loops -/

section Loops

variable {keySize : ℕ} {ε : Type} {keyOf : ε → Bytes keySize} {t : Table ε} {key : Bytes keySize}
  {hash i j : ℕ} {state : SlotState}

theorem probeSlotFrom_visits {fuel first : ℕ} {found : Bool}
    (hfirst : found = true → ∃ l < j, first = probeIndex t.capacity hash l)
    (h : probeSlotFrom keyOf t key fuel (probeIndex t.capacity hash j) first found =
      some (state, i)) :
    ∃ l < j + fuel, i = probeIndex t.capacity hash l := by
  induction fuel generalizing j first found with
  | zero => cases h
  | succ fuel ih =>
    have hnext : ∀ {first : ℕ} {found : Bool},
        (found = true → ∃ l < j + 1, first = probeIndex t.capacity hash l) →
        probeSlotFrom keyOf t key fuel (probeIndex t.capacity hash (j + 1)) first found =
          some (state, i) → ∃ l < j + (fuel + 1), i = probeIndex t.capacity hash l := by
      intro first found hfirst h
      obtain ⟨l, hl, hi⟩ := ih hfirst h
      exact ⟨l, by omega, hi⟩
    have hlater : found = true → ∃ l < j + 1, first = probeIndex t.capacity hash l := by
      intro hfound
      obtain ⟨l, hl, he⟩ := hfirst hfound
      exact ⟨l, by omega, he⟩
    rw [probeSlotFrom] at h
    obtain ⟨s, -, h⟩ := Option.bind_eq_some_iff.mp h
    cases s with
    | empty =>
      cases found with
      | false =>
        cases h
        exact ⟨j, by omega, rfl⟩
      | true =>
        cases h
        obtain ⟨l, hl, he⟩ := hfirst rfl
        exact ⟨l, by omega, he⟩
    | deleted =>
      refine hnext (fun _ => ?_) h
      cases found with
      | false => exact ⟨j, Nat.lt_succ_self j, rfl⟩
      | true => exact hlater rfl
    | occupied =>
      obtain ⟨slot, -, h⟩ := Option.bind_eq_some_iff.mp h
      split_ifs at h with hkey
      · cases h
        exact ⟨j, by omega, rfl⟩
      · exact hnext hlater h

/-- The slot that a lookup answers with is one of those of its first round. -/
theorem probeSlot_visits (h : probeSlot keyOf t key = some (state, i)) :
    ∃ l < t.capacity, i = probeIndex t.capacity (hashFnv1a key.toList).toNat l := by
  have hvisits := @probeSlotFrom_visits _ _ keyOf t key (hashFnv1a key.toList).toNat i 0 state
    t.capacity t.capacity false (fun hfound => by cases hfound) h
  rwa [Nat.zero_add] at hvisits

end Loops

section LruLoop

open Lru

variable {keySize valueSize hash i j : ℕ} {c : Cache keySize valueSize} {key : Bytes keySize}
  {found : Bool}

theorem hashFindSlotFrom_visits {left : ℕ}
    (h : hashFindSlotFrom c key left (probeIndex c.hashCapacity hash j) = some (i, found)) :
    (i = sizeMax ∧ found = false) ∨ ∃ l < j + left, i = probeIndex c.hashCapacity hash l := by
  induction left generalizing j with
  | zero =>
    cases h
    exact .inl ⟨rfl, rfl⟩
  | succ left ih =>
    rw [hashFindSlotFrom] at h
    obtain ⟨entry, -, h⟩ := Option.bind_eq_some_iff.mp h
    split_ifs at h with hempty
    · cases h
      exact .inr ⟨j, by omega, rfl⟩
    · obtain ⟨stored, -, h⟩ := Option.bind_eq_some_iff.mp h
      split_ifs at h with hkey
      · cases h
        exact .inr ⟨j, by omega, rfl⟩
      · have hrest : hashFindSlotFrom c key left (probeIndex c.hashCapacity hash (j + 1)) =
            some (i, found) := h
        rcases ih hrest with hfull | ⟨l, hl, hi⟩
        · exact .inl hfull
        · exact .inr ⟨l, by omega, hi⟩

/-- A lookup in the cache tries the same slots, and reports a full table after all of them. -/
theorem hashFindSlot_visits (h : hashFindSlot c key = some (i, found)) :
    (i = sizeMax ∧ found = false) ∨
      ∃ l < c.hashCapacity, i = probeIndex c.hashCapacity (hashFnv1a key.toList).toNat l := by
  have hvisits := @hashFindSlotFrom_visits _ _ (hashFnv1a key.toList).toNat i 0 c key found
    c.hashCapacity h
  rwa [Nat.zero_add] at hvisits

end LruLoop

end LibZenit.HashTable
