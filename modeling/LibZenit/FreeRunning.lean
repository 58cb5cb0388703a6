import Mathlib.Tactic
import Mathlib.Data.List.Basic

/-!
# Queues with free-running counters

A queue of `cap` slots counts what has been put in and what has been taken out in two counters that
are reduced only when a slot is accessed. The counters are machine words; the lemmas relate them to
the unbounded numbers they stand for. `Window` is the part of the history that the slots still hold.
-/
namespace LibZenit.FreeRunning

/-! ## Counters -/

section Counters

variable {w c p : ℕ}

theorem toNat_sub_ofNat (hle : c ≤ p) (hlt : p - c < 2 ^ w) :
    (BitVec.ofNat w p - BitVec.ofNat w c).toNat = p - c := by
  obtain ⟨d, rfl⟩ := Nat.exists_eq_add_of_le hle
  rw [Nat.add_sub_cancel_left] at hlt ⊢
  rw [BitVec.ofNat_add, BitVec.add_comm, BitVec.add_sub_cancel, BitVec.toNat_ofNat,
    Nat.mod_eq_of_lt hlt]

theorem ofNat_eq_iff (hle : c ≤ p) (hlt : p - c < 2 ^ w) :
    BitVec.ofNat w p = BitVec.ofNat w c ↔ p = c := by
  constructor
  · intro h
    have hsub := toNat_sub_ofNat hle hlt
    rw [h, BitVec.sub_self] at hsub
    simp only [BitVec.toNat_zero] at hsub
    omega
  · rintro rfl
    rfl

theorem ofNat_succ (p : ℕ) : BitVec.ofNat w p + 1 = BitVec.ofNat w (p + 1) := by
  rw [BitVec.ofNat_add]
  rfl

theorem toNat_mod_ofNat {cap : ℕ} (hcap : cap ∣ 2 ^ w) (p : ℕ) :
    (BitVec.ofNat w p).toNat % cap = p % cap := by
  rw [BitVec.toNat_ofNat, Nat.mod_mod_of_dvd _ hcap]

theorem toNat_mask_ofNat {k : ℕ} (hk : k ≤ w) (p : ℕ) :
    (BitVec.ofNat w p &&& BitVec.ofNat w (2 ^ k - 1)).toNat = p % 2 ^ k := by
  have hpow : 2 ^ k ≤ 2 ^ w := Nat.pow_le_pow_right (by norm_num) hk
  have hpos : 0 < 2 ^ k := by positivity
  rw [BitVec.toNat_and, BitVec.toNat_ofNat, BitVec.toNat_ofNat,
    Nat.mod_eq_of_lt (by omega : 2 ^ k - 1 < 2 ^ w), Nat.and_two_pow_sub_one_eq_mod,
    Nat.mod_mod_of_dvd _ (Nat.pow_dvd_pow 2 hk)]

end Counters

/-! ## Windows -/

variable {α : Type} {cap lo : ℕ} {slots : ℕ → α} {xs : List α}

/-- The slots hold the history `xs` from position `lo` on. -/
structure Window (cap : ℕ) (slots : ℕ → α) (lo : ℕ) (xs : List α) : Prop where
  taken : lo ≤ xs.length
  room : xs.length ≤ lo + cap
  holds : ∀ n x, lo ≤ n → xs[n]? = some x → slots (n % cap) = x

theorem window_nil (cap : ℕ) (slots : ℕ → α) : Window cap slots 0 [] :=
  ⟨le_refl 0, Nat.zero_le _, by simp⟩

/-- Positions less than one round apart are different slots. -/
theorem slot_ne {n m : ℕ} (hlt : n < m) (hround : m < n + cap) : n % cap ≠ m % cap := by
  intro h
  have hsub := Nat.sub_mod_eq_zero_of_mod_eq h.symm
  rw [Nat.mod_eq_of_lt (by omega)] at hsub
  omega

/-- Slots that the window does not use may change. -/
theorem Window.congr {slots' : ℕ → α} (h : Window cap slots lo xs)
    (hsame : ∀ n, lo ≤ n → n < xs.length → slots' (n % cap) = slots (n % cap)) :
    Window cap slots' lo xs := by
  refine ⟨h.taken, h.room, fun n x hn hx => ?_⟩
  rw [hsame n hn (List.getElem?_eq_some_iff.mp hx).1, h.holds n x hn hx]

/-- What has been put into the next slot is published. -/
theorem Window.publish {x : α} (h : Window cap slots lo xs) (hroom : xs.length < lo + cap)
    (hx : slots (xs.length % cap) = x) : Window cap slots lo (xs ++ [x]) := by
  refine ⟨by rw [List.length_append]; exact h.taken.trans (Nat.le_add_right _ _),
    by rw [List.length_append]; exact hroom, fun n y hn hy => ?_⟩
  by_cases hlt : n < xs.length
  · rw [List.getElem?_append_left hlt] at hy
    exact h.holds n y hn hy
  · obtain ⟨hlen, -⟩ := List.getElem?_eq_some_iff.mp hy
    rw [List.length_append, List.length_singleton] at hlen
    obtain rfl : n = xs.length := by omega
    rw [List.getElem?_append_right le_rfl, Nat.sub_self] at hy
    cases hy
    exact hx

/-- The oldest slot is given back. -/
theorem Window.consume (h : Window cap slots lo xs) (hlt : lo < xs.length) :
    Window cap slots (lo + 1) xs :=
  ⟨hlt, h.room.trans (by omega), fun n x hn hx => h.holds n x (by omega) hx⟩

end LibZenit.FreeRunning
