import Mathlib.Tactic

/-!
# Byte-addressed memory with little-endian fields

A memory assigns a byte to every address. Fields of any width are read and written in
little-endian order, so two fields interfere exactly when their byte ranges meet.
-/
namespace LibZenit.ByteMemory

abbrev Memory := ℕ → UInt8

/-- The field of `w` bytes at address `a`, as an unsigned number. -/
def read (m : Memory) (a : ℕ) : ℕ → ℕ
  | 0 => 0
  | w + 1 => (m a).toNat + 256 * read m (a + 1) w

/-- Store the low `w` bytes of `v` at address `a`. -/
def write (m : Memory) (a w v : ℕ) : Memory := fun x =>
  if a ≤ x ∧ x < a + w then UInt8.ofNat (v / 256 ^ (x - a)) else m x

theorem read_congr {m n : Memory} {a w : ℕ} (h : ∀ x, a ≤ x → x < a + w → m x = n x) :
    read m a w = read n a w := by
  induction w generalizing a with
  | zero => rfl
  | succ w ih =>
    have ht : read m (a + 1) w = read n (a + 1) w :=
      ih fun x hl hr => h x (by omega) (by omega)
    simp only [read, h a le_rfl (by omega), ht]

theorem read_lt (m : Memory) (a w : ℕ) : read m a w < 256 ^ w := by
  induction w generalizing a with
  | zero => simp [read]
  | succ w ih =>
    have hb : (m a).toNat < 256 := UInt8.toNat_lt _
    have ht := ih (a + 1)
    simp only [read, pow_succ]
    omega

/-- Reading back a field gives the stored number, truncated to the field. -/
theorem read_write_same (m : Memory) (a w v : ℕ) : read (write m a w v) a w = v % 256 ^ w := by
  have key : ∀ k b, b + k = w → read (write m a w v) (a + b) k = v / 256 ^ b % 256 ^ k := by
    intro k
    induction k with
    | zero => intro b _; simp [read, Nat.mod_one]
    | succ k ih =>
      intro b hb
      have hbyte : write m a w v (a + b) = UInt8.ofNat (v / 256 ^ b) := by
        simp only [write]
        rw [if_pos (by omega), Nat.add_sub_cancel_left]
      have htail := ih (b + 1) (by omega)
      rw [show a + (b + 1) = a + b + 1 by omega] at htail
      rw [read, hbyte, htail, UInt8.toNat_ofNat', pow_succ 256 k, Nat.mul_comm (256 ^ k),
        Nat.mod_mul, Nat.div_div_eq_div_mul, ← pow_succ]
  simpa using key w 0 (by omega)

/-- Reading back a number that fits its field. -/
theorem read_write_of_lt (m : Memory) {a w v : ℕ} (h : v < 256 ^ w) :
    read (write m a w v) a w = v := by
  rw [read_write_same, Nat.mod_eq_of_lt h]

theorem write_apply_of_inside (m : Memory) {a w v x : ℕ} (hlow : a ≤ x) (hhigh : x < a + w) :
    write m a w v x = UInt8.ofNat (v / 256 ^ (x - a)) := by
  simp only [write]
  rw [if_pos ⟨hlow, hhigh⟩]

theorem write_apply_of_outside (m : Memory) {a w v x : ℕ} (h : x < a ∨ a + w ≤ x) :
    write m a w v x = m x := by
  simp only [write]
  rw [if_neg (by omega)]

/-- A store leaves every field outside its byte range alone. -/
theorem read_write_of_disjoint (m : Memory) {a w v b k : ℕ} (h : b + k ≤ a ∨ a + w ≤ b) :
    read (write m a w v) b k = read m b k :=
  read_congr fun x hl hr => write_apply_of_outside m (by omega)

/-- The operation changes the byte at `x`, in some memory at least. -/
def Touches (f : Memory → Memory) (x : ℕ) : Prop := ∃ m, f m x ≠ m x

-- From here on fields are handled through the lemmas above only.
attribute [irreducible] read write

end LibZenit.ByteMemory
