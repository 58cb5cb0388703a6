import Mathlib.Data.FinEnum

/-!
# Hexadecimal digits

Digits of values below sixteen as ASCII characters, with letters of either case, and the value of
a digit. A byte is the pair of its halves.
-/
namespace LibZenit.HexDigits

/-- The digit of the low half of `v`, with the letters from `letter` on. -/
def digit (letter v : UInt8) : UInt8 :=
  let n := v &&& 0x0F
  if n < 10 then 48 + n else letter + n - 10

/-- The value of a digit, or `0xFF`. -/
def value (c : UInt8) : UInt8 :=
  if 48 ≤ c ∧ c ≤ 57 then c - 48
  else if 97 ≤ c ∧ c ≤ 102 then c - 97 + 10
  else if 65 ≤ c ∧ c ≤ 70 then c - 65 + 10
  else 0xFF

def isDecimal (c : UInt8) : Bool := 48 ≤ c && c ≤ 57

def isUpper (c : UInt8) : Bool := isDecimal c || (65 ≤ c && c ≤ 70)

def isLower (c : UInt8) : Bool := isDecimal c || (97 ≤ c && c ≤ 102)

def isHex (c : UInt8) : Bool := isUpper c || isLower c

/-- A letter from `A` to `F` in lower case. -/
def lower (c : UInt8) : UInt8 := if 65 ≤ c ∧ c ≤ 90 then c + 32 else c

/-- The byte of two digits. -/
def pair (hi lo : UInt8) : UInt8 := value hi <<< 4 ||| value lo

/-- The two digits of a byte. -/
def digits (letter b : UInt8) : List UInt8 := [digit letter (b >>> 4), digit letter (b &&& 0x0F)]

/-- The facts below, checked at each of the 256 bytes and at each pair of halves. -/
theorem digit_table :
    (∀ c : UInt8, (value c = 0xFF ↔ isHex c = false) ∧
      (value (digit 65 c) = c &&& 0x0F ∧ value (digit 97 c) = c &&& 0x0F) ∧
      (isUpper (digit 65 c) = true ∧ isLower (digit 97 c) = true) ∧
      ((c >>> 4 &&& 0x0F) <<< 4 ||| (c &&& 0x0F &&& 0x0F) = c) ∧
      (isHex c = true → digit 97 (value c) = lower c ∧ value c < 16)) ∧
    ∀ m n : Fin 16, (UInt8.ofNat m <<< 4 ||| UInt8.ofNat n) >>> 4 = UInt8.ofNat m ∧
      (UInt8.ofNat m <<< 4 ||| UInt8.ofNat n) &&& 0x0F = UInt8.ofNat n := by
  decide +kernel

theorem value_eq_ff (c : UInt8) : value c = 0xFF ↔ isHex c = false := (digit_table.1 c).1

theorem value_digit_upper (v : UInt8) : value (digit 65 v) = v &&& 0x0F := (digit_table.1 v).2.1.1

theorem value_digit_lower (v : UInt8) : value (digit 97 v) = v &&& 0x0F := (digit_table.1 v).2.1.2

theorem isUpper_digit (v : UInt8) : isUpper (digit 65 v) = true := (digit_table.1 v).2.2.1.1

theorem isLower_digit (v : UInt8) : isLower (digit 97 v) = true := (digit_table.1 v).2.2.1.2

/-- The halves of a byte make the byte. -/
theorem halves (b : UInt8) :
    (b >>> 4 &&& 0x0F) <<< 4 ||| (b &&& 0x0F &&& 0x0F) = b := (digit_table.1 b).2.2.2.1

theorem digit_value_lower (c : UInt8) (h : isHex c = true) : digit 97 (value c) = lower c :=
  ((digit_table.1 c).2.2.2.2 h).1

theorem value_lt (c : UInt8) (h : isHex c = true) : value c < 16 :=
  ((digit_table.1 c).2.2.2.2 h).2

theorem pair_halves (a b : UInt8) (ha : a < 16) (hb : b < 16) :
    (a <<< 4 ||| b) >>> 4 = a ∧ (a <<< 4 ||| b) &&& 0x0F = b := by
  have hall := digit_table.2
  simpa only [UInt8.ofNat_toNat] using hall ⟨a.toNat, ha⟩ ⟨b.toNat, hb⟩

theorem isHex_of_isUpper {c : UInt8} (h : isUpper c = true) : isHex c = true := by
  rw [isHex, h, Bool.true_or]

theorem isHex_of_isLower {c : UInt8} (h : isLower c = true) : isHex c = true := by
  rw [isHex, h, Bool.or_true]

theorem ne_zero_of_isHex {c : UInt8} (h : isHex c = true) : c ≠ 0 := by
  rintro rfl
  cases h

/-- The value of a digit that is not one of the bytes above. -/
theorem value_ne_ff {c : UInt8} (h : isHex c = true) : value c ≠ 0xFF := by
  rw [Ne, value_eq_ff, h]
  simp

theorem pair_digits_upper (b : UInt8) :
    pair (digit 65 (b >>> 4)) (digit 65 (b &&& 0x0F)) = b := by
  rw [pair, value_digit_upper, value_digit_upper, halves]

theorem pair_digits_lower (b : UInt8) :
    pair (digit 97 (b >>> 4)) (digit 97 (b &&& 0x0F)) = b := by
  rw [pair, value_digit_lower, value_digit_lower, halves]

/-- Two digits written again in lower case. -/
theorem digits_pair_lower {a b : UInt8} (ha : isHex a = true) (hb : isHex b = true) :
    digits 97 (pair a b) = [lower a, lower b] := by
  obtain ⟨hhi, hlo⟩ := pair_halves _ _ (value_lt a ha) (value_lt b hb)
  rw [digits, pair, hhi, hlo, digit_value_lower a ha, digit_value_lower b hb]

end LibZenit.HexDigits
