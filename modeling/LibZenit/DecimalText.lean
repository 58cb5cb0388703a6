import Mathlib.Tactic

/-!
# Decimal numbers as bytes

The value of a string of digits, and the canonical digits of a number.
-/
namespace LibZenit.DecimalText

def isDigit (c : UInt8) : Bool := 48 ≤ c && c ≤ 57

def digitValue (c : UInt8) : ℕ := c.toNat - 48

def decimalValue (ds : List UInt8) : ℕ := ds.foldl (fun n c => n * 10 + digitValue c) 0

def digitByte (d : ℕ) : UInt8 := UInt8.ofNat (Nat.digitChar d).toNat

def decimalText (n : ℕ) : List UInt8 := (Nat.toDigits 10 n).map fun c => UInt8.ofNat c.toNat

/-- A zero stands in front only as the whole number. -/
def NoLeadingZero (ds : List UInt8) : Prop := ds.head? = some 48 → ds = [48]

instance (ds : List UInt8) : Decidable (NoLeadingZero ds) :=
  inferInstanceAs (Decidable (ds.head? = some 48 → ds = [48]))

variable {c : UInt8} {ds : List UInt8} {d n k : ℕ}

/-! ## Digits -/

theorem isDigit_iff : isDigit c = true ↔ 48 ≤ c.toNat ∧ c.toNat ≤ 57 := by
  simp [isDigit, UInt8.le_iff_toNat_le]

theorem digitValue_lt (h : isDigit c = true) : digitValue c < 10 := by
  have hc := isDigit_iff.mp h
  unfold digitValue
  omega

theorem toNat_digitByte (h : d < 10) : (digitByte d).toNat = 48 + d := by
  rw [digitByte, Nat.toNat_digitChar_of_lt_ten h, UInt8.toNat_ofNat']
  omega

theorem isDigit_digitByte (h : d < 10) : isDigit (digitByte d) = true := by
  rw [isDigit_iff, toNat_digitByte h]
  omega

theorem digitValue_digitByte (h : d < 10) : digitValue (digitByte d) = d := by
  rw [digitValue, toNat_digitByte h]
  omega

theorem digitByte_digitValue (h : isDigit c = true) : digitByte (digitValue c) = c := by
  have hc := isDigit_iff.mp h
  apply UInt8.toNat_inj.mp
  rw [toNat_digitByte (digitValue_lt h), digitValue]
  omega

theorem digitByte_eq_zero_iff (h : d < 10) : digitByte d = 48 ↔ d = 0 := by
  rw [← UInt8.toNat_inj, toNat_digitByte h]
  simp

/-! ## Values -/

theorem decimalValue_append (ds : List UInt8) (c : UInt8) :
    decimalValue (ds ++ [c]) = decimalValue ds * 10 + digitValue c := by
  simp [decimalValue]

theorem decimalText_eq (n : ℕ) : decimalText n =
    if n < 10 then [digitByte n] else decimalText (n / 10) ++ [digitByte (n % 10)] := by
  unfold decimalText digitByte
  rw [Nat.toDigits_eq_if (by decide)]
  split_ifs <;> simp

theorem decimalText_ne_nil (n : ℕ) : decimalText n ≠ [] := by
  simp [decimalText, Nat.toDigits_ne_nil]

theorem length_decimalText_le (hk : 0 < k) (h : n < 10 ^ k) : (decimalText n).length ≤ k := by
  rw [decimalText, List.length_map]
  exact (Nat.length_toDigits_le_iff (by decide) hk).mpr h

theorem isDigit_of_mem_decimalText : ∀ c ∈ decimalText n, isDigit c = true := by
  induction n using Nat.strong_induction_on with
  | _ n ih =>
    rw [decimalText_eq]
    split_ifs with hn
    · simp only [List.mem_singleton, forall_eq]
      exact isDigit_digitByte hn
    · intro c hc
      rcases List.mem_append.mp hc with hc | hc
      · exact ih (n / 10) (by omega) c hc
      · rw [List.mem_singleton.mp hc]
        exact isDigit_digitByte (by omega)

theorem decimalValue_decimalText (n : ℕ) : decimalValue (decimalText n) = n := by
  induction n using Nat.strong_induction_on with
  | _ n ih =>
    rw [decimalText_eq]
    split_ifs with hn
    · simp [decimalValue, digitValue_digitByte hn]
    · rw [decimalValue_append, ih (n / 10) (by omega), digitValue_digitByte (by omega)]
      omega

theorem head_decimalText_ne_zero (hn : n ≠ 0) : (decimalText n).head? ≠ some 48 := by
  induction n using Nat.strong_induction_on with
  | _ n ih =>
    rw [decimalText_eq]
    split_ifs with hlt
    · simp [digitByte_eq_zero_iff hlt, hn]
    · rw [List.head?_append_of_ne_nil _ (decimalText_ne_nil _)]
      exact ih (n / 10) (by omega) (by omega)

theorem noLeadingZero_decimalText (n : ℕ) : NoLeadingZero (decimalText n) := by
  intro h
  by_cases hn : n = 0
  · subst hn
    rfl
  · exact absurd h (head_decimalText_ne_zero hn)

theorem decimalValue_pos (hd : ∀ c ∈ ds, isDigit c = true) (hne : ds ≠ [])
    (hz : ds.head? ≠ some 48) : 0 < decimalValue ds := by
  induction ds using List.reverseRecOn with
  | nil => exact absurd rfl hne
  | append_singleton ds c ih =>
    rw [decimalValue_append]
    cases ds with
    | nil =>
      have hc := isDigit_iff.mp (hd c (by simp))
      have hval : c.toNat ≠ 48 := by
        intro he
        exact hz (by simp [← UInt8.toNat_inj, he])
      unfold digitValue
      omega
    | cons a ds =>
      have hpos := ih (fun x hx => hd x (List.mem_append_left _ hx)) (by simp) (by simpa using hz)
      omega

/-- Digits without a leading zero are the digits of their value. -/
theorem decimalText_decimalValue (hd : ∀ c ∈ ds, isDigit c = true) (hne : ds ≠ [])
    (hz : NoLeadingZero ds) : decimalText (decimalValue ds) = ds := by
  induction ds using List.reverseRecOn with
  | nil => exact absurd rfl hne
  | append_singleton ds c ih =>
    have hc := hd c (by simp)
    have hlt := digitValue_lt hc
    rw [decimalValue_append]
    cases ds with
    | nil =>
      rw [decimalText_eq, if_pos (by simpa [decimalValue] using hlt)]
      simp [decimalValue, digitByte_digitValue hc]
    | cons a ds =>
      have hinit : ∀ x ∈ a :: ds, isDigit x = true := fun x hx => hd x (List.mem_append_left _ hx)
      have ha : a ≠ 48 := by
        intro ha
        have habs := hz (by simp [ha])
        simp at habs
      have hpos := decimalValue_pos hinit (by simp) (by simp [ha])
      rw [decimalText_eq, if_neg (by omega),
        show (decimalValue (a :: ds) * 10 + digitValue c) / 10 = decimalValue (a :: ds) by omega,
        show (decimalValue (a :: ds) * 10 + digitValue c) % 10 = digitValue c by omega,
        digitByte_digitValue hc, ih hinit (by simp) (by intro h; simp [ha] at h)]

end LibZenit.DecimalText
