import LibZenit.Base64RoundTrip

/-!
# The strings that `zenit_base64_decode` takes

The decoder looks at each quad by itself: its first two characters are of the alphabet, each of the
other two is of the alphabet or padding. Padding that is not at the end of the string, or that is
followed by a character of the alphabet, is not seen.
-/
namespace LibZenit.Base64
open Blocks CString

/-! ## Shapes -/

def isAlphabet (c : UInt8) : Prop :=
  (65 ≤ c ∧ c ≤ 90) ∨ (97 ≤ c ∧ c ≤ 122) ∨ (48 ≤ c ∧ c ≤ 57) ∨ c = 43 ∨ c = 47

instance (c : UInt8) : Decidable (isAlphabet c) :=
  inferInstanceAs (Decidable (_ ∨ _ ∨ _ ∨ _ ∨ _))

/-- Whole quads over the alphabet, the last one or two characters of which may be padding. -/
def IsEncoding (s : Text) : Prop :=
  s.length % 4 = 0 ∧ ∀ i c, s[i]? = some c →
    isAlphabet c ∨ (c = chPad ∧ (i + 1 = s.length ∨ (i + 2 = s.length ∧ s[i + 1]? = some chPad)))

/-- Whole quads over the alphabet, the last two characters of each of which may be padding. -/
def QuadWise (s : Text) : Prop :=
  s.length % 4 = 0 ∧ ∀ i c, s[i]? = some c → isAlphabet c ∨ (c = chPad ∧ 2 ≤ i % 4)

/-- Padding that is neither the last character nor the last but one before padding. -/
def Misplaced (s : Text) : Prop :=
  ∃ i, s[i]? = some chPad ∧ i + 1 ≠ s.length ∧ ¬ (i + 2 = s.length ∧ s[i + 1]? = some chPad)

/-- The decoder takes the encodings and nothing else, and the empty one stands for no data. -/
def AcceptsExactly (s : Text) : Prop :=
  ((∃ out, zenitBase64Decode true (some (s ++ [0])) = .ok (some out)) ↔ IsEncoding s) ∧
    (s = [] → zenitBase64Decode true (some (s ++ [0])) = .ok (some []))

variable {s : Text}

theorem not_alphabet_pad : ¬ isAlphabet chPad := by decide

/-- An encoding is one quad by quad, without padding at other places. -/
theorem isEncoding_iff (s : Text) : IsEncoding s ↔ QuadWise s ∧ ¬ Misplaced s := by
  constructor
  · rintro ⟨hlen, hchars⟩
    refine ⟨⟨hlen, ?_⟩, ?_⟩
    · intro i c hc
      obtain hletter | ⟨hpad, hplace⟩ := hchars i c hc
      · exact .inl hletter
      · exact .inr ⟨hpad, by omega⟩
    · rintro ⟨i, hi, hlast, hbefore⟩
      obtain hletter | ⟨-, hplace | hplace⟩ := hchars i chPad hi
      · exact not_alphabet_pad hletter
      · exact hlast hplace
      · exact hbefore hplace
  · rintro ⟨⟨hlen, hchars⟩, hplaced⟩
    refine ⟨hlen, ?_⟩
    intro i c hc
    obtain hletter | ⟨rfl, -⟩ := hchars i c hc
    · exact .inl hletter
    · refine .inr ⟨rfl, ?_⟩
      by_contra hplace
      push Not at hplace
      exact hplaced ⟨i, hc, hplace.1, fun h => hplace.2 h.1 h.2⟩

/-! ## Acceptance -/

theorem decTable_letters : ∀ n < 256,
    decChar (UInt8.ofNat n) ≠ 0xFF ↔ isAlphabet (UInt8.ofNat n) := by decide +kernel

theorem decChar_ne_ff (c : UInt8) : decChar c ≠ 0xFF ↔ isAlphabet c := by
  have htable := decTable_letters c.toNat c.toNat_lt
  rwa [UInt8.ofNat_toNat] at htable

/-- What the decoder asks of a quad. -/
theorem quadTriple_isSome (c0 c1 c2 c3 : UInt8) :
    (quadTriple c0 c1 c2 c3).isSome ↔
      isAlphabet c0 ∧ isAlphabet c1 ∧ (isAlphabet c2 ∨ c2 = chPad) ∧
        (isAlphabet c3 ∨ c3 = chPad) := by
  simp only [← decChar_ne_ff, quadTriple]
  by_cases hbad : decChar c0 = 0xFF ∨ decChar c1 = 0xFF ∨ (c2 ≠ chPad ∧ decChar c2 = 0xFF) ∨
      (c3 ≠ chPad ∧ decChar c3 = 0xFF)
  · rw [if_pos hbad]
    simp only [Option.isSome_none, Bool.false_eq_true, false_iff]
    tauto
  · rw [if_neg hbad]
    simp only [Option.isSome_some, true_iff]
    tauto

theorem quadWise_cons (c0 c1 c2 c3 : UInt8) (rest : Text) :
    QuadWise (c0 :: c1 :: c2 :: c3 :: rest) ↔
      (quadTriple c0 c1 c2 c3).isSome ∧ QuadWise rest := by
  rw [quadTriple_isSome]
  constructor
  · rintro ⟨hlen, hchars⟩
    have h0 := hchars 0 c0 rfl
    have h1 := hchars 1 c1 rfl
    have h2 := hchars 2 c2 rfl
    have h3 := hchars 3 c3 rfl
    refine ⟨⟨by simpa using h0, by simpa using h1, by simpa using h2, by simpa using h3⟩, ?_, ?_⟩
    · simp only [List.length_cons] at hlen
      omega
    · intro i c hc
      simpa using hchars (i + 4) c hc
  · rintro ⟨⟨h0, h1, h2, h3⟩, hlen, hchars⟩
    refine ⟨by simp only [List.length_cons]; omega, ?_⟩
    intro i c hc
    match i, hc with
    | 0, hc => simp_all
    | 1, hc => simp_all
    | 2, hc => simp_all
    | 3, hc => simp_all
    | i + 4, hc => simpa using hchars i c hc

theorem decodeText_isSome (hlen : s.length % 4 = 0) : (decodeText s).isSome ↔ QuadWise s := by
  fun_induction decodeText s with
  | case1 c0 c1 c2 c3 rest ih =>
    simp only [List.length_cons] at hlen
    rw [quadWise_cons, ← ih (by omega)]
    cases quadTriple c0 c1 c2 c3 <;> simp
  | case2 rest hshort =>
    have hnil := eq_nil_of_no_quad hlen hshort
    subst hnil
    simp [QuadWise]

theorem accepts_iff (hs : 0 ∉ s) :
    (∃ out, zenitBase64Decode true (some (s ++ [0])) = .ok (some out)) ↔ s ≠ [] ∧ QuadWise s := by
  rw [decode_eq hs]
  by_cases hnil : s = []
  · simp [hnil]
  by_cases hlen : s.length % 4 = 0
  · rw [if_neg (by tauto), ← decodeText_isSome hlen, Option.isSome_iff_exists]
    simp [hnil]
  · rw [if_pos (.inr hlen)]
    simp [QuadWise, hlen]

/-- The decoder is right about the strings that have something in them and that have no padding at
a place that the quad around it allows and the string does not. -/
theorem accepts_exactly_iff (hs : 0 ∉ s) :
    AcceptsExactly s ↔ s ≠ [] ∧ ¬ (QuadWise s ∧ Misplaced s) := by
  rw [AcceptsExactly, accepts_iff hs, isEncoding_iff]
  by_cases hnil : s = []
  · have hempty : zenitBase64Decode true (some (s ++ [0])) ≠ .ok (some []) := by
      rw [decode_eq hs, if_pos (.inl hnil)]
      simp
    exact iff_of_false (fun h => hempty (h.2 hnil)) (fun h => h.1 hnil)
  · simp only [hnil, ne_eq, not_false_eq_true, true_and, false_imp_iff, and_true]
    tauto

/-- `aGVsbG8=` -/
theorem hello_accepts_exactly : AcceptsExactly [97, 71, 86, 115, 98, 71, 56, 61] := by
  refine (accepts_exactly_iff (by decide)).mpr ⟨by simp, ?_⟩
  rintro ⟨-, i, hi, hlast, -⟩
  match i, hi with
  | 7, _ => exact hlast rfl

/-- `AA=A`, `AA==AAAA` and the empty string -/
theorem decoder_misjudges_strings :
    ¬ AcceptsExactly [65, 65, 61, 65] ∧
    ¬ AcceptsExactly [65, 65, 61, 61, 65, 65, 65, 65] ∧
    ¬ AcceptsExactly [] := by
  refine ⟨?_, ?_, ?_⟩
  · intro h
    have hplaced := h.1.mp ⟨[0, 0], by rw [decode_eq (by decide)]; decide⟩
    have hpad := hplaced.2 2 61 rfl
    revert hpad
    decide
  · intro h
    have hplaced := h.1.mp ⟨[0, 0, 0, 0], by rw [decode_eq (by decide)]; decide⟩
    have hpad := hplaced.2 2 61 rfl
    revert hpad
    decide
  · intro h
    have hempty := h.2 rfl
    rw [decode_eq (by decide)] at hempty
    revert hempty
    decide

end LibZenit.Base64
