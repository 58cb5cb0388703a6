import LibZenit.JsonNumbers

/-!
# The syntax of numbers

`parse_number_digits` stops behind a leading zero. That is the rule for the integer part, and the
same function reads the digits of the fraction and of the exponent, which may begin with zeros.
-/
namespace LibZenit.Json

variable {s t ds fr ex rest tok : List UInt8}

/-- Further digits behind a leading zero. -/
def Padded (ds : List UInt8) : Prop := Digits ds ∧ ∃ d t, ds = chZero :: d :: t

def PaddedFraction (fr : List UInt8) : Prop := ∃ fs, Padded fs ∧ fr = chDot :: fs

def PaddedExponent (ex : List UInt8) : Prop :=
  ∃ m sg es, isExpMark m = true ∧ (sg = [] ∨ sg = [chPlus] ∨ sg = [chMinus]) ∧ Padded es ∧
    ex = m :: (sg ++ es)

/-- A number of RFC 8259 with a padded fraction or exponent. -/
def PaddedNumber (tok : List UInt8) : Prop :=
  ∃ sg ds fr ex, (sg = [] ∨ sg = [chMinus]) ∧ IsInteger ds ∧ IsFraction fr ∧ IsExponent ex ∧
    (PaddedFraction fr ∨ PaddedExponent ex) ∧ tok = sg ++ (ds ++ (fr ++ ex))

/-- What `%g` prints of a finite number: an exponent has a sign and two digits or more. -/
def GeneralFormat (tok : List UInt8) : Prop :=
  ∃ sg ds fr ex, (sg = [] ∨ sg = [chMinus]) ∧ IsInteger ds ∧ IsFraction fr ∧
    (ex = [] ∨ ∃ g es, (g = chPlus ∨ g = chMinus) ∧ Digits es ∧ 2 ≤ es.length ∧
      ex = chLowerE :: g :: es) ∧ tok = sg ++ (ds ++ (fr ++ ex))

/-- The bytes that `strtod` consumes at the position. -/
def consumed (mem : List UInt8) (pos : ℕ) : List UInt8 :=
  (mem.drop pos).take (floatLen (mem.drop pos))

theorem GeneralFormat.rfcNumber (h : GeneralFormat tok) : RfcNumber tok := by
  obtain ⟨sg, ds, fr, ex, hsg, hds, hfr, hex, rfl⟩ := h
  refine ⟨sg, ds, fr, ex, hsg, hds, hfr, ?_, rfl⟩
  rcases hex with rfl | ⟨g, es, hg, hes, -, rfl⟩
  · exact Or.inl rfl
  · refine Or.inr ⟨chLowerE, [g], es, rfl, Or.inr ?_, hes, rfl⟩
    rcases hg with rfl | rfl
    · exact Or.inl rfl
    · exact Or.inr rfl

/-! ## Runs of digits -/

theorem Digits.isInteger_or_padded (h : Digits ds) : IsInteger ds ∨ Padded ds := by
  obtain ⟨c, t, rfl⟩ := List.exists_cons_of_ne_nil h.1
  by_cases hc : c = chZero
  · subst hc
    cases t with
    | nil => exact Or.inl ⟨h, Or.inl rfl⟩
    | cons d t => exact Or.inr ⟨h, d, t, rfl⟩
  · exact Or.inl ⟨h, Or.inr (by simpa using hc)⟩

theorem parseNumberDigits_integer (h : IsInteger ds) (hrest : Stops isDigit rest) :
    parseNumberDigits (ds ++ rest) = some rest := by
  obtain ⟨hds, rfl | hhead⟩ := h
  · rfl
  · obtain ⟨c, t, rfl⟩ := List.exists_cons_of_ne_nil hds.1
    have hc : isDigit c = true := hds.2 c List.mem_cons_self
    have hzero : c ≠ chZero := by simpa using hhead
    have hdrop : (c :: t ++ rest).dropWhile isDigit = rest := by
      rw [List.dropWhile_append_of_pos hds.2]
      cases rest with
      | nil => rfl
      | cons d u => exact List.dropWhile_cons_of_neg (by simp [hrest d u rfl])
    rw [List.cons_append, parseNumberDigits, if_neg (by simp [hc]), if_neg hzero]
    exact congrArg some hdrop

/-- Behind a leading zero the digits are left over. -/
theorem parseNumberDigits_padded (h : Padded ds) :
    ∃ d t, isDigit d = true ∧ ∀ rest, parseNumberDigits (ds ++ rest) = some (d :: t ++ rest) := by
  obtain ⟨hds, d, t, rfl⟩ := h
  exact ⟨d, t, hds.2 d (by simp), fun rest => rfl⟩

/-! ## The check of the consumed bytes -/

theorem stops_nil {cls : UInt8 → Bool} : Stops cls [] := by
  intro c t h
  cases h

theorem fraction_exponent_stops (hfr : IsFraction fr) (hex : IsExponent ex) :
    Stops isDigit (fr ++ ex) :=
  (hfr.stops (by decide)).append (hex.stops fun _ => not_isDigit_of_isExpMark)

theorem scanNumber_parts {sg : List UInt8} (hsg : sg = [] ∨ sg = [chMinus]) (hds : IsInteger ds)
    (hrest : Stops isDigit rest) :
    scanNumber (sg ++ (ds ++ rest)) = (parseFraction rest).bind parseExponent := by
  have hskip : skipMinus (sg ++ (ds ++ rest)) = ds ++ rest := by
    rcases hsg with rfl | rfl
    · obtain ⟨c, t, rfl⟩ := List.exists_cons_of_ne_nil hds.1.1
      have hc : c ≠ chMinus := by
        rintro rfl
        exact absurd (hds.1.2 chMinus List.mem_cons_self) (by decide)
      exact if_neg hc
    · rfl
  rw [scanNumber, hskip, parseNumberDigits_integer hds hrest]
  rfl

theorem parseFraction_integer (hfr : IsFraction fr) (hpad : ¬PaddedFraction fr)
    (hex : IsExponent ex) : parseFraction (fr ++ ex) = some ex := by
  rcases hfr with rfl | ⟨fs, hfs, rfl⟩
  · rcases hex with rfl | ⟨m, sg, es, hm, -, -, rfl⟩
    · rfl
    · have hdot : m ≠ chDot := by
        rintro rfl
        exact absurd hm (by decide)
      exact if_neg hdot
  · have hint := hfs.isInteger_or_padded.resolve_right fun h => hpad ⟨fs, h, rfl⟩
    exact parseNumberDigits_integer hint (hex.stops fun _ => not_isDigit_of_isExpMark)

/-- The sign of an exponent is stepped over. -/
theorem parseExponent_mark {m : UInt8} {sg es : List UInt8} (hm : isExpMark m = true)
    (hsg : sg = [] ∨ sg = [chPlus] ∨ sg = [chMinus]) (hes : Digits es) :
    parseExponent (m :: (sg ++ es)) = parseNumberDigits es := by
  have hsign : signLen (sg ++ (es ++ [])) = sg.length := signLen_sign hsg hes
  rw [List.append_nil] at hsign
  rw [parseExponent, if_pos hm, hsign, List.drop_left]

theorem parseExponent_integer (hex : IsExponent ex) (hpad : ¬PaddedExponent ex) :
    parseExponent ex = some [] := by
  rcases hex with rfl | ⟨m, sg, es, hm, hsg, hes, rfl⟩
  · rfl
  · have hint := hes.isInteger_or_padded.resolve_right fun h => hpad ⟨m, sg, es, hm, hsg, h, rfl⟩
    have hdigits := parseNumberDigits_integer hint stops_nil
    rw [List.append_nil] at hdigits
    rw [parseExponent_mark hm hsg hes, hdigits]

/-- A number that is not padded passes the check. -/
theorem scanNumber_of_not_padded (h : RfcNumber tok) (hpad : ¬PaddedNumber tok) :
    scanNumber tok = some [] := by
  obtain ⟨sg, ds, fr, ex, hsg, hds, hfr, hex, rfl⟩ := h
  have hfrac : ¬PaddedFraction fr := fun hf =>
    hpad ⟨sg, ds, fr, ex, hsg, hds, hfr, hex, Or.inl hf, rfl⟩
  have hexp : ¬PaddedExponent ex := fun he =>
    hpad ⟨sg, ds, fr, ex, hsg, hds, hfr, hex, Or.inr he, rfl⟩
  rw [scanNumber_parts hsg hds (fraction_exponent_stops hfr hex),
    parseFraction_integer hfr hfrac hex]
  exact parseExponent_integer hex hexp

/-- A padded number leaves digits over. -/
theorem scanNumber_of_padded (h : PaddedNumber tok) : scanNumber tok ≠ some [] := by
  obtain ⟨sg, ds, fr, ex, hsg, hds, hfr, hex, hpad, rfl⟩ := h
  rw [scanNumber_parts hsg hds (fraction_exponent_stops hfr hex)]
  by_cases hfrac : PaddedFraction fr
  · obtain ⟨fs, hfs, rfl⟩ := hfrac
    obtain ⟨d, t, hd, hdigits⟩ := parseNumberDigits_padded hfs
    have hmark : ¬isExpMark d = true := fun hm => by
      rw [not_isDigit_of_isExpMark hm] at hd
      cases hd
    have hparse : parseFraction (chDot :: fs ++ ex) = some (d :: (t ++ ex)) := hdigits ex
    rw [hparse, Option.bind_some, parseExponent, if_neg hmark]
    simp
  · obtain ⟨m, g, es, hm, hg, hes, rfl⟩ := hpad.resolve_left hfrac
    obtain ⟨d, t, -, hdigits⟩ := parseNumberDigits_padded hes
    have hparse := hdigits []
    rw [List.append_nil] at hparse
    rw [parseFraction_integer hfr hfrac hex, Option.bind_some, parseExponent_mark hm hg hes.1,
      hparse]
    simp

theorem PaddedNumber.rfcNumber (h : PaddedNumber tok) : RfcNumber tok := by
  obtain ⟨sg, ds, fr, ex, hsg, hds, hfr, hex, -, rfl⟩ := h
  exact ⟨sg, ds, fr, ex, hsg, hds, hfr, hex, rfl⟩

/-- The parser accepts what passes the check. -/
theorem parseNumber_isSome_iff {D : Type} (toDouble : List UInt8 → D) (mem : List UInt8) (pos : ℕ) :
    (parseNumber toDouble mem pos).isSome = true ↔ scanNumber (consumed mem pos) = some [] := by
  rw [parseNumber, consumed]
  split_ifs with hzero hscan
  · rw [hzero, List.take_zero]
    simp [scanNumber, skipMinus, parseNumberDigits]
  · simp [hscan]
  · simp [hscan]

/-- The parser decides the number syntax of RFC 8259 at every text, except that it refuses the
padded numbers. So it is with the texts that `%g` prints. -/
theorem number_syntax_iff {D : Type} (toDouble : List UInt8 → D) :
    (∀ mem pos, ((parseNumber toDouble mem pos).isSome = true ↔ RfcNumber (consumed mem pos)) ↔
      ¬PaddedNumber (consumed mem pos)) ∧
    ∀ tok rest, GeneralFormat tok → Stops continues rest →
      ((parseNumber toDouble (tok ++ rest) 0).isSome = true ↔ ¬PaddedNumber tok) := by
  constructor
  · intro mem pos
    rw [parseNumber_isSome_iff]
    constructor
    · intro hiff hpad
      exact scanNumber_of_padded hpad (hiff.mpr hpad.rfcNumber)
    · exact fun hpad => ⟨rfcNumber_of_scan, fun h => scanNumber_of_not_padded h hpad⟩
  · intro tok rest hgeneral hrest
    have hrfc := hgeneral.rfcNumber
    have hconsumed : consumed (tok ++ rest) 0 = tok := by
      rw [consumed, List.drop_zero, floatLen_shape hrfc.shape hrest, List.take_left]
    rw [parseNumber_isSome_iff, hconsumed]
    exact ⟨fun hscan hpad => scanNumber_of_padded hpad hscan, scanNumber_of_not_padded hrfc⟩

/-- `1.5` as `%g` prints it. -/
theorem general_number_accepted :
    GeneralFormat [49, 46, 53] ∧ (parseNumber id [49, 46, 53, 0] 0).isSome = true ∧
      ¬PaddedNumber [49, 46, 53] := by
  have hgeneral : GeneralFormat [49, 46, 53] :=
    ⟨[], [49], [46, 53], [], Or.inl rfl,
      ⟨⟨by simp, List.all_eq_true.mp rfl⟩, Or.inr (by decide)⟩,
      Or.inr ⟨[53], ⟨by simp, List.all_eq_true.mp rfl⟩, rfl⟩, Or.inl rfl, rfl⟩
  have hrest : Stops continues [0] := by
    intro c t h
    obtain ⟨rfl, -⟩ := List.cons.inj h
    decide
  have haccepted : (parseNumber id [49, 46, 53, 0] 0).isSome = true := by decide
  exact ⟨hgeneral, haccepted, ((number_syntax_iff id).2 _ _ hgeneral hrest).mp haccepted⟩

/-- `1.05`, and the text that `%g` prints of a hundred-thousandth. -/
theorem padded_numbers_refused :
    consumed [49, 46, 48, 53, 0] 0 = [49, 46, 48, 53] ∧ RfcNumber [49, 46, 48, 53] ∧
      parseNumber id [49, 46, 48, 53, 0] 0 = none ∧
    GeneralFormat [49, 101, 45, 48, 53] ∧ parseNumber id [49, 101, 45, 48, 53, 0] 0 = none := by
  refine ⟨by decide, ?_, by decide, ?_, by decide⟩
  · exact ⟨[], [49], [46, 48, 53], [], Or.inl rfl,
      ⟨⟨by simp, List.all_eq_true.mp rfl⟩, Or.inr (by decide)⟩,
      Or.inr ⟨[48, 53], ⟨by simp, List.all_eq_true.mp rfl⟩, rfl⟩, Or.inl rfl, rfl⟩
  · exact ⟨[], [49], [], [101, 45, 48, 53], Or.inl rfl,
      ⟨⟨by simp, List.all_eq_true.mp rfl⟩, Or.inr (by decide)⟩, Or.inl rfl,
      Or.inr ⟨45, [48, 53], Or.inr rfl, ⟨by simp, List.all_eq_true.mp rfl⟩, by simp, rfl⟩, rfl⟩

end LibZenit.Json
