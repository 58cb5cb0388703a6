import Mathlib.Data.List.TakeWhile
import LibZenit.JsonBounds

/-!
# Number tokens

The bytes that `parse_number` lets through have a sign, digits, a fraction and an exponent. `strtod`
reads such a token to its end and no further when a delimiter follows, and it reads on when a digit
follows.
-/
namespace LibZenit.Json

/-! ## The shape of a token -/

def Digits (ds : List UInt8) : Prop := ds ≠ [] ∧ ∀ c ∈ ds, isDigit c = true

def IsFraction (fr : List UInt8) : Prop := fr = [] ∨ ∃ fs, Digits fs ∧ fr = chDot :: fs

def IsExponent (ex : List UInt8) : Prop :=
  ex = [] ∨ ∃ m sg es, isExpMark m = true ∧ (sg = [] ∨ sg = [chPlus] ∨ sg = [chMinus]) ∧
    Digits es ∧ ex = m :: (sg ++ es)

/-- An optional minus, then digits, fraction and exponent. -/
def NumberShape (tok : List UInt8) : Prop :=
  ∃ sg ds fr ex, (sg = [] ∨ sg = [chMinus]) ∧ Digits ds ∧ IsFraction fr ∧ IsExponent ex ∧
    tok = sg ++ (ds ++ (fr ++ ex))

/-- Digits without a leading zero, or a zero alone. -/
def IsInteger (ds : List UInt8) : Prop := Digits ds ∧ (ds = [chZero] ∨ ds.head? ≠ some chZero)

/-- A number of RFC 8259. Only its integer part may not have leading zeros. -/
def RfcNumber (tok : List UInt8) : Prop :=
  ∃ sg ds fr ex, (sg = [] ∨ sg = [chMinus]) ∧ IsInteger ds ∧ IsFraction fr ∧ IsExponent ex ∧
    tok = sg ++ (ds ++ (fr ++ ex))

theorem RfcNumber.shape {tok : List UInt8} (h : RfcNumber tok) : NumberShape tok := by
  obtain ⟨sg, ds, fr, ex, hsg, hds, hfr, hex, rfl⟩ := h
  exact ⟨sg, ds, fr, ex, hsg, hds.1, hfr, hex, rfl⟩

theorem parseNumberDigits_shape {s r : List UInt8} (h : parseNumberDigits s = some r) :
    ∃ ds, IsInteger ds ∧ s = ds ++ r := by
  cases s with
  | nil => simp [parseNumberDigits] at h
  | cons c t =>
    rw [parseNumberDigits] at h
    split_ifs at h with hd hz
    · obtain rfl : t = r := by simpa using h
      exact ⟨[c], ⟨⟨by simp, by simpa using hd⟩, Or.inl (by rw [hz])⟩, rfl⟩
    · obtain rfl : (c :: t).dropWhile isDigit = r := by simpa using h
      have hc : isDigit c = true := by simpa using hd
      refine ⟨(c :: t).takeWhile isDigit, ⟨⟨by simp [hc], ?_⟩, Or.inr (by simp [hc, hz])⟩,
        List.takeWhile_append_dropWhile.symm⟩
      exact fun b hb => List.mem_takeWhile_imp hb

theorem parseFraction_shape {s r : List UInt8} (h : parseFraction s = some r) :
    ∃ fr, IsFraction fr ∧ s = fr ++ r := by
  cases s with
  | nil =>
    obtain rfl : [] = r := by simpa [parseFraction] using h
    exact ⟨[], Or.inl rfl, rfl⟩
  | cons c t =>
    rw [parseFraction] at h
    split_ifs at h with hdot
    · obtain ⟨fs, hfs, rfl⟩ := parseNumberDigits_shape h
      exact ⟨c :: fs, Or.inr ⟨fs, hfs.1, by rw [hdot]⟩, rfl⟩
    · obtain rfl : c :: t = r := by simpa using h
      exact ⟨[], Or.inl rfl, rfl⟩

theorem sign_split (t : List UInt8) :
    ∃ sg, (sg = [] ∨ sg = [chPlus] ∨ sg = [chMinus]) ∧ t = sg ++ t.drop (signLen t) := by
  cases t with
  | nil => exact ⟨[], Or.inl rfl, rfl⟩
  | cons c t =>
    rw [signLen]
    split_ifs with hc
    · rcases hc with rfl | rfl
      · exact ⟨[chPlus], by simp, by simp⟩
      · exact ⟨[chMinus], by simp, by simp⟩
    · exact ⟨[], by simp, by simp⟩

theorem parseExponent_shape {s : List UInt8} (h : parseExponent s = some []) : IsExponent s := by
  cases s with
  | nil => exact Or.inl rfl
  | cons c t =>
    rw [parseExponent] at h
    split_ifs at h with hm
    · obtain ⟨es, hes, hrest⟩ := parseNumberDigits_shape h
      obtain ⟨sg, hsg, ht⟩ := sign_split t
      refine Or.inr ⟨c, sg, es, hm, hsg, hes.1, ?_⟩
      rw [hrest, List.append_nil] at ht
      rw [ht]
    · simp at h

theorem rfcNumber_of_scan {tok : List UInt8} (h : scanNumber tok = some []) :
    RfcNumber tok := by
  simp only [scanNumber, Option.bind_eq_bind, Option.bind_eq_some_iff] at h
  obtain ⟨s₁, h₁, s₂, h₂, h₃⟩ := h
  obtain ⟨ds, hds, hs⟩ := parseNumberDigits_shape h₁
  obtain ⟨fr, hfr, rfl⟩ := parseFraction_shape h₂
  have hex := parseExponent_shape h₃
  cases tok with
  | nil => simp [skipMinus, parseNumberDigits] at h₁
  | cons c t =>
    rw [skipMinus] at hs
    split_ifs at hs with hc
    · exact ⟨[chMinus], ds, fr, s₂, Or.inr rfl, hds, hfr, hex, by simp [hc, hs]⟩
    · exact ⟨[], ds, fr, s₂, Or.inl rfl, hds, hfr, hex, hs⟩

theorem numberShape_of_scan {tok : List UInt8} (h : scanNumber tok = some []) :
    NumberShape tok := (rfcNumber_of_scan h).shape

theorem Digits.snoc {ds : List UInt8} {d : UInt8} (h : Digits ds) (hd : isDigit d = true) :
    Digits (ds ++ [d]) := by
  refine ⟨by simp, fun c hc => ?_⟩
  rcases List.mem_append.mp hc with hc | hc
  · exact h.2 c hc
  · rw [List.mem_singleton.mp hc, hd]

/-- A digit behind a token gives a longer token. -/
theorem NumberShape.snoc {tok : List UInt8} {d : UInt8} (h : NumberShape tok)
    (hd : isDigit d = true) : NumberShape (tok ++ [d]) := by
  obtain ⟨sg, ds, fr, ex, hsg, hds, hfr, hex, rfl⟩ := h
  rcases hex with rfl | ⟨m, g, es, hm, hg, hes, rfl⟩
  · rcases hfr with rfl | ⟨fs, hfs, rfl⟩
    · exact ⟨sg, ds ++ [d], [], [], hsg, hds.snoc hd, Or.inl rfl, Or.inl rfl, by simp⟩
    · exact ⟨sg, ds, chDot :: (fs ++ [d]), [], hsg, hds, Or.inr ⟨_, hfs.snoc hd, rfl⟩,
        Or.inl rfl, by simp⟩
  · exact ⟨sg, ds, fr, m :: (g ++ (es ++ [d])), hsg, hds, hfr,
      Or.inr ⟨m, g, es ++ [d], hm, hg, hes.snoc hd, rfl⟩, by simp⟩

/-! ## What may follow -/

/-- The bytes that may follow a value inside an array or an object. -/
def isDelimiter (c : UInt8) : Bool := isWs c || c == chComma || c == chRBracket || c == chRBrace

/-- Nothing follows, or a byte outside the class. -/
def Stops (cls : UInt8 → Bool) (s : List UInt8) : Prop := ∀ c t, s = c :: t → cls c = false

variable {cls : UInt8 → Bool} {s t ds fr ex rest : List UInt8}

theorem Stops.append (hs : Stops cls s) (ht : Stops cls t) : Stops cls (s ++ t) := by
  cases s with
  | nil => exact ht
  | cons a s =>
    intro c u h
    obtain ⟨rfl, -⟩ := List.cons.inj h
    exact hs a s rfl

theorem Stops.takeWhile_eq_nil (h : Stops cls s) : s.takeWhile cls = [] := by
  cases s with
  | nil => rfl
  | cons c t => simp [h c t rfl]

theorem takeWhile_append_stops (hs : ∀ c ∈ s, cls c = true) (h : Stops cls t) :
    (s ++ t).takeWhile cls = s := by
  rw [List.takeWhile_append_of_pos hs, h.takeWhile_eq_nil, List.append_nil]

theorem IsFraction.stops (h : IsFraction fr) (hdot : cls chDot = false) : Stops cls fr := by
  rcases h with rfl | ⟨fs, -, rfl⟩
  · intro c t h
    simp at h
  · intro c t h
    obtain ⟨rfl, -⟩ := List.cons.inj h
    exact hdot

theorem IsExponent.stops (h : IsExponent ex) (hexp : ∀ c, isExpMark c = true → cls c = false) :
    Stops cls ex := by
  rcases h with rfl | ⟨m, sg, es, hm, -, -, rfl⟩
  · intro c t h
    simp at h
  · intro c t h
    obtain ⟨rfl, -⟩ := List.cons.inj h
    exact hexp _ hm

/-- The bytes with which `strtod` would go on: digits, point, exponent mark and hexadecimal mark. -/
def continues (c : UInt8) : Bool :=
  isDigit c || c == chDot || isExpMark c || c == 120 || c == 88

theorem Stops.mono {cls' : UInt8 → Bool} (h : Stops cls s)
    (hc : ∀ c, cls' c = true → cls c = true) : Stops cls' s := by
  intro c t hs
  have hcls := h c t hs
  by_contra hne
  rw [hc c (by simpa using hne)] at hcls
  simp at hcls

theorem continues_eq_false {c : UInt8} (h : isDelimiter c = true) : continues c = false := by
  unfold isDelimiter isWs at h
  simp only [Bool.or_eq_true, beq_iff_eq] at h
  rcases h with ((((((rfl | rfl) | rfl) | rfl) | rfl) | rfl) | rfl) <;> decide

theorem not_isDigit_of_isExpMark {c : UInt8} (h : isExpMark c = true) : isDigit c = false := by
  unfold isExpMark at h
  simp only [Bool.or_eq_true, beq_iff_eq] at h
  rcases h with rfl | rfl <;> decide

/-! ## `strtod` on a token -/

theorem mantissaLen_shape (hds : Digits ds) (hfr : IsFraction fr) (hex : IsExponent ex)
    (hrest : Stops continues rest) :
    mantissaLen isDigit (ds ++ (fr ++ (ex ++ rest))) = ds.length + fr.length := by
  have hdigit : Stops isDigit (ex ++ rest) := (hex.stops fun c => not_isDigit_of_isExpMark).append
    (hrest.mono fun c hc => by simp [continues, hc])
  have htake := takeWhile_append_stops hds.2 ((hfr.stops (by decide)).append hdigit)
  unfold mantissaLen
  rw [htake]
  dsimp only
  rw [List.drop_left]
  rcases hfr with rfl | ⟨fs, hfs, rfl⟩
  · have hdot : Stops (· == chDot) (ex ++ rest) :=
      (hex.stops fun c hc => by
        unfold isExpMark at hc
        simp only [Bool.or_eq_true, beq_iff_eq] at hc
        rcases hc with rfl | rfl <;> decide).append
        (hrest.mono fun c hc => by simp [continues, hc])
    rw [List.nil_append]
    match hm : ex ++ rest with
    | [] => rfl
    | c :: t =>
      have hc : c ≠ chDot := by simpa using hdot c t hm
      simp [hc]
  · have hpos : 0 < ds.length := List.length_pos_of_ne_nil hds.1
    have hfs' := takeWhile_append_stops hfs.2 hdigit
    simp only [List.cons_append, if_true, hfs', List.length_cons]
    rw [if_neg (by omega)]
    omega

theorem signLen_sign {sg es : List UInt8} (hsg : sg = [] ∨ sg = [chPlus] ∨ sg = [chMinus])
    (hes : Digits es) : signLen (sg ++ (es ++ rest)) = sg.length := by
  rcases hsg with rfl | rfl | rfl
  · obtain ⟨e, es', rfl⟩ := List.exists_cons_of_ne_nil hes.1
    have he : isDigit e = true := hes.2 e (by simp)
    have hne : ¬(e = chPlus ∨ e = chMinus) := by
      rintro (rfl | rfl) <;> exact absurd he (by decide)
    simp [signLen, hne]
  · rfl
  · rfl

theorem exponentLen_shape (hex : IsExponent ex) (hrest : Stops continues rest) :
    exponentLen isExpMark (ex ++ rest) = ex.length := by
  rcases hex with rfl | ⟨m, sg, es, hm, hsg, hes, rfl⟩
  · rw [List.nil_append]
    match hr : rest with
    | [] => rfl
    | c :: t =>
      have hc := hrest c t rfl
      have hmark : isExpMark c = false := by
        by_contra hne
        simp [continues, hne] at hc
      simp [exponentLen, hmark]
  · have hstop : Stops isDigit rest := hrest.mono fun c hc => by simp [continues, hc]
    have hpos : 0 < es.length := List.length_pos_of_ne_nil hes.1
    simp only [exponentLen, List.cons_append, List.append_assoc, hm, if_true, signLen_sign hsg hes,
      List.drop_left, takeWhile_append_stops hes.2 hstop, List.length_cons, List.length_append]
    rw [if_neg (by omega)]
    omega

theorem hexLen_shape (hds : Digits ds) (hfr : IsFraction fr) (hex : IsExponent ex)
    (hrest : Stops continues rest) : hexLen (ds ++ (fr ++ (ex ++ rest))) = 0 := by
  obtain ⟨d, ds', rfl⟩ := List.exists_cons_of_ne_nil hds.1
  have hmark : Stops (fun c => c == 120 || c == 88) (ds' ++ (fr ++ (ex ++ rest))) := by
    refine Stops.append ?_ ((hfr.stops (by decide)).append ((hex.stops ?_).append
      (hrest.mono fun c hc => ?_)))
    · rintro c t rfl
      have hc : isDigit c = true := hds.2 c (by simp)
      by_contra hne
      simp only [Bool.not_eq_false, Bool.or_eq_true, beq_iff_eq] at hne
      rcases hne with rfl | rfl <;> exact absurd hc (by decide)
    · intro c hc
      unfold isExpMark at hc
      simp only [Bool.or_eq_true, beq_iff_eq] at hc
      rcases hc with rfl | rfl <;> decide
    · simp only [Bool.or_eq_true, beq_iff_eq] at hc
      rcases hc with rfl | rfl <;> decide
  match hl : ds' ++ (fr ++ (ex ++ rest)) with
  | [] => simp [hexLen, hl]
  | x :: t =>
    have hx := hmark x t hl
    simp only [Bool.or_eq_false_iff, beq_eq_false_iff_ne] at hx
    simp [hexLen, hl, hx]

theorem subjectLen_shape (hds : Digits ds) (hfr : IsFraction fr) (hex : IsExponent ex)
    (hrest : Stops continues rest) :
    subjectLen (ds ++ (fr ++ (ex ++ rest))) = ds.length + fr.length + ex.length := by
  have hpos : 0 < ds.length := List.length_pos_of_ne_nil hds.1
  have hm := mantissaLen_shape hds hfr hex hrest
  have hdrop : (ds ++ (fr ++ (ex ++ rest))).drop (ds.length + fr.length) = ex ++ rest := by
    rw [← List.append_assoc, ← List.length_append, List.drop_left]
  have hdec : decimalLen (ds ++ (fr ++ (ex ++ rest))) = ds.length + fr.length + ex.length := by
    simp only [decimalLen, hm, hdrop, exponentLen_shape hex hrest]
    rw [if_neg (by omega)]
  unfold subjectLen
  rw [if_neg (by simp [hexLen_shape hds hfr hex hrest]), if_pos (by omega), hdec]

theorem not_isSpace_of_isDigit {d : UInt8} (h : isDigit d = true) : isSpace d = false := by
  unfold isDigit at h
  simp only [Bool.and_eq_true, decide_eq_true_eq] at h
  by_contra hne
  simp only [isSpace, Bool.not_eq_false, Bool.or_eq_true, beq_iff_eq, Bool.and_eq_true,
    decide_eq_true_eq] at hne
  rcases hne with rfl | ⟨-, hle⟩
  · exact absurd h.1 (by decide)
  · exact absurd (UInt8.le_trans h.1 hle) (by decide)

/-- There is no space before a token, and its sign is a minus. -/
theorem floatLen_of_sign {sg : List UInt8} {d : UInt8} (hsg : sg = [] ∨ sg = [chMinus])
    (hd : isDigit d = true) (t : List UInt8) : floatLen (sg ++ d :: t) =
      if subjectLen (d :: t) = 0 then 0 else sg.length + subjectLen (d :: t) := by
  have hsign : ¬(d = chPlus ∨ d = chMinus) := by
    rintro (rfl | rfl) <;> exact absurd hd (by decide)
  rcases hsg with rfl | rfl
  · simp [floatLen, not_isSpace_of_isDigit hd, signLen, hsign]
  · simp [floatLen, show isSpace chMinus = false by decide, signLen]

/-- `strtod` stops right behind a token that nothing continues. -/
theorem floatLen_shape {tok : List UInt8} (h : NumberShape tok) (hrest : Stops continues rest) :
    floatLen (tok ++ rest) = tok.length := by
  obtain ⟨sg, ds, fr, ex, hsg, hds, hfr, hex, rfl⟩ := h
  have hsubject := subjectLen_shape hds hfr hex hrest
  obtain ⟨d, ds', rfl⟩ := List.exists_cons_of_ne_nil hds.1
  have hlen := floatLen_of_sign hsg (hds.2 d (by simp)) (ds' ++ (fr ++ (ex ++ rest)))
  simp only [List.cons_append] at hsubject
  rw [hsubject, if_neg (by simp)] at hlen
  simp only [List.append_assoc, List.cons_append, hlen, List.length_append, List.length_cons]
  omega

end LibZenit.Json
