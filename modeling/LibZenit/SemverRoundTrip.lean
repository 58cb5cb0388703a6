import LibZenit.SemverAcceptance

/-!
# Formatting a parsed version

The formatted string has the parts of the parsed one, with the numbers in canonical digits.
-/
namespace LibZenit.Semver
open DecimalText Spans

variable {p : Parts} {s : Text} {v : Version}

/-- The parts with the digits that `%d` writes. -/
def Parts.canonical (p : Parts) : Parts :=
  { p with
    major := decimalText (decimalValue p.major)
    minor := decimalText (decimalValue p.minor)
    patch := decimalText (decimalValue p.patch) }

theorem number_decimalText (n : ℕ) : Number (decimalText n) :=
  ⟨decimalText_ne_nil n, isDigit_of_mem_decimalText⟩

theorem Shape.canonical (h : Shape p) : Shape p.canonical :=
  ⟨number_decimalText _, number_decimalText _, number_decimalText _, h.pre, h.build⟩

theorem Fits.canonical (h : Fits p) : Fits p.canonical := by
  refine ⟨?_, ?_, ?_, h.pre, h.build⟩ <;>
    simp only [Parts.canonical, decimalValue_decimalText]
  · exact h.major
  · exact h.minor
  · exact h.patch

theorem Checked.canonical (h : Checked p) : Checked p.canonical :=
  ⟨noLeadingZero_decimalText _, h.pre, h.build⟩

theorem canonical_version (p : Parts) : p.canonical.version = p.version := by
  simp only [Parts.version, Parts.canonical, decimalValue_decimalText]

theorem canonical_eq_self (h : Shape p) (hmajor : NoLeadingZero p.major)
    (hminor : NoLeadingZero p.minor) (hpatch : NoLeadingZero p.patch) : p.canonical = p := by
  unfold Parts.canonical
  rw [decimalText_decimalValue h.major.2 h.major.1 hmajor,
    decimalText_decimalValue h.minor.2 h.minor.1 hminor,
    decimalText_decimalValue h.patch.2 h.patch.1 hpatch]

/-! ## The four formats -/

theorem formatInt_natCast (n : ℕ) : formatInt n = decimalText n := by
  rw [formatInt, if_neg (by omega), Int.natAbs_natCast]

theorem formatCore_version (p : Parts) : formatCore p.version =
    p.canonical.major ++ chDot :: p.canonical.minor ++ chDot :: p.canonical.patch := by
  simp only [formatCore, Parts.version, formatInt_natCast, Parts.canonical]

theorem formatText_version (h : Checked p) : formatText p.version = p.canonical.text := by
  rw [formatText, formatCore_version]
  obtain ⟨major, minor, patch, pre, build⟩ := p
  have hpre := h.pre
  have hbuild := h.build
  cases pre with
  | none =>
    cases build with
    | none => simp [Parts.version, Parts.canonical, Parts.text, metaText]
    | some b =>
      have hb : 0 < b.length := List.length_pos_iff.mpr (fun he => hbuild (by simp [he]))
      simp [Parts.version, Parts.canonical, Parts.text, metaText, hb]
  | some m =>
    have hm : 0 < m.length := List.length_pos_iff.mpr (fun he => hpre (by simp [he]))
    cases build with
    | none => simp [Parts.version, Parts.canonical, Parts.text, metaText, hm]
    | some b =>
      have hb : 0 < b.length := List.length_pos_iff.mpr (fun he => hbuild (by simp [he]))
      simp [Parts.version, Parts.canonical, Parts.text, metaText, hm, hb]

/-! ## The buffer -/

/-- An `int` without sign has at most ten digits. -/
theorem length_decimalText_int {n : ℕ} (h : n ≤ intMax) : (decimalText n).length ≤ 10 := by
  apply length_decimalText_le (by decide)
  unfold intMax at h
  omega

/-- A part and its mark take the bytes that `format_impl` counts for them. -/
theorem length_metaText {mark : UInt8} {m : Option Text} (hne : m ≠ some []) :
    (if (m.getD []).length > 0 then 1 + (m.getD []).length else 0) = (metaText mark m).length := by
  cases m with
  | none => rfl
  | some m =>
    have hm : 0 < m.length := List.length_pos_iff.mpr (fun he => hne (by rw [he]))
    rw [Option.getD_some, if_pos hm, metaText, List.length_cons, Nat.add_comm]

theorem formatSize_version (h : Checked p) : formatSize p.version =
    32 + (metaText chMinus p.pre).length + (metaText chPlus p.build).length + 1 := by
  rw [← length_metaText h.pre, ← length_metaText h.build]
  rfl

theorem formatText_fits (hf : Fits p) (hc : Checked p) :
    (formatText p.version).length < formatSize p.version := by
  have hmajor := length_decimalText_int hf.major
  have hminor := length_decimalText_int hf.minor
  have hpatch := length_decimalText_int hf.patch
  rw [formatText_version hc, formatSize_version hc]
  simp only [Parts.text, Parts.canonical, List.length_append, List.length_cons]
  omega

/-! ## Round trip -/

/-- Parsing what has been formatted gives the same version, and the same string if its numbers have
no leading zeros. -/
theorem semver_round_trip (hs : 0 ∉ s) (h : zenitSemverParse s = (v, .ok)) :
    ∃ t, zenitSemverFormat true v = (some t, .ok) ∧ t = formatText v ∧ t.length < formatSize v ∧
      zenitSemverParse t = (v, .ok) ∧
      ∀ p, Shape p → p.text = s → NoLeadingZero p.major → NoLeadingZero p.minor →
        NoLeadingZero p.patch → t = s := by
  obtain ⟨p, rfl, hp, hf, hc, rfl⟩ := parse_cases hs h
  have hfits := formatText_fits hf hc
  refine ⟨formatText p.version, ?_, rfl, hfits, ?_, ?_⟩
  · rw [zenitSemverFormat, formatImpl, if_neg (by simp), if_neg (by omega)]
  · rw [formatText_version hc, parse_text hp.canonical hf.canonical hc.canonical,
      canonical_version]
  · intro q hq htext hmajor hminor hpatch
    rw [hq.unique hp htext] at hmajor hminor hpatch
    rw [formatText_version hc, canonical_eq_self hp hmajor hminor hpatch]

/-- `1.2.3-a+b` -/
theorem tagged_version_round_trip : ∃ t,
    zenitSemverFormat true ⟨1, 2, 3, [97], [98]⟩ = (some t, .ok) ∧
      zenitSemverParse t = (⟨1, 2, 3, [97], [98]⟩, .ok) := by
  have hparse : zenitSemverParse [49, 46, 50, 46, 51, 45, 97, 43, 98] =
      (⟨1, 2, 3, [97], [98]⟩, .ok) := by decide
  obtain ⟨t, hformat, -, -, hagain, -⟩ := semver_round_trip (by decide) hparse
  exact ⟨t, hformat, hagain⟩

end LibZenit.Semver
