import LibZenit.SemverGrammar

/-!
# What a failed parse leaves behind

`zenit_semver_parse` clears the structure at the beginning and fills its fields as it reads. None of
its error returns clears it again, so what had been read by then stays.
-/
namespace LibZenit.Semver
open DecimalText Spans

variable {s p rest : Text} {out : Version}

/-- A number that leaves its field at zero. -/
def ZeroNumber (ds : Text) : Prop := Number ds ∧ decimalValue ds = 0

/-- A number that is stored, and is not zero. -/
def StoredNumber (ds : Text) : Prop :=
  Number ds ∧ 0 < decimalValue ds ∧ decimalValue ds ≤ intMax

/-- The string fills a field: a number that is not zero stands in front, behind zeros at most; or
text stands behind three zeros, of which the first has no digit behind it. -/
inductive Fills : Text → Prop
  | major {ds rest : Text} (h : StoredNumber ds) (hr : Ends isDigit rest) : Fills (ds ++ rest)
  | minor {z ds rest : Text} (hz : ZeroNumber z) (h : StoredNumber ds) (hr : Ends isDigit rest) :
      Fills (z ++ chDot :: (ds ++ rest))
  | patch {z z' ds rest : Text} (hz : ZeroNumber z) (hz' : ZeroNumber z') (h : StoredNumber ds)
      (hr : Ends isDigit rest) : Fills (z ++ chDot :: (z' ++ chDot :: (ds ++ rest)))
  | preRelease {z z' z'' m : Text} {c : UInt8} (hz : ZeroNumber z) (hz' : ZeroNumber z')
      (hz'' : ZeroNumber z'') (hlead : NoLeadingZero z) (hc : c ≠ chPlus) :
      Fills (z ++ chDot :: (z' ++ chDot :: (z'' ++ chMinus :: c :: m)))
  | build {z z' z'' m : Text} {c : UInt8} (hz : ZeroNumber z) (hz' : ZeroNumber z')
      (hz'' : ZeroNumber z'') (hlead : NoLeadingZero z) :
      Fills (z ++ chDot :: (z' ++ chDot :: (z'' ++ chPlus :: c :: m)))

/-- Every field is zero or empty after an error. -/
def ZeroedOnError (s : Text) : Prop :=
  (zenitSemverParse s).2 ≠ .ok → (zenitSemverParse s).1 = Version.zero

/-! ## Text behind the numbers -/

theorem parseMetaLoop_grows (maxLen : ℕ) (stop : UInt8) (dest p : Text) :
    dest <+: (parseMetaLoop maxLen stop dest p).1 := by
  induction p generalizing dest with
  | nil => exact List.prefix_refl dest
  | cons c p ih =>
    rw [parseMetaLoop]
    split_ifs
    · exact List.prefix_refl dest
    · exact (List.prefix_append dest [c]).trans (ih (dest ++ [c]))
    · exact List.prefix_refl dest

/-- Something is copied unless the stop byte stands in front. -/
theorem parseMeta_nil_iff {maxLen : ℕ} {stop : UInt8} (hmax : 2 ≤ maxLen) (hp : 0 ∉ p) :
    (parseMeta maxLen stop p).1 = [] ↔ p = [] ∨ p.head? = some stop := by
  have hsame : (parseMeta maxLen stop p).1 = (parseMetaLoop maxLen stop [] p).1 := by
    rw [parseMeta]
    split_ifs <;> rfl
  rw [hsame]
  cases p with
  | nil => simp [parseMetaLoop]
  | cons c p =>
    have hc : c ≠ 0 := fun h => hp (h ▸ List.mem_cons_self)
    rw [parseMetaLoop, List.head?_cons]
    by_cases hstop : c = stop
    · simp [hstop]
    · have hgrow := parseMetaLoop_grows maxLen stop ([] ++ [c]) p
      rw [if_pos ⟨hc, hstop⟩, if_neg (by simp; omega)]
      simp only [reduceCtorEq, Option.some.injEq, hstop, or_self, iff_false]
      intro hnil
      rw [hnil] at hgrow
      exact absurd (List.prefix_nil.mp hgrow) (by simp)

theorem parsePreRelease_numbers (out : Version) (p : Text) :
    (parsePreRelease out p).1.major = out.major ∧ (parsePreRelease out p).1.minor = out.minor ∧
      (parsePreRelease out p).1.patch = out.patch ∧
      (parsePreRelease out p).1.build = out.build := by
  unfold parsePreRelease
  split_ifs <;> exact ⟨rfl, rfl, rfl, rfl⟩

theorem parseBuild_keeps (out : Version) (p : Text) :
    (parseBuild out p).1.major = out.major ∧ (parseBuild out p).1.minor = out.minor ∧
      (parseBuild out p).1.patch = out.patch ∧
      (parseBuild out p).1.preRelease = out.preRelease := by
  unfold parseBuild
  split_ifs <;> exact ⟨rfl, rfl, rfl, rfl⟩

/-- The structure is the one of the pre-release, or that of the build behind it. -/
theorem parseTail_out (out : Version) (p : Text) :
    (parseTail out p).1 = (parsePreRelease out p).1 ∨
      ∃ p', (parseTail out p).1 = (parseBuild (parsePreRelease out p).1 p').1 := by
  rw [parseTail]
  rcases parsePreRelease out p with ⟨out', _ | p'⟩
  · exact .inl rfl
  · refine .inr ⟨p', ?_⟩
    simp only
    rcases parseBuild out' p' with ⟨out'', _ | p''⟩
    · rfl
    · simp only
      split_ifs <;> rfl

theorem parseTail_numbers (out : Version) (p : Text) :
    (parseTail out p).1.major = out.major ∧ (parseTail out p).1.minor = out.minor ∧
      (parseTail out p).1.patch = out.patch := by
  obtain ⟨hmajor, hminor, hpatch, -⟩ := parsePreRelease_numbers out p
  rcases parseTail_out out p with h | ⟨p', h⟩
  · rw [h]
    exact ⟨hmajor, hminor, hpatch⟩
  · obtain ⟨hmajor', hminor', hpatch', -⟩ := parseBuild_keeps (parsePreRelease out p).1 p'
    rw [h]
    exact ⟨hmajor'.trans hmajor, hminor'.trans hminor, hpatch'.trans hpatch⟩

theorem parseTail_preRelease (out : Version) (p : Text) :
    (parseTail out p).1.preRelease = (parsePreRelease out p).1.preRelease := by
  rcases parseTail_out out p with h | ⟨p', h⟩
  · rw [h]
  · rw [h]
    exact (parseBuild_keeps (parsePreRelease out p).1 p').2.2.2

theorem parseTail_of_build (hp : peek p ≠ chMinus) (out : Version) :
    (parseTail out p).1 = (parseBuild out p).1 := by
  rw [parseTail, parsePreRelease, if_neg hp]
  simp only
  rcases parseBuild out p with ⟨out', _ | p'⟩
  · rfl
  · simp only
    split_ifs <;> rfl

/-- The tail fills a field exactly if a byte that is copied follows its mark. -/
theorem parseTail_zero_iff (hp : 0 ∉ p) : (parseTail .zero p).1 = .zero ↔
    ¬((∃ c m, c ≠ chPlus ∧ p = chMinus :: c :: m) ∨ ∃ c m, p = chPlus :: c :: m) := by
  by_cases hminus : peek p = chMinus
  · obtain ⟨q, rfl⟩ : ∃ q, p = chMinus :: q := ⟨_, eq_cons_of_peek (by decide) hminus⟩
    have hq : 0 ∉ q := fun h => hp (List.mem_cons_of_mem _ h)
    have hmeta := @parseMeta_nil_iff q maxPrerelease chPlus (by decide) hq
    have hfield : (parseTail .zero (chMinus :: q)).1.preRelease =
        (parseMeta maxPrerelease chPlus q).1 := by
      rw [parseTail_preRelease, parsePreRelease, if_pos hminus]
      rfl
    have hshape : (q = [] ∨ q.head? = some chPlus) ↔ ¬∃ c m, c ≠ chPlus ∧ q = c :: m := by
      cases q <;> simp
    have hother : ¬∃ c m, chMinus :: q = chPlus :: c :: m := by
      rintro ⟨c, m, h⟩
      cases h
    constructor
    · intro hzero
      rw [hzero] at hfield
      rintro (⟨c, m, hc, heq⟩ | h)
      · cases heq
        exact hshape.mp (hmeta.mp hfield.symm) ⟨c, m, hc, rfl⟩
      · exact hother h
    · intro hnot
      have hnil : (parseMeta maxPrerelease chPlus q).1 = [] := by
        refine hmeta.mpr (hshape.mpr fun h => hnot (.inl ?_))
        obtain ⟨c, m, hc, rfl⟩ := h
        exact ⟨c, m, hc, rfl⟩
      have hfail : parseMeta maxPrerelease chPlus q = ([], none) := by
        have hloop : (parseMetaLoop maxPrerelease chPlus [] q).1 = [] := by
          rw [parseMeta] at hnil
          split_ifs at hnil with h <;> exact hnil
        rw [parseMeta, if_pos hloop, hloop]
      rw [parseTail, parsePreRelease, if_pos hminus, List.tail_cons, hfail]
      rfl
  · rw [parseTail_of_build hminus, parseBuild]
    have hother : ¬∃ c m, c ≠ chPlus ∧ p = chMinus :: c :: m := by
      rintro ⟨c, m, -, rfl⟩
      exact hminus rfl
    by_cases hplus : peek p = chPlus
    · obtain ⟨q, rfl⟩ : ∃ q, p = chPlus :: q := ⟨_, eq_cons_of_peek (by decide) hplus⟩
      have hq : 0 ∉ q := fun h => hp (List.mem_cons_of_mem _ h)
      have hmeta := @parseMeta_nil_iff q maxBuild 0 (by decide) hq
      rw [if_pos hplus, List.tail_cons]
      cases q with
      | nil => simp [Version.zero, hmeta]
      | cons c m =>
        have hc : ¬c = 0 := fun h => hq (h ▸ List.mem_cons_self)
        simp [Version.zero, hmeta, hc]
    · have hnone : ¬∃ c m, p = chPlus :: c :: m := by
        rintro ⟨c, m, rfl⟩
        exact hplus rfl
      rw [if_neg hplus]
      exact iff_of_true rfl (not_or.mpr ⟨hother, hnone⟩)

/-! ## The numbers -/

/-- `zenit_semver_parse` from the patch number on. -/
def parsePatch (str : Text) (out : Version) (p : Text) : Version × ZenitError :=
  match parseNum p with
  | none => (out, .param)
  | some (patch, p) =>
    if peek str = 48 ∧ isDigit (peek str.tail) then ({ out with patch := patch }, .param)
    else parseTail { out with patch := patch } p

/-- `zenit_semver_parse` from the minor number on. -/
def parseMinor (str : Text) (out : Version) (p : Text) : Version × ZenitError :=
  match parseNum p with
  | none => (out, .param)
  | some (minor, p) =>
    if peek p ≠ chDot then ({ out with minor := minor }, .param)
    else parsePatch str { out with minor := minor } p.tail

theorem parse_of_major {n : ℕ} (h : parseNum s = some (n, p)) : zenitSemverParse s =
    if peek p ≠ chDot then ({ Version.zero with major := n }, .param)
    else parseMinor s { Version.zero with major := n } p.tail := by
  rw [zenitSemverParse, h]
  rfl

theorem parsePatch_numbers (str : Text) (out : Version) (p : Text) :
    (parsePatch str out p).1.major = out.major ∧ (parsePatch str out p).1.minor = out.minor := by
  rw [parsePatch]
  rcases parseNum p with _ | ⟨patch, p⟩
  · exact ⟨rfl, rfl⟩
  · simp only
    split_ifs
    · exact ⟨rfl, rfl⟩
    · obtain ⟨hmajor, hminor, -⟩ := parseTail_numbers { out with patch := patch } p
      exact ⟨hmajor, hminor⟩

theorem parseMinor_major (str : Text) (out : Version) (p : Text) :
    (parseMinor str out p).1.major = out.major := by
  rw [parseMinor]
  rcases parseNum p with _ | ⟨minor, p⟩
  · rfl
  · simp only
    split_ifs
    · rfl
    · exact (parsePatch_numbers str { out with minor := minor } p.tail).1

theorem parsePatch_patch {str : Text} {n : ℕ} (h : parseNum p = some (n, rest)) :
    (parsePatch str out p).1.patch = n := by
  rw [parsePatch, h]
  simp only
  split_ifs
  · rfl
  · exact (parseTail_numbers { out with patch := n } rest).2.2

theorem parseMinor_minor {str : Text} {n : ℕ} (h : parseNum p = some (n, rest)) :
    (parseMinor str out p).1.minor = n := by
  rw [parseMinor, h]
  simp only
  split_ifs
  · rfl
  · exact (parsePatch_numbers str { out with minor := n } rest.tail).2

theorem parse_major {n : ℕ} (h : parseNum s = some (n, p)) : (zenitSemverParse s).1.major = n := by
  rw [parse_of_major h]
  split_ifs
  · rfl
  · exact parseMinor_major s { Version.zero with major := n } p.tail

/-! ## Filled fields -/

theorem ends_dot (rest : Text) : Ends isDigit (chDot :: rest) := ends_cons (by decide)

theorem StoredNumber.parse {ds : Text} (h : StoredNumber ds) (hr : Ends isDigit rest) :
    parseNum (ds ++ rest) = some (decimalValue ds, rest) := by
  rw [parseNum_span h.1 hr, if_pos h.2.2]

theorem ZeroNumber.parse {z : Text} (h : ZeroNumber z) (hr : Ends isDigit rest) :
    parseNum (z ++ rest) = some (0, rest) := by
  rw [parseNum_span h.1 hr, h.2, if_pos (Nat.zero_le _)]

/-- Three zeros in front leave the structure as it is. -/
theorem parse_zeros {z z' z'' : Text} (hz : ZeroNumber z) (hz' : ZeroNumber z')
    (hz'' : ZeroNumber z'') (hr : Ends isDigit rest) :
    zenitSemverParse (z ++ chDot :: (z' ++ chDot :: (z'' ++ rest))) =
      if NoLeadingZero z then parseTail .zero rest else (.zero, .param) := by
  have hlead := leadingZero_iff hz.1 (z' ++ chDot :: (z'' ++ rest))
  rw [parse_of_major (hz.parse (ends_dot _)), if_neg (by simp), List.tail_cons, parseMinor,
    hz'.parse (ends_dot _)]
  simp only [peek_cons, ne_eq, not_true_eq_false, if_false, List.tail_cons]
  rw [parsePatch, hz''.parse hr]
  by_cases hzero : NoLeadingZero z
  · rw [if_pos hzero]
    exact if_neg (mt hlead.mp (not_not.mpr hzero))
  · rw [if_neg hzero]
    exact if_pos (hlead.mpr hzero)

theorem Fills.parse_ne_zero (h : Fills s) (hs : 0 ∉ s) : (zenitSemverParse s).1 ≠ .zero := by
  intro hzero
  cases h with
  | major h hr =>
    have hmajor := parse_major (h.parse hr)
    rw [hzero] at hmajor
    exact absurd h.2.1 (by simpa [Version.zero] using hmajor.symm)
  | minor hz h hr =>
    have hminor := congrArg Version.minor hzero
    rw [parse_of_major (hz.parse (ends_dot _)), if_neg (by simp), List.tail_cons,
      parseMinor_minor (h.parse hr)] at hminor
    exact absurd h.2.1 (by simpa [Version.zero] using hminor)
  | patch hz hz' h hr =>
    have hpatch := congrArg Version.patch hzero
    rw [parse_of_major (hz.parse (ends_dot _)), if_neg (by simp), List.tail_cons, parseMinor,
      hz'.parse (ends_dot _)] at hpatch
    simp only [peek_cons, ne_eq, not_true_eq_false, if_false, List.tail_cons] at hpatch
    rw [parsePatch_patch (h.parse hr)] at hpatch
    exact absurd h.2.1 (by simpa [Version.zero] using hpatch)
  | preRelease hz hz' hz'' hlead hc =>
    rw [parse_zeros hz hz' hz'' (ends_cons (by decide)), if_pos hlead,
      parseTail_zero_iff fun h => hs (by simp [h])] at hzero
    exact hzero (.inl ⟨_, _, hc, rfl⟩)
  | build hz hz' hz'' hlead =>
    rw [parse_zeros hz hz' hz'' (ends_cons (by decide)), if_pos hlead,
      parseTail_zero_iff fun h => hs (by simp [h])] at hzero
    exact hzero (.inr ⟨_, _, rfl⟩)

theorem number_cases (p : Text) : parseNum p = none ∨ ∃ ds rest, p = ds ++ rest ∧
    Ends isDigit rest ∧ (ZeroNumber ds ∨ StoredNumber ds) := by
  rcases h : parseNum p with _ | ⟨n, rest⟩
  · exact .inl rfl
  · obtain ⟨ds, hds, hr, hp, rfl, hfits⟩ := parseNum_cases h
    refine .inr ⟨ds, rest, hp, hr, ?_⟩
    rcases Nat.eq_zero_or_pos (decimalValue ds) with hzero | hpos
    · exact .inl ⟨hds, hzero⟩
    · exact .inr ⟨hds, hpos, hfits⟩

theorem dot_cases (p : Text) : peek p ≠ chDot ∨ ∃ q, p = chDot :: q := by
  by_cases h : peek p = chDot
  · exact .inr ⟨_, eq_cons_of_peek (by decide) h⟩
  · exact .inl h

theorem parse_zero_alone {z : Text} (hz : ZeroNumber z) (hr : Ends isDigit rest)
    (h : peek rest ≠ chDot ∨ parseNum rest.tail = none) :
    (zenitSemverParse (z ++ rest)).1 = .zero := by
  rw [parse_of_major (hz.parse hr)]
  split_ifs with hdot
  · rfl
  · rw [parseMinor, h.resolve_left hdot]
    rfl

theorem parse_two_zeros {z z' : Text} (hz : ZeroNumber z) (hz' : ZeroNumber z')
    (hr : Ends isDigit rest) (h : peek rest ≠ chDot ∨ parseNum rest.tail = none) :
    (zenitSemverParse (z ++ chDot :: (z' ++ rest))).1 = .zero := by
  rw [parse_of_major (hz.parse (ends_dot _)), if_neg (by simp), List.tail_cons, parseMinor,
    hz'.parse hr]
  simp only
  split_ifs with hdot
  · rfl
  · rw [parsePatch, h.resolve_left hdot]
    rfl

/-- Where nothing fills a field, the structure is as `memset` has left it. -/
theorem parse_zero_of_not_fills (h : ¬Fills s) (hs : 0 ∉ s) : (zenitSemverParse s).1 = .zero := by
  rcases number_cases s with hnone | ⟨z, p₁, rfl, hr₁, hz | hstored⟩
  · rw [zenitSemverParse, hnone]
  · rcases dot_cases p₁ with hdot | ⟨q₁, rfl⟩
    · exact parse_zero_alone hz hr₁ (.inl hdot)
    rcases number_cases q₁ with hnone | ⟨z', p₂, rfl, hr₂, hz' | hstored⟩
    · exact parse_zero_alone hz hr₁ (.inr hnone)
    · rcases dot_cases p₂ with hdot | ⟨q₂, rfl⟩
      · exact parse_two_zeros hz hz' hr₂ (.inl hdot)
      rcases number_cases q₂ with hnone | ⟨z'', p₃, rfl, hr₃, hz'' | hstored⟩
      · exact parse_two_zeros hz hz' hr₂ (.inr hnone)
      · rw [parse_zeros hz hz' hz'' hr₃]
        split_ifs with hlead
        · refine (parseTail_zero_iff fun hmem => hs (by simp [hmem])).mpr ?_
          rintro (⟨c, m, hc, rfl⟩ | ⟨c, m, rfl⟩)
          · exact h (.preRelease hz hz' hz'' hlead hc)
          · exact h (.build hz hz' hz'' hlead)
        · rfl
      · exact absurd (Fills.patch hz hz' hstored hr₃) h
    · exact absurd (Fills.minor hz hstored hr₂) h
  · exact absurd (Fills.major hstored hr₁) h

/-- The structure is zeroed after an error exactly if the string fills no field. A string that
is accepted has no error. -/
theorem parse_zeroed_iff (hs : 0 ∉ s) : ZeroedOnError s ↔
    (∃ p, Shape p ∧ Fits p ∧ Checked p ∧ p.text = s) ∨ ¬Fills s := by
  constructor
  · intro hzeroed
    by_cases hok : (zenitSemverParse s).2 = .ok
    · obtain ⟨p, htext, hp, hf, hc, -⟩ := parse_cases hs (Prod.ext rfl hok)
      exact .inl ⟨p, hp, hf, hc, htext.symm⟩
    · exact .inr fun hfills => hfills.parse_ne_zero hs (hzeroed hok)
  · rintro (⟨p, hp, hf, hc, rfl⟩ | hnot) herr
    · rw [parse_text hp hf hc] at herr
      exact absurd rfl herr
    · exact parse_zero_of_not_fills hnot hs

/-- `x` -/
theorem letter_zeroed : ZeroedOnError [120] := by
  refine (parse_zeroed_iff (by decide)).mpr (.inr fun hfills => ?_)
  exact hfills.parse_ne_zero (by decide) rfl

/-- `1.x`: the major number stays. -/
theorem major_stays :
    zenitSemverParse [49, 46, 120] = ({ Version.zero with major := 1 }, .param) ∧
      ¬ZeroedOnError [49, 46, 120] := by
  have hparse : zenitSemverParse [49, 46, 120] = ({ Version.zero with major := 1 }, .param) := by
    decide
  refine ⟨hparse, fun hzeroed => ?_⟩
  rw [ZeroedOnError, hparse] at hzeroed
  exact absurd (hzeroed (by decide)) (by decide)

end LibZenit.Semver
