import LibZenit.SemverModel
import LibZenit.Spans

/-!
# What `zenit_semver_parse` accepts

`Shape` is the outline of a version string, read as the parser reads it: three numbers, then a
pre-release up to the first plus sign, then the build. `Derives` is the grammar of SemVer 2.0.0.
-/
namespace LibZenit.Semver
open DecimalText Spans

/-! ## Parts -/

structure Parts where
  major : Text
  minor : Text
  patch : Text
  pre : Option Text
  build : Option Text

def metaText (mark : UInt8) : Option Text → Text
  | none => []
  | some m => mark :: m

def Parts.text (p : Parts) : Text :=
  p.major ++ chDot :: (p.minor ++ chDot :: (p.patch ++
    (metaText chMinus p.pre ++ metaText chPlus p.build)))

/-- The fields of the version with these parts. -/
def Parts.version (p : Parts) : Version where
  major := decimalValue p.major
  minor := decimalValue p.minor
  patch := decimalValue p.patch
  preRelease := p.pre.getD []
  build := p.build.getD []

def Number (ds : Text) : Prop := ds ≠ [] ∧ ∀ c ∈ ds, isDigit c = true

structure Shape (p : Parts) : Prop where
  major : Number p.major
  minor : Number p.minor
  patch : Number p.patch
  pre : ∀ m ∈ p.pre, chPlus ∉ m ∧ 0 ∉ m
  build : ∀ m ∈ p.build, 0 ∉ m

/-- The numbers fit an `int`, the other parts the arrays of the structure. -/
structure Fits (p : Parts) : Prop where
  major : decimalValue p.major ≤ intMax
  minor : decimalValue p.minor ≤ intMax
  patch : decimalValue p.patch ≤ intMax
  pre : ∀ m ∈ p.pre, m.length < maxPrerelease
  build : ∀ m ∈ p.build, m.length < maxBuild

/-- The further checks of the parser. -/
structure Checked (p : Parts) : Prop where
  major : NoLeadingZero p.major
  pre : p.pre ≠ some []
  build : p.build ≠ some []

/-! ## The grammar of SemVer 2.0.0 -/

def isIdentByte (c : UInt8) : Bool :=
  isDigit c || (65 ≤ c && c ≤ 90) || (97 ≤ c && c ≤ 122) || c == chMinus

def IsIdentifier (s : Text) : Prop := s ≠ [] ∧ ∀ c ∈ s, isIdentByte c = true

structure Derives (p : Parts) : Prop where
  major : Number p.major ∧ NoLeadingZero p.major
  minor : Number p.minor ∧ NoLeadingZero p.minor
  patch : Number p.patch ∧ NoLeadingZero p.patch
  pre : ∀ m ∈ p.pre, ∀ s ∈ m.splitOn chDot,
    IsIdentifier s ∧ (isNumeric s = true → NoLeadingZero s)
  build : ∀ m ∈ p.build, ∀ s ∈ m.splitOn chDot, IsIdentifier s

/-! ## Numbers -/

theorem parseNumLoop_span {ds rest : Text} (hd : ∀ c ∈ ds, isDigit c = true)
    (hr : Ends isDigit rest) {n : ℕ} (hn : n ≤ intMax) :
    parseNumLoop n (ds ++ rest) =
      let v := ds.foldl (fun n c => n * 10 + digitValue c) n
      if v ≤ intMax then some (v, rest) else none := by
  induction ds generalizing n with
  | nil =>
    rw [List.nil_append, List.foldl_nil, if_pos hn]
    cases rest with
    | nil => rfl
    | cons c rest =>
      rw [parseNumLoop, if_neg]
      rw [hr c rfl]
      decide
  | cons c ds ih =>
    obtain ⟨hc, hds⟩ := List.forall_mem_cons.mp hd
    have hlt := digitValue_lt hc
    rw [List.cons_append, parseNumLoop, if_pos hc, List.foldl_cons]
    by_cases hover : n > (intMax - digitValue c) / 10
    · -- the value only grows behind the digit that overflows
      have hgrow : ∀ (ds : Text) (k : ℕ), k ≤ ds.foldl (fun n c => n * 10 + digitValue c) k := by
        intro ds
        induction ds with
        | nil => intro k; exact le_refl k
        | cons a ds ih =>
          intro k
          exact le_trans (show k ≤ k * 10 + digitValue a by omega) (ih _)
      have hbig := hgrow ds (n * 10 + digitValue c)
      unfold intMax at hover hn ⊢
      rw [if_pos hover]
      simp only
      rw [if_neg (by omega)]
    · have hnext : n * 10 + digitValue c ≤ intMax := by
        unfold intMax at hover hn ⊢
        omega
      rw [if_neg hover]
      exact ih hds hnext

theorem parseNum_span {ds rest : Text} (hd : Number ds) (hr : Ends isDigit rest) :
    parseNum (ds ++ rest) =
      if decimalValue ds ≤ intMax then some (decimalValue ds, rest) else none := by
  have hloop := parseNumLoop_span hd.2 hr (Nat.zero_le intMax)
  obtain ⟨c, cs, rfl⟩ := List.exists_cons_of_ne_nil hd.1
  have hfirst : isDigit (peek (c :: cs ++ rest)) = true := hd.2 c (by simp)
  rw [parseNum, if_pos hfirst]
  exact hloop

theorem parseNum_cases {p rest : Text} {n : ℕ} (h : parseNum p = some (n, rest)) :
    ∃ ds, Number ds ∧ Ends isDigit rest ∧ p = ds ++ rest ∧ n = decimalValue ds ∧ n ≤ intMax := by
  have hd : Number (p.takeWhile isDigit) := by
    refine ⟨?_, fun c hc => List.mem_takeWhile_imp hc⟩
    unfold parseNum at h
    split_ifs at h with hfirst
    cases p with
    | nil => exact absurd hfirst (by decide)
    | cons c p => simp [show isDigit c = true from hfirst]
  have hr := ends_dropWhile isDigit p
  have hspan := parseNum_span hd hr
  rw [List.takeWhile_append_dropWhile, h] at hspan
  split_ifs at hspan with hle
  cases hspan
  exact ⟨_, hd, hr, List.takeWhile_append_dropWhile.symm, rfl, hle⟩

/-! ## Pre-release and build -/

/-- The bytes that `parse_meta` copies. -/
def isMetaByte (stop c : UInt8) : Bool := c != 0 && c != stop

theorem isMetaByte_iff {stop c : UInt8} : isMetaByte stop c = true ↔ c ≠ 0 ∧ c ≠ stop := by
  simp [isMetaByte]

theorem parseMetaLoop_span {maxLen : ℕ} {stop : UInt8} {dest m rest : Text}
    (hm : ∀ c ∈ m, isMetaByte stop c = true) (hr : Ends (isMetaByte stop) rest)
    (hdest : dest.length ≤ maxLen - 1) :
    parseMetaLoop maxLen stop dest (m ++ rest) =
      if (dest ++ m).length ≤ maxLen - 1 then (dest ++ m, some rest)
      else ((dest ++ m).take (maxLen - 1), none) := by
  induction m generalizing dest with
  | nil =>
    rw [List.append_nil, List.nil_append, if_pos hdest]
    cases rest with
    | nil => rfl
    | cons c rest =>
      rw [parseMetaLoop, if_neg]
      rw [← isMetaByte_iff, hr c rfl]
      decide
  | cons c m ih =>
    obtain ⟨hc, hm⟩ := List.forall_mem_cons.mp hm
    rw [List.cons_append, parseMetaLoop, if_pos (isMetaByte_iff.mp hc)]
    by_cases hfull : dest.length ≥ maxLen - 1
    · have hlen : maxLen - 1 = dest.length := by omega
      rw [if_pos hfull, if_neg (by simp only [List.length_append, List.length_cons]; omega), hlen,
        List.take_left]
    · rw [if_neg hfull, ih hm (by simp only [List.length_append, List.length_singleton]; omega),
        List.append_assoc, List.singleton_append]

theorem parseMeta_span {maxLen : ℕ} {stop : UInt8} {m rest : Text} (hmax : 2 ≤ maxLen)
    (hm : ∀ c ∈ m, isMetaByte stop c = true) (hr : Ends (isMetaByte stop) rest) :
    parseMeta maxLen stop (m ++ rest) =
      if m = [] then ([], none)
      else if m.length < maxLen then (m, some rest) else (m.take (maxLen - 1), none) := by
  rw [parseMeta, parseMetaLoop_span hm hr (Nat.zero_le _), List.nil_append]
  by_cases hempty : m = []
  · subst hempty
    simp
  rw [if_neg hempty]
  by_cases hlen : m.length < maxLen
  · have hle : m.length ≤ maxLen - 1 := by omega
    rw [if_pos hlen, if_pos hle]
    exact if_neg hempty
  · have hle : ¬m.length ≤ maxLen - 1 := by omega
    have hne : ¬m.take (maxLen - 1) = [] := by
      rw [List.take_eq_nil_iff]
      rintro (hmax' | hm')
      · omega
      · exact hempty hm'
    rw [if_neg hlen, if_neg hle]
    exact if_neg hne

theorem isMetaByte_of_notMem {stop : UInt8} {m : Text} (hzero : 0 ∉ m) (hstop : stop ∉ m) :
    ∀ c ∈ m, isMetaByte stop c = true := by
  intro c hc
  rw [isMetaByte_iff]
  exact ⟨fun h => hzero (h ▸ hc), fun h => hstop (h ▸ hc)⟩

theorem parseBuild_text {out : Version} {build : Option Text} (hzero : ∀ m ∈ build, 0 ∉ m)
    (hne : build ≠ some []) (hfits : ∀ m ∈ build, m.length < maxBuild) :
    parseBuild out (metaText chPlus build) =
      ({ out with build := build.getD out.build }, some []) := by
  cases build with
  | none => rfl
  | some m =>
    have hm := hzero m rfl
    have hspan := parseMeta_span (by decide : 2 ≤ maxBuild) (isMetaByte_of_notMem hm hm) ends_nil
    rw [List.append_nil, if_neg (fun h => hne (by rw [h])), if_pos (hfits m rfl)] at hspan
    rw [metaText, parseBuild, if_pos (peek_cons _ _)]
    simp only [List.tail_cons, hspan]
    rfl

theorem parseTail_text {out : Version} {pre build : Option Text}
    (hpre : ∀ m ∈ pre, chPlus ∉ m ∧ 0 ∉ m) (hbuild : ∀ m ∈ build, 0 ∉ m)
    (hpre' : pre ≠ some []) (hbuild' : build ≠ some [])
    (hfits : ∀ m ∈ pre, m.length < maxPrerelease) (hfits' : ∀ m ∈ build, m.length < maxBuild) :
    parseTail out (metaText chMinus pre ++ metaText chPlus build) =
      ({ out with preRelease := pre.getD out.preRelease, build := build.getD out.build }, .ok) := by
  have hmid : parsePreRelease out (metaText chMinus pre ++ metaText chPlus build) =
      ({ out with preRelease := pre.getD out.preRelease }, some (metaText chPlus build)) := by
    cases pre with
    | none =>
      rw [metaText, List.nil_append, parsePreRelease, if_neg]
      · rfl
      · cases build with
        | none => decide
        | some b =>
          rw [metaText, peek_cons]
          decide
    | some m =>
      have hm := hpre m rfl
      have hends : Ends (isMetaByte chPlus) (metaText chPlus build) := by
        cases build with
        | none => exact ends_nil
        | some b => exact ends_cons (by decide)
      have hspan := parseMeta_span (by decide : 2 ≤ maxPrerelease)
        (isMetaByte_of_notMem hm.2 hm.1) hends
      rw [if_neg (fun h => hpre' (by rw [h])), if_pos (hfits m rfl)] at hspan
      rw [metaText, List.cons_append, parsePreRelease, if_pos (peek_cons _ _)]
      simp only [List.tail_cons, hspan]
      rfl
  rw [parseTail, hmid]
  simp only [parseBuild_text hbuild hbuild' hfits']
  rfl

theorem eq_cons_of_peek {p : Text} {c : UInt8} (hc : c ≠ 0) (h : peek p = c) : p = c :: p.tail := by
  cases p with
  | nil => exact absurd h.symm hc
  | cons a p => rw [← h, peek_cons, List.tail_cons]

/-- A part that `parse_meta` accepts is not empty, fits, and reaches to its end. -/
theorem parseMeta_cases {maxLen : ℕ} {stop : UInt8} {p m rest : Text} (hmax : 2 ≤ maxLen)
    (h : parseMeta maxLen stop p = (m, some rest)) :
    p = m ++ rest ∧ m ≠ [] ∧ m.length < maxLen ∧ (∀ c ∈ m, isMetaByte stop c = true) ∧
      Ends (isMetaByte stop) rest := by
  have hall : ∀ c ∈ p.takeWhile (isMetaByte stop), isMetaByte stop c = true :=
    fun c hc => List.mem_takeWhile_imp hc
  have hends := ends_dropWhile (isMetaByte stop) p
  have hspan := parseMeta_span hmax hall hends
  rw [List.takeWhile_append_dropWhile, h] at hspan
  split_ifs at hspan with hempty hlen
  · cases hspan
  · obtain ⟨rfl, hrest⟩ := Prod.mk.inj hspan
    cases hrest
    exact ⟨List.takeWhile_append_dropWhile.symm, hempty, hlen, hall, hends⟩
  · cases hspan

theorem parseBuild_cases {out out' : Version} {p rest : Text} (hp : 0 ∉ p)
    (h : parseBuild out p = (out', some rest)) (hrest : peek rest = 0) :
    ∃ build, p = metaText chPlus build ∧ build ≠ some [] ∧ (∀ m ∈ build, m.length < maxBuild) ∧
      out' = { out with build := build.getD out.build } := by
  have hnil : ∀ q : Text, 0 ∉ q → peek q = 0 → q = [] := by
    intro q hq hpeek
    cases q with
    | nil => rfl
    | cons c q => exact absurd hpeek (fun hc => hq (by rw [peek_cons] at hc; simp [hc]))
  unfold parseBuild at h
  split_ifs at h with hplus
  · obtain ⟨hout, hmeta⟩ := Prod.mk.inj h
    have hcons := eq_cons_of_peek (by decide) hplus
    obtain ⟨hsplit, hne, hlen, hall, hends⟩ := parseMeta_cases (by decide : 2 ≤ maxBuild)
      (Prod.ext rfl hmeta : parseMeta maxBuild 0 p.tail = (_, some rest))
    have hzero : 0 ∉ rest := by
      intro hmem
      apply hp
      rw [hcons, hsplit]
      exact List.mem_cons_of_mem _ (List.mem_append_right _ hmem)
    have hrest' := hnil rest hzero hrest
    rw [hrest', List.append_nil] at hsplit
    refine ⟨some p.tail, hcons, ?_, ?_, ?_⟩
    · rw [hsplit]
      simpa using hne
    · intro m hm
      cases hm
      rw [hsplit]
      exact hlen
    · rw [← hout]
      exact congrArg (fun b => ({ out with build := b } : Version)) hsplit.symm
  · obtain ⟨rfl, hp'⟩ := Prod.mk.inj h
    cases hp'
    exact ⟨none, hnil p hp hrest, by simp, by simp, rfl⟩

theorem parseTail_cases {out out' : Version} {p : Text} (hp : 0 ∉ p)
    (h : parseTail out p = (out', .ok)) :
    ∃ pre build, p = metaText chMinus pre ++ metaText chPlus build ∧ (∀ m ∈ pre, chPlus ∉ m) ∧
      pre ≠ some [] ∧ build ≠ some [] ∧ (∀ m ∈ pre, m.length < maxPrerelease) ∧
      (∀ m ∈ build, m.length < maxBuild) ∧
      out' = { out with preRelease := pre.getD out.preRelease, build := build.getD out.build } := by
  unfold parseTail at h
  split at h
  · cases h
  rename_i out₁ q hpre
  split at h
  · cases h
  rename_i out₂ rest hbuild
  split_ifs at h with hrest
  · cases h
  have hrest : peek rest = 0 := not_not.mp hrest
  cases h
  unfold parsePreRelease at hpre
  split_ifs at hpre with hminus
  · obtain ⟨rfl, hmeta⟩ := Prod.mk.inj hpre
    have hcons := eq_cons_of_peek (by decide) hminus
    obtain ⟨hsplit, hne, hlen, hall, -⟩ := parseMeta_cases (by decide : 2 ≤ maxPrerelease)
      (Prod.ext rfl hmeta : parseMeta maxPrerelease chPlus p.tail = (_, some q))
    have hzero : 0 ∉ q := by
      intro hmem
      apply hp
      rw [hcons, hsplit]
      exact List.mem_cons_of_mem _ (List.mem_append_right _ hmem)
    obtain ⟨build, rfl, hbne, hblen, rfl⟩ := parseBuild_cases hzero hbuild hrest
    refine ⟨some _, build, ?_, ?_, by simpa using hne, hbne, ?_, hblen, rfl⟩
    · rw [hcons]
      exact congrArg _ hsplit
    · intro m hm
      cases hm
      intro hplus
      exact (isMetaByte_iff.mp (hall _ hplus)).2 rfl
    · intro m hm
      cases hm
      exact hlen
  · obtain ⟨rfl, hq⟩ := Prod.mk.inj hpre
    cases hq
    obtain ⟨build, rfl, hbne, hblen, rfl⟩ := parseBuild_cases hp hbuild hrest
    exact ⟨none, build, rfl, by simp, by simp, hbne, by simp, hblen, rfl⟩

/-! ## The whole string -/

theorem ends_meta {mark : UInt8} (hmark : isDigit mark = false) (m : Option Text) :
    Ends isDigit (metaText mark m) := by
  cases m with
  | none => exact ends_nil
  | some m => exact ends_cons hmark

theorem ends_tail (pre build : Option Text) :
    Ends isDigit (metaText chMinus pre ++ metaText chPlus build) :=
  ends_append (ends_meta (by decide) pre) (ends_meta (by decide) build)

/-- The test on the first two bytes is the one for a leading zero of the first number. -/
theorem leadingZero_iff {ds : Text} (hd : Number ds) (rest : Text) :
    (peek (ds ++ chDot :: rest) = 48 ∧ isDigit (peek (ds ++ chDot :: rest).tail) = true) ↔
      ¬NoLeadingZero ds := by
  obtain ⟨c, cs, rfl⟩ := List.exists_cons_of_ne_nil hd.1
  unfold NoLeadingZero
  cases cs with
  | nil => simp [show isDigit chDot = false by decide]
  | cons a cs => simp [hd.2 a (by simp)]

/-- A string with the numbers in front is read up to its tail. -/
theorem parse_numbers {major minor patch tail : Text} (hmajor : Number major)
    (hminor : Number minor) (hpatch : Number patch) (htail : Ends isDigit tail)
    (hfits : decimalValue major ≤ intMax) (hfits' : decimalValue minor ≤ intMax)
    (hfits'' : decimalValue patch ≤ intMax) (hzero : NoLeadingZero major) :
    zenitSemverParse (major ++ chDot :: (minor ++ chDot :: (patch ++ tail))) =
      parseTail ⟨decimalValue major, decimalValue minor, decimalValue patch, [], []⟩ tail := by
  have hdot : ∀ rest, Ends isDigit (chDot :: rest) := fun rest => ends_cons (by decide)
  have hlead := mt (leadingZero_iff hmajor (minor ++ chDot :: (patch ++ tail))).mp
    (not_not.mpr hzero)
  rw [zenitSemverParse, parseNum_span hmajor (hdot _), if_pos hfits]
  simp only [peek_cons, List.tail_cons, ne_eq, not_true_eq_false, if_false]
  rw [parseNum_span hminor (hdot _), if_pos hfits']
  simp only [peek_cons, List.tail_cons, not_true_eq_false, if_false]
  rw [parseNum_span hpatch htail, if_pos hfits'']
  simp only
  rw [if_neg hlead]
  rfl

theorem parse_text {p : Parts} (hs : Shape p) (hf : Fits p) (hc : Checked p) :
    zenitSemverParse p.text = (p.version, .ok) := by
  rw [Parts.text, parse_numbers hs.major hs.minor hs.patch (ends_tail _ _) hf.major hf.minor
    hf.patch hc.major, parseTail_text hs.pre hs.build hc.pre hc.build hf.pre hf.build]
  rfl

theorem parse_cases {s : Text} {v : Version} (hs : 0 ∉ s)
    (h : zenitSemverParse s = (v, .ok)) :
    ∃ p, s = p.text ∧ Shape p ∧ Fits p ∧ Checked p ∧ v = p.version := by
  unfold zenitSemverParse at h
  split at h
  · cases h
  rename_i n₁ p₁ hread₁
  obtain ⟨major, hmajor, -, hs₁, rfl, hfits₁⟩ := parseNum_cases hread₁
  simp only at h
  by_cases hdot₁ : peek p₁ ≠ chDot
  · rw [if_pos hdot₁] at h
    cases h
  rw [if_neg hdot₁] at h
  have hcons₁ := eq_cons_of_peek (by decide) (not_not.mp hdot₁)
  split at h
  · cases h
  rename_i n₂ p₂ hread₂
  obtain ⟨minor, hminor, -, hs₂, rfl, hfits₂⟩ := parseNum_cases hread₂
  by_cases hdot₂ : peek p₂ ≠ chDot
  · rw [if_pos hdot₂] at h
    cases h
  rw [if_neg hdot₂] at h
  have hcons₂ := eq_cons_of_peek (by decide) (not_not.mp hdot₂)
  split at h
  · cases h
  rename_i n₃ p₃ hread₃
  obtain ⟨patch, hpatch, -, hs₃, rfl, hfits₃⟩ := parseNum_cases hread₃
  rw [hcons₁, hs₂, hcons₂, hs₃] at hs₁
  by_cases hlead : peek s = 48 ∧ isDigit (peek s.tail) = true
  · rw [if_pos hlead] at h
    cases h
  rw [if_neg hlead] at h
  have hzero : 0 ∉ p₃ := by
    intro hmem
    apply hs
    rw [hs₁]
    simp [hmem]
  obtain ⟨pre, build, rfl, hplus, hpre, hbuild, hlen, hlen', rfl⟩ := parseTail_cases hzero h
  refine ⟨⟨major, minor, patch, pre, build⟩, hs₁, ⟨hmajor, hminor, hpatch, ?_, ?_⟩,
    ⟨hfits₁, hfits₂, hfits₃, hlen, hlen'⟩, ⟨?_, hpre, hbuild⟩, rfl⟩
  · rintro m rfl
    exact ⟨hplus m rfl, fun hmem => hzero (by simp [metaText, hmem])⟩
  · rintro m rfl
    exact fun hmem => hzero (by simp [metaText, hmem])
  · rw [hs₁, leadingZero_iff hmajor] at hlead
    exact not_not.mp hlead

end LibZenit.Semver
