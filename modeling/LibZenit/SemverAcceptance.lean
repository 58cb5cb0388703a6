import LibZenit.SemverGrammar

/-!
# The parser against the grammar

Every derivable string is accepted with the fields of its derivation. The parser looks for a
leading zero in the first number only, and copies the bytes of the pre-release and the build
unseen, so it accepts more.
-/
namespace LibZenit.Semver
open DecimalText Spans

variable {p q : Parts} {s : Text}

/-! ## One outline per string -/

theorem metaText_inj {mark : UInt8} {m m' : Option Text} (h : metaText mark m = metaText mark m') :
    m = m' := by
  cases m with
  | none =>
    cases m' with
    | none => rfl
    | some m' => cases h
  | some m =>
    cases m' with
    | none => cases h
    | some m' => exact congrArg some (List.cons.inj h).2

theorem notPlus_span {m : Text} (h : chPlus ∉ m) : ∀ c ∈ m, (c != chPlus) = true := by
  intro c hc
  have hne : c ≠ chPlus := fun he => h (he ▸ hc)
  simpa using hne

theorem ends_build (build : Option Text) : Ends (· != chPlus) (metaText chPlus build) := by
  cases build with
  | none => exact ends_nil
  | some b => exact ends_cons (by decide)

theorem tail_unique {pre pre' build build' : Option Text} (hpre : ∀ m ∈ pre, chPlus ∉ m)
    (hpre' : ∀ m ∈ pre', chPlus ∉ m)
    (h : metaText chMinus pre ++ metaText chPlus build =
      metaText chMinus pre' ++ metaText chPlus build') : pre = pre' ∧ build = build' := by
  -- a build part starts with another byte than a pre-release
  have hmark : ∀ (b b' : Option Text) (m : Text),
      metaText chPlus b ≠ chMinus :: (m ++ metaText chPlus b') := by
    intro b b' m heq
    cases b with
    | none => cases heq
    | some b => exact absurd (List.cons.inj heq).1 (by decide)
  cases pre with
  | none =>
    cases pre' with
    | none => exact ⟨rfl, metaText_inj h⟩
    | some m' => exact absurd h (hmark _ _ _)
  | some m =>
    cases pre' with
    | none => exact absurd h.symm (hmark _ _ _)
    | some m' =>
      obtain ⟨rfl, hbuild⟩ := span_unique (notPlus_span (hpre m rfl)) (ends_build build)
        (notPlus_span (hpre' m' rfl)) (ends_build build') (List.cons.inj h).2
      exact ⟨rfl, metaText_inj hbuild⟩

theorem Shape.unique (hp : Shape p) (hq : Shape q) (h : p.text = q.text) : p = q := by
  have hdot : ∀ rest, Ends isDigit (chDot :: rest) := fun rest => ends_cons (by decide)
  obtain ⟨hmajor, h₁⟩ := span_unique hp.major.2 (hdot _) hq.major.2 (hdot _) h
  obtain ⟨hminor, h₂⟩ := span_unique hp.minor.2 (hdot _) hq.minor.2 (hdot _) (List.cons.inj h₁).2
  obtain ⟨hpatch, h₃⟩ := span_unique hp.patch.2 (ends_tail _ _) hq.patch.2 (ends_tail _ _)
    (List.cons.inj h₂).2
  obtain ⟨hpre, hbuild⟩ := tail_unique (fun m hm => (hp.pre m hm).1)
    (fun m hm => (hq.pre m hm).1) h₃
  cases p
  cases q
  simp only [Parts.mk.injEq]
  exact ⟨hmajor, hminor, hpatch, hpre, hbuild⟩

/-! ## Derivations -/

/-- What the grammar asks for beyond the outline and the checks of the parser. -/
structure Strict (p : Parts) : Prop where
  minor : NoLeadingZero p.minor
  patch : NoLeadingZero p.patch
  pre : ∀ m ∈ p.pre, ∀ s ∈ m.splitOn chDot,
    IsIdentifier s ∧ (isNumeric s = true → NoLeadingZero s)
  build : ∀ m ∈ p.build, ∀ s ∈ m.splitOn chDot, IsIdentifier s

theorem mem_splitOn {m : Text} {c : UInt8} (hc : c ∈ m) (hdot : c ≠ chDot) :
    ∃ s ∈ m.splitOn chDot, c ∈ s := by
  induction m with
  | nil => cases hc
  | cons a m ih =>
    rw [List.splitOn_cons_eq_if_modifyHead]
    by_cases ha : a = chDot
    · rw [if_pos (by simpa using ha)]
      rcases List.mem_cons.mp hc with rfl | hc
      · exact absurd ha hdot
      · obtain ⟨s, hs, hcs⟩ := ih hc
        exact ⟨s, List.mem_cons_of_mem _ hs, hcs⟩
    · rw [if_neg (by simpa using ha)]
      obtain ⟨t, ts, hsplit⟩ := List.exists_cons_of_ne_nil (List.splitOn_ne_nil chDot m)
      rw [hsplit] at ih ⊢
      rw [List.modifyHead_cons]
      rcases List.mem_cons.mp hc with rfl | hc
      · exact ⟨c :: t, by simp, by simp⟩
      · obtain ⟨s, hs, hcs⟩ := ih hc
        rcases List.mem_cons.mp hs with rfl | hs
        · exact ⟨a :: s, by simp, List.mem_cons_of_mem _ hcs⟩
        · exact ⟨s, List.mem_cons_of_mem _ hs, hcs⟩

theorem notMem_of_identifiers {m : Text} {c : UInt8} (h : ∀ s ∈ m.splitOn chDot, IsIdentifier s)
    (hdot : c ≠ chDot) (hident : isIdentByte c = false) : c ∉ m := by
  intro hc
  obtain ⟨s, hs, hcs⟩ := mem_splitOn hc hdot
  rw [(h s hs).2 c hcs] at hident
  cases hident

theorem Derives.shape (h : Derives p) : Shape p := by
  refine ⟨h.major.1, h.minor.1, h.patch.1, fun m hm => ?_, fun m hm => ?_⟩
  · have hident : ∀ s ∈ m.splitOn chDot, IsIdentifier s := fun s hs => (h.pre m hm s hs).1
    exact ⟨notMem_of_identifiers hident (by decide) (by decide),
      notMem_of_identifiers hident (by decide) (by decide)⟩
  · exact notMem_of_identifiers (h.build m hm) (by decide) (by decide)

theorem Derives.checked (h : Derives p) : Checked p := by
  have hnil : [] ∈ List.splitOn chDot [] := by simp
  refine ⟨h.major.2, fun he => ?_, fun he => ?_⟩
  · exact (h.pre [] he [] hnil).1.1 rfl
  · exact (h.build [] he [] hnil).1 rfl

theorem Derives.strict (h : Derives p) : Strict p := ⟨h.minor.2, h.patch.2, h.pre, h.build⟩

theorem derives_of_strict (hs : Shape p) (hc : Checked p) (h : Strict p) : Derives p :=
  ⟨⟨hs.major, hc.major⟩, ⟨hs.minor, h.minor⟩, ⟨hs.patch, h.patch⟩, h.pre, h.build⟩

/-! ## Acceptance -/

/-- A string that fits is accepted exactly when it is derivable, with the fields of its derivation,
if and only if no part that the parser lets through unseen breaks the grammar. -/
theorem parse_agrees_with_grammar_iff (hs : 0 ∉ s) (hfits : ∀ p, Shape p → p.text = s → Fits p) :
    (((zenitSemverParse s).2 = .ok ↔ ∃ p, Derives p ∧ p.text = s) ∧
      ∀ p, Derives p → p.text = s → zenitSemverParse s = (p.version, .ok)) ↔
    ∀ p, Shape p → p.text = s → Checked p → Strict p := by
  have hsound : ∀ p, Derives p → p.text = s → zenitSemverParse s = (p.version, .ok) := by
    intro p hd htext
    rw [← htext]
    exact parse_text hd.shape (hfits p hd.shape htext) hd.checked
  constructor
  · rintro ⟨hiff, -⟩ p hp htext hc
    have hok := parse_text hp (hfits p hp htext) hc
    rw [htext] at hok
    obtain ⟨q, hq, hq'⟩ := hiff.mp (by rw [hok])
    rw [hp.unique hq.shape (htext.trans hq'.symm)]
    exact hq.strict
  · intro hstrict
    refine ⟨⟨fun hok => ?_, ?_⟩, hsound⟩
    · have hparse : zenitSemverParse s = ((zenitSemverParse s).1, .ok) := Prod.ext rfl hok
      obtain ⟨p, rfl, hp, -, hc, -⟩ := parse_cases hs hparse
      exact ⟨p, derives_of_strict hp hc (hstrict p hp rfl hc), rfl⟩
    · rintro ⟨p, hd, htext⟩
      rw [hsound p hd htext]

/-- A version without pre-release and build. -/
def plain (major minor patch : Text) : Parts := ⟨major, minor, patch, none, none⟩

theorem plain_shape {major minor patch : Text} (hmajor : Number major) (hminor : Number minor)
    (hpatch : Number patch) : Shape (plain major minor patch) :=
  ⟨hmajor, hminor, hpatch, by simp [plain], by simp [plain]⟩

theorem plain_fits {major minor patch : Text} (hmajor : decimalValue major ≤ intMax)
    (hminor : decimalValue minor ≤ intMax) (hpatch : decimalValue patch ≤ intMax) :
    Fits (plain major minor patch) :=
  ⟨hmajor, hminor, hpatch, by simp [plain], by simp [plain]⟩

/-- `1.2.3` -/
theorem plain_version_agrees :
    (zenitSemverParse [49, 46, 50, 46, 51]).2 = .ok ↔
      ∃ p, Derives p ∧ p.text = [49, 46, 50, 46, 51] := by
  have hshape : Shape (plain [49] [50] [51]) :=
    plain_shape (by simp [Number, isDigit]) (by simp [Number, isDigit]) (by simp [Number, isDigit])
  have hfits : ∀ p, Shape p → p.text = [49, 46, 50, 46, 51] → Fits p := by
    intro p hp htext
    rw [hp.unique hshape htext]
    exact plain_fits (by decide) (by decide) (by decide)
  refine ((parse_agrees_with_grammar_iff (by decide) hfits).mpr ?_).1
  intro p hp htext _
  rw [hp.unique hshape htext]
  exact ⟨by decide, by decide, by simp [plain], by simp [plain]⟩

/-- `1.02.3` is accepted, and not derivable. -/
theorem leading_zero_accepted :
    0 ∉ [49, 46, 48, 50, 46, 51] ∧
      (∀ p, Shape p → p.text = [49, 46, 48, 50, 46, 51] → Fits p) ∧
      zenitSemverParse [49, 46, 48, 50, 46, 51] = (⟨1, 2, 3, [], []⟩, .ok) ∧
      ¬∃ p, Derives p ∧ p.text = [49, 46, 48, 50, 46, 51] := by
  have hshape : Shape (plain [49] [48, 50] [51]) :=
    plain_shape (by simp [Number, isDigit]) (by simp [Number, isDigit]) (by simp [Number, isDigit])
  refine ⟨by decide, fun p hp htext => ?_, by decide, ?_⟩
  · rw [hp.unique hshape htext]
    exact plain_fits (by decide) (by decide) (by decide)
  · rintro ⟨p, hd, htext⟩
    have hzero := hd.minor.2
    rw [hd.shape.unique hshape htext] at hzero
    exact absurd hzero (by decide)

end LibZenit.Semver
