import LibZenit.Comparators
import LibZenit.SemverGrammar

/-!
# When `zenit_semver_compare` is an order

Two numeric identifiers are compared by value, any other two by bytes. An alphanumeric identifier
between two numeric ones in the order of bytes therefore fixes how their values must lie.
-/
namespace LibZenit.Semver
open DecimalText Comparators

/-! ## Identifiers -/

/-- The identifiers that the loop of `cmp_prerelease` walks over. A dot at the end is ignored. -/
def idents : Text → List Text
  | [] => []
  | c :: s =>
    if c = chDot then [] :: idents s
    else ((idents s).head?.elim [c] (c :: ·)) :: (idents s).tail

theorem idents_nextIdent {s x rest : Text} (h : nextIdent s = some (x, rest)) :
    idents s = x :: idents rest := by
  induction s generalizing x rest with
  | nil => cases h
  | cons c s ih =>
    rw [nextIdent, if_neg (List.cons_ne_nil c s)] at h
    cases h
    by_cases hc : c = chDot
    · rw [idents, if_pos hc, List.takeWhile_cons_of_neg (by simp [hc]),
        List.dropWhile_cons_of_neg (by simp [hc])]
      rfl
    · rw [idents, if_neg hc, List.takeWhile_cons_of_pos (by simp [hc]),
        List.dropWhile_cons_of_pos (by simp [hc])]
      by_cases hs : s = []
      · subst hs
        rfl
      · rw [ih (by rw [nextIdent, if_neg hs])]
        rfl

theorem cmpPrerelease_eq (a b : Text) :
    cmpPrerelease a b = lexCmp cmpPreId (idents a) (idents b) := by
  induction hn : a.length using Nat.strong_induction_on generalizing a b with
  | _ n ih =>
    have hnil : ∀ s, nextIdent s = none → s = [] := by
      intro s hs
      by_contra hne
      rw [nextIdent, if_neg hne] at hs
      cases hs
    unfold cmpPrerelease
    split
    · rename_i ha hb
      rw [hnil a ha, hnil b hb]
      rfl
    · rename_i ha hb
      rw [hnil a ha, idents_nextIdent hb]
      rfl
    · rename_i ha hb
      rw [hnil b hb, idents_nextIdent ha]
      rfl
    · rename_i x a' y b' ha hb
      rw [idents_nextIdent ha, idents_nextIdent hb, lexCmp,
        ih a'.length (hn ▸ nextIdent_length ha) a' b' rfl]

theorem mem_idents {s x : Text} (hx : x ∈ idents s) :
    x.length ≤ s.length ∧ ∀ c ∈ x, c ∈ s ∧ c ≠ chDot := by
  induction s generalizing x with
  | nil => cases hx
  | cons c s ih =>
    rw [idents] at hx
    split_ifs at hx with hc
    · rcases List.mem_cons.mp hx with rfl | hx
      · simp
      · obtain ⟨hlen, hbytes⟩ := ih hx
        refine ⟨hlen.trans (Nat.le_succ _), fun b hb => ?_⟩
        exact ⟨List.mem_cons_of_mem _ (hbytes b hb).1, (hbytes b hb).2⟩
    · cases hids : idents s with
      | nil =>
        rw [hids] at hx
        obtain rfl : x = [c] := by simpa using hx
        exact ⟨by simp, by simp [hc]⟩
      | cons y ys =>
        rw [hids] at hx ih
        rcases List.mem_cons.mp hx with rfl | hx
        · obtain ⟨hlen, hbytes⟩ := ih (List.mem_cons_self ..)
          refine ⟨Nat.succ_le_succ hlen, fun b hb => ?_⟩
          rcases List.mem_cons.mp hb with rfl | hb
          · exact ⟨List.mem_cons_self .., hc⟩
          · exact ⟨List.mem_cons_of_mem _ (hbytes b hb).1, (hbytes b hb).2⟩
        · obtain ⟨hlen, hbytes⟩ := ih (List.mem_cons_of_mem _ hx)
          refine ⟨hlen.trans (Nat.le_succ _), fun b hb => ?_⟩
          exact ⟨List.mem_cons_of_mem _ (hbytes b hb).1, (hbytes b hb).2⟩

/-! ## Values and bytes -/

theorem intValue_eq {s : Text} (hfits : decimalValue s ≤ intMax) :
    intValue s = decimalValue s := by
  induction s using List.reverseRecOn with
  | nil => rfl
  | append_singleton s c ih =>
    rw [decimalValue_append] at hfits
    have hs := ih (by omega)
    have hstep : intValue (s ++ [c]) = (intValue s * 10 + (digitValue c : ℤ)).bmod (2 ^ 32) := by
      simp [intValue]
    rw [hstep, hs, decimalValue_append]
    unfold intMax at hfits
    push_cast
    rw [Int.bmod_def]
    split_ifs <;> omega

theorem charValue_injective : Function.Injective charValue := by
  intro a b h
  have ha := a.toNat_lt
  have hb := b.toNat_lt
  unfold charValue at h
  rw [Int.bmod_def, Int.bmod_def] at h
  apply UInt8.toNat_inj.mp
  split_ifs at h <;> omega

/-- The order of bytes, a string before its continuations. -/
def Before (a b : Text) : Prop := List.Lex (fun c d => charValue c < charValue d) a b

theorem cmpBytes_eq (a b : Text) : cmpBytes a b = lexCmp (rankCmp charValue) a b := by
  induction a generalizing b with
  | nil => cases b <;> rfl
  | cons c a ih =>
    cases b with
    | nil => rfl
    | cons d b =>
      rw [cmpBytes, lexCmp, rankCmp, ih b]
      simp only [charValue_injective.ne_iff]
      split_ifs <;> simp_all

theorem cmpBytes_lawful : LawfulOn cmpBytes Set.univ := by
  have hlex := (lawfulOn_rank charValue Set.univ).lexCmp
  have heq : cmpBytes = lexCmp (rankCmp charValue) := by
    funext a b
    exact cmpBytes_eq a b
  rw [heq]
  simpa using hlex

theorem cmpBytes_neg_iff {a b : Text} : cmpBytes a b < 0 ↔ Before a b := by
  induction a generalizing b with
  | nil => cases b <;> simp [cmpBytes, Before]
  | cons c a ih =>
    cases b with
    | nil => simp [cmpBytes, Before]
    | cons d b =>
      rw [cmpBytes, Before, List.cons_lex_cons_iff]
      by_cases hcd : c = d
      · rw [if_neg (not_not.mpr hcd), ih, Before, hcd]
        simp
      · rw [if_pos hcd]
        split_ifs with hlt <;> simp [hlt, hcd]

theorem eq_of_cmpBytes {a b : Text} (h : cmpBytes a b = 0) : a = b := by
  induction a generalizing b with
  | nil =>
    cases b with
    | nil => rfl
    | cons d b => cases h
  | cons c a ih =>
    cases b with
    | nil => cases h
    | cons d b =>
      rw [cmpBytes] at h
      by_cases hcd : c = d
      · rw [if_neg (not_not.mpr hcd)] at h
        rw [hcd, ih h]
      · rw [if_pos hcd] at h
        split_ifs at h
        cases h

/-! ## The order of identifiers -/

/-- An alphanumeric identifier lies between numeric ones only if their values grow. -/
def Separated (S : Set Text) : Prop :=
  ∀ x ∈ S, ∀ y ∈ S, ∀ z ∈ S, isNumeric x = true → isNumeric y = true → isNumeric z = false →
    Before x z → Before z y → decimalValue x < decimalValue y

variable {S : Set Text} {x y z : Text}

theorem cmpPreId_numeric (hx : isNumeric x = true) (hy : isNumeric y = true) :
    cmpPreId x y = rankCmp intValue x y := by
  rw [cmpPreId, hx, hy]
  rfl

theorem cmpPreId_left (hx : isNumeric x = false) : cmpPreId x y = cmpBytes x y := by
  rw [cmpPreId, hx]
  rfl

theorem cmpPreId_right (hy : isNumeric y = false) : cmpPreId x y = cmpBytes x y := by
  rw [cmpPreId, hy, Bool.and_false]
  rfl

theorem cmpBytes_flip (a b : Text) : cmpBytes a b < 0 ↔ 0 < cmpBytes b a :=
  cmpBytes_lawful.flip a trivial b trivial

theorem cmpPreId_flip (x y : Text) : cmpPreId x y < 0 ↔ 0 < cmpPreId y x := by
  cases hx : isNumeric x with
  | false =>
    rw [cmpPreId_left hx, cmpPreId_right hx]
    exact cmpBytes_flip x y
  | true =>
    cases hy : isNumeric y with
    | false =>
      rw [cmpPreId_right hy, cmpPreId_left hy]
      exact cmpBytes_flip x y
    | true =>
      rw [cmpPreId_numeric hx hy, cmpPreId_numeric hy hx, rankCmp_neg_iff, rankCmp_pos_iff]

theorem before_of_kinds (hne : isNumeric x ≠ isNumeric y) (h : cmpPreId x y ≤ 0) : Before x y := by
  have hcmp : cmpPreId x y = cmpBytes x y := by
    cases hx : isNumeric x with
    | false => exact cmpPreId_left hx
    | true =>
      rw [hx] at hne
      exact cmpPreId_right (by simpa using hne.symm)
  have hdiff : cmpBytes x y ≠ 0 := fun h => hne (congrArg isNumeric (eq_of_cmpBytes h))
  rw [hcmp] at h
  exact cmpBytes_neg_iff.mp (by omega)

theorem cmpPreId_nonpos_iff (hx : isNumeric x = true) (hy : isNumeric y = true)
    (hfx : decimalValue x ≤ intMax) (hfy : decimalValue y ≤ intMax) :
    cmpPreId x y ≤ 0 ↔ decimalValue x ≤ decimalValue y := by
  rw [cmpPreId_numeric hx hy, rankCmp_nonpos_iff, intValue_eq hfx, intValue_eq hfy]
  exact Int.ofNat_le

theorem not_nonpos (h : ¬cmpPreId x y ≤ 0) : cmpPreId y x ≤ 0 := by
  have hflip := cmpPreId_flip y x
  omega

theorem cmpPreId_lawful (hsep : Separated S)
    (hfits : ∀ x ∈ S, isNumeric x = true → decimalValue x ≤ intMax) : LawfulOn cmpPreId S := by
  refine ⟨fun x _ y _ => cmpPreId_flip x y, fun x hxS y hyS z hzS hxy hyz => ?_⟩
  -- the comparisons by bytes alone, then the three places of one alphanumeric identifier
  have hbytes : cmpBytes x y ≤ 0 → cmpBytes y z ≤ 0 → cmpBytes x z ≤ 0 :=
    cmpBytes_lawful.trans x trivial y trivial z trivial
  cases hx : isNumeric x with
  | false =>
    cases hz : isNumeric z with
    | false =>
      rw [cmpPreId_left hx] at hxy ⊢
      rw [cmpPreId_right hz] at hyz
      exact hbytes hxy hyz
    | true =>
      cases hy : isNumeric y with
      | false =>
        rw [cmpPreId_left hx] at hxy ⊢
        rw [cmpPreId_left hy] at hyz
        exact hbytes hxy hyz
      | true =>
        by_contra hxz
        have hzx := before_of_kinds (by simp [hx, hz]) (not_nonpos hxz)
        have hlt := hsep z hzS y hyS x hxS hz hy hx hzx (before_of_kinds (by simp [hx, hy]) hxy)
        rw [cmpPreId_nonpos_iff hy hz (hfits y hyS hy) (hfits z hzS hz)] at hyz
        omega
  | true =>
    cases hy : isNumeric y with
    | false =>
      cases hz : isNumeric z with
      | false =>
        rw [cmpPreId_right hy] at hxy
        rw [cmpPreId_left hy] at hyz
        rw [cmpPreId_right hz]
        exact hbytes hxy hyz
      | true =>
        have hlt := hsep x hxS z hzS y hyS hx hz hy (before_of_kinds (by simp [hx, hy]) hxy)
          (before_of_kinds (by simp [hy, hz]) hyz)
        rw [cmpPreId_nonpos_iff hx hz (hfits x hxS hx) (hfits z hzS hz)]
        omega
    | true =>
      rw [cmpPreId_nonpos_iff hx hy (hfits x hxS hx) (hfits y hyS hy)] at hxy
      cases hz : isNumeric z with
      | false =>
        by_contra hxz
        have hzx := before_of_kinds (by simp [hx, hz]) (not_nonpos hxz)
        have hlt := hsep y hyS x hxS z hzS hy hx hz (before_of_kinds (by simp [hy, hz]) hyz) hzx
        omega
      | true =>
        rw [cmpPreId_nonpos_iff hy hz (hfits y hyS hy) (hfits z hzS hz)] at hyz
        rw [cmpPreId_nonpos_iff hx hz (hfits x hxS hx) (hfits z hzS hz)]
        omega

/-! ## The order of versions -/

def Accepted (v : Version) : Prop := ∃ s, 0 ∉ s ∧ zenitSemverParse s = (v, .ok)

/-- The accepted versions with identifiers from `I`, the numeric ones in the range of an `int`. -/
def versionsOver (I : Set Text) : Set Version :=
  {v | Accepted v ∧
    ∀ x ∈ idents v.preRelease, x ∈ I ∧ (isNumeric x = true → decimalValue x ≤ intMax)}

/-- The identifiers in these versions. -/
def identsOver (I : Set Text) : Set Text := {x | ∃ v ∈ versionsOver I, x ∈ idents v.preRelease}

theorem compare_eq (a b : Version) : zenitSemverCompare a b =
    thenCmp (fun a b => a.major - b.major) (thenCmp (fun a b => a.minor - b.minor)
      (thenCmp (fun a b => a.patch - b.patch) (fun a b =>
        lexCmp cmpPreId (idents a.preRelease) (idents b.preRelease)))) a b := by
  simp only [zenitSemverCompare, thenCmp, cmpPrerelease_eq, ne_eq, sub_eq_zero]

theorem compare_lawful {I : Set Text} (hsep : Separated (identsOver I)) :
    LawfulOn zenitSemverCompare (versionsOver I) := by
  have hids : LawfulOn cmpPreId (identsOver I) :=
    cmpPreId_lawful hsep fun x ⟨v, hv, hx⟩ => (hv.2 x hx).2
  have hpre : LawfulOn (fun a b : Version =>
      lexCmp cmpPreId (idents a.preRelease) (idents b.preRelease)) (versionsOver I) := by
    have hlex := hids.lexCmp.comap fun v : Version => idents v.preRelease
    exact ⟨fun a ha b hb => hlex.flip a (fun x hx => ⟨a, ha, hx⟩) b (fun x hx => ⟨b, hb, hx⟩),
      fun a ha b hb c hc => hlex.trans a (fun x hx => ⟨a, ha, hx⟩) b (fun x hx => ⟨b, hb, hx⟩) c
        (fun x hx => ⟨c, hc, hx⟩)⟩
  have hall := (lawfulOn_sub Version.major (versionsOver I)).thenCmp
    ((lawfulOn_sub Version.minor (versionsOver I)).thenCmp
      ((lawfulOn_sub Version.patch (versionsOver I)).thenCmp hpre))
  have heq : zenitSemverCompare = thenCmp _ _ := funext fun a => funext fun b => compare_eq a b
  rw [heq]
  exact hall

/-! ## Versions with one identifier -/

/-- A pre-release with the single identifier `x`. -/
def carrier (x : Text) : Text := if x = [] then [chDot] else x

def single (x : Text) : Version := ⟨0, 0, 0, carrier x, []⟩

theorem idents_carrier (hx : ∀ c ∈ x, c ≠ chDot) : idents (carrier x) = [x] := by
  unfold carrier
  split_ifs with hnil
  · rw [hnil]
    rfl
  · induction x with
    | nil => exact absurd rfl hnil
    | cons c x ih =>
      obtain ⟨hc, hx⟩ := List.forall_mem_cons.mp hx
      rw [idents, if_neg hc]
      by_cases hx' : x = []
      · rw [hx']
        rfl
      · rw [ih hx hx']
        rfl

theorem compare_single (hx : ∀ c ∈ x, c ≠ chDot) (hy : ∀ c ∈ y, c ≠ chDot) :
    zenitSemverCompare (single x) (single y) = cmpPreId x y := by
  have hcmp : zenitSemverCompare (single x) (single y) = cmpPrerelease (carrier x) (carrier y) :=
    rfl
  rw [hcmp, cmpPrerelease_eq, idents_carrier hx, idents_carrier hy, lexCmp, lexCmp]
  split_ifs with h
  · rfl
  · exact (not_not.mp h).symm

theorem single_accepted (hlen : x.length < maxPrerelease) (hplus : chPlus ∉ x) (hzero : 0 ∉ x) :
    Accepted (single x) := by
  have hbytes : chPlus ∉ carrier x ∧ 0 ∉ carrier x := by
    unfold carrier
    split_ifs
    · decide
    · exact ⟨hplus, hzero⟩
  have hlen' : (carrier x).length < maxPrerelease := by
    unfold carrier
    split_ifs
    · decide
    · exact hlen
  have hne : carrier x ≠ [] := by
    unfold carrier
    split_ifs with h
    · decide
    · exact h
  have hnumber : Number [48] := by simp [Number, isDigit]
  have hvalue : decimalValue [48] ≤ intMax := by decide
  have hlead : NoLeadingZero [48] := by decide
  have hparse := parse_text (p := ⟨[48], [48], [48], some (carrier x), none⟩)
    ⟨hnumber, hnumber, hnumber, by simpa using hbytes, by simp⟩
    ⟨hvalue, hvalue, hvalue, by simpa using hlen', by simp⟩ ⟨hlead, by simpa using hne, by simp⟩
  refine ⟨_, ?_, hparse⟩
  simp [Parts.text, metaText, chDot, chMinus, hbytes.2]

theorem single_mem {I : Set Text} (hx : x ∈ identsOver I) :
    single x ∈ versionsOver I ∧ ∀ c ∈ x, c ≠ chDot := by
  obtain ⟨v, ⟨⟨s, hs, hparse⟩, hids⟩, hmem⟩ := hx
  obtain ⟨p, -, hshape, hfits, -, rfl⟩ := parse_cases hs hparse
  obtain ⟨hlen, hbytes⟩ := mem_idents hmem
  have hdots : ∀ c ∈ x, c ≠ chDot := fun c hc => (hbytes c hc).2
  have hpre : chPlus ∉ p.version.preRelease ∧ 0 ∉ p.version.preRelease ∧
      p.version.preRelease.length < maxPrerelease := by
    rw [Parts.version]
    cases hp : p.pre with
    | none => simp [maxPrerelease]
    | some m => exact ⟨(hshape.pre m hp).1, (hshape.pre m hp).2, hfits.pre m hp⟩
  refine ⟨⟨single_accepted (lt_of_le_of_lt hlen hpre.2.2) (fun h => hpre.1 (hbytes _ h).1)
    (fun h => hpre.2.1 (hbytes _ h).1), ?_⟩, hdots⟩
  intro y hy
  rw [single, idents_carrier hdots, List.mem_singleton] at hy
  rw [hy]
  exact hids x hmem

/-! ## When the comparison is an order -/

/-- On the accepted versions over any set of identifiers, the comparison is antisymmetric and
transitive, with equality as a congruence, if and only if the identifiers are separated. -/
theorem compare_orders_iff (I : Set Text) :
    ((∀ a ∈ versionsOver I, ∀ b ∈ versionsOver I,
        (zenitSemverCompare a b).sign = -(zenitSemverCompare b a).sign) ∧
      (∀ a ∈ versionsOver I, ∀ b ∈ versionsOver I, ∀ c ∈ versionsOver I,
        zenitSemverCompare a b < 0 → zenitSemverCompare b c < 0 → zenitSemverCompare a c < 0) ∧
      (∀ a ∈ versionsOver I, ∀ b ∈ versionsOver I, ∀ c ∈ versionsOver I,
        zenitSemverCompare a b = 0 →
          (zenitSemverCompare a c).sign = (zenitSemverCompare b c).sign)) ↔
    Separated (identsOver I) := by
  constructor
  · rintro ⟨-, htrans, hcongr⟩ x hx y hy z hz hnx hny hnz hxz hzy
    obtain ⟨hvx, hdx⟩ := single_mem hx
    obtain ⟨hvy, hdy⟩ := single_mem hy
    obtain ⟨hvz, hdz⟩ := single_mem hz
    have hfit : ∀ w ∈ identsOver I, isNumeric w = true → decimalValue w ≤ intMax :=
      fun w ⟨v, hv, hw⟩ => (hv.2 w hw).2
    have hxz' : cmpPreId x z < 0 := by
      rw [cmpPreId_right hnz]
      exact cmpBytes_neg_iff.mpr hxz
    have hyz' : 0 < cmpPreId y z := by
      rw [cmpPreId_right hnz, ← cmpBytes_flip]
      exact cmpBytes_neg_iff.mpr hzy
    by_contra hval
    -- equal values make a tie that the third identifier breaks, other values a cycle
    have hyx : cmpPreId y x ≤ 0 :=
      (cmpPreId_nonpos_iff hny hnx (hfit y hy hny) (hfit x hx hnx)).mpr (by omega)
    rcases hyx.lt_or_eq with hlt | heq
    · have hcycle := htrans _ hvy _ hvx _ hvz
      rw [compare_single hdy hdx, compare_single hdx hdz, compare_single hdy hdz] at hcycle
      have hcycle := hcycle hlt hxz'
      omega
    · have htie := hcongr _ hvy _ hvx _ hvz
      rw [compare_single hdy hdx, compare_single hdx hdz, compare_single hdy hdz] at htie
      have htie := htie heq
      rw [Int.sign_eq_one_of_pos hyz', Int.sign_eq_neg_one_of_neg hxz'] at htie
      cases htie
  · intro hsep
    have hlaw := compare_lawful hsep
    exact ⟨fun a ha b hb => hlaw.sign_flip ha hb,
      fun a ha b hb c hc hab hbc => hlaw.lt_trans ha hb hc hab hbc.le,
      fun a ha b hb c hc hab => hlaw.sign_congr ha hb hc hab⟩

/-- `1.0.0-9`, `1.0.0-10` and `1.0.0-1a` form a cycle. -/
theorem compare_cycle :
    zenitSemverParse [49, 46, 48, 46, 48, 45, 57] = (⟨1, 0, 0, [57], []⟩, .ok) ∧
    zenitSemverParse [49, 46, 48, 46, 48, 45, 49, 48] = (⟨1, 0, 0, [49, 48], []⟩, .ok) ∧
    zenitSemverParse [49, 46, 48, 46, 48, 45, 49, 97] = (⟨1, 0, 0, [49, 97], []⟩, .ok) ∧
    zenitSemverCompare ⟨1, 0, 0, [57], []⟩ ⟨1, 0, 0, [49, 48], []⟩ < 0 ∧
    zenitSemverCompare ⟨1, 0, 0, [49, 48], []⟩ ⟨1, 0, 0, [49, 97], []⟩ < 0 ∧
    ¬zenitSemverCompare ⟨1, 0, 0, [57], []⟩ ⟨1, 0, 0, [49, 97], []⟩ < 0 := by
  refine ⟨by decide, by decide, by decide, ?_, ?_, ?_⟩ <;>
    · rw [compare_eq]
      decide

end LibZenit.Semver
