import LibZenit.SemverAcceptance
import LibZenit.SemverOrder

/-!
# The precedence of SemVer 2.0.0

The rules of section 11 of the specification, and when `zenit_semver_compare` follows them. It takes
a missing pre-release for the shortest one, compares a numeric identifier with an alphanumeric one
by bytes, and keeps the value of a numeric identifier in an `int`.
-/
namespace LibZenit.Semver
open DecimalText Comparators

variable {p q : Parts} {m s t x y : Text} {xs ys : List Text}

/-! ## The rules -/

/-- Numeric identifiers by value, alphanumeric ones in ASCII order, numeric ones first. -/
def identifierCmp (x y : Text) : ℤ :=
  if isNumeric x && isNumeric y then rankCmp (fun s : Text => (decimalValue s : ℤ)) x y
  else if isNumeric x then -1
  else if isNumeric y then 1
  else lexCmp (rankCmp fun c : UInt8 => (c.toNat : ℤ)) x y

/-- A version without a pre-release comes last; otherwise the identifiers decide from left to
right, and of two lists of which one begins the other the longer one comes last. -/
def preReleaseCmp : Option Text → Option Text → ℤ
  | none, none => 0
  | none, some _ => 1
  | some _, none => -1
  | some a, some b => lexCmp identifierCmp (a.splitOn chDot) (b.splitOn chDot)

def precedence (p q : Parts) : ℤ :=
  thenCmp (rankCmp fun p : Parts => (decimalValue p.major : ℤ))
    (thenCmp (rankCmp fun p : Parts => (decimalValue p.minor : ℤ))
      (thenCmp (rankCmp fun p : Parts => (decimalValue p.patch : ℤ))
        fun p q => preReleaseCmp p.pre q.pre)) p q

/-! ## Where the code follows them -/

/-- The value of a numeral, reduced to the 32 bits of an `int`. -/
def residue (x : Text) : ℤ := (decimalValue x : ℤ).bmod (2 ^ 32)

/-- Two different identifiers whose order is not disturbed: numeric ones whose residues lie as their
values do, or a numeric one that is the first of the two also by bytes. -/
def SameOrder (x y : Text) : Prop :=
  if isNumeric x && isNumeric y then
    residue x < residue y ∧ decimalValue x < decimalValue y ∨
      residue y < residue x ∧ decimalValue y < decimalValue x
  else if isNumeric x then Before x y
  else if isNumeric y then Before y x
  else True

/-- Two numerals that agree modulo `2 ^ 32`. -/
def Collide (x y : Text) : Prop :=
  isNumeric x = true ∧ isNumeric y = true ∧ residue x = residue y

/-- Numerals by their residues, other identifiers by bytes. -/
def Below (x y : Text) : Prop :=
  if isNumeric x && isNumeric y then residue x < residue y else Before x y

/-- Behind identifiers that are equal or collide, the first list has the lower identifier, or is the
one that ends. -/
inductive Leads : List Text → List Text → Prop
  | ended (y : Text) (ys : List Text) : Leads [] (y :: ys)
  | lower {x y : Text} {xs ys : List Text} (order : Below x y) : Leads (x :: xs) (y :: ys)
  | passed {x y : Text} {xs ys : List Text} (pair : x = y ∨ Collide x y) (rest : Leads xs ys) :
      Leads (x :: xs) (y :: ys)

/-- The first two identifiers that differ keep their order; or they are numerals that collide, and
what stands behind the lower one leads. -/
def Decided : List Text → List Text → Prop
  | x :: xs, y :: ys =>
    if x = y then Decided xs ys
    else SameOrder x y ∨ Collide x y ∧ (decimalValue x < decimalValue y ∧ Leads xs ys ∨
      decimalValue y < decimalValue x ∧ Leads ys xs)
  | _, _ => True

def DecidedPre : Option Text → Option Text → Prop
  | none, none => True
  | some a, some b => Decided (a.splitOn chDot) (b.splitOn chDot)
  | _, _ => False

/-- The numbers differ, or the pre-releases are decided. -/
def Faithful (p q : Parts) : Prop :=
  decimalValue p.major ≠ decimalValue q.major ∨ decimalValue p.minor ≠ decimalValue q.minor ∨
    decimalValue p.patch ≠ decimalValue q.patch ∨ DecidedPre p.pre q.pre

/-! ## Identifiers -/

/-- An identifier of a pre-release. -/
def Valid (x : Text) : Prop := IsIdentifier x ∧ (isNumeric x = true → NoLeadingZero x)

theorem sign_rankCmp {α : Type} (f : α → ℤ) (a b : α) :
    (rankCmp f a b).sign = rankCmp f a b := by
  unfold rankCmp
  split_ifs <;> rfl

theorem sign_lexCmp {α : Type} (f : α → ℤ) (as bs : List α) :
    (lexCmp (rankCmp f) as bs).sign = lexCmp (rankCmp f) as bs := by
  induction as generalizing bs with
  | nil => cases bs <;> rfl
  | cons a as ih =>
    cases bs with
    | nil => rfl
    | cons b bs =>
      rw [lexCmp]
      split_ifs
      · exact sign_rankCmp f a b
      · exact ih bs

theorem toNat_ident {c : UInt8} (h : isIdentByte c = true) : c.toNat < 128 := by
  simp only [isIdentByte, isDigit, Bool.or_eq_true, Bool.and_eq_true, decide_eq_true_eq,
    beq_iff_eq, UInt8.le_iff_toNat_le] at h
  rcases h with ((h | h) | h) | rfl
  · exact lt_of_le_of_lt h.2 (by decide)
  · exact lt_of_le_of_lt h.2 (by decide)
  · exact lt_of_le_of_lt h.2 (by decide)
  · decide

theorem charValue_ident {c : UInt8} (h : isIdentByte c = true) : charValue c = (c.toNat : ℤ) := by
  have hlt := toNat_ident h
  exact Int.bmod_eq_of_le (by omega) (by omega)

/-- Identifiers are ASCII, so their bytes are in ASCII order. -/
theorem cmpBytes_ident (hx : ∀ c ∈ x, isIdentByte c = true) (hy : ∀ c ∈ y, isIdentByte c = true) :
    cmpBytes x y = lexCmp (rankCmp fun c : UInt8 => (c.toNat : ℤ)) x y := by
  rw [cmpBytes_eq]
  induction x generalizing y with
  | nil => cases y <;> simp only [lexCmp]
  | cons c x ih =>
    cases y with
    | nil => simp only [lexCmp]
    | cons d y =>
      obtain ⟨hc, hx⟩ := List.forall_mem_cons.mp hx
      obtain ⟨hd, hy⟩ := List.forall_mem_cons.mp hy
      have hrank : rankCmp charValue c d = rankCmp (fun c : UInt8 => (c.toNat : ℤ)) c d := by
        simp only [rankCmp, charValue_ident hc, charValue_ident hd]
      simp only [lexCmp, hrank, ih hx hy]

theorem isDigit_of_isNumeric (h : isNumeric x = true) : ∀ c ∈ x, isDigit c = true :=
  List.all_eq_true.mp h

/-- Different identifiers are different for the rules. -/
theorem identifierCmp_ne_zero (hx : Valid x) (hy : Valid y) (hne : x ≠ y) :
    identifierCmp x y ≠ 0 := by
  intro hzero
  unfold identifierCmp at hzero
  split_ifs at hzero with hboth hleft hright
  · obtain ⟨hnx, hny⟩ := Bool.and_eq_true_iff.mp hboth
    have hval : decimalValue x = decimalValue y := by
      by_contra hval
      have hrank : rankCmp (fun s : Text => (decimalValue s : ℤ)) x y ≠ 0 := by
        rw [Ne, rankCmp_eq_zero_iff]
        exact_mod_cast hval
      exact hrank hzero
    apply hne
    rw [← decimalText_decimalValue (isDigit_of_isNumeric hnx) hx.1.1 (hx.2 hnx), hval,
      decimalText_decimalValue (isDigit_of_isNumeric hny) hy.1.1 (hy.2 hny)]
  · cases hzero
  · rw [← cmpBytes_ident hx.1.2 hy.1.2] at hzero
    exact hne (eq_of_cmpBytes hzero)

theorem foldl_bmod (x : Text) (m : ℕ) :
    x.foldl (fun v c => (v * 10 + (digitValue c : ℤ)).bmod m) 0 = (decimalValue x : ℤ).bmod m := by
  induction x using List.reverseRecOn with
  | nil => simp [decimalValue]
  | append_singleton x c ih =>
    have hvalue : (decimalValue (x ++ [c]) : ℤ) = decimalValue x * 10 + digitValue c := by
      rw [decimalValue_append, Nat.cast_add, Nat.cast_mul]
      rfl
    rw [List.foldl_append, ih, hvalue, List.foldl_cons, List.foldl_nil,
      ← @Int.bmod_add_bmod ((decimalValue x : ℤ).bmod m * 10), Int.bmod_mul_bmod,
      Int.bmod_add_bmod]

theorem intValue_eq_residue (x : Text) : intValue x = residue x := foldl_bmod x (2 ^ 32)

theorem cmpPreId_eq_zero_iff (hne : x ≠ y) : cmpPreId x y = 0 ↔ Collide x y := by
  cases hx : isNumeric x with
  | false =>
    rw [cmpPreId_left hx]
    exact iff_of_false (fun h => hne (eq_of_cmpBytes h)) (by simp [Collide, hx])
  | true =>
    cases hy : isNumeric y with
    | false =>
      rw [cmpPreId_right hy]
      exact iff_of_false (fun h => hne (eq_of_cmpBytes h)) (by simp [Collide, hy])
    | true =>
      rw [cmpPreId_numeric hx hy, rankCmp_eq_zero_iff]
      simp [Collide, hx, hy, intValue_eq_residue]

theorem sign_cmpPreId_iff (hx : Valid x) (hy : Valid y) (hne : x ≠ y) :
    (cmpPreId x y).sign = identifierCmp x y ↔ SameOrder x y := by
  have hrules := identifierCmp_ne_zero hx hy hne
  unfold identifierCmp at hrules ⊢
  unfold SameOrder
  cases hnx : isNumeric x with
  | true =>
    cases hny : isNumeric y with
    | true =>
      rw [hnx, hny] at hrules
      rw [cmpPreId_numeric hnx hny, sign_rankCmp]
      simp only [Bool.and_self, if_true, ne_eq, rankCmp_eq_zero_iff, rankCmp_congr_iff,
        intValue_eq_residue] at hrules ⊢
      omega
    | false =>
      rw [cmpPreId_right hny]
      simp only [Bool.and_false, Bool.false_eq_true, if_false, if_true]
      rw [Int.sign_eq_neg_one_iff_neg, cmpBytes_neg_iff]
  | false =>
    rw [cmpPreId_left hnx]
    cases hny : isNumeric y with
    | true =>
      simp only [Bool.and_true, Bool.false_eq_true, if_false, if_true]
      rw [Int.sign_eq_one_iff_pos, ← cmpBytes_flip, cmpBytes_neg_iff]
    | false =>
      simp only [Bool.and_false, Bool.false_eq_true, if_false, iff_true]
      rw [cmpBytes_ident hx.1.2 hy.1.2, sign_lexCmp]

/-! ## Lists of identifiers -/

theorem cmpPreId_self (x : Text) : cmpPreId x x = 0 := by
  have h := cmpPreId_flip x x
  omega

theorem cmpPreId_neg_iff (x y : Text) : cmpPreId x y < 0 ↔ Below x y := by
  unfold Below
  cases hx : isNumeric x with
  | false =>
    rw [cmpPreId_left hx]
    simpa using cmpBytes_neg_iff
  | true =>
    cases hy : isNumeric y with
    | false =>
      rw [cmpPreId_right hy]
      simpa using cmpBytes_neg_iff
    | true =>
      rw [cmpPreId_numeric hx hy, rankCmp_neg_iff, intValue_eq_residue, intValue_eq_residue]
      simp

theorem cmpPreId_tie_iff (x y : Text) : cmpPreId x y = 0 ↔ x = y ∨ Collide x y := by
  by_cases hxy : x = y
  · rw [hxy, cmpPreId_self]
    exact iff_of_true rfl (.inl rfl)
  · rw [cmpPreId_eq_zero_iff hxy]
    exact ⟨.inr, fun h => h.resolve_left hxy⟩

/-- What `cmp_prerelease` makes of two lists. -/
theorem lexCmp_neg_iff (xs ys : List Text) : lexCmp cmpPreId xs ys < 0 ↔ Leads xs ys := by
  induction xs generalizing ys with
  | nil =>
    cases ys with
    | nil => exact iff_of_false (lt_irrefl 0) (by rintro ⟨⟩)
    | cons y ys => exact iff_of_true (by decide : (-1 : ℤ) < 0) (.ended y ys)
  | cons x xs ih =>
    cases ys with
    | nil => exact iff_of_false (by decide : ¬(1 : ℤ) < 0) (by rintro ⟨⟩)
    | cons y ys =>
      rw [lexCmp]
      by_cases hzero : cmpPreId x y = 0
      · rw [if_neg (not_not.mpr hzero), ih]
        have htie := (cmpPreId_tie_iff x y).mp hzero
        refine ⟨.passed htie, fun h => ?_⟩
        cases h with
        | lower horder =>
          rw [← cmpPreId_neg_iff, hzero] at horder
          exact absurd horder (lt_irrefl 0)
        | passed _ hrest => exact hrest
      · rw [if_pos hzero, cmpPreId_neg_iff]
        refine ⟨.lower, fun h => ?_⟩
        cases h with
        | lower horder => exact horder
        | passed htie _ => exact absurd ((cmpPreId_tie_iff x y).mpr htie) hzero

theorem lexCmp_flip (xs ys : List Text) : lexCmp cmpPreId xs ys < 0 ↔ 0 < lexCmp cmpPreId ys xs := by
  induction xs generalizing ys with
  | nil => cases ys <;> simp [lexCmp]
  | cons x xs ih =>
    cases ys with
    | nil => simp [lexCmp]
    | cons y ys =>
      have hxy := cmpPreId_flip x y
      have hyx := cmpPreId_flip y x
      rw [lexCmp, lexCmp]
      by_cases hzero : cmpPreId x y = 0
      · rw [if_neg (not_not.mpr hzero), if_neg (by omega), ih]
      · rw [if_pos hzero, if_pos (by omega), hxy]

/-- Passing over two numerals, the comparison behind them is right if it leads on the side of the
lower one. -/
theorem sign_lexCmp_iff (hnum : isNumeric x = true) (hnum' : isNumeric y = true)
    (hval : decimalValue x ≠ decimalValue y) (xs ys : List Text) :
    (lexCmp cmpPreId xs ys).sign = identifierCmp x y ↔
      decimalValue x < decimalValue y ∧ Leads xs ys ∨
        decimalValue y < decimalValue x ∧ Leads ys xs := by
  have hflip := lexCmp_flip ys xs
  rw [identifierCmp, hnum, hnum', Bool.and_self, if_pos rfl, rankCmp, ← lexCmp_neg_iff,
    ← lexCmp_neg_iff, hflip]
  rw [if_pos (by exact_mod_cast hval)]
  rcases lt_or_gt_of_ne hval with hlt | hgt
  · rw [if_pos (by exact_mod_cast hlt), Int.sign_eq_neg_one_iff_neg]
    omega
  · rw [if_neg (by exact_mod_cast hgt.not_gt), Int.sign_eq_one_iff_pos]
    omega

theorem identifierCmp_self (x : Text) : identifierCmp x x = 0 := by
  have hbytes := (lawfulOn_rank (fun c : UInt8 => (c.toNat : ℤ)) Set.univ).lexCmp.flip x
    (by simp) x (by simp)
  unfold identifierCmp
  cases isNumeric x with
  | true => simp [rankCmp]
  | false =>
    simp only [Bool.and_self, Bool.false_eq_true, if_false]
    omega

theorem decided_iff (hxs : ∀ x ∈ xs, Valid x) (hys : ∀ y ∈ ys, Valid y) :
    (lexCmp cmpPreId xs ys).sign = lexCmp identifierCmp xs ys ↔ Decided xs ys := by
  induction xs generalizing ys with
  | nil => cases ys <;> exact iff_of_true rfl trivial
  | cons x xs ih =>
    cases ys with
    | nil => exact iff_of_true rfl trivial
    | cons y ys =>
      obtain ⟨hx, hxs'⟩ := List.forall_mem_cons.mp hxs
      obtain ⟨hy, hys'⟩ := List.forall_mem_cons.mp hys
      rw [lexCmp, lexCmp, Decided]
      by_cases hxy : x = y
      · rw [hxy, cmpPreId_self, identifierCmp_self, if_pos rfl]
        exact ih hxs' hys'
      · have hzero := cmpPreId_eq_zero_iff hxy
        have hsame := sign_cmpPreId_iff hx hy hxy
        rw [if_neg hxy, if_pos (identifierCmp_ne_zero hx hy hxy)]
        by_cases hcollide : Collide x y
        · have hnot : ¬SameOrder x y := by
            rw [← hsame, hzero.mpr hcollide]
            exact fun h => identifierCmp_ne_zero hx hy hxy h.symm
          have hval : decimalValue x ≠ decimalValue y := by
            intro heq
            refine identifierCmp_ne_zero hx hy hxy ?_
            rw [identifierCmp, hcollide.1, hcollide.2.1, Bool.and_self, if_pos rfl,
              rankCmp_eq_zero_iff, heq]
          rw [if_neg (by simpa using hzero.mpr hcollide),
            sign_lexCmp_iff hcollide.1 hcollide.2.1 hval]
          simp [hcollide, hnot]
        · rw [if_pos (mt hzero.mp hcollide), hsame]
          simp [hcollide]

/-- A dot at the end is the only thing that the loop does not see. -/
theorem splitOn_cases (s : Text) :
    s.splitOn chDot = idents s ∨ s.splitOn chDot = idents s ++ [[]] := by
  induction s with
  | nil => exact .inr rfl
  | cons c s ih =>
    rw [List.splitOn_cons_eq_if_modifyHead, idents]
    by_cases hc : c = chDot
    · rw [if_pos (by simpa using hc), if_pos hc]
      rcases ih with h | h
      · exact .inl (by rw [h])
      · exact .inr (by rw [h]; rfl)
    · rw [if_neg (by simpa using hc), if_neg hc]
      rcases ih with h | h
      · obtain ⟨t, ts, hsplit⟩ := List.exists_cons_of_ne_nil (List.splitOn_ne_nil chDot s)
        rw [← h, hsplit]
        exact .inl rfl
      · rw [h]
        cases idents s with
        | nil => exact .inl rfl
        | cons t ts => exact .inr rfl

theorem idents_eq_splitOn (h : ∀ x ∈ m.splitOn chDot, Valid x) : idents m = m.splitOn chDot := by
  rcases splitOn_cases m with hsplit | hsplit
  · exact hsplit.symm
  · exact absurd rfl (h [] (by simp [hsplit])).1.1

theorem idents_ne_nil (h : ∀ x ∈ m.splitOn chDot, Valid x) : idents m ≠ [] := by
  rw [idents_eq_splitOn h]
  exact List.splitOn_ne_nil chDot m

/-! ## Versions -/

theorem preRelease_iff (hp : Derives p) (hq : Derives q) :
    (lexCmp cmpPreId (idents (p.pre.getD [])) (idents (q.pre.getD []))).sign =
      preReleaseCmp p.pre q.pre ↔ DecidedPre p.pre q.pre := by
  have hvalid : ∀ a ∈ p.pre, ∀ x ∈ a.splitOn chDot, Valid x := hp.pre
  have hvalid' : ∀ b ∈ q.pre, ∀ y ∈ b.splitOn chDot, Valid y := hq.pre
  cases hpre : p.pre with
  | none =>
    cases hpre' : q.pre with
    | none => exact iff_of_true rfl trivial
    | some b =>
      obtain ⟨y, ys, hids⟩ := List.exists_cons_of_ne_nil (idents_ne_nil (hvalid' b hpre'))
      refine iff_of_false ?_ id
      rw [Option.getD_none, Option.getD_some, hids]
      exact (by decide : ((-1 : ℤ).sign ≠ 1))
  | some a =>
    have hids := idents_eq_splitOn (hvalid a hpre)
    cases hpre' : q.pre with
    | none =>
      obtain ⟨x, xs, hids'⟩ := List.exists_cons_of_ne_nil (idents_ne_nil (hvalid a hpre))
      refine iff_of_false ?_ id
      rw [Option.getD_none, Option.getD_some, hids']
      exact (by decide : ((1 : ℤ).sign ≠ -1))
    | some b =>
      rw [Option.getD_some, Option.getD_some, hids, idents_eq_splitOn (hvalid' b hpre')]
      exact decided_iff (hvalid a hpre) (hvalid' b hpre')

/-- A comparison of numbers in front of the rest. -/
theorem sign_thenCmp_iff {u : Version → ℤ} {r : Parts → ℕ} (hu : ∀ p : Parts, u p.version = r p)
    {g : Version → Version → ℤ} {g' : Parts → Parts → ℤ} :
    (thenCmp (fun v w => u v - u w) g p.version q.version).sign =
      thenCmp (rankCmp fun p => (r p : ℤ)) g' p q ↔
    r p ≠ r q ∨ (g p.version q.version).sign = g' p q := by
  simp only [thenCmp, hu, rankCmp]
  rcases lt_trichotomy (r p) (r q) with hlt | heq | hgt
  · have hsign : ((r p : ℤ) - r q).sign = -1 := Int.sign_eq_neg_one_of_neg (by omega)
    simp [hlt, hlt.ne, hsign, show (r p : ℤ) - r q ≠ 0 by omega]
  · simp [heq]
  · have hsign : ((r p : ℤ) - r q).sign = 1 := Int.sign_eq_one_of_pos (by omega)
    simp [hgt.ne', hsign, show (r p : ℤ) - r q ≠ 0 by omega, not_lt.mpr hgt.le]

theorem Number.zero_notMem {ds : Text} (h : Number ds) : 0 ∉ ds :=
  fun hmem => absurd (h.2 0 hmem) (by decide)

theorem Shape.zero_notMem (h : Shape p) : 0 ∉ p.text := by
  have hmeta : ∀ (mark : UInt8) (m : Option Text), mark ≠ 0 → (∀ t ∈ m, 0 ∉ t) →
      0 ∉ metaText mark m := by
    intro mark m hmark hm
    cases m with
    | none => simp [metaText]
    | some t => simpa [metaText, Ne.symm hmark] using hm t rfl
  have hpre := hmeta chMinus p.pre (by decide) fun t ht => (h.pre t ht).2
  have hbuild := hmeta chPlus p.build (by decide) h.build
  simp [Parts.text, h.major.zero_notMem, h.minor.zero_notMem, h.patch.zero_notMem, hpre, hbuild,
    show (0 : UInt8) ≠ chDot by decide]

/-- The comparison has the sign of the precedence exactly on the pairs where it is faithful. -/
theorem compare_precedence_iff {v w : Version} (hp : Derives p) (hq : Derives q)
    (hv : zenitSemverParse p.text = (v, .ok)) (hw : zenitSemverParse q.text = (w, .ok)) :
    (zenitSemverCompare v w).sign = precedence p q ↔ Faithful p q := by
  have hversion : ∀ {r : Parts} {u : Version}, Derives r → zenitSemverParse r.text = (u, .ok) →
      u = r.version := by
    intro r u hr hu
    obtain ⟨r', htext, hshape, -, -, rfl⟩ := parse_cases hr.shape.zero_notMem hu
    rw [hr.shape.unique hshape htext]
  rw [hversion hp hv, hversion hq hw, compare_eq, precedence, Faithful,
    sign_thenCmp_iff (u := Version.major) (r := fun p => decimalValue p.major) fun _ => rfl,
    sign_thenCmp_iff (u := Version.minor) (r := fun p => decimalValue p.minor) fun _ => rfl,
    sign_thenCmp_iff (u := Version.patch) (r := fun p => decimalValue p.patch) fun _ => rfl]
  simp only [Parts.version, preRelease_iff hp hq]

theorem plain_derives {a b c : UInt8} (ha : isDigit a = true) (hb : isDigit b = true)
    (hc : isDigit c = true) : Derives (plain [a] [b] [c]) := by
  have hnumber : ∀ {d : UInt8}, isDigit d = true → Number [d] ∧ NoLeadingZero [d] := by
    intro d hd
    exact ⟨⟨List.cons_ne_nil d [], by simpa using hd⟩, fun h => by rw [Option.some.inj h]⟩
  exact ⟨hnumber ha, hnumber hb, hnumber hc, by simp [plain], by simp [plain]⟩

/-- `1.2.3` and `1.2.4` -/
theorem patches_follow_precedence :
    (zenitSemverCompare ⟨1, 2, 3, [], []⟩ ⟨1, 2, 4, [], []⟩).sign =
      precedence (plain [49] [50] [51]) (plain [49] [50] [52]) :=
  (compare_precedence_iff (plain_derives (by decide) (by decide) (by decide))
    (plain_derives (by decide) (by decide) (by decide)) (by decide) (by decide)).mpr
      (.inr (.inr (.inl (by decide))))

/-- `1.0.0` and `1.0.0-a`: the version without a pre-release is the smaller one. -/
theorem release_below_preRelease :
    Derives (plain [49] [48] [48]) ∧ Derives ⟨[49], [48], [48], some [97], none⟩ ∧
    zenitSemverParse [49, 46, 48, 46, 48] = (⟨1, 0, 0, [], []⟩, .ok) ∧
    zenitSemverParse [49, 46, 48, 46, 48, 45, 97] = (⟨1, 0, 0, [97], []⟩, .ok) ∧
    zenitSemverCompare ⟨1, 0, 0, [], []⟩ ⟨1, 0, 0, [97], []⟩ = -1 ∧
    precedence (plain [49] [48] [48]) ⟨[49], [48], [48], some [97], none⟩ = 1 := by
  have hplain : Derives (plain [49] [48] [48]) :=
    plain_derives (by decide) (by decide) (by decide)
  have hletter : ∀ s ∈ [97].splitOn chDot, IsIdentifier s ∧
      (isNumeric s = true → NoLeadingZero s) := by
    intro s hs
    have hdot : (97 : UInt8) ≠ chDot := by decide
    obtain rfl : s = [97] := by simpa [List.splitOn_cons_eq_if_modifyHead, hdot] using hs
    exact ⟨⟨by decide, by simp [isIdentByte]⟩, by decide⟩
  refine ⟨hplain, ⟨hplain.major, hplain.minor, hplain.patch, by simpa using hletter, by simp⟩,
    by decide, by decide, ?_, by decide⟩
  rw [compare_eq]
  decide

end LibZenit.Semver
