import Mathlib.Tactic

/-!
# Comparators

A comparator returns a negative number, zero or a positive number. On a set it is lawful if it is
a total preorder there: `cmp a b ≤ 0` says that `a` is not behind `b`.
-/
namespace LibZenit.Comparators

variable {α β : Type*} {cmp cmp' : α → α → ℤ} {S : Set α} {a b c : α}

structure LawfulOn (cmp : α → α → ℤ) (S : Set α) : Prop where
  flip : ∀ a ∈ S, ∀ b ∈ S, (cmp a b < 0 ↔ 0 < cmp b a)
  trans : ∀ a ∈ S, ∀ b ∈ S, ∀ c ∈ S, cmp a b ≤ 0 → cmp b c ≤ 0 → cmp a c ≤ 0

/-- The order of a rank. -/
def rankCmp (f : α → ℤ) (a b : α) : ℤ := if f a ≠ f b then (if f a < f b then -1 else 1) else 0

/-- The first comparator decides; the second one breaks its ties. -/
def thenCmp (cmp cmp' : α → α → ℤ) (a b : α) : ℤ := if cmp a b ≠ 0 then cmp a b else cmp' a b

/-- Lists in lexicographic order: a list comes before its continuations. -/
def lexCmp (cmp : α → α → ℤ) : List α → List α → ℤ
  | [], [] => 0
  | [], _ :: _ => -1
  | _ :: _, [] => 1
  | a :: as, b :: bs => if cmp a b ≠ 0 then cmp a b else lexCmp cmp as bs

/-! ## Lawful comparators -/

theorem LawfulOn.cmp_self (h : LawfulOn cmp S) (ha : a ∈ S) : cmp a a = 0 := by
  have haa := h.flip a ha a ha
  omega

theorem LawfulOn.eq_zero_comm (h : LawfulOn cmp S) (ha : a ∈ S) (hb : b ∈ S) :
    cmp a b = 0 ↔ cmp b a = 0 := by
  have hab := h.flip a ha b hb
  have hba := h.flip b hb a ha
  omega

theorem LawfulOn.nonpos_iff (h : LawfulOn cmp S) (ha : a ∈ S) (hb : b ∈ S) :
    cmp a b ≤ 0 ↔ 0 ≤ cmp b a := by
  have hba := h.flip b hb a ha
  omega

theorem LawfulOn.sign_flip (h : LawfulOn cmp S) (ha : a ∈ S) (hb : b ∈ S) :
    (cmp a b).sign = -(cmp b a).sign := by
  have hab := h.flip a ha b hb
  have hba := h.flip b hb a ha
  rcases lt_trichotomy (cmp a b) 0 with hlt | heq | hgt
  · rw [Int.sign_eq_neg_one_of_neg hlt, Int.sign_eq_one_of_pos (hab.mp hlt)]
  · rw [heq, (h.eq_zero_comm ha hb).mp heq]
    rfl
  · rw [Int.sign_eq_one_of_pos hgt, Int.sign_eq_neg_one_of_neg (hba.mpr hgt), neg_neg]

theorem LawfulOn.lt_trans (h : LawfulOn cmp S) (ha : a ∈ S) (hb : b ∈ S) (hc : c ∈ S)
    (hab : cmp a b < 0) (hbc : cmp b c ≤ 0) : cmp a c < 0 := by
  by_contra hac
  have hca : cmp c a ≤ 0 := (h.nonpos_iff hc ha).mpr (by omega)
  have hba := h.trans b hb c hc a ha hbc hca
  have hflip := h.flip a ha b hb
  omega

theorem LawfulOn.lt_trans' (h : LawfulOn cmp S) (ha : a ∈ S) (hb : b ∈ S) (hc : c ∈ S)
    (hab : cmp a b ≤ 0) (hbc : cmp b c < 0) : cmp a c < 0 := by
  by_contra hac
  have hca : cmp c a ≤ 0 := (h.nonpos_iff hc ha).mpr (by omega)
  have hcb := h.trans c hc a ha b hb hca hab
  have hflip := h.flip b hb c hc
  omega

theorem LawfulOn.sign_congr (h : LawfulOn cmp S) (ha : a ∈ S) (hb : b ∈ S) (hc : c ∈ S)
    (hab : cmp a b = 0) : (cmp a c).sign = (cmp b c).sign := by
  have hba := (h.eq_zero_comm ha hb).mp hab
  rcases lt_trichotomy (cmp a c) 0 with hlt | heq | hgt
  · have hbc := h.lt_trans' hb ha hc hba.le hlt
    rw [Int.sign_eq_neg_one_of_neg hlt, Int.sign_eq_neg_one_of_neg hbc]
  · have hle := h.trans b hb a ha c hc hba.le heq.le
    have hca := (h.eq_zero_comm ha hc).mp heq
    have hge := (h.nonpos_iff hc hb).mp (h.trans c hc a ha b hb hca.le hab.le)
    rw [heq, (by omega : cmp b c = 0)]
  · have hca := (h.flip c hc a ha).mpr hgt
    have hbc := (h.flip c hc b hb).mp (h.lt_trans hc ha hb hca hab.le)
    rw [Int.sign_eq_one_of_pos hgt, Int.sign_eq_one_of_pos hbc]

/-! ## Building comparators -/

theorem lawfulOn_sub (f : α → ℤ) (S : Set α) : LawfulOn (fun a b => f a - f b) S := by
  constructor
  · intro a _ b _
    omega
  · intro a _ b _ c _
    omega

theorem rankCmp_neg_iff {f : α → ℤ} : rankCmp f a b < 0 ↔ f a < f b := by
  unfold rankCmp
  split_ifs <;> omega

theorem rankCmp_pos_iff {f : α → ℤ} : 0 < rankCmp f a b ↔ f b < f a := by
  unfold rankCmp
  split_ifs <;> omega

theorem rankCmp_nonpos_iff {f : α → ℤ} : rankCmp f a b ≤ 0 ↔ f a ≤ f b := by
  unfold rankCmp
  split_ifs <;> omega

theorem rankCmp_eq_zero_iff {f : α → ℤ} : rankCmp f a b = 0 ↔ f a = f b := by
  have hneg := @rankCmp_neg_iff _ a b f
  have hpos := @rankCmp_pos_iff _ a b f
  omega

theorem rankCmp_congr_iff {f g : α → ℤ} : rankCmp f a b = rankCmp g a b ↔
    (f a < f b ↔ g a < g b) ∧ (f b < f a ↔ g b < g a) := by
  constructor
  · intro h
    have hneg := @rankCmp_neg_iff _ a b f
    have hpos := @rankCmp_pos_iff _ a b f
    rw [h, rankCmp_neg_iff] at hneg
    rw [h, rankCmp_pos_iff] at hpos
    exact ⟨hneg.symm, hpos.symm⟩
  · rintro ⟨h, h'⟩
    simp only [rankCmp]
    split_ifs <;> omega

theorem lawfulOn_rank (f : α → ℤ) (S : Set α) : LawfulOn (rankCmp f) S := by
  constructor
  · intro a _ b _
    rw [rankCmp_neg_iff, rankCmp_pos_iff]
  · intro a _ b _ c _
    rw [rankCmp_nonpos_iff, rankCmp_nonpos_iff, rankCmp_nonpos_iff]
    exact le_trans

theorem LawfulOn.comap {S : Set β} {cmp : β → β → ℤ} (h : LawfulOn cmp S) (f : α → β) :
    LawfulOn (fun a b => cmp (f a) (f b)) (Set.preimage f S) :=
  ⟨fun _ ha _ hb => h.flip _ ha _ hb, fun _ ha _ hb _ hc => h.trans _ ha _ hb _ hc⟩

/-- The order of two decisions, the first of which is lawful, on three values. -/
theorem chain_nonpos (h : LawfulOn cmp S) (ha : a ∈ S) (hb : b ∈ S) (hc : c ∈ S) {p q r : ℤ}
    (hpq : p ≤ 0 → q ≤ 0 → r ≤ 0) (hab : (if cmp a b ≠ 0 then cmp a b else p) ≤ 0)
    (hbc : (if cmp b c ≠ 0 then cmp b c else q) ≤ 0) :
    (if cmp a c ≠ 0 then cmp a c else r) ≤ 0 := by
  have hab₀ : cmp a b ≤ 0 := by
    split_ifs at hab <;> omega
  have hbc₀ : cmp b c ≤ 0 := by
    split_ifs at hbc <;> omega
  have hac₀ := h.trans a ha b hb c hc hab₀ hbc₀
  by_cases hac : cmp a c = 0
  · -- a tie of the ends is a tie of both steps
    have hzero : cmp a b = 0 ∧ cmp b c = 0 := by
      constructor
      · by_contra hne
        have hlt := h.lt_trans ha hb hc (by omega) hbc₀
        omega
      · by_contra hne
        have hlt := h.lt_trans' ha hb hc hab₀ (by omega)
        omega
    rw [if_neg (by simpa using hzero.1)] at hab
    rw [if_neg (by simpa using hzero.2)] at hbc
    rw [if_neg (by simpa using hac)]
    exact hpq hab hbc
  · rw [if_pos hac]
    exact hac₀

theorem chain_flip (h : LawfulOn cmp S) (ha : a ∈ S) (hb : b ∈ S) {p q : ℤ}
    (hpq : p < 0 ↔ 0 < q) :
    (if cmp a b ≠ 0 then cmp a b else p) < 0 ↔ 0 < (if cmp b a ≠ 0 then cmp b a else q) := by
  have hzero := h.eq_zero_comm ha hb
  have hflip := h.flip a ha b hb
  by_cases hab : cmp a b = 0
  · rw [if_neg (by simpa using hab), if_neg (by simpa using hzero.mp hab)]
    exact hpq
  · rw [if_pos hab, if_pos (fun hba => hab (hzero.mpr hba))]
    exact hflip

theorem LawfulOn.thenCmp (h : LawfulOn cmp S) (h' : LawfulOn cmp' S) :
    LawfulOn (thenCmp cmp cmp') S :=
  ⟨fun a ha b hb => chain_flip h ha hb (h'.flip a ha b hb),
    fun a ha b hb c hc => chain_nonpos h ha hb hc (h'.trans a ha b hb c hc)⟩

theorem LawfulOn.lexCmp (h : LawfulOn cmp S) : LawfulOn (lexCmp cmp) {l | ∀ x ∈ l, x ∈ S} := by
  constructor
  · intro as
    induction as with
    | nil =>
      intro _ bs _
      cases bs <;> simp [Comparators.lexCmp]
    | cons a as ih =>
      intro has bs hbs
      cases bs with
      | nil => simp [Comparators.lexCmp]
      | cons b bs =>
        obtain ⟨ha, has⟩ := List.forall_mem_cons.mp has
        obtain ⟨hb, hbs⟩ := List.forall_mem_cons.mp hbs
        exact chain_flip h ha hb (ih has bs hbs)
  · intro as
    induction as with
    | nil =>
      intro _ bs _ cs _ _ _
      cases cs <;> simp [Comparators.lexCmp]
    | cons a as ih =>
      intro has bs hbs cs hcs hab hbc
      cases bs with
      | nil => simp [Comparators.lexCmp] at hab
      | cons b bs =>
        cases cs with
        | nil => simp [Comparators.lexCmp] at hbc
        | cons c cs =>
          obtain ⟨ha, has⟩ := List.forall_mem_cons.mp has
          obtain ⟨hb, hbs⟩ := List.forall_mem_cons.mp hbs
          obtain ⟨hc, hcs⟩ := List.forall_mem_cons.mp hcs
          exact chain_nonpos h ha hb hc (ih has bs hbs cs hcs) hab hbc

end LibZenit.Comparators
