import LibZenit.GlobModel
import LibZenit.Wildcards
import Mathlib.Data.List.TakeWhile

/-!
# The language of a glob pattern

A pattern is read from the left as a list of tokens. The body of a class goes up to the first
closing bracket, or to the end of the pattern.
-/
namespace LibZenit.Globs
open Wildcards

variable {signedChar : Bool} {c x y : UInt8} {p s : Text}

/-! ## Tokens -/

inductive Item where
  | single (x : UInt8)
  | range (x y : UInt8)

def Item.holds (signedChar : Bool) (c : UInt8) : Item → Bool
  | .single x => c == x
  | .range x y => charValue signedChar x ≤ charValue signedChar c &&
      charValue signedChar c ≤ charValue signedChar y

inductive Token where
  | star
  | any
  | charClass (negated : Bool) (items : List Item)
  | literal (x : UInt8)

def Token.symbol (signedChar : Bool) : Token → Symbol UInt8
  | .star => .run
  | .any => .letter fun _ => true
  | .charClass negated items => .letter fun c =>
      if negated then !items.any (Item.holds signedChar c) else items.any (Item.holds signedChar c)
  | .literal x => .letter (· == x)

/-- The items of the body of a class. -/
def items : Text → List Item
  | x :: dash :: y :: body =>
    if dash = 45 then .range x y :: items body else .single x :: items (dash :: y :: body)
  | x :: body => .single x :: items body
  | [] => []

/-- `p` is behind the opening bracket. -/
def negates (p : Text) : Bool := p.head? == some 33

def classStart (p : Text) : Text := if negates p then p.tail else p

def classBody (p : Text) : Text := (classStart p).takeWhile (· ≠ 93)

def classRest (p : Text) : Text := ((classStart p).dropWhile (· ≠ 93)).tail

theorem length_classRest_le (p : Text) : (classRest p).length ≤ p.length := by
  have hstart : (classStart p).length ≤ p.length := by
    unfold classStart
    split_ifs <;> simp
  have hdrop := (List.dropWhile_suffix (l := classStart p) (· ≠ 93)).length_le
  rw [classRest, List.length_tail]
  omega

def tokens : Text → List Token
  | [] => []
  | x :: p =>
    if x = 42 then .star :: tokens p
    else if x = 63 then .any :: tokens p
    else if x = 91 then .charClass (negates p) (items (classBody p)) :: tokens (classRest p)
    else .literal x :: tokens p
termination_by p => p.length
decreasing_by
  · exact Nat.lt_succ_self _
  · exact Nat.lt_succ_self _
  · exact Nat.lt_succ_of_le (length_classRest_le p)
  · exact Nat.lt_succ_self _

/-- The strings that the tokens of a pattern match. -/
def patternLanguage (signedChar : Bool) (pattern : Text) : Language UInt8 :=
  language ((tokens pattern).map (Token.symbol signedChar))

/-! ## Classes -/

theorem rangeEnd_eq_some : rangeEnd p = some y ↔ p = 45 :: y :: p.drop 2 ∧ y ≠ 93 := by
  match p with
  | [] => simp [rangeEnd]
  | [d] => simp [rangeEnd]
  | d :: z :: p =>
    by_cases hd : d = 45
    · simp [rangeEnd, hd, Option.filter_eq_some_iff]
    · simp [rangeEnd, hd]

theorem items_single (h : ∀ y, p ≠ 45 :: y :: p.drop 2) :
    items (x :: p) = .single x :: items p := by
  match p with
  | [] => rfl
  | [d] => rfl
  | d :: z :: p =>
    have hd : d ≠ 45 := by
      rintro rfl
      exact h z rfl
    rw [items, if_neg hd]

theorem takeWhile_no_range (h : rangeEnd p = none) (y : UInt8) :
    p.takeWhile (· ≠ 93) ≠ 45 :: y :: (p.takeWhile (· ≠ 93)).drop 2 := by
  intro hbody
  have hy : y ≠ 93 := by
    have hmem : y ∈ p.takeWhile (· ≠ 93) := by
      rw [hbody]
      simp
    simpa using List.mem_takeWhile_imp hmem
  have hp := List.takeWhile_append_dropWhile (p := (· ≠ (93 : UInt8))) (l := p)
  rw [hbody] at hp
  have hsome : rangeEnd p = some y := by
    rw [← hp]
    exact rangeEnd_eq_some.mpr ⟨rfl, hy⟩
  rw [h] at hsome
  cases hsome

/-- The loop tests the items of the body, and stops where the body does. -/
theorem classLoop_eq (signedChar : Bool) (c : UInt8) (matched : Bool) (p : Text) :
    classLoop signedChar c matched p =
      (matched || (items (p.takeWhile (· ≠ 93))).any (Item.holds signedChar c),
        p.dropWhile (· ≠ 93)) := by
  fun_induction classLoop signedChar c matched p with
  | case1 matched => simp [items]
  | case2 matched p => simp [items]
  | case3 matched x p hx y hend ih =>
    obtain ⟨hp, hy⟩ := rangeEnd_eq_some.mp hend
    obtain ⟨q, rfl⟩ : ∃ q, p = 45 :: y :: q := ⟨_, hp⟩
    rw [ih]
    simp [items, hx, hy, Item.holds, Bool.or_assoc]
  | case4 matched x p hx hend ih =>
    have hbody : (x :: p).takeWhile (· ≠ 93) = x :: p.takeWhile (· ≠ 93) :=
      List.takeWhile_cons_of_pos (by simpa using hx)
    have hrest : (x :: p).dropWhile (· ≠ 93) = p.dropWhile (· ≠ 93) :=
      List.dropWhile_cons_of_pos (by simpa using hx)
    rw [ih, hbody, hrest, items_single (takeWhile_no_range hend), List.any_cons, ← Bool.or_assoc]
    rfl

theorem matchCharClass_fst (signedChar : Bool) (p : Text) (c : UInt8) :
    (matchCharClass signedChar p c).1 =
      if negates p then !(items (classBody p)).any (Item.holds signedChar c)
      else (items (classBody p)).any (Item.holds signedChar c) := by
  change ((negates p && !(classLoop signedChar c false (classStart p)).1) ||
    (!negates p && (classLoop signedChar c false (classStart p)).1)) = _
  rw [classLoop_eq, Bool.false_or]
  cases negates p <;> simp [classBody]

/-- Where the pattern goes on behind a class does not depend on the character. -/
theorem matchCharClass_snd (signedChar : Bool) (p : Text) (c : UInt8) :
    (matchCharClass signedChar p c).2 = classRest p := by
  change (if (classLoop signedChar c false (classStart p)).2.head? = some 93 then
    (classLoop signedChar c false (classStart p)).2.tail
    else (classLoop signedChar c false (classStart p)).2) = _
  have hhead := List.head?_dropWhile_not (· ≠ (93 : UInt8)) (classStart p)
  rw [classLoop_eq, classRest]
  cases hrest : (classStart p).dropWhile (· ≠ 93) with
  | nil => rfl
  | cons x q =>
    rw [hrest] at hhead
    have hx : x = 93 := by simpa using hhead
    rw [hx]
    rfl

/-! ## Matching -/

theorem patternLanguage_star : patternLanguage signedChar (42 :: p) =
    language (.run :: (tokens p).map (Token.symbol signedChar)) := by
  rw [patternLanguage, tokens, if_pos rfl, List.map_cons, Token.symbol]

theorem starLoop_iff {l : Language UInt8} (h : ∀ s, globMatch signedChar p s = true ↔ s ∈ l) :
    starLoop signedChar p s = true ↔ ∃ t, t <:+ s ∧ t ∈ l := by
  induction s with
  | nil =>
    rw [starLoop, h]
    constructor
    · intro hnil
      exact ⟨[], List.suffix_rfl, hnil⟩
    · rintro ⟨t, hsuffix, ht⟩
      rwa [List.suffix_nil.mp hsuffix] at ht
  | cons c s ih =>
    rw [starLoop]
    split_ifs with hhere
    · exact iff_of_true rfl ⟨c :: s, List.suffix_rfl, (h _).mp hhere⟩
    · rw [ih]
      constructor
      · rintro ⟨t, hsuffix, ht⟩
        exact ⟨t, hsuffix.trans (List.suffix_cons c s), ht⟩
      · rintro ⟨t, hsuffix, ht⟩
        rcases List.suffix_cons_iff.mp hsuffix with rfl | hlater
        · exact absurd ((h _).mpr ht) hhere
        · exact ⟨t, hlater, ht⟩

theorem matchStar_iff
    (h : ∀ s, globMatch signedChar p s = true ↔ s ∈ patternLanguage signedChar p) :
    matchStar signedChar p s = true ↔ ∃ t, t <:+ s ∧ t ∈ patternLanguage signedChar p := by
  rw [matchStar]
  split_ifs with hp
  · subst hp
    have hnil : ([] : Text) ∈ patternLanguage signedChar [] := by
      rw [patternLanguage, tokens]
      exact mem_nil.mpr rfl
    exact iff_of_true rfl ⟨[], List.nil_suffix, hnil⟩
  · exact starLoop_iff h

theorem globMatch_iff (signedChar : Bool) (p s : Text) :
    globMatch signedChar p s = true ↔ s ∈ patternLanguage signedChar p := by
  induction hn : p.length using Nat.strong_induction_on generalizing p s with
  | _ n ih =>
    cases p with
    | nil =>
      rw [globMatch, patternLanguage, tokens, List.isEmpty_iff]
      exact mem_nil.symm
    | cons x p =>
      have hshort : ∀ q : Text, q.length ≤ p.length → ∀ s,
          globMatch signedChar q s = true ↔ s ∈ patternLanguage signedChar q := by
        intro q hq s
        rw [List.length_cons] at hn
        exact ih q.length (by omega) q s rfl
      have hp := hshort p le_rfl
      by_cases hstar : x = 42
      · subst hstar
        rw [globMatch_star, matchStar_iff hp, patternLanguage_star]
        exact mem_run.symm
      · cases s with
        | nil =>
          rw [globMatch_end hstar, patternLanguage, tokens, if_neg hstar]
          refine iff_of_false Bool.false_ne_true ?_
          split_ifs <;> exact nil_mem_letter
        | cons c s =>
          rw [globMatch_cons hstar, patternLanguage, tokens, if_neg hstar]
          split_ifs with hany hclass
          · rw [List.map_cons, Token.symbol, cons_mem_letter, hp]
            exact (and_iff_right rfl).symm
          · rw [List.map_cons, Token.symbol, cons_mem_letter, Bool.and_eq_true, matchCharClass_fst,
              matchCharClass_snd, hshort _ (length_classRest_le p)]
            rfl
          · rw [List.map_cons, Token.symbol, cons_mem_letter, Bool.and_eq_true, hp,
              Bool.beq_comm]
            rfl

/-- The matcher, which returns on every pattern and string, finds whether the string is in the
language of the pattern; behind a class it goes on at the same place whatever the character. -/
theorem zenitGlobMatch_iff (signedChar : Bool) :
    (∀ pattern str : Text, zenitGlobMatch signedChar (some pattern) (some str) = true ↔
      str ∈ patternLanguage signedChar pattern) ∧
    ∀ p c c', (matchCharClass signedChar p c).2 = (matchCharClass signedChar p c').2 := by
  refine ⟨fun pattern str => globMatch_iff signedChar pattern str, fun p c c' => ?_⟩
  rw [matchCharClass_snd, matchCharClass_snd]

end LibZenit.Globs
