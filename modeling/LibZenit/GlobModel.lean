import LibZenit.Basics

/-!
# The pattern matcher of `glob.c`

Pattern and string are the bytes of C strings before their terminators, so that a pointer into one
is what is left of it.
-/
namespace LibZenit.Globs

abbrev Text := List UInt8

/-- The value of a `char`, which is signed or not as the compiler has it. -/
def charValue (signedChar : Bool) (c : UInt8) : ℤ :=
  if signedChar then c.toInt8.toInt else c.toNat

/-- The end of the range that goes on with `p` behind its first character. The end of the pattern
and the bracket end no range. -/
def rangeEnd (p : Text) : Option UInt8 :=
  if p[0]? = some 45 then p[1]?.filter (· ≠ 93) else none

/-- The loop of `match_char_class`: whether an item has matched, and the rest of the pattern. -/
def classLoop (signedChar : Bool) (c : UInt8) (matched : Bool) : Text → Bool × Text
  | [] => (matched, [])
  | x :: p =>
    if x = 93 then (matched, x :: p)
    else
      match rangeEnd p with
      | some y =>
        classLoop signedChar c (matched || (charValue signedChar x ≤ charValue signedChar c &&
          charValue signedChar c ≤ charValue signedChar y)) (p.drop 2)
      | none => classLoop signedChar c (matched || c == x) p
termination_by p => p.length
decreasing_by all_goals simp

/-- `p` is behind the opening bracket; the rest of the pattern is behind the closing one. -/
def matchCharClass (signedChar : Bool) (p : Text) (c : UInt8) : Bool × Text :=
  let negated := p.head? == some 33
  let r := classLoop signedChar c false (if negated then p.tail else p)
  ((negated && !r.1) || (!negated && r.1), if r.2.head? = some 93 then r.2.tail else r.2)

theorem length_classLoop_le (signedChar : Bool) (c : UInt8) (matched : Bool) (p : Text) :
    (classLoop signedChar c matched p).2.length ≤ p.length := by
  fun_induction classLoop signedChar c matched p with
  | case1 => simp
  | case2 => simp
  | case3 matched x p _ y _ ih =>
    rw [List.length_drop] at ih
    rw [List.length_cons]
    omega
  | case4 matched x p _ _ ih =>
    rw [List.length_cons]
    omega

theorem length_matchCharClass_le (signedChar : Bool) (p : Text) (c : UInt8) :
    (matchCharClass signedChar p c).2.length ≤ p.length := by
  have hstart : (if p.head? == some 33 then p.tail else p).length ≤ p.length := by
    split_ifs <;> simp
  have hloop := (length_classLoop_le signedChar c false _).trans hstart
  rw [matchCharClass]
  generalize classLoop signedChar c false (if p.head? == some 33 then p.tail else p) = r at hloop ⊢
  dsimp only
  split_ifs
  · rw [List.length_tail]
    omega
  · exact hloop

mutual

/-- The function `match`. -/
def globMatch (signedChar : Bool) (p s : Text) : Bool :=
  match p with
  | [] => s.isEmpty
  | x :: p =>
    if x = 42 then matchStar signedChar p s
    else
      match s with
      | [] => false
      | c :: s =>
        if x = 63 then globMatch signedChar p s
        else if x = 91 then
          if !(matchCharClass signedChar p c).1 then false
          else globMatch signedChar (matchCharClass signedChar p c).2 s
        else if x ≠ c then false
        else globMatch signedChar p s
termination_by (p.length, s.length, 0)
decreasing_by
  · exact Prod.Lex.left _ _ (Nat.lt_succ_self _)
  · exact Prod.Lex.left _ _ (Nat.lt_succ_self _)
  · exact Prod.Lex.left _ _ (Nat.lt_succ_of_le (length_matchCharClass_le signedChar p c))
  · exact Prod.Lex.left _ _ (Nat.lt_succ_self _)

def matchStar (signedChar : Bool) (p s : Text) : Bool :=
  if p = [] then true else starLoop signedChar p s
termination_by (p.length, s.length, 2)

/-- The loop of `match_star` and what follows it. -/
def starLoop (signedChar : Bool) (p s : Text) : Bool :=
  match s with
  | [] => globMatch signedChar p []
  | c :: s =>
    if globMatch signedChar p (c :: s) then true else starLoop signedChar p s
termination_by (p.length, s.length, 1)

end

theorem globMatch_star (signedChar : Bool) (p s : Text) :
    globMatch signedChar (42 :: p) s = matchStar signedChar p s := by
  cases s <;> rw [globMatch, if_pos rfl]

theorem globMatch_end {signedChar : Bool} {x : UInt8} {p : Text} (h : x ≠ 42) :
    globMatch signedChar (x :: p) [] = false := by
  rw [globMatch, if_neg h]

theorem globMatch_cons {signedChar : Bool} {x c : UInt8} {p s : Text} (h : x ≠ 42) :
    globMatch signedChar (x :: p) (c :: s) =
      if x = 63 then globMatch signedChar p s
      else if x = 91 then (matchCharClass signedChar p c).1 &&
        globMatch signedChar (matchCharClass signedChar p c).2 s
      else x == c && globMatch signedChar p s := by
  rw [globMatch, if_neg h]
  congr 2
  · cases (matchCharClass signedChar p c).1 <;> rfl
  · by_cases hc : x = c <;> simp [hc]

def zenitGlobMatch (signedChar : Bool) (pattern str : Option Text) : Bool :=
  match pattern, str with
  | some pattern, some str => globMatch signedChar pattern str
  | _, _ => false

end LibZenit.Globs
