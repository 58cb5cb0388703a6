import LibZenit.Basics
import LibZenit.DecimalText

/-!
# Versions of `semver.c`

A string is the list of its bytes in front of the terminating NUL, and a pointer into it the rest
of that list. The fields `pre_release` and `build` are strings of at most 63 bytes.
-/
namespace LibZenit.Semver
open DecimalText

abbrev Text := List UInt8

def chPlus : UInt8 := 43
def chMinus : UInt8 := 45
def chDot : UInt8 := 46

def maxPrerelease : ℕ := 64
def maxBuild : ℕ := 64

def intMax : ℕ := 2147483647

structure Version where
  major : ℤ
  minor : ℤ
  patch : ℤ
  preRelease : Text
  build : Text
  deriving DecidableEq, Repr

/-- `memset(out, 0, sizeof(zenit_semver_t))` -/
def Version.zero : Version := ⟨0, 0, 0, [], []⟩

/-- `*p` -/
def peek (p : Text) : UInt8 := p.headD 0

@[simp] theorem peek_nil : peek [] = 0 := rfl

@[simp] theorem peek_cons (c : UInt8) (p : Text) : peek (c :: p) = c := rfl

/-! ## Parsing -/

def parseNumLoop : ℕ → Text → Option (ℕ × Text)
  | n, [] => some (n, [])
  | n, c :: p =>
    if isDigit c then
      if n > (intMax - digitValue c) / 10 then none
      else parseNumLoop (n * 10 + digitValue c) p
    else some (n, c :: p)

/-- The number and the rest, or nothing where the source clears `*ok` and returns zero. -/
def parseNum (p : Text) : Option (ℕ × Text) :=
  if isDigit (peek p) then parseNumLoop 0 p else none

/-- The bytes of `dest`, and the rest if the loop is not left with an error. -/
def parseMetaLoop (maxLen : ℕ) (stop : UInt8) : Text → Text → Text × Option Text
  | dest, [] => (dest, some [])
  | dest, c :: p =>
    if c ≠ 0 ∧ c ≠ stop then
      if dest.length ≥ maxLen - 1 then (dest, none)
      else parseMetaLoop maxLen stop (dest ++ [c]) p
    else (dest, some (c :: p))

def parseMeta (maxLen : ℕ) (stop : UInt8) (p : Text) : Text × Option Text :=
  let r := parseMetaLoop maxLen stop [] p
  if r.1 = [] then (r.1, none) else r

/-- `if (*p == '-')` -/
def parsePreRelease (out : Version) (p : Text) : Version × Option Text :=
  if peek p = chMinus then
    let r := parseMeta maxPrerelease chPlus p.tail
    ({ out with preRelease := r.1 }, r.2)
  else (out, some p)

/-- `if (*p == '+')` -/
def parseBuild (out : Version) (p : Text) : Version × Option Text :=
  if peek p = chPlus then
    let r := parseMeta maxBuild 0 p.tail
    ({ out with build := r.1 }, r.2)
  else (out, some p)

/-- The parts behind the patch number. -/
def parseTail (out : Version) (p : Text) : Version × ZenitError :=
  match parsePreRelease out p with
  | (out, none) => (out, .param)
  | (out, some p) =>
    match parseBuild out p with
    | (out, none) => (out, .param)
    | (out, some p) => if peek p ≠ 0 then (out, .param) else (out, .ok)

/-- The output structure, written as far as the source has come, and the result code. -/
def zenitSemverParse (str : Text) : Version × ZenitError :=
  match parseNum str with
  | none => (.zero, .param)
  | some (major, p) =>
    let out := { Version.zero with major := major }
    if peek p ≠ chDot then (out, .param)
    else match parseNum p.tail with
    | none => (out, .param)
    | some (minor, p) =>
      let out := { out with minor := minor }
      if peek p ≠ chDot then (out, .param)
      else match parseNum p.tail with
      | none => (out, .param)
      | some (patch, p) =>
        let out := { out with patch := patch }
        if peek str = 48 ∧ isDigit (peek str.tail) then (out, .param)
        else parseTail out p

/-! ## Formatting -/

/-- `%d` -/
def formatInt (n : ℤ) : Text :=
  if n < 0 then chMinus :: decimalText n.natAbs else decimalText n.natAbs

def formatCore (v : Version) : Text :=
  formatInt v.major ++ chDot :: formatInt v.minor ++ chDot :: formatInt v.patch

/-- The four formats of `format_impl`. -/
def formatText (v : Version) : Text :=
  if v.preRelease.length > 0 ∧ v.build.length > 0 then
    formatCore v ++ chMinus :: v.preRelease ++ chPlus :: v.build
  else if v.preRelease.length > 0 then formatCore v ++ chMinus :: v.preRelease
  else if v.build.length > 0 then formatCore v ++ chPlus :: v.build
  else formatCore v

/-- The bytes asked for. -/
def formatSize (v : Version) : ℕ :=
  32 + (if v.preRelease.length > 0 then 1 + v.preRelease.length else 0) +
    (if v.build.length > 0 then 1 + v.build.length else 0) + 1

def formatImpl (ok : Bool) (v : Version) : Option Text :=
  if !ok then none
  else if (formatText v).length ≥ formatSize v then none
  else some (formatText v)

def zenitSemverFormat (ok : Bool) (v : Version) : Option Text × ZenitError :=
  match formatImpl ok v with
  | none => (none, .alloc)
  | some s => (some s, .ok)

/-! ## Comparison -/

def isNumeric (s : Text) : Bool := s.all isDigit

/-- The accumulation in an `int`, with the wrap-around of two's complement. -/
def intValue (s : Text) : ℤ := s.foldl (fun v c => (v * 10 + (digitValue c : ℤ)).bmod (2 ^ 32)) 0

/-- The value of a `char`, which is signed. -/
def charValue (c : UInt8) : ℤ := (c.toNat : ℤ).bmod 256

/-- The loop over the common length, and the comparison of the lengths behind it. -/
def cmpBytes : Text → Text → ℤ
  | [], [] => 0
  | [], _ :: _ => -1
  | _ :: _, [] => 1
  | a :: as, b :: bs =>
    if a ≠ b then (if charValue a < charValue b then -1 else 1) else cmpBytes as bs

def cmpPreId (a b : Text) : ℤ :=
  if isNumeric a && isNumeric b then
    if intValue a ≠ intValue b then (if intValue a < intValue b then -1 else 1) else 0
  else cmpBytes a b

/-- The next dot-separated identifier, and the rest behind the dot. -/
def nextIdent (s : Text) : Option (Text × Text) :=
  if s = [] then none
  else some (s.takeWhile (· ≠ chDot), (s.dropWhile (· ≠ chDot)).drop 1)

theorem nextIdent_length {s ident rest : Text} (h : nextIdent s = some (ident, rest)) :
    rest.length < s.length := by
  unfold nextIdent at h
  split_ifs at h with hs
  cases h
  have hpos : 0 < s.length := List.length_pos_iff.mpr hs
  have hle := (List.dropWhile_sublist (· ≠ chDot) (l := s)).length_le
  rw [List.length_drop]
  omega

def cmpPrerelease (a b : Text) : ℤ :=
  match ha : nextIdent a, nextIdent b with
  | none, none => 0
  | none, some _ => -1
  | some _, none => 1
  | some (x, a'), some (y, b') => if cmpPreId x y ≠ 0 then cmpPreId x y else cmpPrerelease a' b'
termination_by a.length
decreasing_by exact nextIdent_length ha

def zenitSemverCompare (a b : Version) : ℤ :=
  if a.major ≠ b.major then a.major - b.major
  else if a.minor ≠ b.minor then a.minor - b.minor
  else if a.patch ≠ b.patch then a.patch - b.patch
  else cmpPrerelease a.preRelease b.preRelease

end LibZenit.Semver
