import Mathlib.Data.List.TakeWhile
import LibZenit.Basics

/-!
# Tokens of `json.c`

The parser reads a region of memory of which the first `len` bytes are the input. `peek` is the
test `p->pos < p->end` together with the read behind it. Scratch buffers are growable lists here;
`JsonHeap` follows their allocation.
-/
namespace LibZenit.Json

/-! ## Bytes -/

def chTab : UInt8 := 9
def chNewline : UInt8 := 10
def chReturn : UInt8 := 13
def chSpace : UInt8 := 32
def chQuote : UInt8 := 34
def chPlus : UInt8 := 43
def chComma : UInt8 := 44
def chMinus : UInt8 := 45
def chDot : UInt8 := 46
def chSlash : UInt8 := 47
def chZero : UInt8 := 48
def chNine : UInt8 := 57
def chColon : UInt8 := 58
def chUpperE : UInt8 := 69
def chLBracket : UInt8 := 91
def chBackslash : UInt8 := 92
def chRBracket : UInt8 := 93
def chLowerE : UInt8 := 101
def chLowerF : UInt8 := 102
def chLowerN : UInt8 := 110
def chLowerT : UInt8 := 116
def chLowerU : UInt8 := 117
def chLBrace : UInt8 := 123
def chRBrace : UInt8 := 125

def isDigit (c : UInt8) : Bool := chZero ≤ c && c ≤ chNine

def isWs (c : UInt8) : Bool := c == chSpace || c == chTab || c == chNewline || c == chReturn

section Input

variable (mem : List UInt8) (len : ℕ)

/-- `p->pos < p->end` and `*p->pos`. -/
def peek (pos : ℕ) : Option UInt8 := if pos < len then mem[pos]? else none

def skipWsFrom : ℕ → ℕ → ℕ
  | 0, pos => pos
  | fuel + 1, pos =>
    match peek mem len pos with
    | some c => if isWs c then skipWsFrom fuel (pos + 1) else pos
    | none => pos

def skipWs (pos : ℕ) : ℕ := skipWsFrom mem len (len - pos) pos

/-! ## Strings -/

/-- The value of one hexadecimal digit. -/
def hexDigit (h : UInt8) : Option ℕ :=
  if 48 ≤ h ∧ h ≤ 57 then some (h.toNat - 48)
  else if 97 ≤ h ∧ h ≤ 102 then some (h.toNat - 97 + 10)
  else if 65 ≤ h ∧ h ≤ 70 then some (h.toNat - 65 + 10)
  else none

/-- Four hexadecimal digits at `pos`. -/
def parseUnicodeCp (pos : ℕ) : Option (ℕ × ℕ) :=
  if pos + 4 > len then none
  else do
    let a ← hexDigit (← mem[pos]?)
    let b ← hexDigit (← mem[pos + 1]?)
    let c ← hexDigit (← mem[pos + 2]?)
    let d ← hexDigit (← mem[pos + 3]?)
    some (((a * 16 + b) * 16 + c) * 16 + d, pos + 4)

def encodeUtf8 (cp : ℕ) : List UInt8 :=
  if cp ≤ 0x7F then [UInt8.ofNat cp]
  else if cp ≤ 0x7FF then [UInt8.ofNat (0xC0 ||| cp >>> 6), UInt8.ofNat (0x80 ||| cp &&& 0x3F)]
  else [UInt8.ofNat (0xE0 ||| cp >>> 12), UInt8.ofNat (0x80 ||| cp >>> 6 &&& 0x3F),
    UInt8.ofNat (0x80 ||| cp &&& 0x3F)]

def parseSimpleEscape (esc : UInt8) : Option ℕ :=
  if esc = chQuote then some 34
  else if esc = chBackslash then some 92
  else if esc = chSlash then some 47
  else if esc = 98 then some 8
  else if esc = chLowerF then some 12
  else if esc = chLowerN then some 10
  else if esc = 114 then some 13
  else if esc = chLowerT then some 9
  else none

/-- The escape behind a backslash, with the position after it. -/
def parseEscapeSeq (pos : ℕ) : Option (ℕ × ℕ) :=
  match peek mem len pos with
  | none => none
  | some c =>
    match parseSimpleEscape c with
    | some cp => some (cp, pos + 1)
    | none => if c = chLowerU then parseUnicodeCp mem len (pos + 1) else none

/-- The loop of `parse_string_raw` with the bytes collected so far. -/
def parseStringFrom : ℕ → ℕ → List UInt8 → Option (List UInt8 × ℕ)
  | 0, _, _ => none
  | fuel + 1, pos, buf =>
    match peek mem len pos with
    | none => none
    | some c =>
      if c = chQuote then some (buf, pos + 1)
      else if c ≠ chBackslash then parseStringFrom fuel (pos + 1) (buf ++ [c])
      else
        match parseEscapeSeq mem len (pos + 1) with
        | none => none
        | some (cp, pos) => parseStringFrom fuel pos (buf ++ encodeUtf8 cp)

/-- The string whose opening quote stands at `pos`: its bytes and the position behind it. -/
def parseStringRaw (pos : ℕ) : Option (List UInt8 × ℕ) :=
  parseStringFrom mem len (len - pos) (pos + 1) []

/-- What the C string functions see of a stored string. -/
def cstr (s : List UInt8) : List UInt8 := s.takeWhile (· != 0)

end Input

theorem cstr_eq_self {s : List UInt8} (h : 0 ∉ s) : cstr s = s := by
  refine List.takeWhile_eq_self_iff.mpr fun c hc => ?_
  have hne : c ≠ 0 := fun hzero => h (hzero ▸ hc)
  simpa using hne

/-! ## `strtod`

The length of the longest prefix that is a floating-point constant, as the C library documents it:
optional white space and sign, then a decimal or hexadecimal number, an infinity or a NaN. -/

def isSpace (c : UInt8) : Bool := c == chSpace || 9 ≤ c && c ≤ 13

def isHexDigit (c : UInt8) : Bool := (hexDigit c).isSome

/-- Digits with at most one point among them, and at least one digit. -/
def mantissaLen (digit : UInt8 → Bool) (s : List UInt8) : ℕ :=
  let i := (s.takeWhile digit).length
  match s.drop i with
  | c :: t =>
    if c = chDot then
      let f := (t.takeWhile digit).length
      if i + f = 0 then 0 else i + 1 + f
    else i
  | [] => i

def signLen : List UInt8 → ℕ
  | c :: _ => if c = chPlus ∨ c = chMinus then 1 else 0
  | [] => 0

/-- An exponent part, or nothing when no digit follows. -/
def exponentLen (mark : UInt8 → Bool) : List UInt8 → ℕ
  | c :: t =>
    if mark c then
      let n := ((t.drop (signLen t)).takeWhile isDigit).length
      if n = 0 then 0 else 1 + signLen t + n
    else 0
  | [] => 0

def isExpMark (c : UInt8) : Bool := c == chLowerE || c == chUpperE

def decimalLen (s : List UInt8) : ℕ :=
  let m := mantissaLen isDigit s
  if m = 0 then 0 else m + exponentLen isExpMark (s.drop m)

def hexLen : List UInt8 → ℕ
  | c :: x :: t =>
    if c = chZero ∧ (x = 120 ∨ x = 88) then
      let m := mantissaLen isHexDigit t
      if m = 0 then 0 else 2 + m + exponentLen (fun c => c == 112 || c == 80) (t.drop m)
    else 0
  | _ => 0

def toLower (c : UInt8) : UInt8 := if 65 ≤ c ∧ c ≤ 90 then c + 32 else c

/-- The word, in any case, starts the text. -/
def startsWithWord (word s : List UInt8) : Bool := (s.take word.length).map toLower == word

def infLen (s : List UInt8) : ℕ :=
  if startsWithWord [105, 110, 102, 105, 110, 105, 116, 121] s then 8
  else if startsWithWord [105, 110, 102] s then 3
  else 0

/-- Letters, digits and underscores: the optional sequence of a NaN. -/
def isWordByte (c : UInt8) : Bool :=
  isDigit c || (97 ≤ toLower c && toLower c ≤ 122) || c == 95

def nanLen (s : List UInt8) : ℕ :=
  if startsWithWord [110, 97, 110] s then
    let body := (s.drop 4).takeWhile isWordByte
    if s[3]? = some 40 ∧ s[4 + body.length]? = some 41 then 5 + body.length else 3
  else 0

def subjectLen (s : List UInt8) : ℕ :=
  if hexLen s ≠ 0 then hexLen s
  else if decimalLen s ≠ 0 then decimalLen s
  else if infLen s ≠ 0 then infLen s
  else nanLen s

/-- The number of bytes that `strtod` consumes; zero when there is no conversion. -/
def floatLen (s : List UInt8) : ℕ :=
  let w := (s.takeWhile isSpace).length
  let g := signLen (s.drop w)
  let m := subjectLen (s.drop (w + g))
  if m = 0 then 0 else w + g + m

/-! ## Numbers -/

/-- The digits that `parse_number_digits` steps over; the result is the unread rest. -/
def parseNumberDigits : List UInt8 → Option (List UInt8)
  | [] => none
  | c :: t =>
    if !isDigit c then none
    else if c = chZero then some t
    else some ((c :: t).dropWhile isDigit)

def skipMinus : List UInt8 → List UInt8
  | c :: t => if c = chMinus then t else c :: t
  | [] => []

def parseFraction : List UInt8 → Option (List UInt8)
  | c :: t => if c = chDot then parseNumberDigits t else some (c :: t)
  | [] => some []

def parseExponent : List UInt8 → Option (List UInt8)
  | c :: t => if isExpMark c then parseNumberDigits (t.drop (signLen t)) else some (c :: t)
  | [] => some []

/-- The check of `parse_number` on the bytes that `strtod` consumed. -/
def scanNumber (s : List UInt8) : Option (List UInt8) := do
  let s ← parseNumberDigits (skipMinus s)
  let s ← parseFraction s
  parseExponent s

/-- `parse_number`: `strtod` reads the memory from `pos` on, whatever `p->end` is. `toDouble` is
its conversion of the bytes it consumed. -/
def parseNumber {D : Type} (toDouble : List UInt8 → D) (mem : List UInt8) (pos : ℕ) :
    Option (D × ℕ) :=
  let s := mem.drop pos
  let n := floatLen s
  if n = 0 then none
  else if scanNumber (s.take n) = some [] then some (toDouble (s.take n), pos + n)
  else none

end LibZenit.Json
