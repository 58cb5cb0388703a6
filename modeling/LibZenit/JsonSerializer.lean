import LibZenit.JsonParser

/-!
# The serializer of `json.c`

Every function appends to the text in `out`; appending succeeds. `formatNumber` stands for
`format_number`, which prints a double through the C library.
-/
namespace LibZenit.Json

/-- One digit of `%x`. -/
def lowerHex (n : ℕ) : UInt8 := UInt8.ofNat (if n < 10 then 48 + n else 87 + n)

/-- The text of `%04x` for a number below `0x10000`. -/
def hexFour (n : ℕ) : List UInt8 :=
  [lowerHex (n / 4096 % 16), lowerHex (n / 256 % 16), lowerHex (n / 16 % 16), lowerHex (n % 16)]

def serializeEscapeChar (c : UInt8) (out : List UInt8) : List UInt8 :=
  if c = chQuote then out ++ [chBackslash, chQuote]
  else if c = chBackslash then out ++ [chBackslash, chBackslash]
  else if c = 8 then out ++ [chBackslash, 98]
  else if c = 12 then out ++ [chBackslash, chLowerF]
  else if c = chNewline then out ++ [chBackslash, chLowerN]
  else if c = chReturn then out ++ [chBackslash, 114]
  else if c = chTab then out ++ [chBackslash, chLowerT]
  else if c < 0x20 then out ++ chBackslash :: chLowerU :: hexFour c.toNat
  else out ++ [c]

/-- The loop of `string_escape_into`, up to the terminating zero. -/
def escapeChars : List UInt8 → List UInt8 → List UInt8
  | [], out => out
  | c :: s, out => if c = 0 then out else escapeChars s (serializeEscapeChar c out)

def stringEscapeInto (s out : List UInt8) : List UInt8 :=
  escapeChars s (out ++ [chQuote]) ++ [chQuote]

section Serialize

variable {D : Type} (formatNumber : D → List UInt8)

mutual

/-- `value_serialize_into`, with `serialize_array` and `serialize_object` as its last two cases. -/
def valueSerializeInto : Value D → List UInt8 → List UInt8
  | .null, out => out ++ wordNull
  | .bool true, out => out ++ wordTrue
  | .bool false, out => out ++ wordFalse
  | .num d, out => out ++ formatNumber d
  | .str s, out => stringEscapeInto s out
  | .arr items, out => serializeItems items 0 (out ++ [chLBracket]) ++ [chRBracket]
  | .obj members, out => serializeMembers members 0 (out ++ [chLBrace]) ++ [chRBrace]

/-- The loop of `serialize_array` from index `i` on. -/
def serializeItems : List (Value D) → ℕ → List UInt8 → List UInt8
  | [], _, out => out
  | v :: vs, i, out =>
    let out := if i > 0 then out ++ [chComma] else out
    serializeItems vs (i + 1) (valueSerializeInto v out)

/-- The loop of `serialize_object` from index `i` on. -/
def serializeMembers : List (List UInt8 × Value D) → ℕ → List UInt8 → List UInt8
  | [], _, out => out
  | (k, v) :: ms, i, out =>
    let out := if i > 0 then out ++ [chComma] else out
    serializeMembers ms (i + 1) (valueSerializeInto v (stringEscapeInto k out ++ [chColon]))

end

/-- The text of a value. `str_dup` copies it up to the first zero byte. -/
def zenitJsonValueSerialize (v : Value D) : List UInt8 :=
  cstr (valueSerializeInto formatNumber v [])

end Serialize

/-- `zenit_json_parse` on a C string. -/
def zenitJsonParse {D : Type} (toDouble : List UInt8 → D) (mem : List UInt8) (fuel : ℕ) :
    Outcome (Value D) :=
  zenitJsonParseWithLength toDouble mem (cstr mem).length fuel

end LibZenit.Json
