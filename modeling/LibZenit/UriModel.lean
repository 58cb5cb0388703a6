import LibZenit.CString
import LibZenit.HexDigits

/-!
# The percent-coding of `uri.c`

A string is read from its memory by index, and a read or write behind the end of a block is a fault.
The characters of the comparisons are ASCII, so the signedness of `char` does not matter.
-/
namespace LibZenit.Uri
open Blocks CString

def chSpace : UInt8 := 32
def chPercent : UInt8 := 37
def chPlus : UInt8 := 43

def isUnreserved (c : UInt8) : Bool :=
  (65 ≤ c && c ≤ 90) || (97 ≤ c && c ≤ 122) || (48 ≤ c && c ≤ 57) ||
    c == 45 || c == 95 || c == 46 || c == 126

def hexDigit (v : UInt8) : UInt8 := HexDigits.digit 65 v

def hexVal (c : UInt8) : UInt8 := HexDigits.value c

/-! ## Encoding -/

def encodeLoop (mem : Text) (len i : ℕ) (out : Out) : Exec Out :=
  if i < len then do
    let c ← readSlot mem i
    let out ← if isUnreserved c then out.put c
      else out.putAll [chPercent, hexDigit (c >>> 4), hexDigit (c &&& 0x0F)]
    encodeLoop mem len (i + 1) out
  else .ok out
termination_by len - i

/-- The bytes written to the block, with the terminator. -/
def zenitUriEncode (ok : Bool) (input : Option Text) : Exec (Option Text) :=
  match input with
  | none => .ok none
  | some mem =>
    let len := strlen mem
    if !ok then .ok none
    else do
      let out ← encodeLoop mem len 0 ⟨wrap (wrap (len * 3) + 1), []⟩
      let out ← out.put 0
      return some out.bytes

/-! ## Decoding -/

/-- The block is given back where the answer is nothing. -/
def decodeLoop (mem : Text) (len i : ℕ) (out : Out) : Exec (Option Out) :=
  if i < len then do
    let c ← readSlot mem i
    if c = chPlus then
      let out ← out.put chSpace
      decodeLoop mem len (i + 1) out
    else if c = chPercent then
      if i + 2 ≥ len then return none
      let hi := hexVal (← readSlot mem (i + 1))
      let lo := hexVal (← readSlot mem (i + 2))
      if hi = 0xFF ∨ lo = 0xFF then return none
      let out ← out.put (hi <<< 4 ||| lo)
      decodeLoop mem len (i + 3) out
    else
      let out ← out.put c
      decodeLoop mem len (i + 1) out
  else return some out
termination_by len - i

def zenitUriDecode (ok : Bool) (encoded : Option Text) : Exec (Option Text) :=
  match encoded with
  | none => .ok none
  | some mem =>
    let len := strlen mem
    if !ok then .ok none
    else do
      let some out ← decodeLoop mem len 0 ⟨wrap (len + 1), []⟩ | return none
      let out ← out.put 0
      return some out.bytes

end LibZenit.Uri
