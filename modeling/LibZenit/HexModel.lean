import LibZenit.CString
import LibZenit.HexDigits

/-!
# The encoding of `hex.c`

The data and the string are read by index, and the output is written one byte behind the other. A
read or write behind the end of a block is a fault.
-/
namespace LibZenit.Hex
open Blocks CString

def nibbleToHex (n : UInt8) : UInt8 := HexDigits.digit 97 n

def hexToNibble (c : UInt8) : UInt8 := HexDigits.value c

def zenitHexEncodeLen (dataLen : ℕ) : ℕ := wrap (wrap (dataLen * 2) + 1)

def zenitHexDecodeLen (hex : Option Text) : ℕ :=
  hex.elim 0 fun mem => wrap (strlen mem + 1) / 2

/-! ## Encoding -/

def encodeLoop (data : Text) (i : ℕ) (out : Out) : Exec Out :=
  if i < data.length then do
    let b ← readSlot data i
    let out ← out.putAll [nibbleToHex (b >>> 4), nibbleToHex (b &&& 0x0F)]
    encodeLoop data (i + 1) out
  else .ok out
termination_by data.length - i

/-- The whole block, with the terminator. Without data there is only its length. -/
def zenitHexEncode (ok : Bool) (data : Text ⊕ ℕ) : Exec (Option Text) :=
  match data with
  | .inr len => if len > 0 then .ok none else encode ok []
  | .inl data => encode ok data
where
  encode (ok : Bool) (data : Text) : Exec (Option Text) :=
    if !ok then .ok none
    else do
      let out ← encodeLoop data 0 ⟨zenitHexEncodeLen data.length, []⟩
      let out ← out.put 0
      return some out.bytes

/-! ## Decoding -/

/-- The pairs of digits from the index `i` on. -/
def decodeLoop (mem : Text) (len i : ℕ) (out : Out) : Exec (Option Out) :=
  if i < len then do
    let hi := hexToNibble (← readSlot mem i)
    let lo := hexToNibble (← readSlot mem (i + 1))
    if hi = 0xFF ∨ lo = 0xFF then return none
    let out ← out.put (hi <<< 4 ||| lo)
    decodeLoop mem len (i + 2) out
  else return some out
termination_by len - i

/-- The bytes written to the block, and `*out_len`. The block of the empty string is one zero. -/
def zenitHexDecode (ok : Bool) (hex : Option Text) : Exec (Option (Text × ℕ)) :=
  match hex with
  | none => .ok none
  | some mem =>
    let len := strlen mem
    if len = 0 then
      if ok then (Out.put ⟨1, []⟩ 0).map fun out => some (out.bytes, 0) else .ok none
    else if !ok then .ok none
    else
      let decodedLen := wrap (len + 1) / 2
      if len % 2 ≠ 0 then do
        let n := hexToNibble (← readSlot mem 0)
        if n = 0xFF then return none
        let out ← Out.put ⟨decodedLen, []⟩ n
        let some out ← decodeLoop mem len 1 out | return none
        return some (out.bytes, decodedLen)
      else do
        let some out ← decodeLoop mem len 0 ⟨decodedLen, []⟩ | return none
        return some (out.bytes, decodedLen)

end LibZenit.Hex
