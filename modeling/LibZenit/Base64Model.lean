import LibZenit.CString

/-!
# The encoding of `base64.c`

Bytes are read from the data and from the string with its terminator by their index, and a read
behind the end is a fault, as is a write behind the end of the output block, to which all writes are
made one behind the other. The numbers of type `unsigned int` stay below `2 ^ 24`.
-/
namespace LibZenit.Base64
open Blocks CString

/-- `'='` -/
def chPad : UInt8 := 61

def encTable : List UInt8 := [
  65, 66, 67, 68, 69, 70, 71, 72, 73, 74, 75, 76, 77, 78, 79, 80, 81, 82, 83, 84, 85, 86, 87, 88,
  89, 90, 97, 98, 99, 100, 101, 102, 103, 104, 105, 106, 107, 108, 109, 110, 111, 112, 113, 114,
  115, 116, 117, 118, 119, 120, 121, 122, 48, 49, 50, 51, 52, 53, 54, 55, 56, 57, 43, 47]

def decTable : List UInt8 := [
  0xFF, 0xFF, 0xFF, 0xFF, 0xFF, 0xFF, 0xFF, 0xFF, 0xFF, 0xFF, 0xFF, 0xFF, 0xFF, 0xFF, 0xFF, 0xFF,
  0xFF, 0xFF, 0xFF, 0xFF, 0xFF, 0xFF, 0xFF, 0xFF, 0xFF, 0xFF, 0xFF, 0xFF, 0xFF, 0xFF, 0xFF, 0xFF,
  0xFF, 0xFF, 0xFF, 0xFF, 0xFF, 0xFF, 0xFF, 0xFF, 0xFF, 0xFF, 0xFF, 0x3E, 0xFF, 0xFF, 0xFF, 0x3F,
  0x34, 0x35, 0x36, 0x37, 0x38, 0x39, 0x3A, 0x3B, 0x3C, 0x3D, 0xFF, 0xFF, 0xFF, 0xFF, 0xFF, 0xFF,
  0xFF, 0x00, 0x01, 0x02, 0x03, 0x04, 0x05, 0x06, 0x07, 0x08, 0x09, 0x0A, 0x0B, 0x0C, 0x0D, 0x0E,
  0x0F, 0x10, 0x11, 0x12, 0x13, 0x14, 0x15, 0x16, 0x17, 0x18, 0x19, 0xFF, 0xFF, 0xFF, 0xFF, 0xFF,
  0xFF, 0x1A, 0x1B, 0x1C, 0x1D, 0x1E, 0x1F, 0x20, 0x21, 0x22, 0x23, 0x24, 0x25, 0x26, 0x27, 0x28,
  0x29, 0x2A, 0x2B, 0x2C, 0x2D, 0x2E, 0x2F, 0x30, 0x31, 0x32, 0x33, 0xFF, 0xFF, 0xFF, 0xFF, 0xFF] ++
  List.replicate 128 0xFF

/-- The tables are only read at indices inside them. -/
def encChar (sextet : ℕ) : UInt8 := encTable.getD (sextet &&& 0x3F) 0

def decChar (c : UInt8) : ℕ := (decTable.getD c.toNat 0).toNat

def zenitBase64EncodeLen (inputLen : ℕ) : ℕ := wrap (wrap (wrap (inputLen + 2) / 3 * 4) + 1)

def zenitBase64DecodeLen (encoded : Option Text) : ℕ :=
  encoded.elim 0 fun mem => strlen mem / 4 * 3

/-! ## Encoding -/

/-- The whole triples. The answer is the index behind them. -/
def encodeLoop (data : Text) (i : ℕ) (out : Out) : Exec (ℕ × Out) :=
  if i + 3 ≤ data.length then do
    let a ← readSlot data i
    let b ← readSlot data (i + 1)
    let c ← readSlot data (i + 2)
    let out ← out.putAll [
      encChar (a.toNat >>> 2),
      encChar (a.toNat <<< 4 ||| b.toNat >>> 4),
      encChar (b.toNat <<< 2 ||| c.toNat >>> 6),
      encChar c.toNat]
    encodeLoop data (i + 3) out
  else .ok (i, out)
termination_by data.length - i

def encodeTail (data : Text) (i : ℕ) (out : Out) : Exec Out :=
  let remaining := data.length - i
  if remaining = 1 then do
    let a ← readSlot data i
    out.putAll [encChar (a.toNat >>> 2), encChar (a.toNat <<< 4), chPad, chPad]
  else if remaining = 2 then do
    let a ← readSlot data i
    let b ← readSlot data (i + 1)
    out.putAll [
      encChar (a.toNat >>> 2),
      encChar (a.toNat <<< 4 ||| b.toNat >>> 4),
      encChar (b.toNat <<< 2),
      chPad]
  else .ok out

/-- The whole block, with the terminator. Without data there is only its length. -/
def zenitBase64Encode (ok : Bool) (data : Text ⊕ ℕ) : Exec (Option Text) :=
  match data with
  | .inr len => if len > 0 then .ok none else encode ok []
  | .inl data => encode ok data
where
  encode (ok : Bool) (data : Text) : Exec (Option Text) :=
    if !ok then .ok none
    else do
      let (i, out) ← encodeLoop data 0 ⟨zenitBase64EncodeLen data.length, []⟩
      let out ← encodeTail data i out
      let out ← out.put 0
      return some out.bytes

/-! ## Decoding -/

/-- The three bytes of a quad as one number, or nothing if it is not valid. -/
def decodeQuad (mem : Text) (i : ℕ) : Exec (Option ℕ) := do
  let c0 ← readSlot mem i
  let c1 ← readSlot mem (i + 1)
  let c2 ← readSlot mem (i + 2)
  let c3 ← readSlot mem (i + 3)
  if decChar c0 = 0xFF ∨ decChar c1 = 0xFF then return none
  let triple := decChar c0 <<< 18 ||| decChar c1 <<< 12
  if c2 ≠ chPad ∧ decChar c2 = 0xFF then return none
  let triple := if c2 ≠ chPad then triple ||| decChar c2 <<< 6 else triple
  if c3 ≠ chPad ∧ decChar c3 = 0xFF then return none
  let triple := if c3 ≠ chPad then triple ||| decChar c3 else triple
  return some triple

def decodeLoop (mem : Text) (len i : ℕ) (out : Out) : Exec (Option Out) :=
  if i < len then do
    let some triple ← decodeQuad mem i | return none
    let out ← out.put (UInt8.ofNat (triple >>> 16))
    let out ← if (← readSlot mem (i + 2)) ≠ chPad then out.put (UInt8.ofNat (triple >>> 8))
      else pure out
    let out ← if (← readSlot mem (i + 3)) ≠ chPad then out.put (UInt8.ofNat triple) else pure out
    decodeLoop mem len (i + 4) out
  else return some out
termination_by len - i

/-- The bytes written to the block; `*out_len` is their number. -/
def zenitBase64Decode (ok : Bool) (encoded : Option Text) : Exec (Option Text) :=
  match encoded with
  | none => .ok none
  | some mem =>
    let len := strlen mem
    if len < 4 ∨ len % 4 ≠ 0 then .ok none
    else if !ok then .ok none
    else do
      let some out ← decodeLoop mem len 0 ⟨zenitBase64DecodeLen (some mem), []⟩ | return none
      return some out.bytes

end LibZenit.Base64
