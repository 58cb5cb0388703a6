import LibZenit.Refinement
import Mathlib.Data.Nat.Count

/-!
# The bit set of `bitset.c`

Every access to the bytes is checked. An allocation that grows the block leaves `junk` in the new
bytes, which `zenit_bitset_resize` then clears.
-/
namespace LibZenit.Bitsets
open Blocks

structure Bitset where
  bits : List UInt8
  numBytes : ℕ
  numBits : ℕ

def bytesNeeded (bitCount : ℕ) : ℕ :=
  let n := wrap (bitCount + 7) / 8
  if n > 0 then n else 1

def zenitBitsetCreate (handle block : Bool) (numBits : ℕ) : Option Bitset :=
  if !handle then none
  else if !block then none
  else some ⟨List.replicate (bytesNeeded numBits) 0, bytesNeeded numBits, numBits⟩

def zenitBitsetResize (ok : Bool) (junk : UInt8) (bs : Bitset) (numBits : ℕ) :
    Exec (Bitset × ZenitError) :=
  let newBytes := bytesNeeded numBits
  if !ok then .ok (bs, .alloc)
  else
    let newBits := resize junk newBytes bs.bits
    (if newBytes > bs.numBytes then
      writeSlots newBits bs.numBytes (List.replicate (newBytes - bs.numBytes) 0)
    else .ok newBits).map fun bits => (⟨bits, newBytes, numBits⟩, .ok)

/-! ## Growing -/

/-- `while (new_cap < needed)` -/
def growLoop (needed : ℕ) : ℕ → ℕ → Exec ℕ
  | 0, _ => .error .hang
  | fuel + 1, newCap =>
    if newCap < needed then
      growLoop needed fuel (if newCap = 0 then 64 else wrap (newCap * 2))
    else .ok newCap

def ensureCapacity (fuel : ℕ) (ok : Bool) (junk : UInt8) (bs : Bitset) (requiredPos : ℕ) :
    Exec (Bitset × ZenitError) :=
  let needed := wrap (requiredPos + 1)
  if needed ≤ bs.numBits then .ok (bs, .ok)
  else (growLoop needed fuel bs.numBits).bind fun newCap => zenitBitsetResize ok junk bs newCap

/-! ## Single bits -/

/-- Grow if needed, then change the byte of a position. -/
def changeBit (change : UInt8 → UInt8) (fuel : ℕ) (ok : Bool) (junk : UInt8) (bs : Bitset)
    (pos : ℕ) : Exec (Bitset × ZenitError) :=
  (ensureCapacity fuel ok junk bs pos).bind fun p =>
    if p.2 ≠ .ok then .ok p
    else (readSlot p.1.bits (pos / 8)).bind fun byte =>
      (writeSlot p.1.bits (pos / 8) (change byte)).map fun bits => ({ p.1 with bits := bits }, .ok)

def zenitBitsetSet (fuel : ℕ) (ok : Bool) (junk : UInt8) (bs : Bitset) (pos : ℕ) :
    Exec (Bitset × ZenitError) :=
  changeBit (fun byte => byte ||| (1 <<< UInt8.ofNat (pos % 8))) fuel ok junk bs pos

def zenitBitsetClear (fuel : ℕ) (ok : Bool) (junk : UInt8) (bs : Bitset) (pos : ℕ) :
    Exec (Bitset × ZenitError) :=
  changeBit (fun byte => byte &&& ~~~(1 <<< UInt8.ofNat (pos % 8))) fuel ok junk bs pos

def zenitBitsetToggle (fuel : ℕ) (ok : Bool) (junk : UInt8) (bs : Bitset) (pos : ℕ) :
    Exec (Bitset × ZenitError) :=
  changeBit (fun byte => byte ^^^ (1 <<< UInt8.ofNat (pos % 8))) fuel ok junk bs pos

def zenitBitsetTest (bs : Bitset) (pos : ℕ) : Exec UInt8 :=
  if pos ≥ bs.numBits then .ok 0
  else (readSlot bs.bits (pos / 8)).map fun byte => (byte >>> UInt8.ofNat (pos % 8)) &&& 1

/-! ## All bits -/

def zenitBitsetSetAll (bs : Bitset) : Exec Bitset :=
  (writeSlots bs.bits 0 (List.replicate bs.numBytes 0xFF)).map fun bits => { bs with bits := bits }

def zenitBitsetClearAll (bs : Bitset) : Exec Bitset :=
  (writeSlots bs.bits 0 (List.replicate bs.numBytes 0)).map fun bits => { bs with bits := bits }

/-- `__builtin_popcount` -/
def popcount (byte : UInt8) : ℕ := Nat.count (fun k => byte.toBitVec.getLsbD k = true) 8

def zenitBitsetCount (bs : Bitset) : Exec ℕ :=
  (List.range bs.numBytes).foldlM
    (fun count i => (readSlot bs.bits i).map fun byte => wrap (count + popcount byte)) 0

def zenitBitsetCapacity (bs : Bitset) : ℕ := bs.numBits

/-! ## Runs -/

inductive Call where
  | set (ok : Bool) (junk : UInt8) (pos : ℕ)
  | clear (ok : Bool) (junk : UInt8) (pos : ℕ)
  | toggle (ok : Bool) (junk : UInt8) (pos : ℕ)
  | test (pos : ℕ)
  | setAll
  | clearAll
  | resize (ok : Bool) (junk : UInt8) (numBits : ℕ)

/-- The answer of a test is the element of its reply. -/
def step (fuel : ℕ) (bs : Bitset) : Call → Exec (Bitset × Reply UInt8)
  | .set ok junk pos => (zenitBitsetSet fuel ok junk bs pos).map fun p => (p.1, ⟨p.2, none⟩)
  | .clear ok junk pos => (zenitBitsetClear fuel ok junk bs pos).map fun p => (p.1, ⟨p.2, none⟩)
  | .toggle ok junk pos => (zenitBitsetToggle fuel ok junk bs pos).map fun p => (p.1, ⟨p.2, none⟩)
  | .test pos => (zenitBitsetTest bs pos).map fun b => (bs, ⟨.ok, some b⟩)
  | .setAll => (zenitBitsetSetAll bs).map fun bs => (bs, ⟨.ok, none⟩)
  | .clearAll => (zenitBitsetClearAll bs).map fun bs => (bs, ⟨.ok, none⟩)
  | .resize ok junk n => (zenitBitsetResize ok junk bs n).map fun p => (p.1, ⟨p.2, none⟩)

end LibZenit.Bitsets
