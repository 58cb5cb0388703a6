import LibZenit.Blocks
import LibZenit.HashCommon

/-!
# The filter of `bloom.c`

The bit array is a block of 64-bit words. A remainder by zero is a fault, as an access outside of
the block is. The false positive rate is stored for the caller only and is left out, as is the
constructor that computes the parameters in floating point before it calls the common one.
-/
namespace LibZenit.Blooms
open Blocks HashCommon

abbrev Data := List UInt8

structure Bloom where
  bits : List (BitVec 64)
  numBits : ℕ
  numHashes : ℕ
  count : ℕ

def hashFnv1aAlt (data : Data) : UInt64 :=
  data.foldl (fun h b => (h ^^^ b.toUInt64) * 1099511628211)
    (14695981039346656037 ^^^ 0x9e3779b97f4a7c15)

def bitSet (bits : List (BitVec 64)) (idx : ℕ) : Exec (List (BitVec 64)) := do
  let word ← readSlot bits (idx / 64)
  writeSlot bits (idx / 64) (word ||| (1#64 <<< (idx % 64)))

def bitTest (bits : List (BitVec 64)) (idx : ℕ) : Exec Bool := do
  let word ← readSlot bits (idx / 64)
  return (word >>> (idx % 64)) &&& 1#64 != 0#64

/-- The handle and the words are allocated one after the other. -/
def bloomCreateCommon (okHandle okBits : Bool) (numBits numHashes : ℕ) : Option Bloom :=
  if numBits = 0 ∨ numHashes = 0 then none
  else
    let numBits := if numBits % 64 ≠ 0 then wrap ((numBits / 64 + 1) * 64) else numBits
    if !okHandle then none
    else
      let arrSize := numBits / 64
      if !okBits then none
      else some ⟨List.replicate (slotsOf 8 arrSize) 0#64, numBits, numHashes, 0⟩

/-- Without the estimate of the false positive rate this is the common constructor. -/
def zenitBloomCreateExplicitWithAllocator (okHandle okBits : Bool) (numBits numHashes : ℕ) :
    Option Bloom := bloomCreateCommon okHandle okBits numBits numHashes

/-- `(h1 + i * h2) % num_bits` -/
def index (numBits : ℕ) (data : Data) (i : ℕ) : Exec ℕ :=
  let h1 := hashFnv1a data
  let h2 := hashFnv1aAlt data ||| 1
  if numBits = 0 then .error .outOfBounds
  else .ok ((h1 + UInt64.ofNat i * h2).toNat % numBits)

def zenitBloomInsert (bf : Bloom) (data : Option Data) : Exec Bloom :=
  match data with
  | none => .ok bf
  | some data => do
    let bits ← (List.range bf.numHashes).foldlM
      (fun bits i => (index bf.numBits data i).bind (bitSet bits)) bf.bits
    return { bf with bits, count := wrap (bf.count + 1) }

/-- The loop ends at the first bit that is clear. -/
def zenitBloomContains (bf : Bloom) (data : Option Data) : Exec Bool :=
  match data with
  | none => .ok false
  | some data =>
    (List.range bf.numHashes).allM fun i => (index bf.numBits data i).bind (bitTest bf.bits)

def zenitBloomClear (bf : Bloom) : Exec Bloom := do
  let bits ← writeSlots bf.bits 0 (List.replicate (slotsOf 8 (bf.numBits / 64)) 0#64)
  return { bf with bits, count := 0 }

/-! ## Runs -/

inductive Call where
  | insert (data : Option Data)
  | contains (data : Option Data)
  | clear
  deriving DecidableEq

def step (bf : Bloom) : Call → Exec (Bloom × Option Bool)
  | .insert data => (zenitBloomInsert bf data).map fun bf => (bf, none)
  | .contains data => (zenitBloomContains bf data).map fun answer => (bf, some answer)
  | .clear => (zenitBloomClear bf).map fun bf => (bf, none)

end LibZenit.Blooms
