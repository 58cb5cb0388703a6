import LibZenit.CString

/-!
# The text form of `uuid.c`

The writer puts a dash in front of some bytes and counts the characters it has written. The reader
checks four dashes at their places in the string and then steps over them by the index of the byte.
-/
namespace LibZenit.Uuid
open Blocks CString

/-- `zenit_uuid_t` -/
@[ext] structure ZenitUuid where
  bytes : Text
  length_bytes : bytes.length = 16

/-- `uuid->bytes[i] = b` -/
def ZenitUuid.setByte (uuid : ZenitUuid) (i : ℕ) (b : UInt8) : ZenitUuid :=
  ⟨uuid.bytes.set i b, by rw [List.length_set, uuid.length_bytes]⟩

/-- `ZENIT_UUID_STR_LEN` -/
def zenitUuidStrLen : ℕ := 37

/-- The bytes with a dash in front. -/
def DashBefore (i : ℕ) : Prop := i = 4 ∨ i = 6 ∨ i = 8 ∨ i = 10

instance (i : ℕ) : Decidable (DashBefore i) := inferInstanceAs (Decidable (_ ∨ _))

/-- `"0123456789abcdef"` -/
def hex : Text := [48, 49, 50, 51, 52, 53, 54, 55, 56, 57, 97, 98, 99, 100, 101, 102]

def formatLoop (uuid : ZenitUuid) (i : ℕ) (out : Out) : Exec Out :=
  if i < 16 then do
    let out ← (if DashBefore i then out.put 45 else .ok out)
    let b ← readSlot uuid.bytes i
    let out ← out.put (← readSlot hex (b >>> 4 &&& 0x0F).toNat)
    let out ← out.put (← readSlot hex (b &&& 0x0F).toNat)
    formatLoop uuid (i + 1) out
  else .ok out
termination_by 16 - i

/-- The result code and what has been written to a buffer of the given size. -/
def zenitUuidFormat (uuid : Option ZenitUuid) (out : Option ℕ) : Exec (ZenitError × Text) :=
  match uuid, out with
  | some uuid, some size => do
    let out ← formatLoop uuid 0 ⟨size, []⟩
    let out ← out.put 0
    return (.ok, out.bytes)
  | _, _ => .ok (.null, [])

/-- `-1` is `none`. -/
def hexVal (c : UInt8) : Option UInt8 :=
  if 48 ≤ c ∧ c ≤ 57 then some (c - 48)
  else if 97 ≤ c ∧ c ≤ 102 then some (c - 97 + 10)
  else if 65 ≤ c ∧ c ≤ 70 then some (c - 65 + 10)
  else none

/-- A character that is no digit leaves the bytes in front of it behind. -/
def parseLoop (str : Text) (bi si : ℕ) (out : ZenitUuid) : Exec (ZenitError × ZenitUuid) :=
  if bi < 16 then do
    let si := if DashBefore bi then si + 1 else si
    let hi := hexVal (← readSlot str si)
    let lo := hexVal (← readSlot str (si + 1))
    match hi, lo with
    | some hi, some lo => parseLoop str (bi + 1) (si + 2) (out.setByte bi (hi <<< 4 ||| lo))
    | _, _ => return (.param, out)
  else return (.ok, out)
termination_by 16 - bi

/-- The result code and the object behind `out`. -/
def zenitUuidParse (str : Option Text) (out : Option ZenitUuid) :
    Exec (ZenitError × Option ZenitUuid) :=
  match str, out with
  | some str, some out => do
    if strlen str ≠ 36 then return (.param, some out)
    if (← readSlot str 8) ≠ 45 then return (.param, some out)
    if (← readSlot str 13) ≠ 45 then return (.param, some out)
    if (← readSlot str 18) ≠ 45 then return (.param, some out)
    if (← readSlot str 23) ≠ 45 then return (.param, some out)
    let (code, out) ← parseLoop str 0 0 out
    return (code, some out)
  | _, out => .ok (.null, out)

end LibZenit.Uuid
