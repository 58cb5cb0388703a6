import LibZenit.ArrayShifts
import LibZenit.JsonHeap
import LibZenit.JsonObject

/-!
# Documents built and edited through the public API of `json.c`

The constructors, the array and object operations and the readers, on the records of `JsonHeap` and
with every request, release and access they make. A document that a client passes is not `NULL`;
every other pointer may be.
-/
namespace LibZenit.JsonHeap
open Json BlockLedger ArrayShifts

/-- `zenit_json_type_t` -/
inductive ZenitJsonType where
  | null
  | bool
  | number
  | string
  | array
  | object
  deriving DecidableEq, Repr

def Payload.type {D : Type} : Payload D → ZenitJsonType
  | .null => .null
  | .bool _ => .bool
  | .num _ => .number
  | .str _ => .string
  | .arr _ => .array
  | .obj _ => .object

/-- What a call returns. A number that nobody stored is `0.0`. -/
inductive Reply (D : Type) where
  | pointer (p : Option ℕ)
  | code (e : ZenitError)
  | count (n : ℕ)
  | text (s : Option (List UInt8))
  | kind (t : ZenitJsonType)
  | flag (v : Bool)
  | number (d : Option D)
  | stuck
  deriving DecidableEq, Repr

section Edit

variable {D : Type} (a : Allocator)

/-! ## Value constructors -/

/-- A constructor whose record needs no block of its own. -/
def valueOf (payload : Payload D) (h : Heap D) : Option ℕ × Heap D :=
  match valueAlloc a h with
  | (none, h) => (none, h)
  | (some b, h) => (some b, h.setPayload b payload)

def zenitJsonValueNull (h : Heap D) : Option ℕ × Heap D := valueOf a .null h

def zenitJsonValueBool (v : ℤ) (h : Heap D) : Option ℕ × Heap D := valueOf a (.bool (v ≠ 0)) h

def zenitJsonValueNumber (d : D) (h : Heap D) : Option ℕ × Heap D := valueOf a (.num (some d)) h

def zenitJsonValueArray (h : Heap D) : Option ℕ × Heap D := valueOf a (.arr ⟨none, ⟨[], 0⟩⟩) h

def zenitJsonValueObject (h : Heap D) : Option ℕ × Heap D :=
  valueOf a (.obj ⟨none, none, ⟨[], 0⟩⟩) h

/-- `str_dup`, which copies up to the first zero byte. -/
def strDup (s : List UInt8) (h : Heap D) : Option CString × Heap D :=
  match h.alloc a with
  | (none, h) => (none, h)
  | (some b, h) => (some ⟨b, cstr s⟩, h.use b)

/-- When the copy fails, the record stays on the chain without its string. -/
def zenitJsonValueString (s : Option (List UInt8)) (h : Heap D) : Option ℕ × Heap D :=
  match valueAlloc a h with
  | (none, h) => (none, h)
  | (some b, h) =>
    match strDup a (s.getD []) (h.setPayload b (.str none)) with
    | (none, h) => (none, h)
    | (some s, h) => (some b, h.setPayload b (.str (some s)))

/-! ## Arrays -/

/-- `array_grow_or_error` -/
def arrayRoom (arr : ℕ) (r : ArrayRec) (h : Heap D) : Option ArrayRec × Heap D :=
  if r.items.items.length ≥ r.items.capacity then arrayGrow a arr r h else (some r, h)

def zenitJsonArrayAppend (arr item : Option ℕ) (h : Heap D) : Reply D × Heap D :=
  match arr, item with
  | some arr, some item =>
    let h := h.use arr
    match (h.nodes arr).payload with
    | .arr r =>
      match arrayAppend a arr item r h with
      | (.stuck, h) => (.stuck, h)
      | (.fail, h) => (.code .alloc, h)
      | (.ok (), h) => (.code .ok, h)
    | _ => (.code .param, h)
  | _, _ => (.code .null, h)

/-- The items behind `index` move down, then the count goes down. -/
def zenitJsonArrayRemove (arr : Option ℕ) (index : ℕ) (h : Heap D) : Reply D × Heap D :=
  match arr with
  | none => (.code .null, h)
  | some arr =>
    let h := h.use arr
    match (h.nodes arr).payload with
    | .arr r =>
      let items := r.items.items
      if index ≥ items.length then (.code .param, h)
      else
        let h := if index + 1 < items.length then h.usePtr r.block else h
        let items := (shiftDown (index + 1) (items.length - (index + 1)) items).take
          (items.length - 1)
        (.code .ok, h.setPayload arr (.arr { r with items := { r.items with items := items } }))
    | _ => (.code .param, h)

/-- Make room, move the items from `index` on up, store the item and count it. -/
def zenitJsonArrayInsert (arr : Option ℕ) (index : ℕ) (item : Option ℕ) (h : Heap D) :
    Reply D × Heap D :=
  match arr, item with
  | some arr, some item =>
    let h := h.use arr
    match (h.nodes arr).payload with
    | .arr r =>
      if index > r.items.items.length then (.code .param, h)
      else
        match arrayRoom a arr r h with
        | (none, h) => (.code .alloc, h)
        | (some r, h) =>
          let items := r.items.items
          if items.length < r.items.capacity then
            -- the slot behind the last item holds anything before the loop
            let items := (shiftUp index (items.length - index) (items ++ [item])).set index item
            (.code .ok, (h.usePtr r.block).setPayload arr
              (.arr { r with items := { r.items with items := items } }))
          else (.stuck, h)
    | _ => (.code .param, h)
  | _, _ => (.code .null, h)

def zenitJsonArrayCount (val : Option ℕ) (h : Heap D) : Reply D × Heap D :=
  match val with
  | none => (.count 0, h)
  | some val =>
    let h := h.use val
    match (h.nodes val).payload with
    | .arr r => (.count r.items.items.length, h)
    | _ => (.count 0, h)

def zenitJsonArrayGet (val : Option ℕ) (index : ℕ) (h : Heap D) : Reply D × Heap D :=
  match val with
  | none => (.pointer none, h)
  | some val =>
    let h := h.use val
    match (h.nodes val).payload with
    | .arr r =>
      if index ≥ r.items.items.length then (.pointer none, h)
      else (.pointer r.items.items[index]?, h.usePtr r.block)
    | _ => (.pointer none, h)

/-! ## Objects -/

/-- The loop over the stored keys: the index of the first one equal to `key`. -/
def scanKeys (keys : Option ℕ) (key : List UInt8) :
    List (CString × ℕ) → Heap D → Option ℕ × Heap D
  | [], h => (none, h)
  | (k, _) :: ms, h =>
    let h := (h.usePtr keys).use k.block
    if cstr k.text = cstr key then (some 0, h)
    else ((scanKeys keys key ms h).1.map (· + 1), (scanKeys keys key ms h).2)

/-- `obj->obj.values[i] = val` -/
def setValue (i val : ℕ) (ms : List (CString × ℕ)) : List (CString × ℕ) :=
  ms.modify i fun m => (m.1, val)

def zenitJsonObjectSet (obj : Option ℕ) (key : Option (List UInt8)) (val : Option ℕ)
    (h : Heap D) : Reply D × Heap D :=
  match obj, key, val with
  | some obj, some key, some val =>
    let h := h.use obj
    match (h.nodes obj).payload with
    | .obj r =>
      match scanKeys r.keys key r.members.items h with
      | (some i, h) =>
        (.code .ok, (h.usePtr r.values).setPayload obj
          (.obj { r with members := { r.members with items := setValue i val r.members.items } }))
      | (none, h) =>
        let res :=
          if r.members.items.length ≥ r.members.capacity then objectGrow a obj r h else (some r, h)
        match res with
        | (none, h) => (.code .alloc, h)
        | (some r, h) =>
          match strDup a key h with
          | (none, h) => (.code .alloc, h)
          | (some copy, h) =>
            if r.members.items.length < r.members.capacity then
              let items := r.members.items ++ [(copy, val)]
              (.code .ok, ((h.usePtr r.keys).usePtr r.values).setPayload obj
                (.obj { r with members := { r.members with items := items } }))
            else (.stuck, h)
    | _ => (.code .param, h)
  | _, _, _ => (.code .null, h)

/-- Release the stored key, move the members behind it down, then the count goes down. -/
def zenitJsonObjectRemove (obj : Option ℕ) (key : Option (List UInt8)) (h : Heap D) :
    Reply D × Heap D :=
  match obj, key with
  | some obj, some key =>
    let h := h.use obj
    match (h.nodes obj).payload with
    | .obj r =>
      match scanKeys r.keys key r.members.items h with
      | (none, h) => (.code .notFound, h)
      | (some i, h) =>
        let items := r.members.items
        let h := match items[i]? with
          | some (k, _) => (h.usePtr r.keys).free k.block
          | none => h
        let h := if i + 1 < items.length then (h.usePtr r.keys).usePtr r.values else h
        let items := (shiftDown (i + 1) (items.length - (i + 1)) items).take (items.length - 1)
        (.code .ok, h.setPayload obj (.obj { r with members := { r.members with items := items } }))
    | _ => (.code .param, h)
  | _, _ => (.code .null, h)

def zenitJsonObjectCount (val : Option ℕ) (h : Heap D) : Reply D × Heap D :=
  match val with
  | none => (.count 0, h)
  | some val =>
    let h := h.use val
    match (h.nodes val).payload with
    | .obj r => (.count r.members.items.length, h)
    | _ => (.count 0, h)

def zenitJsonObjectKey (val : Option ℕ) (index : ℕ) (h : Heap D) : Reply D × Heap D :=
  match val with
  | none => (.text none, h)
  | some val =>
    let h := h.use val
    match (h.nodes val).payload with
    | .obj r =>
      if index ≥ r.members.items.length then (.text none, h)
      else (.text (r.members.items[index]?.map fun m => m.1.text), h.usePtr r.keys)
    | _ => (.text none, h)

def zenitJsonObjectValueAt (val : Option ℕ) (index : ℕ) (h : Heap D) : Reply D × Heap D :=
  match val with
  | none => (.pointer none, h)
  | some val =>
    let h := h.use val
    match (h.nodes val).payload with
    | .obj r =>
      if index ≥ r.members.items.length then (.pointer none, h)
      else (.pointer (r.members.items[index]?.map Prod.snd), h.usePtr r.values)
    | _ => (.pointer none, h)

def zenitJsonObjectGet (val : Option ℕ) (key : Option (List UInt8)) (h : Heap D) :
    Reply D × Heap D :=
  match val with
  | none => (.pointer none, h)
  | some val =>
    let h := h.use val
    match (h.nodes val).payload, key with
    | .obj r, some key =>
      match scanKeys r.keys key r.members.items h with
      | (none, h) => (.pointer none, h)
      | (some i, h) => (.pointer (r.members.items[i]?.map Prod.snd), h.usePtr r.values)
    | _, _ => (.pointer none, h)

/-! ## The document and plain values -/

def zenitJsonSetRoot (val : Option ℕ) (h : Heap D) : Reply D × Heap D :=
  (.code .ok, { h.use h.doc with root := val })

def zenitJsonRoot (h : Heap D) : Reply D × Heap D := (.pointer h.root, h.use h.doc)

def zenitJsonValueGetString (val : Option ℕ) (h : Heap D) : Reply D × Heap D :=
  match val with
  | none => (.text none, h)
  | some val =>
    let h := h.use val
    match (h.nodes val).payload with
    | .str s => (.text (s.map CString.text), h)
    | _ => (.text none, h)

def zenitJsonValueType (val : Option ℕ) (h : Heap D) : Reply D × Heap D :=
  match val with
  | none => (.kind .null, h)
  | some val => (.kind (h.nodes val).payload.type, h.use val)

def zenitJsonValueIsNull (val : Option ℕ) (h : Heap D) : Reply D × Heap D :=
  match val with
  | none => (.flag true, h)
  | some val => (.flag ((h.nodes val).payload.type = .null), h.use val)

def zenitJsonValueGetBool (val : Option ℕ) (h : Heap D) : Reply D × Heap D :=
  match val with
  | none => (.flag false, h)
  | some val =>
    let h := h.use val
    match (h.nodes val).payload with
    | .bool v => (.flag v, h)
    | _ => (.flag false, h)

def zenitJsonValueGetNumber (val : Option ℕ) (h : Heap D) : Reply D × Heap D :=
  match val with
  | none => (.number none, h)
  | some val =>
    let h := h.use val
    match (h.nodes val).payload with
    | .num d => (.number d, h)
    | _ => (.number none, h)

/-! ## Runs -/

/-- The values that a client can ask for. -/
inductive Made (D : Type) where
  | null
  | bool (v : ℤ)
  | number (d : D)
  | string (s : Option (List UInt8))
  | array
  | object

inductive DomOp (D : Type) where
  | make (m : Made D)
  | arrayAppend (arr item : Option ℕ)
  | arrayRemove (arr : Option ℕ) (index : ℕ)
  | arrayInsert (arr : Option ℕ) (index : ℕ) (item : Option ℕ)
  | objectSet (obj : Option ℕ) (key : Option (List UInt8)) (val : Option ℕ)
  | objectRemove (obj : Option ℕ) (key : Option (List UInt8))
  | setRoot (val : Option ℕ)
  | root
  | arrayCount (val : Option ℕ)
  | arrayGet (val : Option ℕ) (index : ℕ)
  | objectCount (val : Option ℕ)
  | objectKey (val : Option ℕ) (index : ℕ)
  | objectValueAt (val : Option ℕ) (index : ℕ)
  | objectGet (val : Option ℕ) (key : Option (List UInt8))
  | getString (val : Option ℕ)
  | valueType (val : Option ℕ)
  | isNull (val : Option ℕ)
  | getBool (val : Option ℕ)
  | getNumber (val : Option ℕ)

def make (h : Heap D) : Made D → Option ℕ × Heap D
  | .null => zenitJsonValueNull a h
  | .bool v => zenitJsonValueBool a v h
  | .number d => zenitJsonValueNumber a d h
  | .string s => zenitJsonValueString a s h
  | .array => zenitJsonValueArray a h
  | .object => zenitJsonValueObject a h

def call (h : Heap D) : DomOp D → Reply D × Heap D
  | .make m => (.pointer (make a h m).1, (make a h m).2)
  | .arrayAppend arr item => zenitJsonArrayAppend a arr item h
  | .arrayRemove arr index => zenitJsonArrayRemove arr index h
  | .arrayInsert arr index item => zenitJsonArrayInsert a arr index item h
  | .objectSet obj key val => zenitJsonObjectSet a obj key val h
  | .objectRemove obj key => zenitJsonObjectRemove obj key h
  | .setRoot val => zenitJsonSetRoot val h
  | .root => zenitJsonRoot h
  | .arrayCount val => zenitJsonArrayCount val h
  | .arrayGet val index => zenitJsonArrayGet val index h
  | .objectCount val => zenitJsonObjectCount val h
  | .objectKey val index => zenitJsonObjectKey val index h
  | .objectValueAt val index => zenitJsonObjectValueAt val index h
  | .objectGet val key => zenitJsonObjectGet val key h
  | .getString val => zenitJsonValueGetString val h
  | .valueType val => zenitJsonValueType val h
  | .isNull val => zenitJsonValueIsNull val h
  | .getBool val => zenitJsonValueGetBool val h
  | .getNumber val => zenitJsonValueGetNumber val h

/-- The value that a call looks into. What it stores elsewhere it does not look into. -/
def DomOp.target : DomOp D → Option ℕ
  | .make _ => none
  | .arrayAppend arr _ => arr
  | .arrayRemove arr _ => arr
  | .arrayInsert arr _ _ => arr
  | .objectSet obj _ _ => obj
  | .objectRemove obj _ => obj
  | .setRoot _ => none
  | .root => none
  | .arrayCount val => val
  | .arrayGet val _ => val
  | .objectCount val => val
  | .objectKey val _ => val
  | .objectValueAt val _ => val
  | .objectGet val _ => val
  | .getString val => val
  | .valueType val => val
  | .isNull val => val
  | .getBool val => val
  | .getNumber val => val

/-- A run of calls and what they return. -/
def calls (h : Heap D) : List (DomOp D) → List (Reply D) × Heap D
  | [] => ([], h)
  | op :: ops => ((call a h op).1 :: (calls (call a h op).2 ops).1, (calls (call a h op).2 ops).2)

end Edit

end LibZenit.JsonHeap
