import LibZenit.BlockLedger
import LibZenit.JsonParser

/-!
# The parser of `json.c` with its allocations

The same parser as in `JsonParser`, with every request to the allocator, every release and every
access through a pointer. A value record is a node, numbered by its block; the document chains its
nodes through `next`. Strings and arrays are blocks of their own; what they hold is kept beside the
pointer. A store past the end of an array, a wrong union member and exhausted fuel are `stuck`.
-/
namespace LibZenit.JsonHeap
open Json BlockLedger

/-- The failures of the allocator, and whether it has a `realloc_fn`. -/
structure Allocator where
  grants : ℕ → Bool
  hasRealloc : Bool

/-- A pointer to a string with the bytes behind it. -/
structure CString where
  block : ℕ
  text : List UInt8

structure ArrayRec where
  block : Option ℕ
  items : Growable ℕ

structure ObjectRec where
  keys : Option ℕ
  values : Option ℕ
  members : Growable (CString × ℕ)

/-- The type tag and the union of a value record. A number read with an error has no value. -/
inductive Payload (D : Type) where
  | null
  | bool (b : Bool)
  | num (d : Option D)
  | str (s : Option CString)
  | arr (r : ArrayRec)
  | obj (r : ObjectRec)

structure Node (D : Type) where
  payload : Payload D
  next : Option ℕ

/-- The allocator, the value records and the document with its block. -/
structure Heap (D : Type) where
  ledger : Ledger
  nodes : ℕ → Node D
  doc : ℕ
  head : Option ℕ
  tail : Option ℕ
  root : Option ℕ

section Access

variable {D : Type}

def Heap.use (b : ℕ) (h : Heap D) : Heap D := { h with ledger := h.ledger.use b }

/-- An access through a pointer that may be `NULL`. -/
def Heap.usePtr (p : Option ℕ) (h : Heap D) : Heap D :=
  match p with
  | some b => h.use b
  | none => { h with ledger := { h.ledger with fault := true } }

def Heap.free (b : ℕ) (h : Heap D) : Heap D := { h with ledger := h.ledger.free b }

/-- `free_fn` behind a test for `NULL`. -/
def Heap.freePtr (p : Option ℕ) (h : Heap D) : Heap D :=
  match p with
  | some b => h.free b
  | none => h

def Heap.setPayload (b : ℕ) (payload : Payload D) (h : Heap D) : Heap D :=
  { h.use b with nodes := Function.update h.nodes b { h.nodes b with payload := payload } }

def Heap.setNext (b : ℕ) (next : Option ℕ) (h : Heap D) : Heap D :=
  { h.use b with nodes := Function.update h.nodes b { h.nodes b with next := next } }

/-- The `memset` of a new record. -/
def Heap.clear (b : ℕ) (h : Heap D) : Heap D :=
  { h.use b with nodes := Function.update h.nodes b ⟨.null, none⟩ }

/-- Chain a record behind the tail of the document. -/
def Heap.link (b : ℕ) (h : Heap D) : Heap D :=
  match h.tail with
  | some t => { h.setNext t (some b) with tail := some b }
  | none => { h with head := some b, tail := some b }

end Access

def zenitAllocatorRealloc (a : Allocator) (ptr : ℕ) (l : Ledger) : Option ℕ × Ledger :=
  if a.hasRealloc then l.realloc a.grants ptr
  else
    match l.alloc a.grants with
    | (none, l) => (none, l)
    | (some new, l) => (some new, ((l.use new).use ptr).free ptr)

section Parse

variable {D : Type} (a : Allocator) (mem : List UInt8) (len : ℕ) (num : ℕ → Option (D × ℕ))

def Heap.alloc (h : Heap D) : Option ℕ × Heap D :=
  ((h.ledger.alloc a.grants).1, { h with ledger := (h.ledger.alloc a.grants).2 })

def Heap.realloc (ptr : ℕ) (h : Heap D) : Option ℕ × Heap D :=
  ((zenitAllocatorRealloc a ptr h.ledger).1,
    { h with ledger := (zenitAllocatorRealloc a ptr h.ledger).2 })

/-- A cleared record at the end of the chain of the document. -/
def valueAlloc (h : Heap D) : Option ℕ × Heap D :=
  match (h.use h.doc).alloc a with
  | (none, h) => (none, h)
  | (some b, h) => (some b, (h.clear b).link b)

/-! ## Backing arrays -/

def arrayGrow (arr : ℕ) (r : ArrayRec) (h : Heap D) : Option ArrayRec × Heap D :=
  let res :=
    match r.block with
    | none => h.alloc a
    | some b => h.realloc a b
  match res with
  | (none, h) => (none, h)
  | (some b, h) =>
    let r := ⟨some b, { r.items with capacity := growCapacity r.items.capacity }⟩
    (some r, h.setPayload arr (.arr r))

/-- Copy the old array, if there is one, into the new one and release it. -/
def moveArray (old : Option ℕ) (new : ℕ) (h : Heap D) : Heap D :=
  match old with
  | some b => ((h.use new).use b).free b
  | none => h

def objectGrow (obj : ℕ) (r : ObjectRec) (h : Heap D) : Option ObjectRec × Heap D :=
  match h.alloc a with
  | (none, h) => (none, h)
  | (some newKeys, h) =>
    match (h.use newKeys).alloc a with
    | (none, h) => (none, h.free newKeys)
    | (some newValues, h) =>
      let h := moveArray r.keys newKeys (h.use newValues)
      let h := moveArray r.values newValues h
      let r := ⟨some newKeys, some newValues,
        { r.members with capacity := growCapacity r.members.capacity }⟩
      (some r, h.setPayload obj (.obj r))

/-- Grow if full, then `arr->arr.items[arr->arr.count++] = elem`. -/
def arrayAppend (arr elem : ℕ) (r : ArrayRec) (h : Heap D) : Outcome Unit × Heap D :=
  let res := if r.items.items.length ≥ r.items.capacity then arrayGrow a arr r h else (some r, h)
  match res with
  | (none, h) => (.fail, h)
  | (some r, h) =>
    if r.items.items.length < r.items.capacity then
      let r := { r with items := { r.items with items := r.items.items ++ [elem] } }
      (.ok (), (h.usePtr r.block).setPayload arr (.arr r))
    else (.stuck, h)

/-- Grow if full, then store the key and the value and count them. -/
def objectAppend (obj : ℕ) (key : CString) (val : ℕ) (r : ObjectRec) (h : Heap D) :
    Outcome Unit × Heap D :=
  let res :=
    if r.members.items.length ≥ r.members.capacity then objectGrow a obj r h else (some r, h)
  match res with
  | (none, h) => (.fail, h)
  | (some r, h) =>
    if r.members.items.length < r.members.capacity then
      let r := { r with members := { r.members with items := r.members.items ++ [(key, val)] } }
      (.ok (), ((h.usePtr r.keys).usePtr r.values).setPayload obj (.obj r))
    else (.stuck, h)

/-! ## Strings -/

/-- The buffer and its capacity, or nothing after a failure; then the buffer is released. -/
def bufGrow (buf cap len needed : ℕ) (h : Heap D) : Option (ℕ × ℕ) × Heap D :=
  if len + needed ≤ cap then (some (buf, cap), h)
  else
    match h.realloc a buf with
    | (none, h) => (none, h.free buf)
    | (some new, h) => (some (new, cap * 2), h)

/-- The loop of `parse_string_raw` with the bytes in the buffer so far. -/
def parseStringFrom : ℕ → ℕ → ℕ → ℕ → List UInt8 → Heap D → Outcome (CString × ℕ) × Heap D
  | 0, _, _, _, _, h => (.stuck, h)
  | fuel + 1, pos, buf, cap, text, h =>
    match peek mem len pos with
    | none => (.fail, h.free buf)
    | some c =>
      if c = chQuote then (.ok (⟨buf, text⟩, pos + 1), h.use buf)
      else if c ≠ chBackslash then
        match bufGrow a buf cap text.length 1 h with
        | (none, h) => (.fail, h)
        | (some (buf, cap), h) => parseStringFrom fuel (pos + 1) buf cap (text ++ [c]) (h.use buf)
      else
        match parseEscapeSeq mem len (pos + 1) with
        | none => (.fail, h.free buf)
        | some (cp, pos) =>
          match bufGrow a buf cap text.length (encodeUtf8 cp).length h with
          | (none, h) => (.fail, h)
          | (some (buf, cap), h) =>
            parseStringFrom fuel pos buf cap (text ++ encodeUtf8 cp) (h.use buf)

def parseStringRaw (pos : ℕ) (h : Heap D) : Outcome (CString × ℕ) × Heap D :=
  match (h.use h.doc).alloc a with
  | (none, h) => (.fail, h)
  | (some buf, h) => parseStringFrom a mem len (len - pos) (pos + 1) buf 64 [] h

/-! ## Values -/

def parseLiteral (word : List UInt8) (payload : Payload D) (pos : ℕ) (h : Heap D) :
    Outcome (ℕ × ℕ) × Heap D :=
  if matchLiteral mem len word pos then
    match valueAlloc a h with
    | (none, h) => (.fail, h)
    | (some b, h) => (.ok (b, pos + word.length), h.setPayload b payload)
  else (.fail, h)

/-- `parse_value` from an opening quote on. -/
def parseStringValue (pos : ℕ) (h : Heap D) : Outcome (ℕ × ℕ) × Heap D :=
  match parseStringRaw a mem len pos h with
  | (.stuck, h) => (.stuck, h)
  | (.fail, h) => (.fail, h)
  | (.ok (s, pos), h) =>
    match valueAlloc a h with
    | (none, h) => (.fail, h.free s.block)
    | (some b, h) => (.ok (b, pos), h.setPayload b (.str (some s)))

/-- `parse_value` from a digit or a minus on. -/
def parseNumberValue (pos : ℕ) (h : Heap D) : Outcome (ℕ × ℕ) × Heap D :=
  match valueAlloc a h with
  | (none, h) => (.fail, h)
  | (some b, h) =>
    match num pos with
    | none => (.fail, h.setPayload b (.num none))
    | some (d, pos) => (.ok (b, pos), h.setPayload b (.num (some d)))

mutual

def parseValue : ℕ → ℕ → Heap D → Outcome (ℕ × ℕ) × Heap D
  | 0, _, h => (.stuck, h)
  | fuel + 1, pos, h =>
    let pos := skipWs mem len pos
    match peek mem len pos with
    | none => (.fail, h)
    | some c =>
      if c = chLowerN then parseLiteral a mem len wordNull .null pos h
      else if c = chLowerT then parseLiteral a mem len wordTrue (.bool true) pos h
      else if c = chLowerF then parseLiteral a mem len wordFalse (.bool false) pos h
      else if c = chLBracket then parseArray fuel pos h
      else if c = chLBrace then parseObject fuel pos h
      else if c = chQuote then parseStringValue a mem len pos h
      else if c = chMinus ∨ isDigit c then parseNumberValue a num pos h
      else (.fail, h)
termination_by structural fuel => fuel

def parseArray : ℕ → ℕ → Heap D → Outcome (ℕ × ℕ) × Heap D
  | 0, _, h => (.stuck, h)
  | fuel + 1, pos, h =>
    if peek mem len pos ≠ some chLBracket then (.fail, h)
    else
      match valueAlloc a h with
      | (none, h) => (.fail, h)
      | (some arr, h) =>
        let h := h.setPayload arr (.arr ⟨none, ⟨[], 0⟩⟩)
        let pos := skipWs mem len (pos + 1)
        if peek mem len pos = some chRBracket then (.ok (arr, pos + 1), h)
        else parseElements fuel pos arr (h.use arr)
termination_by structural fuel => fuel

/-- The loop of `parse_array` for the record `arr`. -/
def parseElements : ℕ → ℕ → ℕ → Heap D → Outcome (ℕ × ℕ) × Heap D
  | 0, _, _, h => (.stuck, h)
  | fuel + 1, pos, arr, h =>
    match parseValue fuel pos h with
    | (.stuck, h) => (.stuck, h)
    | (.fail, h) => (.fail, h)
    | (.ok (elem, pos), h) =>
      match (h.nodes arr).payload with
      | .arr r =>
        match arrayAppend a arr elem r (h.use arr) with
        | (.stuck, h) => (.stuck, h)
        | (.fail, h) => (.fail, h)
        | (.ok (), h) =>
          match parseArraySeparator mem len pos with
          | none => (.fail, h)
          | some (.more, pos) => parseElements fuel pos arr h
          | some (.done, pos) => (.ok (arr, pos), h)
      | _ => (.stuck, h)
termination_by structural fuel => fuel

def parseObject : ℕ → ℕ → Heap D → Outcome (ℕ × ℕ) × Heap D
  | 0, _, h => (.stuck, h)
  | fuel + 1, pos, h =>
    if peek mem len pos ≠ some chLBrace then (.fail, h)
    else
      match valueAlloc a h with
      | (none, h) => (.fail, h)
      | (some obj, h) =>
        let h := h.setPayload obj (.obj ⟨none, none, ⟨[], 0⟩⟩)
        let pos := skipWs mem len (pos + 1)
        if peek mem len pos = some chRBrace then (.ok (obj, pos + 1), h)
        else parseMembers fuel pos obj (h.use obj)
termination_by structural fuel => fuel

/-- The loop of `parse_object` for the record `obj`. The key is released on every failure between
its parsing and its storing. -/
def parseMembers : ℕ → ℕ → ℕ → Heap D → Outcome (ℕ × ℕ) × Heap D
  | 0, _, _, h => (.stuck, h)
  | fuel + 1, pos, obj, h =>
    let pos := skipWs mem len pos
    if peek mem len pos ≠ some chQuote then (.fail, h)
    else
      match parseStringRaw a mem len pos h with
      | (.stuck, h) => (.stuck, h)
      | (.fail, h) => (.fail, h)
      | (.ok (key, pos), h) =>
        let pos := skipWs mem len pos
        if peek mem len pos ≠ some chColon then (.fail, h.free key.block)
        else
          match parseValue fuel (pos + 1) h with
          | (.stuck, h) => (.stuck, h)
          | (.fail, h) => (.fail, h.free key.block)
          | (.ok (val, pos), h) =>
            match (h.nodes obj).payload with
            | .obj r =>
              match objectAppend a obj key val r (h.use obj) with
              | (.stuck, h) => (.stuck, h)
              | (.fail, h) => (.fail, h.free key.block)
              | (.ok (), h) =>
                match parseObjectSeparator mem len pos with
                | none => (.fail, h)
                | some (.more, pos) => parseMembers fuel pos obj h
                | some (.done, pos) => (.ok (obj, pos), h)
            | _ => (.stuck, h)
termination_by structural fuel => fuel

end

end Parse

/-! ## Documents -/

section Documents

variable {D : Type}

/-- The keys of an object, read from the array in the block `keys`. -/
def freeKeys (keys : ℕ) : List (CString × ℕ) → Heap D → Heap D
  | [], h => h
  | (key, _) :: ms, h => freeKeys keys ms ((h.use keys).free key.block)

/-- The part of `value_free_object` under the test of `keys`. -/
def freeKeyArray (r : ObjectRec) (h : Heap D) : Heap D :=
  match r.keys with
  | some keys => (freeKeys keys r.members.items h).free keys
  | none => h

def valueFreeString (s : Option CString) (h : Heap D) : Heap D := h.freePtr (s.map CString.block)

def valueFreeArray (r : ArrayRec) (h : Heap D) : Heap D := h.freePtr r.block

def valueFreeObject (r : ObjectRec) (h : Heap D) : Heap D := (freeKeyArray r h).freePtr r.values

/-- The dispatch of `value_free_payload` on the type. -/
def freeBlocks : Payload D → Heap D → Heap D
  | .str s, h => valueFreeString s h
  | .arr r, h => valueFreeArray r h
  | .obj r, h => valueFreeObject r h
  | _, h => h

def valueFreePayload (b : ℕ) (h : Heap D) : Heap D :=
  let h := h.use b
  (freeBlocks (h.nodes b).payload h).setPayload b .null

/-- The loop of `value_destroy_chain`; nothing when the fuel does not reach the end. -/
def valueDestroyChain : ℕ → Option ℕ → Heap D → Option (Heap D)
  | _, none, h => some h
  | 0, some _, _ => none
  | fuel + 1, some b, h =>
    let next := (h.nodes b).next
    valueDestroyChain fuel next ((valueFreePayload b (h.use b)).free b)

/-- Every round of the loop releases a live block, which bounds the number of rounds. -/
def zenitJsonDestroy (h : Heap D) : Option Ledger :=
  (valueDestroyChain h.ledger.live.card h.head (h.use h.doc)).map fun h =>
    ((h.use h.doc).free h.doc).ledger

variable (a : Allocator) (mem : List UInt8) (len : ℕ) (num : ℕ → Option (D × ℕ))

def jsonParseInto (fuel : ℕ) (h : Heap D) : Outcome Unit × Heap D :=
  match parseValue a mem len num fuel 0 h with
  | (.stuck, h) => (.stuck, h)
  | (.fail, h) => (.fail, h)
  | (.ok (val, pos), h) =>
    if skipWs mem len pos ≠ len then (.fail, h) else (.ok (), { h.use h.doc with root := some val })

def zenitJsonCreateWithAllocator (l : Ledger) : Option (Heap D) × Ledger :=
  match l.alloc a.grants with
  | (none, l) => (none, l)
  | (some doc, l) => (some ⟨l.use doc, fun _ => ⟨.null, none⟩, doc, none, none, none⟩, l.use doc)

/-- The document, or `fail` for `NULL`, with the allocator afterwards. -/
def zenitJsonParseWithLengthAndAllocator (fuel : ℕ) (l : Ledger) : Outcome (Heap D) × Ledger :=
  match zenitJsonCreateWithAllocator a l with
  | (none, l) => (.fail, l)
  | (some h, _) =>
    match jsonParseInto a mem len num fuel h with
    | (.stuck, h) => (.stuck, h.ledger)
    | (.fail, h) =>
      match zenitJsonDestroy h with
      | some l => (.fail, l)
      | none => (.stuck, h.ledger)
    | (.ok (), h) => (.ok h, h.ledger)

end Documents

end LibZenit.JsonHeap
