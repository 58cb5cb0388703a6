import LibZenit.JsonTokens

/-!
# The recursive-descent parser of `json.c`

The functions below build the value tree under the assumption that allocation succeeds. They take
the two token readers as parameters. A fuel bounds the recursion; `stuck` stands for a recursion
that has used it up, and for a store past the end of a backing array. A failed function returns
`NULL` with the error flag set.
-/
namespace LibZenit.Json

inductive Value (D : Type) where
  | null
  | bool (b : Bool)
  | num (d : D)
  | str (s : List UInt8)
  | arr (items : List (Value D))
  | obj (members : List (List UInt8 × Value D))

inductive Outcome (α : Type) where
  | stuck
  | fail
  | ok (a : α)
  deriving DecidableEq

/-! ## Backing arrays -/

/-- A backing array: the slots in use and the number of slots. -/
structure Growable (α : Type) where
  items : List α
  capacity : ℕ

/-- `array_grow` and `object_grow` compute the new capacity from the old one alone. -/
def growCapacity (old : ℕ) : ℕ := if old = 0 then 8 else old + old / 2

/-- Grow if full, then store behind the last slot in use. -/
def Growable.push {α : Type} (g : Growable α) (a : α) : Option (Growable α) :=
  let capacity := if g.items.length ≥ g.capacity then growCapacity g.capacity else g.capacity
  if g.items.length < capacity then some ⟨g.items ++ [a], capacity⟩ else none

/-! ## Parsing -/

inductive Sep where
  | more
  | done
  deriving DecidableEq

section Parse

variable (mem : List UInt8) (len : ℕ)

/-- `parse_array_separator` and `parse_object_separator` differ in the closing byte. -/
def parseSeparator (close : UInt8) (pos : ℕ) : Option (Sep × ℕ) :=
  let pos := skipWs mem len pos
  match peek mem len pos with
  | none => none
  | some c =>
    if c = chComma then
      let pos := skipWs mem len (pos + 1)
      match peek mem len pos with
      | none => none
      | some d => if d = close then none else some (.more, pos)
    else if c = close then some (.done, pos + 1)
    else none

def parseArraySeparator (pos : ℕ) : Option (Sep × ℕ) := parseSeparator mem len chRBracket pos

def parseObjectSeparator (pos : ℕ) : Option (Sep × ℕ) := parseSeparator mem len chRBrace pos

/-- The bytes of a literal stand at `pos`, before the end of the input. -/
def matchLiteral (word : List UInt8) (pos : ℕ) : Bool :=
  pos + word.length ≤ len && (mem.drop pos).take word.length == word

def wordNull : List UInt8 := [110, 117, 108, 108]
def wordTrue : List UInt8 := [116, 114, 117, 101]
def wordFalse : List UInt8 := [102, 97, 108, 115, 101]

variable {D : Type} (str : ℕ → Option (List UInt8 × ℕ)) (num : ℕ → Option (D × ℕ))

/-- `parse_literal_null`, `parse_literal_true` and `parse_literal_false`. -/
def parseLiteral (word : List UInt8) (value : Value D) (pos : ℕ) : Outcome (Value D × ℕ) :=
  if matchLiteral mem len word pos then .ok (value, pos + word.length) else .fail

mutual

def parseValue : ℕ → ℕ → Outcome (Value D × ℕ)
  | 0, _ => .stuck
  | fuel + 1, pos =>
    let pos := skipWs mem len pos
    match peek mem len pos with
    | none => .fail
    | some c =>
      if c = chLowerN then parseLiteral mem len wordNull .null pos
      else if c = chLowerT then parseLiteral mem len wordTrue (.bool true) pos
      else if c = chLowerF then parseLiteral mem len wordFalse (.bool false) pos
      else if c = chLBracket then parseArray fuel pos
      else if c = chLBrace then parseObject fuel pos
      else if c = chQuote then
        match str pos with
        | none => .fail
        | some (s, pos) => .ok (.str s, pos)
      else if c = chMinus ∨ isDigit c then
        match num pos with
        | none => .fail
        | some (d, pos) => .ok (.num d, pos)
      else .fail
termination_by structural fuel => fuel

def parseArray : ℕ → ℕ → Outcome (Value D × ℕ)
  | 0, _ => .stuck
  | fuel + 1, pos =>
    if peek mem len pos ≠ some chLBracket then .fail
    else
      let pos := skipWs mem len (pos + 1)
      if peek mem len pos = some chRBracket then .ok (.arr [], pos + 1)
      else parseElements fuel pos ⟨[], 0⟩
termination_by structural fuel => fuel

/-- The loop of `parse_array`. -/
def parseElements : ℕ → ℕ → Growable (Value D) → Outcome (Value D × ℕ)
  | 0, _, _ => .stuck
  | fuel + 1, pos, arr =>
    match parseValue fuel pos with
    | .stuck => .stuck
    | .fail => .fail
    | .ok (elem, pos) =>
      match arr.push elem with
      | none => .stuck
      | some arr =>
        match parseArraySeparator mem len pos with
        | none => .fail
        | some (.more, pos) => parseElements fuel pos arr
        | some (.done, pos) => .ok (.arr arr.items, pos)
termination_by structural fuel => fuel

def parseObject : ℕ → ℕ → Outcome (Value D × ℕ)
  | 0, _ => .stuck
  | fuel + 1, pos =>
    if peek mem len pos ≠ some chLBrace then .fail
    else
      let pos := skipWs mem len (pos + 1)
      if peek mem len pos = some chRBrace then .ok (.obj [], pos + 1)
      else parseMembers fuel pos ⟨[], 0⟩
termination_by structural fuel => fuel

/-- The loop of `parse_object`. -/
def parseMembers : ℕ → ℕ → Growable (List UInt8 × Value D) → Outcome (Value D × ℕ)
  | 0, _, _ => .stuck
  | fuel + 1, pos, obj =>
    let pos := skipWs mem len pos
    if peek mem len pos ≠ some chQuote then .fail
    else
      match str pos with
      | none => .fail
      | some (key, pos) =>
        let pos := skipWs mem len pos
        if peek mem len pos ≠ some chColon then .fail
        else
          match parseValue fuel (pos + 1) with
          | .stuck => .stuck
          | .fail => .fail
          | .ok (val, pos) =>
            match obj.push (key, val) with
            | none => .stuck
            | some obj =>
              match parseObjectSeparator mem len pos with
              | none => .fail
              | some (.more, pos) => parseMembers fuel pos obj
              | some (.done, pos) => .ok (.obj obj.items, pos)
termination_by structural fuel => fuel

end

/-- The root value, if the whole input is one value with white space around it. -/
def jsonParseInto (fuel : ℕ) : Outcome (Value D) :=
  match parseValue mem len str num fuel 0 with
  | .stuck => .stuck
  | .fail => .fail
  | .ok (val, pos) => if skipWs mem len pos ≠ len then .fail else .ok val

end Parse

/-- `zenit_json_parse_with_length` on the first `len` bytes of `mem`. -/
def zenitJsonParseWithLength {D : Type} (toDouble : List UInt8 → D) (mem : List UInt8) (len : ℕ)
    (fuel : ℕ) : Outcome (Value D) :=
  jsonParseInto mem len (parseStringRaw mem len) (parseNumber toDouble mem) fuel

end LibZenit.Json
