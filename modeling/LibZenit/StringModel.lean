import LibZenit.CString
import LibZenit.Refinement
import LibZenit.VectorModel

/-!
# The string builder of `string.c`

A string is a vector of bytes, the last of which is the terminator. A pointer to data is the memory
from there on. A call keeps the results it does not look at beside the one it returns.
-/
namespace LibZenit.Strings
open Blocks CString Vectors

structure ZString where
  vec : Vector UInt8

/-- Whether there is a `realloc_fn`, and the rounds that are left to the growth loop. -/
structure Setting where
  hasRealloc : Bool
  fuel : ℕ

/-- What the allocator answers during a call, to the reservation and to the pushes in turn. -/
structure Memory where
  block : Bool
  push : ℕ → Bool

structure Outcome where
  result : ZenitError
  ignored : List ZenitError

/-- A call of the vector. -/
def Setting.call (env : Setting) (vec : Vector UInt8) (op : Op UInt8) :
    Exec (Vector UInt8 × ZenitError) :=
  (stepBy env.hasRealloc env.fuel vec op).map fun p => (p.1, p.2.code)

def pushNull (env : Setting) (ok : Bool) (vec : Vector UInt8) : Exec (Vector UInt8 × ZenitError) :=
  env.call vec (.push ok 0)

/-! ## Appending -/

/-- The pushes of the first `len` bytes, with their results. -/
def pushBytes (env : Setting) (mem : Memory) (bytes : Text) (vec : Vector UInt8) (len : ℕ) :
    Exec (Vector UInt8 × List ZenitError) :=
  (List.range len).foldlM
    (fun p i => (readSlot bytes i).bind fun byte =>
      (env.call p.1 (.push (mem.push i) byte)).map fun q => (q.1, p.2 ++ [q.2])) (vec, [])

/-- Room for the old bytes with their terminator and for the new ones is reserved first. -/
def appendBytes (env : Setting) (mem : Memory) (s : ZString) (bytes : Text) (len : ℕ) :
    Exec (ZString × Outcome) :=
  let needed := wrap (s.vec.count + len)
  (env.call s.vec (.reserve (granted mem.block needed) needed)).bind fun reserved =>
    if reserved.2 ≠ .ok then .ok (⟨reserved.1⟩, ⟨reserved.2, []⟩)
    else (env.call reserved.1 .pop).bind fun popped =>
      (pushBytes env mem bytes popped.1 len).bind fun pushed =>
        (pushNull env (mem.push len) pushed.1).map fun ended =>
          (⟨ended.1⟩, ⟨.ok, popped.2 :: pushed.2 ++ [ended.2]⟩)

def zenitStringAppend (env : Setting) (mem : Memory) (s : ZString) (data : Option Text) (len : ℕ) :
    Exec (ZString × Outcome) :=
  if len > 0 ∧ data.isNone then .ok (s, ⟨.null, []⟩)
  else if len = 0 then .ok (s, ⟨.ok, []⟩)
  else appendBytes env mem s (data.getD []) len

def zenitStringAppendCstr (env : Setting) (mem : Memory) (s : ZString) :
    Option Text → Exec (ZString × Outcome)
  | none => .ok (s, ⟨.ok, []⟩)
  | some cstr => (readSlot cstr 0).bind fun first =>
    if first = 0 then .ok (s, ⟨.ok, []⟩)
    else zenitStringAppend env mem s (some cstr) (strlen cstr)

/-! ## Creation -/

/-- The outcomes are those of the allocations of both handles and of the vector's block. -/
def stringCreateEmpty (env : Setting) (handle vecHandle block : Bool) : Exec (Option ZString) :=
  if !handle then .ok none
  else (zenitVectorCreate vecHandle 1).elim (.ok none) fun vec =>
    (pushNull env block vec).map fun p => if p.2 ≠ .ok then none else some ⟨p.1⟩

def zenitStringCreateFromWithAllocator (env : Setting) (handle vecHandle block : Bool)
    (mem : Memory) (cstr : Option Text) : Exec (Option ZString) :=
  (stringCreateEmpty env handle vecHandle block).bind fun made =>
    made.elim (.ok none) fun s =>
      cstr.elim (.ok (some s)) fun text =>
        (readSlot text 0).bind fun first =>
          if first = 0 then .ok (some s)
          else (zenitStringAppend env mem s (some text) (strlen text)).map fun p =>
            if p.2.result ≠ .ok then none else some p.1

/-! ## The other calls -/

def zenitStringLength (s : ZString) : ℕ := subSize s.vec.count 1

def zenitStringClear (env : Setting) (ok : Bool) (s : ZString) : Exec (ZString × Outcome) :=
  (pushNull env ok (zenitVectorClear s.vec)).map fun p => (⟨p.1⟩, ⟨.ok, [p.2]⟩)

def zenitStringReserve (env : Setting) (ok : Bool) (s : ZString) (capacity : ℕ) :
    Exec (ZString × Outcome) :=
  (env.call s.vec (.reserve (granted ok capacity) capacity)).map fun p => (⟨p.1⟩, ⟨p.2, []⟩)

def zenitStringShrinkToFit (env : Setting) (ok : Bool) (s : ZString) : Exec (ZString × Outcome) :=
  (env.call s.vec (.shrinkToFit ok)).map fun p => (⟨p.1⟩, ⟨p.2, []⟩)

/-! ## Runs -/

inductive Call where
  | append (mem : Memory) (data : Option Text) (len : ℕ)
  | appendCstr (mem : Memory) (cstr : Option Text)
  | clear (ok : Bool)
  | reserve (ok : Bool) (capacity : ℕ)
  | shrinkToFit (ok : Bool)

def step (env : Setting) (s : ZString) : Call → Exec (ZString × Outcome)
  | .append mem data len => zenitStringAppend env mem s data len
  | .appendCstr mem cstr => zenitStringAppendCstr env mem s cstr
  | .clear ok => zenitStringClear env ok s
  | .reserve ok capacity => zenitStringReserve env ok s capacity
  | .shrinkToFit ok => zenitStringShrinkToFit env ok s

end LibZenit.Strings
