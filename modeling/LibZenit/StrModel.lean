import LibZenit.CString

/-!
# Splitting and joining in `str.c`

An array of strings is the block of its pointers, each of which is NULL or the block of a string.
The world keeps the outcome of every request to the allocator, and the sizes asked for so far.
What is given back after a failure is not read again, so the frees are left out.
-/
namespace LibZenit.Str
open Blocks CString

/-! ## The allocator -/

structure World where
  ok : ℕ → Bool
  asked : List ℕ

/-- A call may ask for memory. If it is not given some, it comes back with NULL. -/
abbrev Step (α : Type) := Exec (World × Option α)

def andThen {α β : Type} (x : Step α) (f : World → α → Step β) : Step β :=
  x.bind fun r => r.2.elim (.ok (r.1, none)) (f r.1)

/-- A part of a call that asks for no memory. -/
def lift {α : Type} (w : World) (x : Exec α) : Step α := x.map fun a => (w, some a)

/-- `ok n` is the outcome of the request `n`. -/
def World.alloc (w : World) (size : ℕ) : Step Unit :=
  .ok ({ w with asked := w.asked ++ [size] },
    if granted (w.ok w.asked.length) size then some () else none)

/-- Before the first request. -/
def World.start (ok : ℕ → Bool) : World := ⟨ok, []⟩

/-- What a fresh block holds. -/
structure Junk where
  byte : UInt8
  pointer : Option Text

/-! ## Splitting -/

structure Tokens where
  cap : ℕ
  idx : ℕ
  tokenStart : ℕ
  result : List (Option Text)

/-- Room for a token and for the NULL behind it. -/
def growResult (junk : Junk) (w : World) (t : Tokens) : Step Tokens :=
  if t.idx + 2 > t.cap then
    let cap := wrap (t.cap * 2)
    let newSize := wrap (cap * 8)
    andThen (w.alloc newSize) fun w _ =>
      lift w (.ok { t with cap, result := resize junk.pointer (newSize / 8) t.result })
  else lift w (.ok t)

/-- The copy of `tlen` characters in a block of its own. -/
def fillToken (junk : Junk) (mem : Text) (tokenStart tlen : ℕ) : Exec Text := do
  let tok := List.replicate (wrap (tlen + 1)) junk.byte
  let tok ← if tlen > 0 then do
      let bytes ← readSlots mem tokenStart tlen
      writeSlots tok 0 bytes
    else pure tok
  writeSlot tok tlen 0

/-- The end of a token at `i`. -/
def emitToken (junk : Junk) (mem : Text) (w : World) (t : Tokens) (i : ℕ) : Step Tokens :=
  andThen (growResult junk w t) fun w t =>
    let tlen := subSize i t.tokenStart
    andThen (w.alloc (wrap (tlen + 1))) fun w _ => lift w do
      let tok ← fillToken junk mem t.tokenStart tlen
      let result ← writeSlot t.result t.idx (some tok)
      return { t with result, idx := t.idx + 1, tokenStart := i + 1 }

/-- `(i < len) && (strchr(delim, s[i]) != NULL)` -/
def isDelim (mem delim : Text) (len i : ℕ) : Exec Bool :=
  if i < len then (readSlot mem i).map (strchr delim) else .ok false

def splitLoop (junk : Junk) (mem delim : Text) (len : ℕ) (w : World) (t : Tokens) (i : ℕ) :
    Step Tokens :=
  if i ≤ len then
    (isDelim mem delim len i).bind fun is =>
      if !is && i ≠ len then splitLoop junk mem delim len w t (i + 1)
      else andThen (emitToken junk mem w t i) fun w t => splitLoop junk mem delim len w t (i + 1)
  else lift w (.ok t)
termination_by len + 1 - i

/-- The array that is returned, and `*out_count`. -/
structure Split where
  result : List (Option Text)
  count : ℕ

def splitImpl (junk : Junk) (w : World) (mem delim : Text) : Step Split :=
  andThen (w.alloc (wrap (4 * 8))) fun w _ =>
    andThen (splitLoop junk mem delim (strlen mem) w
        ⟨4, 0, 0, List.replicate (slotsOf 8 4) junk.pointer⟩ 0) fun w t => lift w do
      let result ← writeSlot t.result t.idx none
      return ⟨result, t.idx⟩

/-- `outCount` tells whether there is an address for the number of strings. -/
def zenitStrSplit (junk : Junk) (w : World) (s delim : Option Text) (outCount : Bool) :
    Step Split :=
  match s, delim, outCount with
  | some mem, some delim, true => splitImpl junk w mem delim
  | _, _, _ => .ok (w, none)

/-! ## Joining -/

/-- The characters of the parts from `i` on, added to `total`. -/
def totalLoop (parts : List (Option Text)) (count i total : ℕ) : Exec ℕ :=
  if i < count then do
    match ← readSlot parts i with
    | some part => totalLoop parts count (i + 1) (wrap (total + strlen part))
    | none => totalLoop parts count (i + 1) total
  else return total
termination_by count - i

/-- `memcpy(out + pos, mem, len); pos += len` -/
def copyPart (mem : Text) (len : ℕ) (out : Text) (pos : ℕ) : Exec (Text × ℕ) := do
  let bytes ← readSlots mem 0 len
  let out ← writeSlots out pos bytes
  return (out, pos + len)

def joinLoop (parts : List (Option Text)) (count : ℕ) (delim : Text) (delimLen i : ℕ) (out : Text)
    (pos : ℕ) : Exec Text :=
  if i < count then do
    let (out, pos) ← if i > 0 then copyPart delim delimLen out pos else pure (out, pos)
    let (out, pos) ← match ← readSlot parts i with
      | some part => copyPart part (strlen part) out pos
      | none => pure (out, pos)
    joinLoop parts count delim delimLen (i + 1) out pos
  else writeSlot out pos 0
termination_by count - i

def joinImpl (junk : Junk) (w : World) (parts : List (Option Text)) (count : ℕ) (delim : Text) :
    Step Text :=
  if count = 0 then
    andThen (w.alloc 1) fun w _ => lift w (writeSlot (List.replicate 1 junk.byte) 0 0)
  else
    let delimLen := strlen delim
    (totalLoop parts count 0 0).bind fun total =>
      let total := wrap (wrap (total + wrap (delimLen * (count - 1))) + 1)
      andThen (w.alloc total) fun w _ =>
        lift w (joinLoop parts count delim delimLen 0 (List.replicate total junk.byte) 0)

def zenitStrJoin (junk : Junk) (w : World) (parts : Option (List (Option Text))) (count : ℕ)
    (delim : Option Text) : Step Text :=
  match parts, delim with
  | some parts, some delim => joinImpl junk w parts count delim
  | _, _ => .ok (w, none)

end LibZenit.Str
