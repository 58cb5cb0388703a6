import LibZenit.Blocks

/-!
# Paths of `path.c`

Strings are lists of bytes without their NUL, and `NULL` is `none`. Each request for memory has its
outcome as an argument. The scratch buffer of the normalisation is checked: a write behind its
capacity is a fault.
-/
namespace LibZenit.Paths

abbrev Text := List UInt8

def chDot : UInt8 := 46
def chSlash : UInt8 := 47
def chBackslash : UInt8 := 92

def isSlash (c : UInt8) : Bool := c == chSlash || c == chBackslash

def isAbsolute (path : Text) : Bool := path.head?.any isSlash

/-- The loop of `last_slash` at the offset `i`, with the last slash seen. -/
def lastSlashFrom : ℕ → Option ℕ → Text → Option ℕ
  | _, p, [] => p
  | i, p, c :: s => lastSlashFrom (i + 1) (if isSlash c then some i else p) s

def lastSlash (s : Text) : Option ℕ := lastSlashFrom 0 none s

def strdupWithAllocator (ok : Bool) (s : Text) : Option Text := if ok then some s else none

/-! ## Splitting and joining -/

def joinImpl (ok : Bool) (a b : Text) : Option Text :=
  let aAdj := if a.getLast? = some chSlash then a.length - 1 else a.length
  let bOff := if b.head? = some chSlash then 1 else 0
  let bAdj := b.length - bOff
  let sep := if 0 < aAdj ∧ 0 < bAdj then [chSlash] else []
  if ok then some (a.take aAdj ++ sep ++ (b.drop bOff).take bAdj) else none

def zenitPathJoin (ok : Bool) : Option Text → Option Text → Option Text
  | some a, some b => joinImpl ok a b
  | _, _ => none

def dirnameImpl (ok : Bool) (path : Text) : Option Text :=
  if path.length = 0 then strdupWithAllocator ok [chDot]
  else match lastSlash path with
    | none => strdupWithAllocator ok [chDot]
    | some slash =>
      if slash = 0 then strdupWithAllocator ok [chSlash]
      else if ok then some (path.take slash) else none

def zenitPathDirname (ok : Bool) (path : Option Text) : Option Text := path.bind (dirnameImpl ok)

def basenameImpl (ok : Bool) (path : Text) : Option Text :=
  if path.length = 0 then strdupWithAllocator ok []
  else match lastSlash path with
    | none => strdupWithAllocator ok path
    | some slash => if ok then some (path.drop (slash + 1)) else none

def zenitPathBasename (ok : Bool) (path : Option Text) : Option Text := path.bind (basenameImpl ok)

/-! ## Normalising -/

/-- `while (*pos > min_pos && stack[*pos - 1]` is no slash `) (*pos)--` -/
def popLoop (stack : Text) (minPos : ℕ) : ℕ → ℕ
  | 0 => 0
  | pos + 1 =>
    if pos + 1 > minPos ∧ stack[pos]?.any isSlash = false then popLoop stack minPos pos else pos + 1

/-- What is left of the stack without its last component. -/
def popComponent (stack : Text) (minPos : ℕ) : Text :=
  if stack.length ≤ minPos then stack
  else
    let pos := popLoop stack minPos (stack.length - 1)
    stack.take (if pos > minPos then pos - 1 else pos)

/-- Bytes behind the last one of a buffer of `cap` bytes. -/
def put (cap : ℕ) (stack bytes : Text) : Exec Text :=
  if stack.length + bytes.length ≤ cap then .ok (stack ++ bytes) else .error .outOfBounds

/-- The loop over the components of the rest of the path. -/
def normalizeLoop (cap : ℕ) (absolute : Bool) : ℕ → Text → Text → Exec Text
  | 0, _, _ => .error .hang
  | fuel + 1, stack, rest =>
    match rest.dropWhile isSlash with
    | [] => .ok stack
    | c :: p =>
      let component := (c :: p).takeWhile (!isSlash ·)
      let rest := (c :: p).dropWhile (!isSlash ·)
      if component = [chDot] then normalizeLoop cap absolute fuel stack rest
      else if component = [chDot, chDot] then
        normalizeLoop cap absolute fuel (popComponent stack (if absolute then 1 else 0)) rest
      else
        (if 0 < stack.length ∧ ¬(absolute = true ∧ stack.length = 1) then put cap stack [chSlash]
          else .ok stack).bind fun stack =>
        (put cap stack component).bind fun stack => normalizeLoop cap absolute fuel stack rest

/-- `first` and `second` are the outcomes of the two requests for memory. -/
def normalizeImpl (first second : Bool) (path : Text) : Exec (Option Text) :=
  if path.length = 0 then .ok (strdupWithAllocator first [chSlash])
  else if !first then .ok none
  else
    let absolute := isAbsolute path
    (if absolute then put (path.length + 1) [] [chSlash] else .ok []).bind fun stack =>
    (normalizeLoop (path.length + 1) absolute (path.length + 1) stack path).map fun stack =>
      strdupWithAllocator second
        (if stack.length = 0 then (if absolute then [chSlash] else [chDot]) else stack)

def zenitPathNormalize (first second : Bool) : Option Text → Exec (Option Text)
  | none => .ok none
  | some path => normalizeImpl first second path

end LibZenit.Paths
