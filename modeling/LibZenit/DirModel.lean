import LibZenit.CString
import LibZenit.DirTree

/-!
# Creating directories in `dir.c`

The system resolves a path from the root or from the working directory. The code walks through its
own copy of the path and cuts it short at each separator for a call of `mkdir(2)`.
-/
namespace LibZenit.Dirs
open Blocks CString DirTree

variable {β : Type}

/-! ## The system -/

structure System (β : Type) where
  tree : Tree Text β
  cwd : List Text
  cwd_dir : tree.entry cwd = some .dir

def component (name : Text) : Component Text :=
  if name = [46] then .here else if name = [46, 46] then .up else .name name

/-- Slashes next to each other are one. -/
def components (path : Text) : List (Component Text) :=
  ((path.splitOnP (· == 47)).filter (· ≠ [])).map component

def System.start (sys : System β) (path : Text) : List Text :=
  if path.head? = some 47 then [] else sys.cwd

/-- A path with a slash at its end is taken for one with a dot behind the slash. -/
def System.stat (sys : System β) (path : Text) : Except Errno (List Text × Entry β) :=
  if path = [] then .error .noEnt
  else sys.tree.lookup (sys.start path)
    (components path ++ if path.getLast? = some 47 then [.here] else [])

/-- The system afterwards, and `errno` if the call has failed. -/
def System.mkdir (sys : System β) (path : Text) : System β × Option Errno :=
  if path = [] then (sys, some .noEnt)
  else match h : sys.tree.mkdir (sys.start path) (components path) with
    | .ok tree => (⟨tree, sys.cwd, le_of_mkdir h _ _ sys.cwd_dir⟩, none)
    | .error e => (sys, some e)

/-! ## The calls -/

/-- The string at a pointer. -/
def cstr (mem : Text) : Text := mem.takeWhile (· != 0)

def isSeparator (c : UInt8) : Bool := c == 47 || c == 92

/-- Strip trailing slashes: the new length, and the buffer. -/
def stripLoop : ℕ → Text → Exec (ℕ × Text)
  | 0, tmp => .ok (0, tmp)
  | len + 1, tmp => do
    let c ← readSlot tmp len
    if isSeparator c then
      let tmp ← writeSlot tmp len 0
      stripLoop len tmp
    else return (len + 1, tmp)

/-- The loop on `p`. The rounds it is given are the bytes of the buffer. -/
def walkLoop : ℕ → System β → Text → ℕ → Exec (ZenitError × System β × Text)
  | 0, _, _, _ => .error .hang
  | fuel + 1, sys, tmp, p => do
    let saved ← readSlot tmp p
    if saved = 0 then return (.ok, sys, tmp)
    if isSeparator saved then
      let cut ← writeSlot tmp p 0
      let (sys, errno) := sys.mkdir (cstr cut)
      let tmp ← writeSlot cut p saved
      if errno ≠ none ∧ errno ≠ some .exist then return (.notFound, sys, tmp)
      walkLoop fuel sys tmp (p + 1)
    else walkLoop fuel sys tmp (p + 1)

/-- `fill` is what `malloc` leaves in the buffer. -/
def createDirRecursive (malloc : Bool) (fill : UInt8) (sys : System β) (path : Text) :
    Exec (ZenitError × System β) := do
  let len := strlen path
  if !malloc then return (.alloc, sys)
  let bytes ← readSlots path 0 (wrap (len + 1))
  let tmp ← writeSlots (List.replicate (wrap (len + 1)) fill) 0 bytes
  let (len, tmp) ← stripLoop len tmp
  if len = 0 then return (.ok, sys)
  let (code, sys, tmp) ← walkLoop tmp.length sys tmp 1
  if code ≠ .ok then return (code, sys)
  let (sys, errno) := sys.mkdir (cstr tmp)
  if errno ≠ none ∧ errno ≠ some .exist then return (.notFound, sys)
  return (.ok, sys)

def zenitDirExists (sys : System β) (path : Option Text) : ℕ :=
  match path with
  | none => 0
  | some path =>
    match sys.stat (cstr path) with
    | .ok (_, .dir) => 1
    | _ => 0

def zenitDirCreate (malloc : Bool) (fill : UInt8) (sys : System β) (path : Option Text) :
    Exec (ZenitError × System β) :=
  match path with
  | none => .ok (.null, sys)
  | some path =>
    if zenitDirExists sys (some path) ≠ 0 then .ok (.ok, sys)
    else createDirRecursive malloc fill sys path

end LibZenit.Dirs
