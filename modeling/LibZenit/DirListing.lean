import LibZenit.BlockLedger
import LibZenit.DirModel

/-!
# Listing directories in `dir.c`

The list is made in two passes over the directory, and the directory may change between them. Each
`opendir(3)` is refused or gives a stream; memory and streams are counted in ledgers of their own.
-/
namespace LibZenit.Dirs
open Blocks CString BlockLedger

/-- An answer of `readdir(3)`: the memory from `d_name` on, and whether `d_type` is `DT_DIR`. -/
structure Dirent where
  dName : Text
  dirType : Bool

/-- The directory as its streams show it, by the number of the `opendir(3)`. -/
structure Directory where
  opens : ℕ → Bool
  entries : ℕ → List Dirent

structure Resources where
  heap : Ledger
  streams : Ledger

structure DirEntry where
  name : Text
  isDirectory : ℕ

def nameSize : ℕ := 256

/-- A stream comes with the entries that it still holds. -/
structure DirIter where
  block : ℕ
  dir : ℕ
  rest : List Dirent

/-- A string of the list in its block. -/
structure Name where
  block : ℕ
  bytes : Text

/-- What the caller gets: the array of pointers, its slots, and how many of them count. -/
structure Listing where
  names : Option ℕ
  slots : List (Option Name)
  count : ℕ

variable {dir : Directory} {grants : ℕ → Bool} {w : Resources}

/-! ## The iterator -/

def zenitDirIter (dir : Directory) (grants : ℕ → Bool) (w : Resources) :
    Option DirIter × Resources :=
  match w.streams.alloc dir.opens with
  | (none, streams) => (none, ⟨w.heap, streams⟩)
  | (some d, streams) =>
    match w.heap.alloc grants with
    | (none, heap) => (none, ⟨heap, streams.free d⟩)
    | (some b, heap) => (some ⟨b, d, dir.entries w.streams.requests⟩, ⟨heap, streams⟩)

/-- The first component is the number that the function returns. -/
def zenitDirNext (iter : DirIter) (entry : DirEntry) (w : Resources) :
    Exec (ℕ × DirIter × DirEntry × Resources) := do
  let w := ⟨w.heap.use iter.block, w.streams.use iter.dir⟩
  match iter.rest with
  | [] => return (0, iter, entry, w)
  | e :: rest =>
    let len := strlen e.dName
    let len := if len ≥ nameSize then nameSize - 1 else len
    let bytes ← readSlots e.dName 0 len
    let name ← writeSlots entry.name 0 bytes
    let name ← writeSlot name len 0
    return (1, ⟨iter.block, iter.dir, rest⟩, ⟨name, if e.dirType then 1 else 0⟩, w)

def zenitDirIterDestroy (iter : DirIter) (w : Resources) : Resources :=
  ⟨(w.heap.use iter.block).free iter.block, w.streams.free iter.dir⟩

/-! ## The list -/

/-- The loop of the first pass. -/
def countLoop : ℕ → DirIter → DirEntry → ℕ → Resources → Exec (ℕ × DirIter × DirEntry × Resources)
  | 0, _, _, _, _ => .error .hang
  | fuel + 1, iter, entry, count, w => do
    let (more, iter, entry, w) ← zenitDirNext iter entry w
    if more ≠ 0 then countLoop fuel iter entry (wrap (count + 1)) w
    else return (count, iter, entry, w)

/-- `calloc(count, sizeof(char *))`, or `NULL` for `count = 0`. The outer option is the refusal. -/
def callocNames (grants : ℕ → Bool) (count : ℕ) (heap : Ledger) : Option (Option ℕ) × Ledger :=
  if count > 0 then
    if count * 8 < 2 ^ 64 then
      match heap.alloc grants with
      | (none, heap) => (none, heap)
      | (some b, heap) => (some (some b), heap)
    else (none, heap)
  else (some none, heap)

/-- An access through a pointer, which must not be `NULL`. -/
def usePtr (p : Option ℕ) (heap : Ledger) : Ledger :=
  match p with
  | some b => heap.use b
  | none => { heap with fault := true }

/-- `free` does nothing for `NULL`. -/
def freePtr (p : Option ℕ) (heap : Ledger) : Ledger :=
  match p with
  | some b => heap.free b
  | none => heap

/-- `strlen` in a buffer, which must hold a terminator. -/
def strlenIn (mem : Text) : Exec ℕ := if 0 ∈ mem then .ok (strlen mem) else .error .outOfBounds

/-- The loop on `c`, for the bytes that are left. -/
def copyName : ℕ → ℕ → Text → Text → Exec Text
  | 0, _, _, dst => .ok dst
  | n + 1, c, name, dst => do
    let byte ← readSlot name c
    let dst ← writeSlot dst c byte
    copyName n (c + 1) name dst

/-- The loop of the second pass. -/
def fillLoop (grants : ℕ → Bool) (fill : UInt8) (names : Option ℕ) (count : ℕ) :
    ℕ → DirIter → DirEntry → List (Option Name) → ℕ → Resources →
      Exec (ZenitError × List (Option Name) × ℕ × DirIter × Resources)
  | 0, _, _, _, _, _ => .error .hang
  | fuel + 1, iter, entry, slots, i, w => do
    let (more, iter, entry, w) ← zenitDirNext iter entry w
    if more ≠ 0 ∧ i < count then
      let len ← strlenIn entry.name
      match w.heap.alloc grants with
      | (none, heap) =>
        let slots ← writeSlot slots i none
        return (.alloc, slots, i, iter, ⟨usePtr names heap, w.streams⟩)
      | (some b, heap) =>
        let dst ← copyName (len + 1) 0 entry.name (List.replicate (len + 1) fill)
        let slots ← writeSlot slots i (some ⟨b, dst⟩)
        fillLoop grants fill names count fuel iter entry slots (i + 1)
          ⟨usePtr names heap, w.streams⟩
    else return (.ok, slots, i, iter, w)

/-- The loop on `j`, for the names that are left. -/
def freeLoop : ℕ → ℕ → Option ℕ → List (Option Name) → Ledger → Exec Ledger
  | 0, _, _, _, heap => .ok heap
  | n + 1, j, names, slots, heap => do
    let p ← readSlot slots j
    freeLoop n (j + 1) names slots (freePtr (p.map Name.block) (usePtr names heap))

/-- What the caller is told to do with a list, and what the function does with an unfinished one. -/
def freeListing (listing : Listing) (heap : Ledger) : Exec Ledger := do
  let heap ← freeLoop listing.count 0 listing.names listing.slots heap
  return freePtr listing.names heap

/-- The second pass of `zenit_dir_list`, with an array for the names of the first. -/
def secondPass (dir : Directory) (grants : ℕ → Bool) (fill : UInt8) (names : Option ℕ) (count : ℕ)
    (entry : DirEntry) (w : Resources) : Exec (ZenitError × Option Listing × Resources) := do
  match zenitDirIter dir grants w with
  | (none, w) => return (.notFound, none, ⟨freePtr names w.heap, w.streams⟩)
  | (some iter, w) =>
    let (code, slots, i, iter, w) ← fillLoop grants fill names count (iter.rest.length + 1) iter
      entry (List.replicate count none) 0 w
    let w := zenitDirIterDestroy iter w
    if code ≠ .ok then
      let heap ← freeListing ⟨names, slots, i⟩ w.heap
      return (code, none, ⟨heap, w.streams⟩)
    return (.ok, some ⟨names, slots, i⟩, w)

/-- Both passes over the directory. -/
def listTwice (dir : Directory) (grants : ℕ → Bool) (fill : UInt8) (entry : DirEntry)
    (w : Resources) : Exec (ZenitError × Option Listing × Resources) := do
  match zenitDirIter dir grants w with
  | (none, w) => return (.notFound, none, w)
  | (some iter, w) =>
    let (count, iter, entry, w) ← countLoop (iter.rest.length + 1) iter entry 0 w
    let w := zenitDirIterDestroy iter w
    match callocNames grants count w.heap with
    | (none, heap) => return (.alloc, none, ⟨heap, w.streams⟩)
    | (some names, heap) => secondPass dir grants fill names count entry ⟨heap, w.streams⟩

/-- `entry` is what the local variable holds before its first use, `fill` what `malloc` leaves. Of
the pointers for the results it matters whether they are `NULL`. -/
def zenitDirList (path : Option Directory) (outNames outCount : Bool) (grants : ℕ → Bool)
    (fill : UInt8) (entry : DirEntry) (w : Resources) :
    Exec (ZenitError × Option Listing × Resources) :=
  match path with
  | none => .ok (.null, none, w)
  | some dir =>
    if !outNames || !outCount then .ok (.null, none, w)
    else listTwice dir grants fill entry w

end LibZenit.Dirs
