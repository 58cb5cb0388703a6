import LibZenit.Basics
import LibZenit.ByteMemory

/-!
# The arena of `arena.c`

Addresses are natural numbers and `NULL` is `0`. The pool of the arena is byte-addressed: headers
and footers are in-band fields, so a stale header stays readable until something overwrites it.
Handles returned by the allocator live outside the pool and are kept in a table by address.
-/
namespace LibZenit.Arena
open ByteMemory

/-- `sizeof(void *)` -/
def alignment : ℕ := 8

/-- `sizeof(zenit_buf_header_t)`: state, padding, owner, size, next, prev. -/
def headerSize : ℕ := 40

/-- `sizeof(zenit_buf_footer_t)`: size, state, padding. -/
def footerSize : ℕ := 16

def minSplitTotal : ℕ := headerSize + alignment + footerSize

def bufFree : ℕ := 0
def bufInUse : ℕ := 1

/-- Round up to the alignment; `SIZE_MAX` reports overflow. -/
def alignUp (n : ℕ) : ℕ :=
  if n > sizeMax - (alignment - 1) then sizeMax
  else (n + alignment - 1) &&& (sizeMax - (alignment - 1))

structure ArenaHandle where
  totalSize : ℕ
  blockSize : ℕ
  blockCount : ℕ
  memory : ℕ
  bitmap : List UInt8
  bitmapSize : ℕ
  deriving DecidableEq, Repr

structure UsableArena where
  blockOffset : ℕ
  blockCount : ℕ
  memory : ℕ
  size : ℕ
  freeList : ℕ
  deriving DecidableEq, Repr

structure UsableBuffer where
  data : ℕ
  size : ℕ
  deriving DecidableEq, Repr

/-- The arena handle, the bytes it manages and the live usable-arena handles. -/
structure World where
  mem : Memory
  arena : ArenaHandle
  handles : ℕ → Option UsableArena

/-! ## Header and footer fields -/

def hState (m : Memory) (h : ℕ) : ℕ := read m h 4
def hUa (m : Memory) (h : ℕ) : ℕ := read m (h + 8) 8
def hSize (m : Memory) (h : ℕ) : ℕ := read m (h + 16) 8
def hNext (m : Memory) (h : ℕ) : ℕ := read m (h + 24) 8
def hPrev (m : Memory) (h : ℕ) : ℕ := read m (h + 32) 8
def fSize (m : Memory) (f : ℕ) : ℕ := read m f 8
def fState (m : Memory) (f : ℕ) : ℕ := read m (f + 8) 4

def setState (m : Memory) (h v : ℕ) : Memory := write m h 4 v
def setUa (m : Memory) (h v : ℕ) : Memory := write m (h + 8) 8 v
def setSize (m : Memory) (h v : ℕ) : Memory := write m (h + 16) 8 v
def setNext (m : Memory) (h v : ℕ) : Memory := write m (h + 24) 8 v
def setPrev (m : Memory) (h v : ℕ) : Memory := write m (h + 32) 8 v

/-- The footer position of the block whose header is at `h`. -/
def footerOf (m : Memory) (h : ℕ) : ℕ := h + hSize m h - footerSize

/-- Copy size and state of a header into the footer of its block. -/
def footerSync (m : Memory) (h : ℕ) : Memory :=
  let f := footerOf m h
  let m := write m f 8 (hSize m h)
  write m (f + 8) 4 (hState m h)

/-! ## The block bitmap -/

def bitmapSet (bitmap : List UInt8) (index : ℕ) (value : Bool) : List UInt8 :=
  bitmap.modify (index / 8) fun b =>
    if value then b ||| (1 <<< UInt8.ofNat (index % 8))
    else b &&& ~~~(1 <<< UInt8.ofNat (index % 8))

def bitmapGet (bitmap : List UInt8) (index : ℕ) : UInt8 :=
  (bitmap.getD (index / 8) 0 >>> UInt8.ofNat (index % 8)) &&& 1

/-- The scan of `bitmap_find_contiguous` from index `i` on, with the current run length. -/
def bitmapFindFrom (bitmap : List UInt8) (needed : ℕ) : ℕ → ℕ → ℕ → Option ℕ
  | 0, _, _ => none
  | left + 1, i, run =>
    if bitmapGet bitmap i = 0 then
      if run + 1 = needed then some (i + 1 - needed)
      else bitmapFindFrom bitmap needed left (i + 1) (run + 1)
    else bitmapFindFrom bitmap needed left (i + 1) 0

def bitmapFindContiguous (bitmap : List UInt8) (blockCount needed : ℕ) : Option ℕ :=
  bitmapFindFrom bitmap needed blockCount 0 0

/-- Write one value to the bits `start, …, start + needed - 1`. -/
def bitmapFill (bitmap : List UInt8) (start needed : ℕ) (value : Bool) : List UInt8 :=
  (List.range' start needed).foldl (fun b i => bitmapSet b i value) bitmap

/-! ## Arena API -/

/-- The three allocations are the handle, the pool (whose address is the payload) and the
bitmap. Both memory blocks come back zeroed. -/
def arenaCreateWithAllocator (mem : Memory) (totalSize blockSize : ℕ)
    (handle : Bool) (pool : Option ℕ) (bitmap : Bool) : Option World :=
  if totalSize = 0 ∨ blockSize = 0 ∨ totalSize % blockSize ≠ 0 then none
  else if !handle then none
  else
    let blockCount := totalSize / blockSize
    let bitmapSize := (blockCount + 7) / 8
    match pool with
    | none => none
    | some memory =>
      if !bitmap then none
      else some
        { mem := fun x => if memory ≤ x ∧ x < memory + totalSize then 0 else mem x
          arena := ⟨totalSize, blockSize, blockCount, memory, List.replicate bitmapSize 0,
            bitmapSize⟩
          handles := fun _ => none }

/-- One free block covering the acquired region. -/
def initRegion (m : Memory) (uaPtr initial size : ℕ) : Memory :=
  let m := setState m initial bufFree
  let m := setUa m initial uaPtr
  let m := setSize m initial size
  let m := setNext m initial 0
  let m := setPrev m initial 0
  footerSync m initial

/-- `handle` is what the allocator returns for the usable-arena handle. -/
def arenaAcquire (w : World) (size : ℕ) (handle : Option ℕ) : World × Option ℕ :=
  let a := w.arena
  if size = 0 ∨ size % a.blockSize ≠ 0 then (w, none)
  else
    let needed := size / a.blockSize
    match bitmapFindContiguous a.bitmap a.blockCount needed with
    | none => (w, none)
    | some start =>
      let marked := bitmapFill a.bitmap start needed true
      match handle with
      | none =>
        ({ w with arena := { a with bitmap := bitmapFill marked start needed false } }, none)
      | some uaPtr =>
        let memory := a.memory + start * a.blockSize
        ({ mem := initRegion w.mem uaPtr memory size
           arena := { a with bitmap := marked }
           handles := Function.update w.handles uaPtr
            (some ⟨start, needed, memory, size, memory⟩) }, some uaPtr)

/-! ## Usable arena and buffers -/

/-- Take a block out of the free list by joining its neighbours; the code has these lines both
in `claim_block` and in the forward merge. Returns the new list head as well. -/
def unlinkBlock (m : Memory) (freeList b : ℕ) : Memory × ℕ :=
  let r := if hPrev m b ≠ 0 then (setNext m (hPrev m b) (hNext m b), freeList)
    else (m, hNext m b)
  (if hNext r.1 b ≠ 0 then setPrev r.1 (hNext r.1 b) (hPrev r.1 b) else r.1, r.2)

/-- Shrink `walk` to `needed` bytes and give the rest a free header and footer of its own. -/
def splitTags (m : Memory) (uaPtr walk needed remainder : ℕ) : Memory :=
  let m := setSize m walk needed
  let m := footerSync m walk
  let split := walk + needed
  let m := setState m split bufFree
  let m := setUa m split uaPtr
  let m := setSize m split remainder
  footerSync m split

def linkAfter (m : Memory) (walk split : ℕ) : Memory :=
  let m := setNext m split (hNext m walk)
  let m := setPrev m split walk
  let m := if hNext m walk ≠ 0 then setPrev m (hNext m walk) split else m
  setNext m walk split

def splitBlock (m : Memory) (uaPtr walk needed remainder : ℕ) : Memory :=
  linkAfter (splitTags m uaPtr walk needed remainder) walk (walk + needed)

/-- Split when the leftover is large enough, unlink, and mark the block as in use. -/
def claimBlock (m : Memory) (uaPtr freeList walk needed aligned : ℕ) :
    Memory × ℕ × UsableBuffer :=
  let remainder := hSize m walk - needed
  let m := if remainder ≥ minSplitTotal then splitBlock m uaPtr walk needed remainder else m
  let r := unlinkBlock m freeList walk
  let m := setPrev r.1 walk 0
  let m := setNext m walk 0
  let m := setState m walk bufInUse
  let m := footerSync m walk
  (m, r.2, ⟨walk + headerSize, aligned⟩)

/-- The first fit on the free list. `none` means that the fuel ran out before the walk ended. -/
def findFit (m : Memory) (needed : ℕ) : ℕ → ℕ → Option (Option ℕ)
  | 0, _ => none
  | fuel + 1, walk =>
    if walk = 0 then some none
    else if hState m walk = bufFree ∧ hSize m walk ≥ needed then some (some walk)
    else findFit m needed fuel (hNext m walk)

def usableArenaAllocate (fuel : ℕ) (w : World) (uaPtr size : ℕ) :
    Option (World × UsableBuffer) :=
  if uaPtr = 0 ∨ size = 0 then some (w, ⟨0, 0⟩)
  else
    let aligned := alignUp size
    if aligned = sizeMax then some (w, ⟨0, 0⟩)
    else
      let needed := wrap (headerSize + aligned + footerSize)
      match w.handles uaPtr with
      | none => none
      | some ua =>
        match findFit w.mem needed fuel ua.freeList with
        | none => none
        | some none => some (w, ⟨0, 0⟩)
        | some (some walk) =>
          let r := claimBlock w.mem uaPtr ua.freeList walk needed aligned
          some ({ w with
            mem := r.1
            handles := Function.update w.handles uaPtr (some { ua with freeList := r.2.1 }) },
            r.2.2)

/-! ## Accesses of an allocation

The memory takes a store at any address. What lies outside the region of a usable arena belongs to
somebody else: a call that reaches for it faults. -/

/-- A header or footer that a call reads or writes through a pointer: its address and size. -/
abbrev Access := ℕ × ℕ

def UsableArena.Holds (ua : UsableArena) (a : Access) : Prop :=
  ua.memory ≤ a.1 ∧ a.1 + a.2 ≤ ua.memory + ua.size

instance (ua : UsableArena) (a : Access) : Decidable (ua.Holds a) :=
  inferInstanceAs (Decidable (_ ∧ _))

/-- The node behind a link of the free list, unless the link is `NULL`. -/
def nodeAccess (link : ℕ) : List Access := if link = 0 then [] else [(link, headerSize)]

/-- Both footers, the new header and the node behind `walk`. -/
def splitAccesses (m : Memory) (uaPtr walk needed remainder : ℕ) : List Access :=
  let split := walk + needed
  let tags := splitTags m uaPtr walk needed remainder
  let linked := setPrev (setNext tags split (hNext tags walk)) split walk
  [(walk + needed - footerSize, footerSize), (split, headerSize),
    (split + remainder - footerSize, footerSize)] ++ nodeAccess (hNext linked walk)

def unlinkAccesses (m : Memory) (b : ℕ) : List Access :=
  nodeAccess (hPrev m b) ++
    nodeAccess (hNext (if hPrev m b ≠ 0 then setNext m (hPrev m b) (hNext m b) else m) b)

/-- All that `claim_block` accesses, with every link and size as it stands at that moment. -/
def claimAccesses (m : Memory) (uaPtr freeList walk needed : ℕ) : List Access :=
  let remainder := hSize m walk - needed
  let m' := if remainder ≥ minSplitTotal then splitBlock m uaPtr walk needed remainder else m
  let m'' := setNext (setPrev (unlinkBlock m' freeList walk).1 walk 0) walk 0
  (walk, headerSize) ::
    (if remainder ≥ minSplitTotal then splitAccesses m uaPtr walk needed remainder else []) ++
    unlinkAccesses m' walk ++ [(footerOf (setState m'' walk bufInUse) walk, footerSize)]

/-- The headers that the first-fit walk looks at. -/
def findFitAccesses (m : Memory) (needed : ℕ) : ℕ → ℕ → List Access
  | 0, _ => []
  | fuel + 1, walk =>
    if walk = 0 then []
    else if hState m walk = bufFree ∧ hSize m walk ≥ needed then [(walk, headerSize)]
    else (walk, headerSize) :: findFitAccesses m needed fuel (hNext m walk)

def allocateAccesses (fuel : ℕ) (m : Memory) (ua : UsableArena) (uaPtr size : ℕ) : List Access :=
  if uaPtr = 0 ∨ size = 0 ∨ alignUp size = sizeMax then []
  else
    let needed := wrap (headerSize + alignUp size + footerSize)
    findFitAccesses m needed fuel ua.freeList ++
      match findFit m needed fuel ua.freeList with
      | some (some walk) => claimAccesses m uaPtr ua.freeList walk needed
      | _ => []

/-- `zenit_usable_arena_allocate` on a machine where an access outside the region faults; then there
is no result. -/
def guardedAllocate (fuel : ℕ) (w : World) (uaPtr size : ℕ) : Option (World × UsableBuffer) :=
  match w.handles uaPtr with
  | none => usableArenaAllocate fuel w uaPtr size
  | some ua =>
    if ∀ a ∈ allocateAccesses fuel w.mem ua uaPtr size, ua.Holds a then
      usableArenaAllocate fuel w uaPtr size
    else none

/-- Merge the block behind `h` into it when that block is free. -/
def coalesceNext (m : Memory) (ua : UsableArena) (h : ℕ) : Memory × ℕ :=
  let next := h + hSize m h
  if next < ua.memory + ua.size ∧ hState m next = bufFree then
    let m := setSize m h (hSize m h + hSize m next)
    let m := footerSync m h
    unlinkBlock m ua.freeList next
  else (m, ua.freeList)

/-- Merge `h` into the block before it when footer and header both say that it is free.
The merged block is not taken out of the free list. -/
def coalescePrev (m : Memory) (ua : UsableArena) (h : ℕ) : Memory × ℕ :=
  if h > ua.memory ∧ fState m (h - footerSize) = bufFree then
    let prev := h - fSize m (h - footerSize)
    if hState m prev = bufFree then
      let m := setSize m prev (hSize m prev + hSize m h)
      (footerSync m prev, prev)
    else (m, h)
  else (m, h)

def pushFree (m : Memory) (freeList h : ℕ) : Memory :=
  let m := setNext m h freeList
  let m := setPrev m h 0
  if freeList ≠ 0 then setPrev m freeList h else m

/-- The result is `none` when the owner recorded in the header is not a live handle. -/
def usableBufferFree (w : World) (buf : Option UsableBuffer) : Option (World × ZenitError) :=
  match buf with
  | none => some (w, .null)
  | some buf =>
    if buf.data = 0 then some (w, .null)
    else
      let h := buf.data - headerSize
      if hState w.mem h ≠ bufInUse then some (w, .doubleFree)
      else
        let m := setState w.mem h bufFree
        let m := footerSync m h
        let uaPtr := hUa m h
        match w.handles uaPtr with
        | none => none
        | some ua =>
          let r := coalesceNext m ua h
          let s := coalescePrev r.1 ua h
          some ({ w with
            mem := pushFree s.1 r.2 s.2
            handles := Function.update w.handles uaPtr (some { ua with freeList := s.2 }) }, .ok)

/-- The walk of `zenit_arena_release` over the headers of a region; it stops early at a block in
use or at a zero size. -/
def releaseWalk (m : Memory) (stop : ℕ) : ℕ → ℕ → Option ZenitError
  | 0, _ => none
  | fuel + 1, pos =>
    if pos < stop then
      if hState m pos = bufInUse then some .state
      else if hSize m pos = 0 then some .corrupt
      else releaseWalk m stop fuel (pos + hSize m pos)
    else some .ok

def arenaRelease (fuel : ℕ) (w : World) (uaPtr : ℕ) : Option (World × ZenitError) :=
  if uaPtr = 0 then some (w, .null)
  else
    match w.handles uaPtr with
    | none => none
    | some ua =>
      match releaseWalk w.mem (ua.memory + ua.size) fuel ua.memory with
      | none => none
      | some .ok =>
        some ({ w with
          arena := { w.arena with
            bitmap := bitmapFill w.arena.bitmap ua.blockOffset ua.blockCount false }
          handles := Function.update w.handles uaPtr none }, .ok)
      | some e => some (w, e)

end LibZenit.Arena
