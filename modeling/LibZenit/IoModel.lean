import LibZenit.CString
import LibZenit.Reallocation

/-!
# Reading files in `io.c`

A descriptor answers every call of `read(2)` as it likes within the requested number of bytes. The
buffers are blocks of bytes, and every write to them is checked.
-/
namespace LibZenit.Io
open Blocks CString Reallocation

/-- What `read(2)` answers to the `i`-th call for `request` bytes: `none` is an error, and no bytes
are the end of the file. -/
structure Descriptor where
  read : ℕ → ℕ → Option Text
  length_le : ∀ {i request data}, read i request = some data → data.length ≤ request
  eof : ∀ {i j request more}, 0 < request → read i request = some [] → i ≤ j →
    read j more = some []

/-- A file that arrives in the given pieces. -/
def Descriptor.ofChunks (chunks : List Text) (hne : ∀ c ∈ chunks, c ≠ []) : Descriptor where
  read i request := some ((chunks[i]?.getD []).take request)
  length_le h := by
    rw [← Option.some.inj h]
    exact List.length_take_le _ _
  eof {i j request more} hpos h hij := by
    -- an empty answer to a request for some bytes is a piece that there is not
    have hlen : chunks.length ≤ i := by
      by_contra hlt
      have hget : chunks[i]?.getD [] ∈ chunks := by
        rw [List.getElem?_eq_getElem (by omega)]
        exact List.getElem_mem _
      have htake := List.take_eq_nil_iff.mp (Option.some.inj h)
      exact htake.elim (by omega) (hne _ hget)
    rw [List.getElem?_eq_none (by omega), Option.getD_none, List.take_nil]

/-- What `fstat` reports. The size is an `off_t`. -/
structure Stat where
  size : ℕ
  size_lt : size < 2 ^ 63

/-- Whether there is a `realloc_fn`, and the outcome of the `i`-th request for a block of `n` bytes.
No block has `PTRDIFF_MAX` bytes or more. -/
structure Allocator where
  hasRealloc : Bool
  fill : UInt8
  grants : ℕ → ℕ → Bool
  small : ∀ {i n}, grants i n = true → n < 2 ^ 63

/-- An allocator that has all memory there is. -/
def Allocator.willing : Allocator := ⟨true, 0, fun _ n => decide (n < 2 ^ 63), by simp⟩

/-! ## Whole files -/

/-- The buffer, the bytes read, and the calls of `read(2)` so far. -/
structure Reading where
  buf : Text
  totalRead : ℕ
  calls : ℕ

/-- The loop on `read(2)`. An error of the call is `none`. -/
def readLoop (fd : Descriptor) (size : ℕ) : ℕ → Reading → Exec (Option Reading)
  | 0, _ => .error .hang
  | fuel + 1, s =>
    if s.totalRead < size then
      match fd.read s.calls (subSize size s.totalRead) with
      | none => .ok none
      | some data => do
        let buf ← writeSlots s.buf s.totalRead data
        readLoop fd size fuel ⟨buf, wrap (s.totalRead + data.length), s.calls + 1⟩
    else .ok (some s)

/-- `opened` and `stat` are the answers of `open` and `fstat`. After a success `*out_data` is the
buffer and `*out_len` the number of bytes read. -/
def zenitFileReadWithAllocator (opened : Option Descriptor) (stat : Option Stat) (a : Allocator)
    (fuel : ℕ) : Exec (ZenitError × Option Reading) :=
  match opened with
  | none => .ok (.notFound, none)
  | some fd =>
    match stat with
    | none => .ok (.notFound, none)
    | some st =>
      let capacity := wrap (st.size + 1)
      if !a.grants 0 capacity then .ok (.alloc, none)
      else do
        let some s ← readLoop fd st.size fuel ⟨List.replicate capacity a.fill, 0, 0⟩
          | return (.notFound, none)
        let buf ← writeSlot s.buf s.totalRead 0
        return (.ok, some { s with buf })

/-! ## Lines -/

/-- `READ_LINE_BUF_SIZE` -/
def readLineBufSize : ℕ := 8192

/-- The line so far, and the requests made to the allocator. -/
structure LineBuf where
  buf : Text
  cap : ℕ
  len : ℕ
  requests : ℕ

def growLineBuf (a : Allocator) (line : LineBuf) : Exec (LineBuf × ZenitError) :=
  if wrap (line.len + 2) ≤ line.cap then .ok (line, .ok)
  else
    let newCap := wrap (line.cap * 2)
    if !a.grants line.requests newCap then
      .ok ({ line with requests := line.requests + 1 }, .alloc)
    else do
      let buf ← zenitAllocatorRealloc a.hasRealloc a.fill line.buf line.cap newCap
      return ({ line with buf := buf, cap := newCap, requests := line.requests + 1 }, .ok)

/-- The read-ahead buffer with the part that is not yet consumed. -/
structure Window where
  readBuf : Text
  readBufPos : ℕ
  readBufEnd : ℕ

/-- How the scan of a window ends. -/
inductive Scan where
  | exhausted
  | newline
  | failed (code : ZenitError)

/-- The inner loop. -/
def scanLoop (a : Allocator) (w : Window) (line : LineBuf) : Exec (LineBuf × Window × Scan) :=
  if w.readBufPos < w.readBufEnd then do
    let c ← readSlot w.readBuf w.readBufPos
    let w := { w with readBufPos := w.readBufPos + 1 }
    let (line, code) ← growLineBuf a line
    if code ≠ .ok then return (line, w, .failed code)
    let buf ← writeSlot line.buf line.len c
    let line := { line with buf := buf, len := line.len + 1 }
    if c = 10 then return (line, w, .newline)
    scanLoop a w line
  else .ok (line, w, .exhausted)
termination_by w.readBufEnd - w.readBufPos

inductive Refill where
  | failed
  | eof
  | ready (w : Window) (calls : ℕ)

/-- The window, filled again if nothing is left of it. -/
def refill (fd : Descriptor) (calls : ℕ) (w : Window) : Exec Refill :=
  if w.readBufPos ≥ w.readBufEnd then
    match fd.read calls readLineBufSize with
    | none => .ok .failed
    | some data =>
      if data.length = 0 then .ok .eof
      else do
        let readBuf ← writeSlots w.readBuf 0 data
        return .ready ⟨readBuf, 0, data.length⟩ (calls + 1)
  else .ok (.ready w calls)

/-- The outer loop. -/
def lineLoop (a : Allocator) (fd : Descriptor) :
    ℕ → ℕ → Window → LineBuf → Exec (LineBuf × ZenitError)
  | 0, _, _, _ => .error .hang
  | fuel + 1, calls, w, line => do
    match ← refill fd calls w with
    | .failed => return (line, .notFound)
    | .eof => return (line, .ok)
    | .ready w calls =>
      match ← scanLoop a w line with
      | (line, _, .failed code) => return (line, code)
      | (line, _, .newline) => return (line, .ok)
      | (line, w, .exhausted) => lineLoop a fd fuel calls w line

/-- After a success `*out_line` is the whole block. -/
def zenitFileReadLineWithAllocator (opened : Option Descriptor) (a : Allocator) (fuel : ℕ) :
    Exec (ZenitError × Option Text) :=
  match opened with
  | none => .ok (.notFound, none)
  | some fd =>
    if !a.grants 0 64 then .ok (.alloc, none)
    else do
      let (line, code) ← lineLoop a fd fuel 0 ⟨List.replicate readLineBufSize a.fill, 0, 0⟩
        ⟨List.replicate 64 a.fill, 64, 0, 1⟩
      if code ≠ .ok then return (code, none)
      let buf ← writeSlot line.buf line.len 0
      return (.ok, some buf)

end LibZenit.Io
