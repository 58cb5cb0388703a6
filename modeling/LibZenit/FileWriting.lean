import LibZenit.IoModel

/-!
# Writing and copying files in `io.c`

`write(2)` accepts as many of the requested bytes as it likes, so both loops go on behind the bytes
that were accepted. The file behind a descriptor is a text that grows at its end.
-/
namespace LibZenit.Io
open Blocks CString

/-- How many bytes `write(2)` accepts of `request` bytes in the `i`-th call: `none` is an error. -/
structure Sink where
  write : ℕ → ℕ → Option ℕ
  le : ∀ {i request n}, write i request = some n → n ≤ request

/-- A sink that accepts at most `n` bytes in each call. -/
def Sink.atMost (n : ℕ) : Sink where
  write _ request := some (min n request)
  le h := Option.some.inj h ▸ Nat.min_le_right _ _

/-- The bytes of the file, and the calls of `write(2)` so far. -/
structure Output where
  contents : Text
  calls : ℕ

/-- The loop on `write(2)` over the first `len` bytes of a block. After an error it is `false`. -/
def writeLoop (fd : Sink) (block : Text) (len : ℕ) : ℕ → ℕ → Output → Exec (Bool × Output)
  | 0, _, _ => .error .hang
  | fuel + 1, totalWritten, out =>
    if totalWritten < len then
      match fd.write out.calls (subSize len totalWritten) with
      | none => .ok (false, { out with calls := out.calls + 1 })
      | some n => do
        let bytes ← readSlots block totalWritten n
        writeLoop fd block len fuel (wrap (totalWritten + n))
          ⟨out.contents ++ bytes, out.calls + 1⟩
    else .ok (true, out)

/-- `opened` is the answer of `open`, `before` what the file held. The result comes with what it
holds afterwards. -/
def fileWriteImpl (opened : Option Sink) (before data : Text) (append : Bool) (fuel : ℕ) :
    Exec (ZenitError × Text) :=
  match opened with
  | none => .ok (.notFound, before)
  | some fd => do
    let (written, out) ← writeLoop fd data data.length fuel 0 ⟨if append then before else [], 0⟩
    return (if written then .ok else .size, out.contents)

def zenitFileWrite (opened : Option Sink) (before data : Text) (fuel : ℕ) :
    Exec (ZenitError × Text) := fileWriteImpl opened before data false fuel

def zenitFileAppend (opened : Option Sink) (before data : Text) (fuel : ℕ) :
    Exec (ZenitError × Text) := fileWriteImpl opened before data true fuel

/-- `IO_COPY_BUF_SIZE` -/
def ioCopyBufSize : ℕ := 65536

/-- The loop on `read(2)`, with the code that the copy returns. -/
def copyLoop (src : Descriptor) (dst : Sink) : ℕ → ℕ → Text → Output → Exec (ZenitError × Output)
  | 0, _, _, _ => .error .hang
  | fuel + 1, reads, buf, out =>
    match src.read reads ioCopyBufSize with
    | none => .ok (.notFound, out)
    | some data =>
      if data.length = 0 then .ok (.ok, out)
      else do
        let buf ← writeSlots buf 0 data
        let (written, out) ← writeLoop dst buf data.length fuel 0 out
        if written then copyLoop src dst fuel (reads + 1) buf out else return (.size, out)

/-- The two paths name different files. -/
def zenitFileCopy (src : Option Descriptor) (dst : Option Sink) (before : Text) (fill : UInt8)
    (fuel : ℕ) : Exec (ZenitError × Text) :=
  match src, dst with
  | none, _ => .ok (.notFound, before)
  | some _, none => .ok (.notFound, before)
  | some src, some dst => do
    let (code, out) ← copyLoop src dst fuel 0 (List.replicate ioCopyBufSize fill) ⟨[], 0⟩
    return (code, out.contents)

end LibZenit.Io
