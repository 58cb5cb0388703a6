import LibZenit.ArenaModel

/-!
# Runs of a client of one usable arena

A session pairs the world with the buffers the client holds. Besides allocating and freeing, the
client may store bytes into the payloads it owns between any two calls.
-/
namespace LibZenit.Arena
open ByteMemory

structure Session where
  world : World
  live : List UsableBuffer

inductive Op where
  | allocate (size : ℕ)
  | free (buf : UsableBuffer)
  | store (addr : ℕ) (byte : UInt8)
  deriving DecidableEq, Repr

/-- The bytes of a live payload. -/
def Owns (live : List UsableBuffer) (addr : ℕ) : Prop :=
  ∃ buf ∈ live, buf.data ≤ addr ∧ addr < buf.data + buf.size

instance (live : List UsableBuffer) (addr : ℕ) : Decidable (Owns live addr) :=
  inferInstanceAs (Decidable (∃ buf ∈ live, buf.data ≤ addr ∧ addr < buf.data + buf.size))

/-- One client action. There is no result when the action is not allowed, or when the fuel does
not suffice for the walk over the free list. -/
def exec (uaPtr fuel : ℕ) (s : Session) : Op → Option Session
  | .allocate size =>
    if size ≤ sizeMax then
      match usableArenaAllocate fuel s.world uaPtr size with
      | none => none
      | some (w, buf) => some ⟨w, if buf.data = 0 then s.live else buf :: s.live⟩
    else none
  | .free buf =>
    if buf ∈ s.live then
      match usableBufferFree s.world (some buf) with
      | none => none
      | some (w, _) => some ⟨w, s.live.erase buf⟩
    else none
  | .store addr byte =>
    if Owns s.live addr then
      some { s with world := { s.world with mem := Function.update s.world.mem addr byte } }
    else none

def execAll (uaPtr fuel : ℕ) (s : Session) (ops : List Op) : Option Session :=
  ops.foldlM (exec uaPtr fuel) s

/-- All runs whose actions meet `cond` in the state they start from. -/
inductive Run (uaPtr : ℕ) (cond : Session → Op → Prop) : Session → Session → Prop
  | refl (s : Session) : Run uaPtr cond s s
  | step {s t u : Session} {op : Op} {fuel : ℕ} (prior : Run uaPtr cond s t) (met : cond t op)
      (done : exec uaPtr fuel t op = some u) : Run uaPtr cond s u

/-- The block size of a request does not wrap, or the request is refused as too large. -/
def NoWrap : Session → Op → Prop
  | _, .allocate size =>
    alignUp size = sizeMax ∨ headerSize + alignUp size + footerSize ≤ sizeMax
  | _, _ => True

/-- Footer and header of the block before `h` both say that it is free: the test under which
`zenit_usable_buffer_free` merges backwards. -/
def PrecededByFree (m : Memory) (ua : UsableArena) (h : ℕ) : Prop :=
  h > ua.memory ∧ fState m (h - footerSize) = bufFree ∧
    hState m (h - fSize m (h - footerSize)) = bufFree

/-- A freed buffer does not stand right behind a free block. -/
def NoBackwardMerge (uaPtr : ℕ) : Session → Op → Prop
  | s, .free buf => ∀ ua, s.world.handles uaPtr = some ua →
      ¬PrecededByFree s.world.mem ua (buf.data - headerSize)
  | _, _ => True

def blockStart (buf : UsableBuffer) : ℕ := buf.data - headerSize

/-- One past the last byte of the footer. -/
def blockEnd (m : Memory) (buf : UsableBuffer) : ℕ := blockStart buf + hSize m (blockStart buf)

/-- Header, payload and footer of two buffers share no byte. -/
def Apart (m : Memory) (a b : UsableBuffer) : Prop :=
  blockEnd m a ≤ blockStart b ∨ blockEnd m b ≤ blockStart a

instance (m : Memory) (a b : UsableBuffer) : Decidable (Apart m a b) :=
  inferInstanceAs (Decidable (_ ∨ _))

end LibZenit.Arena
