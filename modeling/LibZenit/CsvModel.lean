import LibZenit.Blocks

/-!
# Records of `csv.c`

A pointer into the line is the rest of the memory it points to, the terminating NUL included; a
read behind that memory is a fault, and so is a write behind the capacity of a buffer. The world
keeps the outcome of every request to the allocator, and a trace of what became of the blocks.
-/
namespace LibZenit.Csv

abbrev Text := List UInt8

def chTab : UInt8 := 9
def chNewline : UInt8 := 10
def chReturn : UInt8 := 13
def chSpace : UInt8 := 32
def chQuote : UInt8 := 34

/-! ## The allocator -/

/-- Blocks go back through the allocator or, past it, through `free`. -/
inductive Event where
  | alloc (block : ℕ)
  | free (block : ℕ)
  | libcFree (block : ℕ)
  deriving DecidableEq, Repr

/-- `ok n` is the outcome of the request `n`, which also names the block. -/
structure World where
  ok : ℕ → Bool
  requests : ℕ
  trace : List Event

def World.alloc (w : World) : World × Option ℕ :=
  if w.ok w.requests then
    ({ w with requests := w.requests + 1, trace := .alloc w.requests :: w.trace }, some w.requests)
  else ({ w with requests := w.requests + 1 }, none)

def World.free (w : World) (block : ℕ) : World := { w with trace := .free block :: w.trace }

def World.libcFree (w : World) (block : ℕ) : World := { w with trace := .libcFree block :: w.trace }

/-- The old block is given back when there is a new one. -/
def World.realloc (w : World) (block : ℕ) : World × Option ℕ :=
  match w.alloc with
  | (w, some new) => (w.free block, some new)
  | (w, none) => (w, none)

/-- The bytes written so far, in a block of `cap` bytes. -/
structure Buffer where
  block : ℕ
  cap : ℕ
  bytes : Text

/-- `buf[len++] = c` -/
def Buffer.put (buf : Buffer) (c : UInt8) : Exec Buffer :=
  if buf.bytes.length < buf.cap then .ok { buf with bytes := buf.bytes ++ [c] }
  else .error .outOfBounds

/-- `memcpy(buf + len, s, strlen(s)); len += strlen(s)` -/
def Buffer.putAll (buf : Buffer) (s : Text) : Exec Buffer :=
  if buf.bytes.length + s.length ≤ buf.cap then .ok { buf with bytes := buf.bytes ++ s }
  else .error .outOfBounds

/-- `buf[len] = '\0'` -/
def Buffer.terminate (buf : Buffer) : Exec Buffer :=
  if buf.bytes.length < buf.cap then .ok buf else .error .outOfBounds

/-- The array `fields` has `cap` entries, of which `count` are set. -/
structure Record where
  block : ℕ
  cap : ℕ
  fields : List Buffer

/-- The new world, and nothing if the call has failed for lack of memory. -/
abbrev Step (α : Type) := Exec (World × Option α)

def andThen {α β : Type} (x : Step α) (f : World → α → Step β) : Step β :=
  x.bind fun r => r.2.elim (.ok (r.1, none)) (f r.1)

/-! ## Growing -/

def zenitCsvRecordDestroy (w : World) (out : Record) : World :=
  (out.fields.foldl (fun w field => w.libcFree field.block) w).libcFree out.block

/-- The old size is passed as half of the new one, so that many bytes are kept. -/
def growBuf (out : Record) (w : World) (buf : Buffer) (newCap : ℕ) : World × Option Buffer :=
  match w.realloc buf.block with
  | (w, some block) => (w, some ⟨block, newCap, buf.bytes.take (newCap / 2)⟩)
  | (w, none) => (zenitCsvRecordDestroy (w.free buf.block) out, none)

def bufAppend (out : Record) (w : World) (buf : Buffer) (c : UInt8) : Step Buffer :=
  andThen (.ok (if buf.bytes.length + 1 ≥ buf.cap then growBuf out w buf (buf.cap * 2)
    else (w, some buf)))
  fun w buf => (buf.put c).map fun buf => (w, some buf)

def growFields (w : World) (out : Record) : World × Option Record :=
  match w.realloc out.block with
  | (w, some block) => (w, some { out with block := block, cap := out.cap * 2 })
  | (w, none) => (zenitCsvRecordDestroy w out, none)

/-! ## Reading a field -/

/-- The loop behind the opening quote. -/
def readQuoted (out : Record) : Text → World → Buffer → Step (Buffer × Text)
  | [], _, _ => .error .outOfBounds
  | c :: p, w, buf =>
    if c = 0 then .ok (w, some (buf, c :: p))
    else if c ≠ chQuote then andThen (bufAppend out w buf c) (readQuoted out p)
    else match p with
      | [] => .error .outOfBounds
      | d :: p =>
        if d = chQuote then andThen (bufAppend out w buf chQuote) (readQuoted out p)
        else .ok (w, some (buf, d :: p))

def readUnquoted (out : Record) (delim : UInt8) : Text → World → Buffer → Step (Buffer × Text)
  | [], _, _ => .error .outOfBounds
  | c :: p, w, buf =>
    if c ≠ 0 ∧ c ≠ delim ∧ c ≠ chNewline ∧ c ≠ chReturn then
      andThen (bufAppend out w buf c) (readUnquoted out delim p)
    else .ok (w, some (buf, c :: p))

def readField (out : Record) (delim : UInt8) : Text → World → Buffer → Step (Buffer × Text)
  | [], _, _ => .error .outOfBounds
  | c :: p, w, buf =>
    if c = chQuote then readQuoted out p w buf else readUnquoted out delim (c :: p) w buf

/-! ## Parsing -/

def newBuffer (out : Record) (w : World) : World × Option Buffer :=
  match w.alloc with
  | (w, some block) => (w, some ⟨block, 64, []⟩)
  | (w, none) => (zenitCsvRecordDestroy w out, none)

def finishBuffer (out : Record) (w : World) (buf : Buffer) : Step Buffer :=
  andThen (.ok (if buf.bytes.length ≥ buf.cap then growBuf out w buf (buf.cap + 1)
    else (w, some buf)))
  fun w buf => buf.terminate.map fun buf => (w, some buf)

/-- `out->fields[fi] = buf; out->count = ++fi` -/
def storeField (out : Record) (buf : Buffer) : Exec Record :=
  if out.fields.length < out.cap then .ok { out with fields := out.fields ++ [buf] }
  else .error .outOfBounds

/-- `while (1)` -/
def parseLoop (delim : UInt8) : ℕ → World → Record → Text → Step Record
  | 0, _, _, _ => .error .hang
  | fuel + 1, w, out, p =>
    andThen (.ok (if out.fields.length ≥ out.cap then growFields w out else (w, some out)))
      fun w out =>
    andThen (.ok (newBuffer out w)) fun w buf =>
    andThen (readField out delim p w buf) fun w r =>
    andThen (finishBuffer out w r.1) fun w buf =>
    (storeField out buf).bind fun out =>
    match r.2 with
    | [] => .error .outOfBounds
    | c :: p => if c = delim then parseLoop delim fuel w out p else .ok (w, some out)

/-- Without a record, `fields` is `NULL` and `count` zero. -/
def zenitCsvParseRecord (w : World) (line : Text) (delim : UInt8) :
    Exec (World × Option Record × ZenitError) :=
  match w.alloc with
  | (w, none) => .ok (w, none, .alloc)
  | (w, some block) =>
    (parseLoop delim (line.length + 1) w ⟨block, 8, []⟩ line).map fun r =>
      (r.1, r.2, if r.2.isSome then .ok else .alloc)

/-! ## Serialising -/

def isBlank (c : UInt8) : Bool := c == chSpace || c == chTab

def isSpecial (delim c : UInt8) : Bool :=
  c == delim || c == chQuote || c == chNewline || c == chReturn

def needsQuoting (s : Text) (delim : UInt8) : Bool :=
  s.isEmpty || s.head?.any isBlank || s.getLast?.any isBlank || s.any (isSpecial delim)

def serialisedFieldLen (s : Text) (delim : UInt8) : ℕ :=
  if needsQuoting s delim then
    s.foldl (fun n c => (if c = chQuote then n + 1 else n) + 1) 2
  else s.length

def putEscaped (buf : Buffer) (c : UInt8) : Exec Buffer :=
  (if c = chQuote then buf.put chQuote else .ok buf).bind (Buffer.put · c)

def serialisedFieldWrite (s : Text) (delim : UInt8) (buf : Buffer) : Exec Buffer :=
  if needsQuoting s delim then
    (buf.put chQuote).bind fun buf => (s.foldlM putEscaped buf).bind (Buffer.put · chQuote)
  else buf.putAll s

/-- The bytes of the fields from the index `i` on, with the delimiters in front of them. -/
def serialisedLen (delim : UInt8) : ℕ → List Text → ℕ
  | _, [] => 0
  | i, s :: fields =>
    (if i > 0 then 1 else 0) + serialisedFieldLen s delim + serialisedLen delim (i + 1) fields

def writeFields (delim : UInt8) : ℕ → List Text → Buffer → Exec Buffer
  | _, [], buf => .ok buf
  | i, s :: fields, buf =>
    (if i > 0 then buf.put delim else .ok buf).bind fun buf =>
    (serialisedFieldWrite s delim buf).bind (writeFields delim (i + 1) fields)

/-- The size of the block is a natural number here. For a record in memory the sum of the code in
`size_t` comes to the same, which `CsvSerialiser` shows. -/
def zenitCsvSerialiseRecord (w : World) (fields : List Text) (delim : UInt8) :
    Exec (World × Option Buffer × ZenitError) :=
  match w.alloc with
  | (w, none) => .ok (w, none, .alloc)
  | (w, some block) =>
    (writeFields delim 0 fields ⟨block, serialisedLen delim 0 fields + 1, []⟩).bind fun buf =>
      buf.terminate.map fun buf => (w, some buf, .ok)

end LibZenit.Csv
