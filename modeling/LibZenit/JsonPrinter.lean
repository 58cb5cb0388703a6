import LibZenit.JsonOwnRequests
import LibZenit.JsonRoundTrip

/-!
# The serializer of `json.c` on the records of a document

The same texts as in `JsonSerializer`, read from the records with every access that this takes and
written to a string that asks for memory as it grows. An array may be an item of itself, and then
there is no end to the text: the fuel bounds the depth.

While it is written to the string owns its blocks. A part of the serializer appends its text, or one
of its own requests was refused.
-/
namespace LibZenit.JsonHeap
open Json BlockLedger

section String

variable {D : Type} (a : Allocator)

/-- A string: its handle, the handle of its vector, the block of the vector with its capacity, and
the bytes before the terminator. -/
structure OutString where
  handle : ℕ
  vec : ℕ
  buffer : ℕ
  capacity : ℕ
  text : List UInt8

/-- The heap and the string that is written to. -/
structure Printing (D : Type) where
  heap : Heap D
  out : OutString

def Printing.use (b : ℕ) (st : Printing D) : Printing D := { st with heap := st.heap.use b }

def Printing.usePtr (p : Option ℕ) (st : Printing D) : Printing D :=
  { st with heap := st.heap.usePtr p }

/-- The vector gets its first block, of eight bytes, with the terminator. -/
def stringCreateEmpty (h : Heap D) : Option OutString × Heap D :=
  match h.alloc a with
  | (none, h) => (none, h)
  | (some handle, h) =>
    match (h.use handle).alloc a with
    | (none, h) => (none, h.free handle)
    | (some vec, h) =>
      match ((h.use vec).use handle).alloc a with
      | (none, h) => (none, ((h.use vec).free vec).free handle)
      | (some buffer, h) => (some ⟨handle, vec, buffer, 8, []⟩, (h.use vec).use buffer)

/-- The block first, then the vector, then the handle. -/
def zenitStringDestroy (s : OutString) (h : Heap D) : Heap D :=
  (((((h.use s.handle).use s.vec).free s.buffer).free s.vec).use s.handle).free s.handle

def zenitVectorReserve (capacity : ℕ) (st : Printing D) : Option OutString × Heap D :=
  if capacity ≤ st.out.capacity then (some st.out, st.heap)
  else
    match st.heap.realloc a st.out.buffer with
    | (none, h) => (none, h)
    | (some buffer, h) => (some { st.out with buffer := buffer, capacity := capacity }, h)

/-- Room is reserved for all bytes and the terminator, so that no push has to grow the vector. A sum
that exceeds `size_t` is out of scope. -/
def zenitStringAppend (data : List UInt8) (st : Printing D) : Outcome Unit × Printing D :=
  if data = [] then (.ok (), st)
  else
    let needed := st.out.text.length + 1 + data.length
    if needed < 2 ^ 64 then
      match zenitVectorReserve a needed ((st.use st.out.handle).use st.out.vec) with
      | (none, h) => (.fail, ⟨h, st.out⟩)
      | (some s, h) => (.ok (), ⟨(h.use s.vec).use s.buffer, { s with text := s.text ++ data }⟩)
    else (.stuck, st)

/-- `if (!…) { return 0; }` between two parts. -/
def andThen (res : Outcome Unit × Printing D) (next : Printing D → Outcome Unit × Printing D) :
    Outcome Unit × Printing D :=
  match res with
  | (.ok (), st) => next st
  | (.fail, st) => (.fail, st)
  | (.stuck, st) => (.stuck, st)

def serializeEscapeChar (c : UInt8) (st : Printing D) : Outcome Unit × Printing D :=
  zenitStringAppend a (Json.serializeEscapeChar c []) st

/-- The loop of `string_escape_into`, up to the terminating zero. -/
def escapeChars : List UInt8 → Printing D → Outcome Unit × Printing D
  | [], st => (.ok (), st)
  | c :: s, st =>
    if c = 0 then (.ok (), st)
    else andThen (serializeEscapeChar a c st) (escapeChars s)

def stringEscapeInto (s : CString) (st : Printing D) : Outcome Unit × Printing D :=
  andThen (zenitStringAppend a [chQuote] st) fun st =>
    andThen (escapeChars a s.text (st.use s.block)) (zenitStringAppend a [chQuote])

end String

section Print

variable {D : Type} (a : Allocator) (formatNumber : D → List UInt8)

/-- How to append the text of a value, given by its pointer. -/
abbrev Printer (D : Type) : Type := Option ℕ → Printing D → Outcome Unit × Printing D

/-- The comma in front of every item but the first. -/
def separate (i : ℕ) (st : Printing D) : Outcome Unit × Printing D :=
  if i > 0 then zenitStringAppend a [chComma] st else (.ok (), st)

/-- The loop of `serialize_array` from index `i` on. -/
def serializeItems (value : Printer D) (block : Option ℕ) :
    List ℕ → ℕ → Printing D → Outcome Unit × Printing D
  | [], _, st => (.ok (), st)
  | b :: bs, i, st =>
    andThen (separate a i st) fun st =>
      andThen (value (some b) (st.usePtr block)) (serializeItems value block bs (i + 1))

/-- The loop of `serialize_object` from index `i` on. -/
def serializeMembers (value : Printer D) (keys values : Option ℕ) :
    List (CString × ℕ) → ℕ → Printing D → Outcome Unit × Printing D
  | [], _, st => (.ok (), st)
  | (k, b) :: ms, i, st =>
    andThen (separate a i st) fun st =>
      andThen (stringEscapeInto a k (st.usePtr keys)) fun st =>
        andThen (zenitStringAppend a [chColon] st) fun st =>
          andThen (value (some b) (st.usePtr values))
            (serializeMembers value keys values ms (i + 1))

def serializeArray (value : Printer D) (r : ArrayRec) (st : Printing D) :
    Outcome Unit × Printing D :=
  andThen (zenitStringAppend a [chLBracket] st) fun st =>
    andThen (serializeItems a value r.block r.items.items 0 st) (zenitStringAppend a [chRBracket])

def serializeObject (value : Printer D) (r : ObjectRec) (st : Printing D) :
    Outcome Unit × Printing D :=
  andThen (zenitStringAppend a [chLBrace] st) fun st =>
    andThen (serializeMembers a value r.keys r.values r.members.items 0 st)
      (zenitStringAppend a [chRBrace])

/-- `value_serialize_into`. A number without a value and a string without bytes have no text. -/
def valueSerializeInto : ℕ → Printer D
  | _, none, st => zenitStringAppend a wordNull st
  | 0, some _, st => (.stuck, st)
  | fuel + 1, some b, st =>
    let st := st.use b
    match (st.heap.nodes b).payload with
    | .null => zenitStringAppend a wordNull st
    | .bool v => zenitStringAppend a (if v then wordTrue else wordFalse) st
    | .num none => (.stuck, st)
    | .num (some d) => zenitStringAppend a (formatNumber d) st
    | .str none => (.stuck, st.usePtr none)
    | .str (some s) => stringEscapeInto a s st
    | .arr r => serializeArray a (valueSerializeInto fuel) r st
    | .obj r => serializeObject a (valueSerializeInto fuel) r st

/-- The text, copied up to the first zero byte to a block of the caller, or `fail` for `NULL`. -/
def zenitJsonValueSerializeWithAllocator (fuel : ℕ) (val : Option ℕ) (h : Heap D) :
    Outcome CString × Heap D :=
  match stringCreateEmpty a h with
  | (none, h) => (.fail, h)
  | (some s, h) =>
    match valueSerializeInto a formatNumber fuel val ⟨h, s⟩ with
    | (.stuck, st) => (.stuck, st.heap)
    | (.fail, st) => (.fail, zenitStringDestroy st.out st.heap)
    | (.ok (), st) =>
      let st := ((st.use st.out.handle).use st.out.vec).use st.out.buffer
      match strDup a st.out.text st.heap with
      | (none, h) => (.fail, zenitStringDestroy st.out h)
      | (some result, h) => (.ok result, zenitStringDestroy st.out h)

/-- `zenit_json_serialize` is this with the default allocator. -/
def zenitJsonSerializeWithAllocator (fuel : ℕ) (h : Heap D) : Outcome CString × Heap D :=
  let h := h.use h.doc
  match h.root with
  | none => (.fail, h)
  | some root => zenitJsonValueSerializeWithAllocator a formatNumber fuel (some root) h

end Print

/-! ## Filling the string -/

section Filling

variable {D : Type} {doc : Heap D} {xs : List ℕ} {m : Multiset ℕ} {a : Allocator}
  {st : Printing D}

def OutString.blocks (s : OutString) : Multiset ℕ := {s.handle} + {s.vec} + {s.buffer}

/-- During the printing of the document only the ledger changes; the string owns its blocks. -/
structure Filling (doc : Heap D) (xs : List ℕ) (m : Multiset ℕ) (st : Printing D) : Prop where
  owns : Owns st.heap.ledger ({doc.doc} + total doc.nodes xs + (st.out.blocks + m))
  heap : st.heap = { doc with ledger := st.heap.ledger }

/-- The text and its terminator have a size. -/
def Fits (text : List UInt8) : Prop := text.length + 1 < 2 ^ 64

theorem Fits.of_prefix {t t' : List UInt8} (h : Fits t') (hpre : t <+: t') : Fits t := by
  have hle := hpre.length_le
  unfold Fits at h ⊢
  omega

/-- What a part of the serializer may do: it ends in a text as `Q` says, or one of its own requests
was refused, or it is stuck, and then `S`. -/
structure Outcomes (a : Allocator) (doc : Heap D) (xs : List ℕ) (m : Multiset ℕ) (st : Printing D)
    (r : Outcome Unit × Printing D) (Q : List UInt8 → Prop) (S : Prop) : Prop where
  fills : Filling doc xs m r.2
  le : st.heap.ledger.requests ≤ r.2.heap.ledger.requests
  ok : r.1 = .ok () → Q r.2.out.text
  fail : r.1 = .fail → Refused a st.heap.ledger r.2.heap.ledger
  stuck : r.1 = .stuck → S

variable {r : Outcome Unit × Printing D} {Q Q' : List UInt8 → Prop} {S S' : Prop}
  {next : Printing D → Outcome Unit × Printing D}

theorem Outcomes.done (hst : Filling doc xs m st) (hQ : Q st.out.text) :
    Outcomes a doc xs m st (.ok (), st) Q S :=
  ⟨hst, le_rfl, fun _ => hQ, nofun, nofun⟩

theorem Outcomes.stop (hst : Filling doc xs m st) (hS : S) :
    Outcomes a doc xs m st (.stuck, st) Q S :=
  ⟨hst, le_rfl, nofun, nofun, fun _ => hS⟩

theorem Outcomes.imp (h : Outcomes a doc xs m st r Q S) (hQ : ∀ t, Q t → Q' t) (hS : S → S') :
    Outcomes a doc xs m st r Q' S' :=
  ⟨h.fills, h.le, fun hr => hQ _ (h.ok hr), h.fail, fun hr => hS (h.stuck hr)⟩

/-- One part after the other. -/
theorem Outcomes.andThen (h : Outcomes a doc xs m st r Q S) (hS : S → S')
    (hnext : ∀ st', Filling doc xs m st' → Q st'.out.text →
      Outcomes a doc xs m st' (next st') Q' S') :
    Outcomes a doc xs m st (JsonHeap.andThen r next) Q' S' := by
  obtain ⟨hfills, hle, hok, hfail, hstuck⟩ := h
  rcases r with ⟨_ | _ | ⟨⟩, st'⟩
  · exact ⟨hfills, hle, nofun, nofun, fun _ => hS (hstuck rfl)⟩
  · exact ⟨hfills, hle, nofun, fun _ => hfail rfl, nofun⟩
  · obtain ⟨hfills', hle', hok', hfail', hstuck'⟩ := hnext st' hfills (hok rfl)
    refine ⟨hfills', hle.trans hle', hok', fun hr => ?_, hstuck'⟩
    exact (hfail' hr).mono hle

theorem Filling.use {b : ℕ} (hst : Filling doc xs m st)
    (hb : b ∈ {doc.doc} + total doc.nodes xs + (st.out.blocks + m)) : st.use b = st := by
  unfold Printing.use Heap.use
  rw [hst.owns.use hb]

/-- Room for `capacity` bytes, or a refusal. -/
theorem Filling.reserve (hst : Filling doc xs m st) (a : Allocator) (capacity : ℕ) :
    (∃ h', zenitVectorReserve a capacity st = (none, h') ∧ Filling doc xs m ⟨h', st.out⟩ ∧
        Refused a st.heap.ledger h'.ledger) ∨
      ∃ s h', zenitVectorReserve a capacity st = (some s, h') ∧ Filling doc xs m ⟨h', s⟩ ∧
        s.text = st.out.text ∧ st.heap.ledger.requests ≤ h'.ledger.requests := by
  unfold zenitVectorReserve
  split_ifs
  · exact Or.inr ⟨_, _, rfl, hst, rfl, le_rfl⟩
  · have hl : Owns st.heap.ledger ({st.out.buffer} +
        ({doc.doc} + total doc.nodes xs + ({st.out.handle} + {st.out.vec} + m))) := by
      refine hst.owns.congr ?_
      unfold OutString.blocks
      abel
    rcases realloc_cases hl a with ⟨l, heq, hl', hrefused⟩ | ⟨c, l, heq, hl', hle⟩
    · rw [heq]
      refine Or.inl ⟨_, rfl, ⟨hl'.congr ?_, ?_⟩, hrefused⟩
      · unfold OutString.blocks
        abel
      · dsimp only
        rw [hst.heap]
    · rw [heq]
      refine Or.inr ⟨_, _, rfl, ⟨hl'.congr ?_, ?_⟩, rfl, hle⟩
      · unfold OutString.blocks
        abel
      · dsimp only
        rw [hst.heap]

/-- An append adds the bytes, or it is refused; it is stuck only when they do not fit. -/
theorem Filling.append (hst : Filling doc xs m st) (a : Allocator) (data : List UInt8) :
    Outcomes a doc xs m st (zenitStringAppend a data st) (· = st.out.text ++ data)
      (¬ Fits (st.out.text ++ data)) := by
  unfold zenitStringAppend
  by_cases hdata : data = []
  · rw [if_pos hdata]
    exact .done hst (by simp [hdata])
  rw [if_neg hdata]
  dsimp only
  by_cases hfits : st.out.text.length + 1 + data.length < 2 ^ 64
  · have huse : (st.use st.out.handle).use st.out.vec = st := by
      rw [hst.use (by simp [OutString.blocks]), hst.use (by simp [OutString.blocks])]
    rw [if_pos hfits, huse]
    rcases hst.reserve a (st.out.text.length + 1 + data.length) with
      ⟨h', heq, hst', hrefused⟩ | ⟨s, h', heq, hst', htext, hle⟩
    · rw [heq]
      exact ⟨hst', hrefused.le, nofun, fun _ => hrefused, nofun⟩
    · have hvec : h'.use s.vec = h' := congrArg Printing.heap (hst'.use (b := s.vec)
        (by simp [OutString.blocks]))
      have hbuffer : h'.use s.buffer = h' := congrArg Printing.heap (hst'.use (b := s.buffer)
        (by simp [OutString.blocks]))
      simp only [heq, hvec, hbuffer]
      exact ⟨⟨hst'.owns, hst'.heap⟩, hle, fun _ => by rw [htext], nofun, nofun⟩
  · rw [if_neg hfits]
    refine .stop hst fun h => hfits ?_
    unfold Fits at h
    simp only [List.length_append] at h
    omega

/-! ## Strings and separators -/

theorem Filling.escapeChars (hst : Filling doc xs m st) (a : Allocator) (s : List UInt8) :
    Outcomes a doc xs m st (JsonHeap.escapeChars a s st) (· = Json.escapeChars s st.out.text)
      (¬ Fits (Json.escapeChars s st.out.text)) := by
  induction s generalizing st with
  | nil => exact .done hst rfl
  | cons c s ih =>
    rw [JsonHeap.escapeChars, Json.escapeChars]
    split_ifs
    · exact .done hst rfl
    · have hpre : st.out.text ++ Json.serializeEscapeChar c [] <+:
          Json.escapeChars s (Json.serializeEscapeChar c st.out.text) := by
        rw [escapeChars_eq, serializeEscapeChar_eq c st.out.text]
        exact List.prefix_append _ _
      refine (hst.append a _).andThen (fun hno hfits => hno (hfits.of_prefix hpre))
        fun st' hst' htext => ?_
      rw [serializeEscapeChar_eq, ← htext]
      exact ih hst'

/-- The bytes of a string are read from a block of the document. -/
theorem Filling.stringEscapeInto (hst : Filling doc xs m st) (a : Allocator) {s : CString}
    (hs : s.block ∈ total doc.nodes xs) :
    Outcomes a doc xs m st (JsonHeap.stringEscapeInto a s st)
      (· = Json.stringEscapeInto s.text st.out.text)
      (¬ Fits (Json.stringEscapeInto s.text st.out.text)) := by
  have hpre : st.out.text ++ [chQuote] <+: Json.escapeChars s.text (st.out.text ++ [chQuote]) := by
    rw [escapeChars_eq]
    exact List.prefix_append _ _
  have hlast : Json.escapeChars s.text (st.out.text ++ [chQuote]) <+:
      Json.stringEscapeInto s.text st.out.text := List.prefix_append _ _
  unfold JsonHeap.stringEscapeInto
  refine (hst.append a _).andThen (fun hno hfits => hno (hfits.of_prefix (hpre.trans hlast)))
    fun st₁ hst₁ htext₁ => ?_
  rw [hst₁.use (by simp [hs])]
  rw [← htext₁] at hlast
  refine (hst₁.escapeChars a _).andThen (fun hno hfits => hno (hfits.of_prefix hlast))
    fun st₂ hst₂ htext₂ => ?_
  have hend := hst₂.append a [chQuote]
  rwa [htext₂, htext₁] at hend

theorem Filling.separate (hst : Filling doc xs m st) (a : Allocator) (i : ℕ) :
    Outcomes a doc xs m st (JsonHeap.separate a i st)
      (· = if i > 0 then st.out.text ++ [chComma] else st.out.text)
      (¬ Fits (if i > 0 then st.out.text ++ [chComma] else st.out.text)) := by
  unfold JsonHeap.separate
  split_ifs
  · exact hst.append a _
  · exact .done hst rfl

/-! ## The life of the string -/

theorem use_owned {b : ℕ} {h : Heap D} (hl : Owns h.ledger m) (hb : b ∈ m) : h.use b = h := by
  unfold Heap.use
  rw [hl.use hb]

/-- An empty string is made, or a request is refused and everything is given back. -/
theorem stringCreateEmpty_cases
    (hl : Owns doc.ledger ({doc.doc} + total doc.nodes xs + m)) (a : Allocator) :
    (∃ l, JsonHeap.stringCreateEmpty a doc = (none, { doc with ledger := l }) ∧
        Owns l ({doc.doc} + total doc.nodes xs + m) ∧ Refused a doc.ledger l) ∨
      ∃ s h', JsonHeap.stringCreateEmpty a doc = (some s, h') ∧ Filling doc xs m ⟨h', s⟩ ∧
        s.text = [] ∧ doc.ledger.requests ≤ h'.ledger.requests := by
  unfold JsonHeap.stringCreateEmpty
  rcases alloc_cases hl a with ⟨l₁, heq₁, hl₁, hr₁⟩ | ⟨handle, l₁, heq₁, hl₁, hle₁⟩
  · rw [heq₁]
    exact Or.inl ⟨l₁, rfl, hl₁, hr₁⟩
  simp only [heq₁]
  rw [use_owned (h := { doc with ledger := l₁ }) hl₁ (by simp)]
  rcases alloc_cases (h := { doc with ledger := l₁ }) hl₁ a with
    ⟨l₂, heq₂, hl₂, hr₂⟩ | ⟨vec, l₂, heq₂, hl₂, hle₂⟩
  · simp only [heq₂]
    exact Or.inl ⟨l₂.free handle, rfl, hl₂.free, (hr₂.mono hle₁).congr requests_free_ledger⟩
  simp only [heq₂]
  rw [use_owned (h := { doc with ledger := l₂ }) hl₂ (by simp),
    use_owned (h := { doc with ledger := l₂ }) hl₂ (by simp)]
  rcases alloc_cases (h := { doc with ledger := l₂ }) hl₂ a with
    ⟨l₃, heq₃, hl₃, hr₃⟩ | ⟨buffer, l₃, heq₃, hl₃, hle₃⟩
  · simp only [heq₃]
    rw [use_owned (h := { doc with ledger := l₃ }) hl₃ (by simp)]
    refine Or.inl ⟨(l₃.free vec).free handle, rfl, hl₃.free.free, ?_⟩
    exact (hr₃.mono (hle₁.trans hle₂)).congr (requests_free_ledger.trans requests_free_ledger)
  · simp only [heq₃]
    rw [use_owned (h := { doc with ledger := l₃ }) hl₃ (by simp),
      use_owned (h := { doc with ledger := l₃ }) hl₃ (by simp)]
    refine Or.inr ⟨_, _, rfl, ⟨hl₃.congr ?_, rfl⟩, rfl, hle₁.trans (hle₂.trans hle₃)⟩
    unfold OutString.blocks
    abel

/-- The string gives its blocks back. -/
theorem Filling.destroy {st : Printing D} (hst : Filling doc xs m st) :
    ∃ l, zenitStringDestroy st.out st.heap = { doc with ledger := l } ∧
      Owns l ({doc.doc} + total doc.nodes xs + m) ∧ l.requests = st.heap.ledger.requests := by
  have hbuffer : Owns st.heap.ledger ({st.out.buffer} + ({st.out.vec} + ({st.out.handle} +
      ({doc.doc} + total doc.nodes xs + m)))) := by
    refine hst.owns.congr ?_
    unfold OutString.blocks
    abel
  have hvec : Owns (st.heap.free st.out.buffer).ledger _ := hbuffer.free
  have hhandle : Owns ((st.heap.free st.out.buffer).free st.out.vec).ledger _ := hvec.free
  unfold zenitStringDestroy
  rw [use_owned hst.owns (by simp [OutString.blocks]),
    use_owned hst.owns (by simp [OutString.blocks]), use_owned hhandle (by simp)]
  refine ⟨_, ?_, hhandle.free, ?_⟩
  · rw [hst.heap]
    rfl
  · simp [requests_free_ledger]

/-- The copy for the caller, or a refusal. -/
theorem Filling.strDup {st : Printing D} (hst : Filling doc xs m st) (a : Allocator)
    (text : List UInt8) :
    (∃ h', JsonHeap.strDup a text st.heap = (none, h') ∧ Filling doc xs m ⟨h', st.out⟩ ∧
        Refused a st.heap.ledger h'.ledger) ∨
      ∃ c h', JsonHeap.strDup a text st.heap = (some ⟨c, cstr text⟩, h') ∧
        Filling doc xs ({c} + m) ⟨h', st.out⟩ := by
  unfold JsonHeap.strDup
  rcases alloc_cases hst.owns a with ⟨l, heq, hl, hrefused⟩ | ⟨c, l, heq, hl, -⟩
  · rw [heq]
    refine Or.inl ⟨_, rfl, ⟨hl, ?_⟩, hrefused⟩
    rw [hst.heap]
  · simp only [heq]
    rw [use_owned (h := { st.heap with ledger := l }) hl (by simp)]
    refine Or.inr ⟨c, _, rfl, hl.congr ?_, ?_⟩
    · dsimp only
      abel
    · rw [hst.heap]

end Filling

end LibZenit.JsonHeap
