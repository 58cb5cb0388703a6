import LibZenit.CsvModel

/-!
# What the serialiser writes

The first pass of `zenit_csv_serialise_record` counts the bytes that the second one writes.
-/
namespace LibZenit.Csv

variable {buf : Buffer} {delim : UInt8} {s : Text}

/-! ## The text of a record -/

/-- Every quote is written twice. -/
def escape (s : Text) : Text := s.flatMap fun c => if c = chQuote then [chQuote, chQuote] else [c]

def fieldText (delim : UInt8) (s : Text) : Text :=
  if needsQuoting s delim then chQuote :: (escape s ++ [chQuote]) else s

/-- The fields behind a delimiter each. -/
def tailText (delim : UInt8) (fields : List Text) : Text :=
  fields.flatMap fun s => delim :: fieldText delim s

def recordText (delim : UInt8) : List Text → Text
  | [] => []
  | s :: fields => fieldText delim s ++ tailText delim fields

@[simp] theorem escape_nil : escape [] = [] := rfl

theorem escape_cons (c : UInt8) (s : Text) :
    escape (c :: s) = (if c = chQuote then [chQuote, chQuote] else [c]) ++ escape s :=
  List.flatMap_cons

theorem tailText_cons (delim : UInt8) (s : Text) (fields : List Text) :
    tailText delim (s :: fields) = delim :: (fieldText delim s ++ tailText delim fields) := by
  rw [tailText, List.flatMap_cons]
  rfl

/-! ## The first pass -/

theorem length_escape (s : Text) (n : ℕ) :
    s.foldl (fun n c => (if c = chQuote then n + 1 else n) + 1) n = n + (escape s).length := by
  induction s generalizing n with
  | nil => rfl
  | cons c s ih =>
    rw [List.foldl_cons, ih, escape_cons, List.length_append]
    split_ifs <;> simp only [List.length_cons, List.length_nil] <;> omega

theorem serialisedFieldLen_eq (s : Text) (delim : UInt8) :
    serialisedFieldLen s delim = (fieldText delim s).length := by
  unfold serialisedFieldLen fieldText
  split_ifs
  · rw [length_escape, List.length_cons, List.length_append, List.length_singleton]
    omega
  · rfl

theorem serialisedLen_succ (delim : UInt8) (fields : List Text) (i : ℕ) :
    serialisedLen delim (i + 1) fields = (tailText delim fields).length := by
  induction fields generalizing i with
  | nil => rfl
  | cons s fields ih =>
    rw [serialisedLen, if_pos (Nat.succ_pos i), ih, serialisedFieldLen_eq, tailText_cons,
      List.length_cons, List.length_append]
    omega

theorem serialisedLen_zero (delim : UInt8) (fields : List Text) :
    serialisedLen delim 0 fields = (recordText delim fields).length := by
  cases fields with
  | nil => rfl
  | cons s fields =>
    rw [serialisedLen, if_neg (Nat.lt_irrefl 0), serialisedLen_succ, serialisedFieldLen_eq,
      recordText, List.length_append]
    omega

/-! ## The second pass -/

/-- The buffer after the bytes of `s`. -/
def Buffer.extend (buf : Buffer) (s : Text) : Buffer := { buf with bytes := buf.bytes ++ s }

@[simp] theorem Buffer.extend_bytes (buf : Buffer) (s : Text) :
    (buf.extend s).bytes = buf.bytes ++ s := rfl

@[simp] theorem Buffer.extend_cap (buf : Buffer) (s : Text) : (buf.extend s).cap = buf.cap := rfl

theorem Buffer.extend_extend (buf : Buffer) (s t : Text) :
    (buf.extend s).extend t = buf.extend (s ++ t) := by
  simp [Buffer.extend]

theorem Buffer.put_eq {c : UInt8} (h : buf.bytes.length < buf.cap) :
    buf.put c = .ok (buf.extend [c]) := if_pos h

/-- The text fits behind what has been written. -/
def Buffer.Fits (buf : Buffer) (s : Text) : Prop := buf.bytes.length + s.length ≤ buf.cap

theorem Buffer.Fits.left {t : Text} (h : buf.Fits (s ++ t)) : buf.Fits s := by
  unfold Buffer.Fits at h ⊢
  rw [List.length_append] at h
  omega

theorem Buffer.Fits.right {t : Text} (h : buf.Fits (s ++ t)) : (buf.extend s).Fits t := by
  unfold Buffer.Fits at h ⊢
  rw [List.length_append] at h
  rw [Buffer.extend_bytes, List.length_append, Buffer.extend_cap]
  omega

theorem Buffer.Fits.put {c : UInt8} {t : Text} (h : buf.Fits (c :: t)) :
    buf.put c = .ok (buf.extend [c]) := by
  apply Buffer.put_eq
  unfold Buffer.Fits at h
  rw [List.length_cons] at h
  omega

theorem putEscaped_eq {c : UInt8} (h : buf.Fits (escape [c])) :
    putEscaped buf c = .ok (buf.extend (escape [c])) := by
  rw [escape_cons, escape_nil, List.append_nil] at h ⊢
  unfold putEscaped
  split_ifs at h ⊢ with hc
  · have hsecond : (buf.extend [chQuote]).Fits [c] := by
      rw [hc]
      exact Buffer.Fits.right h
    rw [h.put]
    simp only [Except.bind]
    rw [hsecond.put, hc, Buffer.extend_extend]
    rfl
  · exact h.put

theorem putEscaped_all (h : buf.Fits (escape s)) :
    s.foldlM putEscaped buf = (.ok (buf.extend (escape s)) : Exec Buffer) := by
  induction s generalizing buf with
  | nil =>
    rw [escape_nil, Buffer.extend, List.append_nil]
    rfl
  | cons c s ih =>
    have hsplit : escape (c :: s) = escape [c] ++ escape s := by
      rw [escape_cons, escape_cons, escape_nil, List.append_nil]
    rw [hsplit] at h ⊢
    rw [List.foldlM_cons, putEscaped_eq h.left, ← Buffer.extend_extend]
    exact ih h.right

theorem serialisedFieldWrite_eq (h : buf.Fits (fieldText delim s)) :
    serialisedFieldWrite s delim buf = .ok (buf.extend (fieldText delim s)) := by
  unfold serialisedFieldWrite
  unfold fieldText at h ⊢
  split_ifs at h ⊢
  · have hbody : (buf.extend [chQuote]).Fits (escape s ++ [chQuote]) := Buffer.Fits.right h
    rw [h.put]
    simp only [Except.bind]
    rw [putEscaped_all hbody.left]
    simp only
    rw [hbody.right.put, Buffer.extend_extend, Buffer.extend_extend]
    rfl
  · exact if_pos h

theorem writeFields_succ {fields : List Text} {i : ℕ} (h : buf.Fits (tailText delim fields)) :
    writeFields delim (i + 1) fields buf = .ok (buf.extend (tailText delim fields)) := by
  induction fields generalizing buf i with
  | nil =>
    rw [writeFields, tailText, List.flatMap_nil, Buffer.extend, List.append_nil]
  | cons s fields ih =>
    rw [tailText_cons] at h ⊢
    have hfield : (buf.extend [delim]).Fits (fieldText delim s ++ tailText delim fields) :=
      Buffer.Fits.right h
    rw [writeFields, if_pos (Nat.succ_pos i), h.put]
    simp only [Except.bind]
    rw [serialisedFieldWrite_eq hfield.left]
    simp only
    rw [ih hfield.right, Buffer.extend_extend, Buffer.extend_extend]
    rfl

theorem writeFields_zero {fields : List Text} (h : buf.Fits (recordText delim fields)) :
    writeFields delim 0 fields buf = .ok (buf.extend (recordText delim fields)) := by
  cases fields with
  | nil => rw [writeFields, recordText, Buffer.extend, List.append_nil]
  | cons s fields =>
    rw [recordText] at h ⊢
    rw [writeFields, if_neg (Nat.lt_irrefl 0)]
    simp only [Except.bind]
    rw [serialisedFieldWrite_eq h.left]
    simp only
    rw [writeFields_succ h.right, Buffer.extend_extend]

/-- The block that is asked for holds the text and the NUL. -/
theorem serialise_eq {w w' : World} {fields : List Text} {block : ℕ}
    (halloc : w.alloc = (w', some block)) :
    zenitCsvSerialiseRecord w fields delim =
      .ok (w', some ⟨block, (recordText delim fields).length + 1, recordText delim fields⟩,
        .ok) := by
  have hwrite : writeFields delim 0 fields ⟨block, (recordText delim fields).length + 1, []⟩ =
      .ok ⟨block, (recordText delim fields).length + 1, recordText delim fields⟩ := by
    apply writeFields_zero
    unfold Buffer.Fits
    simp
  rw [zenitCsvSerialiseRecord, halloc]
  simp only [serialisedLen_zero]
  rw [hwrite]
  simp [Except.bind, Except.map, Buffer.terminate]

/-! ## The size of the block -/

/-- The bytes asked for, as the `size_t` that the loop over the fields counts up. -/
def serialisedTotal (delim : UInt8) (total : ℕ) : ℕ → List Text → ℕ
  | _, [] => wrap (total + 1)
  | i, s :: fields =>
    serialisedTotal delim (wrap ((if i > 0 then wrap (total + 1) else total) +
      serialisedFieldLen s delim)) (i + 1) fields

theorem wrap_wrap_add (n m : ℕ) : wrap (wrap n + m) = wrap (n + m) := Nat.mod_add_mod n _ m

theorem serialisedTotal_eq (delim : UInt8) (total i : ℕ) (fields : List Text) :
    serialisedTotal delim total i fields = wrap (total + serialisedLen delim i fields + 1) := by
  induction fields generalizing total i with
  | nil => rfl
  | cons s fields ih =>
    rw [serialisedTotal, serialisedLen, ih, Nat.add_assoc, wrap_wrap_add]
    split_ifs
    · rw [Nat.add_assoc, wrap_wrap_add]
      congr 1
      omega
    · congr 1
      omega

/-- The array of the pointers and the strings that the record owns lie side by side in the lower
half of the address space. -/
def InMemory (fields : List Text) : Prop :=
  8 * fields.length + (fields.map fun s => s.length + 1).sum < 2 ^ 63

theorem length_escape_le (s : Text) : (escape s).length ≤ 2 * s.length := by
  induction s with
  | nil => exact Nat.zero_le _
  | cons c s ih =>
    rw [escape_cons, List.length_append, List.length_cons]
    split_ifs <;> simp only [List.length_cons, List.length_nil] <;> omega

theorem length_fieldText_le (delim : UInt8) (s : Text) :
    (fieldText delim s).length ≤ 2 * s.length + 2 := by
  have hescape := length_escape_le s
  unfold fieldText
  split_ifs
  · rw [List.length_cons, List.length_append, List.length_singleton]
    omega
  · omega

theorem serialisedLen_le (delim : UInt8) (i : ℕ) (fields : List Text) :
    serialisedLen delim i fields ≤
      fields.length + 2 * (fields.map fun s => s.length + 1).sum := by
  induction fields generalizing i with
  | nil => exact Nat.zero_le _
  | cons s fields ih =>
    have hrest := ih (i + 1)
    have hfield := length_fieldText_le delim s
    rw [serialisedLen, serialisedFieldLen_eq, List.length_cons, List.map_cons, List.sum_cons]
    split_ifs <;> omega

/-- The writing pass fills its block to the last byte, which is the NUL. The size that the first
pass counts is that of the block for every record in memory. -/
theorem serialised_sizes (delim : UInt8) (fields : List Text) :
    (∀ w w' block, w.alloc = (w', some block) → ∃ buf,
      zenitCsvSerialiseRecord w fields delim = .ok (w', some buf, .ok) ∧
      buf.cap = serialisedLen delim 0 fields + 1 ∧ buf.bytes.length + 1 = buf.cap) ∧
    (InMemory fields → serialisedTotal delim 0 0 fields = serialisedLen delim 0 fields + 1) := by
  constructor
  · intro w w' block halloc
    refine ⟨_, serialise_eq halloc, ?_, rfl⟩
    rw [serialisedLen_zero]
  · intro h
    have hle := serialisedLen_le delim 0 fields
    unfold InMemory at h
    rw [serialisedTotal_eq, Nat.zero_add, wrap_of_lt (by omega)]

end LibZenit.Csv
