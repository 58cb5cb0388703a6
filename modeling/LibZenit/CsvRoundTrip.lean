import LibZenit.CsvSyntax

/-!
# Reading back what has been written

The serialiser writes well-formed fields, so the scan of its line gives them back.
-/
namespace LibZenit.Csv
open Spans

variable {w : World} {delim : UInt8} {s rest : Text}

/-- The form in which a field is written. -/
def written (delim : UInt8) (s : Text) : Field :=
  if needsQuoting s delim then .quoted s else .raw s

theorem written_text (delim : UInt8) (s : Text) : (written delim s).text = fieldText delim s := by
  unfold written fieldText
  split_ifs <;> rfl

theorem written_value (delim : UInt8) (s : Text) : (written delim s).value = s := by
  unfold written
  split_ifs <;> rfl

theorem written_wellFormed (delim : UInt8) (s : Text) : (written delim s).WellFormed delim := by
  unfold written
  split_ifs with hneeds
  · trivial
  · intro c hc
    simp only [needsQuoting, Bool.or_eq_true, not_or, List.any_eq_true, not_exists, not_and]
      at hneeds
    have hspecial := hneeds.2 c hc
    simp only [isSpecial, Bool.or_eq_true, beq_iff_eq, not_or] at hspecial
    simp [isRaw, isPlain, hspecial]

theorem scanField_fieldText (hdelim : delim ≠ chQuote) (hrest : Ends (isPlain delim) rest) :
    scanField delim (fieldText delim s ++ rest) = (s, rest) := by
  have h := scanField_text hdelim (written_wellFormed delim s) hrest
  rwa [written_text, written_value] at h

theorem scanRecord_recordText (hdelim : delim ≠ chQuote) (s : Text) (fields : List Text) :
    scanRecord delim (recordText delim (s :: fields)) = s :: fields := by
  induction fields generalizing s with
  | nil =>
    have hscan := scanField_fieldText (s := s) hdelim (ends_nil : Ends (isPlain delim) [])
    rw [recordText, tailText, List.flatMap_nil, scanRecord]
    split
    · rw [hscan]
    · rename_i hnext
      rw [hscan] at hnext
      cases hnext
  | cons t fields ih =>
    have hends : Ends (isPlain delim) (delim :: recordText delim (t :: fields)) :=
      ends_cons (by simp [isPlain])
    have hscan := scanField_fieldText (s := s) hdelim hends
    have hline : recordText delim (s :: t :: fields) =
        fieldText delim s ++ delim :: recordText delim (t :: fields) := by
      rw [recordText, tailText_cons, recordText]
    rw [hline, scanRecord]
    split
    · rename_i hnext
      rw [hscan] at hnext
      cases hnext
    · rename_i hnext
      rw [hscan] at hnext
      cases hnext
      rw [if_pos rfl, hscan, ih t]

theorem zero_notMem_fieldText (delim : UInt8) (hs : 0 ∉ s) : 0 ∉ fieldText delim s := by
  have hescape : 0 ∉ escape s := by
    intro h
    obtain ⟨c, hc, hmem⟩ := List.mem_flatMap.mp h
    split_ifs at hmem with hquote
    · simp [chQuote] at hmem
    · obtain rfl := List.mem_singleton.mp hmem
      exact hs hc
  unfold fieldText
  split_ifs
  · simp [chQuote, hescape]
  · exact hs

theorem zero_notMem_recordText (hzero : delim ≠ 0) {fields : List Text}
    (hs : ∀ s ∈ fields, 0 ∉ s) : 0 ∉ recordText delim fields := by
  cases fields with
  | nil => exact List.not_mem_nil
  | cons s fields =>
    obtain ⟨hfirst, hs⟩ := List.forall_mem_cons.mp hs
    intro h
    rcases List.mem_append.mp h with h | h
    · exact zero_notMem_fieldText delim hfirst h
    · obtain ⟨t, ht, hmem⟩ := List.mem_flatMap.mp h
      rcases List.mem_cons.mp hmem with he | hmem
      · exact hzero he.symm
      · exact zero_notMem_fieldText delim (hs t ht) hmem

/-- Parsing a serialised record gives its fields back; every write stays inside its block. -/
theorem csv_round_trip {fields : List Text} (hne : fields ≠ []) (hs : ∀ s ∈ fields, 0 ∉ s)
    (hdelim : delim ≠ chQuote) (hzero : delim ≠ 0) (h : Willing w) :
    ∃ w₁ line, zenitCsvSerialiseRecord w fields delim = .ok (w₁, some line, .ok) ∧
      ∃ w₂ record, zenitCsvParseRecord w₁ (line.bytes ++ [0]) delim = .ok (w₂, some record, .ok) ∧
        record.fields.length = fields.length ∧ record.fields.map Buffer.bytes = fields := by
  obtain ⟨w₁, r, halloc, hok, hwill⟩ := alloc_yields w
  obtain ⟨block, rfl⟩ := hwill h
  refine ⟨w₁, _, serialise_eq halloc, ?_⟩
  obtain ⟨s, fields, rfl⟩ := List.exists_cons_of_ne_nil hne
  have hw₁ : Willing w₁ := fun n => by rw [hok]; exact h n
  obtain ⟨w₂, r, code, hparse, hcode, htexts, hdone⟩ :=
    parse_scans hzero (zero_notMem_recordText hzero hs) w₁
  obtain ⟨record, rfl⟩ := hcode.mp (hdone hw₁)
  have hbytes : record.fields.map Buffer.bytes = s :: fields :=
    (htexts record rfl).trans (scanRecord_recordText hdelim s fields)
  refine ⟨w₂, record, ?_, ?_, hbytes⟩
  · rw [hdone hw₁] at hparse
    exact hparse
  · rw [← hbytes, List.length_map]

/-- A quote, an empty field and a delimiter inside a field. -/
theorem quoted_fields_round_trip :
    ∃ w₁ line, zenitCsvSerialiseRecord ⟨fun _ => true, 0, []⟩ [[34], [], [44, 97]] 44 =
        .ok (w₁, some line, .ok) ∧
      ∃ w₂ record, zenitCsvParseRecord w₁ (line.bytes ++ [0]) 44 = .ok (w₂, some record, .ok) ∧
        record.fields.map Buffer.bytes = [[34], [], [44, 97]] := by
  have hfields : ∀ s ∈ ([[34], [], [44, 97]] : List Text), 0 ∉ s := by decide
  have hdelim : (44 : UInt8) ≠ chQuote := by decide
  have hworld : Willing ⟨fun _ => true, 0, []⟩ := fun _ => rfl
  obtain ⟨w₁, line, hwrite, w₂, record, hparse, -, hbytes⟩ :=
    csv_round_trip (List.cons_ne_nil _ _) hfields hdelim (by decide) hworld
  exact ⟨w₁, line, hwrite, w₂, record, hparse, hbytes⟩

end LibZenit.Csv
