import LibZenit.CsvScanner
import LibZenit.CsvSerialiser
import LibZenit.Spans

/-!
# Lines that are records

A line is a record if it is a sequence of fields, each raw text without quotes or a balanced quoted
field, up to the end of the record. The parser does not check this: a line is taken for its scan,
whatever stands behind a closing quote.
-/
namespace LibZenit.Csv
open Spans

variable {delim : UInt8} {s line rest rest' : Text}

/-- A field as it stands in a line. -/
inductive Field where
  | raw (s : Text)
  | quoted (s : Text)
  deriving DecidableEq, Repr

def Field.text : Field → Text
  | .raw s => s
  | .quoted s => chQuote :: (escape s ++ [chQuote])

def Field.value : Field → Text
  | .raw s => s
  | .quoted s => s

/-- No quote, and none of the bytes that end a field. -/
def isRaw (delim c : UInt8) : Bool := c != chQuote && isPlain delim c

def Field.WellFormed (delim : UInt8) : Field → Prop
  | .raw s => ∀ c ∈ s, isRaw delim c = true
  | .quoted _ => True

/-- The end of the line, or a line break. -/
def RecordEnd (rest : Text) : Prop := ∀ c, rest.head? = some c → c = chNewline ∨ c = chReturn

/-- The line is the given sequence of fields up to the end of its record. -/
def IsRecord (delim : UInt8) (line : Text) (fields : List Field) : Prop :=
  fields ≠ [] ∧ (∀ f ∈ fields, f.WellFormed delim) ∧
    ∃ rest, line = [delim].intercalate (fields.map Field.text) ++ rest ∧ RecordEnd rest

/-- A field that is not closed, one that goes on behind its closing quote, and raw text with a
quote in it. -/
inductive BadField (delim : UInt8) : Text → Prop
  | unterminated (s : Text) : BadField delim (chQuote :: escape s)
  | trailing (s rest : Text) (c : UInt8) (hquote : c ≠ chQuote) (hplain : isPlain delim c = true) :
      BadField delim (chQuote :: (escape s ++ chQuote :: c :: rest))
  | inner (s rest : Text) (hne : s ≠ []) (hraw : ∀ c ∈ s, isRaw delim c = true) :
      BadField delim (s ++ chQuote :: rest)

/-- A bad field stands behind well-formed ones. -/
def Malformed (delim : UInt8) (line : Text) : Prop :=
  ∃ (fields : List Field) (tail : Text), (∀ f ∈ fields, f.WellFormed delim) ∧
    line = fields.flatMap (fun f => f.text ++ [delim]) ++ tail ∧ BadField delim tail

/-! ## The field in front -/

theorem ends_plain_iff : Ends (isPlain delim) rest ↔
    ∀ c, rest.head? = some c → c = delim ∨ c = chNewline ∨ c = chReturn := by
  refine forall₂_congr fun c _ => ?_
  simp only [isPlain, Bool.and_eq_false_iff, bne_eq_false_iff_eq, or_assoc]

theorem RecordEnd.ends (h : RecordEnd rest) : Ends (isPlain delim) rest :=
  ends_plain_iff.mpr fun c hc => .inr (h c hc)

/-- Where no field is open, a quote cannot come. -/
theorem head_ne_quote (hdelim : delim ≠ chQuote) (h : Ends (isPlain delim) rest) :
    rest.head? ≠ some chQuote := by
  intro hc
  rcases ends_plain_iff.mp h chQuote hc with he | he | he
  · exact hdelim he.symm
  · exact absurd he (by decide)
  · exact absurd he (by decide)

theorem scanQuoted_byte {c : UInt8} (h : c ≠ chQuote) (p : Text) :
    scanQuoted (c :: p) = (c :: (scanQuoted p).1, (scanQuoted p).2) := by
  rw [scanQuoted.eq_def]
  simp only [if_pos h]

theorem scanQuoted_closed (s : Text) (h : rest.head? ≠ some chQuote) :
    scanQuoted (escape s ++ chQuote :: rest) = (s, rest) := by
  induction s with
  | nil =>
    rw [escape_nil, List.nil_append, scanQuoted.eq_def]
    cases rest with
    | nil => rfl
    | cons d rest =>
      have hd : ¬d = chQuote := fun he => h (congrArg some he)
      simp only [ne_eq, not_true_eq_false, if_false, if_neg hd]
  | cons c s ih =>
    rw [escape_cons]
    split_ifs with hc
    · simp only [List.cons_append, List.nil_append]
      rw [scanQuoted.eq_def]
      simp only [ne_eq, not_true_eq_false, if_false, if_true, ih, hc]
    · simp only [List.cons_append, List.nil_append]
      rw [scanQuoted_byte hc, ih]

theorem isPlain_of_isRaw {c : UInt8} (h : isRaw delim c = true) : isPlain delim c = true :=
  (Bool.and_eq_true_iff.mp h).2

/-- A well-formed field is scanned for its value. -/
theorem scanField_text {f : Field} (hdelim : delim ≠ chQuote) (hf : f.WellFormed delim)
    (hrest : Ends (isPlain delim) rest) : scanField delim (f.text ++ rest) = (f.value, rest) := by
  cases f with
  | quoted s =>
    simp only [Field.text, Field.value, List.cons_append, List.append_assoc, List.nil_append,
      scanField, if_true]
    exact scanQuoted_closed s (head_ne_quote hdelim hrest)
  | raw s =>
    have hplain : ∀ c ∈ s, isPlain delim c = true := fun c hc => isPlain_of_isRaw (hf c hc)
    have hscan : scanField delim (s ++ rest) =
        ((s ++ rest).takeWhile (isPlain delim), (s ++ rest).dropWhile (isPlain delim)) := by
      cases hline : s ++ rest with
      | nil => rfl
      | cons c p =>
        have hc : ¬c = chQuote := by
          rintro rfl
          cases s with
          | nil => exact head_ne_quote hdelim hrest (congrArg List.head? hline)
          | cons a s =>
            cases hline
            exact absurd (hf chQuote (List.mem_cons_self ..)) (by simp [isRaw])
        rw [scanField, if_neg hc]
    rw [Field.text, Field.value, hscan, takeWhile_span hplain hrest, dropWhile_span hplain hrest]

/-- There is one way to read the field in front. -/
theorem field_unique {f g : Field} (hdelim : delim ≠ chQuote) (hf : f.WellFormed delim)
    (hg : g.WellFormed delim) (hrest : Ends (isPlain delim) rest)
    (hrest' : Ends (isPlain delim) rest') (h : f.text ++ rest = g.text ++ rest') :
    f.value = g.value ∧ rest = rest' := by
  have hscan := scanField_text hdelim hf hrest
  rw [h, scanField_text hdelim hg hrest'] at hscan
  exact ⟨(congrArg Prod.fst hscan).symm, (congrArg Prod.snd hscan).symm⟩

/-- Quotes come in pairs up to the one that closes the field. -/
theorem quoted_cases (p : Text) :
    (∃ s, p = escape s) ∨ ∃ s rest, p = escape s ++ chQuote :: rest ∧ rest.head? ≠ some chQuote := by
  fun_induction scanQuoted p with
  | case1 => exact .inl ⟨[], rfl⟩
  | case2 c p hc ih =>
    rcases ih with ⟨s, rfl⟩ | ⟨s, rest, rfl, hrest⟩
    · exact .inl ⟨c :: s, by simp [escape_cons, hc]⟩
    · exact .inr ⟨c :: s, rest, by simp [escape_cons, hc], hrest⟩
  | case3 c hc =>
    obtain rfl := not_not.mp hc
    exact .inr ⟨[], [], rfl, by simp⟩
  | case4 c hc p ih =>
    obtain rfl := not_not.mp hc
    rcases ih with ⟨s, rfl⟩ | ⟨s, rest, rfl, hrest⟩
    · exact .inl ⟨chQuote :: s, by simp [escape_cons]⟩
    · exact .inr ⟨chQuote :: s, rest, by simp [escape_cons], hrest⟩
  | case5 c hc d p hd =>
    obtain rfl := not_not.mp hc
    exact .inr ⟨[], d :: p, rfl, by simpa using hd⟩

/-- The line has a well-formed field in front, or a bad one. -/
theorem front_cases (delim : UInt8) (line : Text) :
    (∃ (f : Field) (rest : Text), f.WellFormed delim ∧ Ends (isPlain delim) rest ∧
      line = f.text ++ rest) ∨ BadField delim line := by
  cases line with
  | nil => exact .inl ⟨.raw [], [], by simp [Field.WellFormed], ends_nil, rfl⟩
  | cons c p =>
    by_cases hc : c = chQuote
    · subst hc
      rcases quoted_cases p with ⟨s, rfl⟩ | ⟨s, rest, rfl, hrest⟩
      · exact .inr (.unterminated s)
      · cases rest with
        | nil => exact .inl ⟨.quoted s, [], trivial, ends_nil, by simp [Field.text]⟩
        | cons d rest =>
          cases hd : isPlain delim d with
          | false => exact .inl ⟨.quoted s, d :: rest, trivial, ends_cons hd, by simp [Field.text]⟩
          | true => exact .inr (.trailing s rest d (fun he => hrest (congrArg some he)) hd)
    · have hspan := List.takeWhile_append_dropWhile (p := isRaw delim) (l := c :: p)
      have hraw : ∀ b ∈ (c :: p).takeWhile (isRaw delim), isRaw delim b = true :=
        fun b hb => List.mem_takeWhile_imp hb
      cases hrest : (c :: p).dropWhile (isRaw delim) with
      | nil =>
        rw [hrest] at hspan
        exact .inl ⟨.raw ((c :: p).takeWhile (isRaw delim)), [], hraw, ends_nil, hspan.symm⟩
      | cons d rest =>
        have hd := ends_dropWhile (isRaw delim) (c :: p) d (by rw [hrest]; rfl)
        rw [hrest] at hspan
        by_cases hquote : d = chQuote
        · subst hquote
          -- the first byte is no quote, so raw text stands before this one
          have hne : (c :: p).takeWhile (isRaw delim) ≠ [] := by
            intro hnil
            rw [hnil] at hspan
            cases hspan
            exact hc rfl
          rw [← hspan]
          exact .inr (.inner _ rest hne hraw)
        · have hplain : isPlain delim d = false := by simpa [isRaw, hquote] using hd
          exact .inl ⟨.raw ((c :: p).takeWhile (isRaw delim)), d :: rest, hraw, ends_cons hplain,
            hspan.symm⟩

theorem scanQuoted_open (s : Text) : scanQuoted (escape s) = (s, []) := by
  induction s with
  | nil => rfl
  | cons c s ih =>
    rw [escape_cons]
    split_ifs with hc
    · simp only [List.cons_append, List.nil_append]
      rw [scanQuoted.eq_def]
      simp only [ne_eq, not_true_eq_false, if_false, if_true, ih, hc]
    · simp only [List.cons_append, List.nil_append]
      rw [scanQuoted_byte hc, ih]

/-- A field that opens with a quote is a quoted one. -/
theorem Field.eq_quoted {f : Field} (hdelim : delim ≠ chQuote) (hf : f.WellFormed delim)
    (hrest : Ends (isPlain delim) rest) {p : Text} (h : chQuote :: p = f.text ++ rest) :
    ∃ s, f = .quoted s ∧ p = escape s ++ chQuote :: rest := by
  cases f with
  | quoted s =>
    refine ⟨s, rfl, ?_⟩
    simpa [Field.text] using h
  | raw s =>
    cases s with
    | nil => exact absurd (congrArg List.head? h).symm (head_ne_quote hdelim hrest)
    | cons c s =>
      cases h
      exact absurd (hf chQuote (List.mem_cons_self ..)) (by simp [isRaw])

theorem BadField.not_field {f : Field} (hdelim : delim ≠ chQuote) (h : BadField delim line)
    (hf : f.WellFormed delim) (hrest : Ends (isPlain delim) rest) : line ≠ f.text ++ rest := by
  intro hline
  cases h with
  | unterminated s =>
    obtain ⟨t, -, ht⟩ := Field.eq_quoted hdelim hf hrest hline
    have hscan := scanQuoted_closed t (head_ne_quote hdelim hrest)
    rw [← ht, scanQuoted_open s] at hscan
    cases hscan
    exact absurd (congrArg List.length ht) (by simp)
  | trailing s rest' c hquote hplain =>
    obtain ⟨t, -, ht⟩ := Field.eq_quoted hdelim hf hrest hline
    have hscan := scanQuoted_closed t (head_ne_quote hdelim hrest)
    rw [← ht, scanQuoted_closed s (by simpa using hquote)] at hscan
    cases hscan
    have hhead := hrest c rfl
    rw [hplain] at hhead
    cases hhead
  | inner s rest' hne hraw =>
    cases f with
    | quoted t =>
      cases s with
      | nil => exact hne rfl
      | cons c s =>
        have hc : c = chQuote := by simpa [Field.text] using congrArg List.head? hline
        have hraw := hraw c (List.mem_cons_self ..)
        simp [isRaw, hc] at hraw
    | raw t =>
      have hends : Ends (isRaw delim) rest := fun c hc => by simp [isRaw, hrest c hc]
      have hquote : Ends (isRaw delim) (chQuote :: rest') := ends_cons (by simp [isRaw])
      have heq := (span_unique hraw hquote hf hends hline).2
      exact head_ne_quote hdelim hrest (by rw [← heq]; rfl)

/-! ## The fields of a line -/

/-- A record is one field, or a field and a record behind a delimiter. -/
theorem isRecord_cons {f : Field} {fields : List Field} : IsRecord delim line (f :: fields) ↔
    f.WellFormed delim ∧ ∃ rest, line = f.text ++ rest ∧
      ((fields = [] ∧ RecordEnd rest) ∨ ∃ p, rest = delim :: p ∧ IsRecord delim p fields) := by
  cases fields with
  | nil => simp [IsRecord]
  | cons g fields =>
    constructor
    · rintro ⟨-, hwell, rest, rfl, hend⟩
      obtain ⟨hf, hwell⟩ := List.forall_mem_cons.mp hwell
      refine ⟨hf, delim :: ([delim].intercalate ((g :: fields).map Field.text) ++ rest), ?_,
        .inr ⟨_, rfl, List.cons_ne_nil _ _, hwell, rest, rfl, hend⟩⟩
      simp
    · rintro ⟨hf, rest, rfl, ⟨hnil, -⟩ | ⟨p, rfl, -, hwell, rest, rfl, hend⟩⟩
      · cases hnil
      · refine ⟨List.cons_ne_nil _ _, List.forall_mem_cons.mpr ⟨hf, hwell⟩, rest, ?_, hend⟩
        simp

theorem malformed_cons {f : Field} {p : Text} (hf : f.WellFormed delim) (h : Malformed delim p) :
    Malformed delim (f.text ++ delim :: p) := by
  obtain ⟨fields, tail, hwell, rfl, hbad⟩ := h
  exact ⟨f :: fields, tail, List.forall_mem_cons.mpr ⟨hf, hwell⟩, by simp, hbad⟩

/-- The field in front of a line that is not malformed is the scanned one. -/
theorem scanned_front (hdelim : delim ≠ chQuote) (h : ¬Malformed delim line) :
    ∃ f : Field, f.WellFormed delim ∧ Ends (isPlain delim) (scanField delim line).2 ∧
      f.value = (scanField delim line).1 ∧ line = f.text ++ (scanField delim line).2 := by
  rcases front_cases delim line with ⟨f, rest, hf, hrest, rfl⟩ | hbad
  · rw [scanField_text hdelim hf hrest]
    exact ⟨f, hf, hrest, rfl, rfl⟩
  · exact absurd ⟨[], line, by simp, rfl, hbad⟩ h

/-- The scan of a line that is not malformed finds its fields. -/
theorem scanRecord_isRecord (hdelim : delim ≠ chQuote) (h : ¬Malformed delim line) :
    ∃ fields, IsRecord delim line fields ∧ fields.map Field.value = scanRecord delim line := by
  fun_induction scanRecord delim line with
  | case1 line hrest =>
    obtain ⟨f, hf, -, hvalue, hline⟩ := scanned_front hdelim h
    rw [hrest] at hline
    refine ⟨[f], isRecord_cons.mpr ⟨hf, [], hline, .inl ⟨rfl, by simp [RecordEnd]⟩⟩, ?_⟩
    rw [List.map_singleton, hvalue]
  | case2 line p hrest ih =>
    obtain ⟨f, hf, -, hvalue, hline⟩ := scanned_front hdelim h
    rw [hrest] at hline
    have hp : ¬Malformed delim p := by
      intro hbad
      rw [hline] at h
      exact h (malformed_cons hf hbad)
    obtain ⟨fields, hrecord, hvalues⟩ := ih hp
    refine ⟨f :: fields, isRecord_cons.mpr ⟨hf, _, hline, .inr ⟨p, rfl, hrecord⟩⟩, ?_⟩
    rw [List.map_cons, hvalue, hvalues]
  | case3 line d p hrest hd =>
    obtain ⟨f, hf, hends, hvalue, hline⟩ := scanned_front hdelim h
    rw [hrest] at hline hends
    have hend : RecordEnd (d :: p) := by
      intro c hc
      cases hc
      exact (ends_plain_iff.mp hends d rfl).resolve_left hd
    refine ⟨[f], isRecord_cons.mpr ⟨hf, _, hline, .inl ⟨rfl, hend⟩⟩, ?_⟩
    rw [List.map_singleton, hvalue]

theorem IsRecord.front {fields : List Field} (h : IsRecord delim line fields) :
    ∃ (f : Field) (rest : Text), f.WellFormed delim ∧ Ends (isPlain delim) rest ∧
      line = f.text ++ rest ∧
      (RecordEnd rest ∨ ∃ p, rest = delim :: p ∧ IsRecord delim p fields.tail) := by
  cases fields with
  | nil => exact absurd rfl h.1
  | cons f fields =>
    obtain ⟨hf, rest, rfl, ⟨-, hend⟩ | ⟨p, rfl, hp⟩⟩ := isRecord_cons.mp h
    · exact ⟨f, rest, hf, hend.ends, rfl, .inl hend⟩
    · exact ⟨f, delim :: p, hf, ends_cons (by simp [isPlain]), rfl, .inr ⟨p, rfl, hp⟩⟩

/-- A malformed line is no record. -/
theorem Malformed.not_isRecord {fields : List Field} (hdelim : delim ≠ chQuote)
    (hnewline : delim ≠ chNewline) (hreturn : delim ≠ chReturn) (h : Malformed delim line) :
    ¬IsRecord delim line fields := by
  obtain ⟨front, tail, hwell, rfl, hbad⟩ := h
  induction front generalizing fields with
  | nil =>
    intro hrecord
    obtain ⟨f, rest, hf, hends, hline, -⟩ := hrecord.front
    exact hbad.not_field hdelim hf hends hline
  | cons g front ih =>
    intro hrecord
    obtain ⟨hg, hwell⟩ := List.forall_mem_cons.mp hwell
    obtain ⟨f, rest, hf, hends, hline, hnext⟩ := hrecord.front
    rw [List.flatMap_cons, List.append_assoc, List.append_assoc, List.singleton_append] at hline
    obtain ⟨-, rfl⟩ := field_unique hdelim hg hf (ends_cons (by simp [isPlain])) hends hline
    rcases hnext with hend | ⟨p, hp, hrecord⟩
    · rcases hend delim rfl with he | he
      · exact hnewline he
      · exact hreturn he
    · cases hp
      exact ih hwell hrecord

/-! ## Acceptance -/

/-- Every record that the parser returns for a line is the line's own if and only if the line is
not malformed: the parser does not reject malformed lines. -/
theorem parse_lossless_iff (hquote : delim ≠ chQuote) (hzero : delim ≠ 0)
    (hnewline : delim ≠ chNewline) (hreturn : delim ≠ chReturn) (hline : 0 ∉ line) :
    (∀ w w' out, zenitCsvParseRecord w (line ++ [0]) delim = .ok (w', some out, .ok) →
      ∃ fields, IsRecord delim line fields ∧ fields.map Field.value = out.fields.map Buffer.bytes) ↔
    ¬Malformed delim line := by
  constructor
  · intro h hbad
    have hwill : Willing ⟨fun _ => true, 0, []⟩ := fun _ => rfl
    obtain ⟨w', r, code, hparse, hcode, -, hok⟩ := parse_scans hzero hline ⟨fun _ => true, 0, []⟩
    obtain ⟨out, rfl⟩ := hcode.mp (hok hwill)
    rw [hok hwill] at hparse
    obtain ⟨fields, hrecord, -⟩ := h _ _ _ hparse
    exact hbad.not_isRecord hquote hnewline hreturn hrecord
  · intro h w w' out hparse
    obtain ⟨w₁, r, code, hparse₁, -, htexts, -⟩ := parse_scans hzero hline w
    rw [hparse] at hparse₁
    cases hparse₁
    obtain ⟨fields, hrecord, hvalues⟩ := scanRecord_isRecord hquote h
    exact ⟨fields, hrecord, hvalues.trans (htexts out rfl).symm⟩

/-- `a,"b"` -/
theorem closed_quote_lossless : ∃ fields, IsRecord 44 [97, 44, 34, 98, 34] fields ∧
    fields.map Field.value = [[97], [98]] := by
  have hfields : ∀ f ∈ [Field.raw [97], .quoted [98]], f.WellFormed 44 := by
    simp [Field.WellFormed, isRaw, isPlain, chQuote, chNewline, chReturn]
  have hrecord : IsRecord 44 [97, 44, 34, 98, 34] [.raw [97], .quoted [98]] :=
    ⟨by decide, hfields, [], by decide, by simp [RecordEnd]⟩
  have hline : ¬Malformed 44 [97, 44, 34, 98, 34] := fun h =>
    h.not_isRecord (by decide) (by decide) (by decide) hrecord
  have hparse : zenitCsvParseRecord ⟨fun _ => true, 0, []⟩ [97, 44, 34, 98, 34, 0] 44 =
      .ok (_, some _, .ok) := rfl
  exact (parse_lossless_iff (by decide) (by decide) (by decide) (by decide) (by decide)).mpr hline
    _ _ _ hparse

/-- `"a"b` is taken for `a`. -/
theorem trailing_text_dropped : ∃ w' out,
    zenitCsvParseRecord ⟨fun _ => true, 0, []⟩ [34, 97, 34, 98, 0] 44 = .ok (w', some out, .ok) ∧
      out.fields.map Buffer.bytes = [[97]] ∧ ∀ fields, ¬IsRecord 44 [34, 97, 34, 98] fields := by
  refine ⟨_, _, rfl, rfl, fun fields => ?_⟩
  have hbad : BadField 44 [34, 97, 34, 98] := .trailing [97] [] 98 (by decide) (by decide)
  have hline : Malformed 44 [34, 97, 34, 98] := ⟨[], _, by simp, rfl, hbad⟩
  exact hline.not_isRecord (by decide) (by decide) (by decide)

end LibZenit.Csv
