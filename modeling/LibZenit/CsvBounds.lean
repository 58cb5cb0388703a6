import LibZenit.CsvSyntax

/-!
# Reads of the parser

Behind a field the parser compares with the delimiter before it has looked for the terminator. With
NUL as the delimiter it steps over the end of a line whose first field reaches it.
-/
namespace LibZenit.Csv
open Spans

variable {w : World} {out : Record} {delim : UInt8} {line rest : Text}

/-- The parse ends, and has read no byte behind the terminator, whatever the allocator grants. -/
def StaysInside (delim : UInt8) (line : Text) : Prop :=
  ∀ w, ∃ result, zenitCsvParseRecord w (line ++ [0]) delim = .ok result

/-- The first field ends before the line does: a byte follows its closing quote, or it has no
quote in front and there is a line break. -/
def StopsEarly (line : Text) : Prop :=
  (∃ s c rest, c ≠ chQuote ∧ line = chQuote :: (escape s ++ chQuote :: c :: rest)) ∨
    line.head? ≠ some chQuote ∧ ∃ c ∈ line, c = chNewline ∨ c = chReturn

/-! ## The first field -/

theorem stopsEarly_quoted {p : Text} :
    StopsEarly (chQuote :: p) ↔ (scanQuoted p).2 ≠ [] := by
  constructor
  · rintro (⟨s, c, rest, hc, heq⟩ | ⟨hhead, -⟩)
    · cases heq
      rw [scanQuoted_closed s (by simpa using hc)]
      simp
    · exact absurd rfl hhead
  · intro hrest
    obtain ⟨s, rfl⟩ | ⟨s, rest, rfl, hhead⟩ := quoted_cases p
    · rw [scanQuoted_open] at hrest
      exact absurd rfl hrest
    · rw [scanQuoted_closed s hhead] at hrest
      cases rest with
      | nil => exact absurd rfl hrest
      | cons c rest => exact .inl ⟨s, c, rest, by simpa using hhead, rfl⟩

theorem stopsEarly_raw {c : UInt8} {p : Text} (hc : c ≠ chQuote) (hzero : 0 ∉ c :: p) :
    StopsEarly (c :: p) ↔ (c :: p).dropWhile (isPlain 0) ≠ [] := by
  have hplain : ∀ d ∈ c :: p, ¬isPlain 0 d = true ↔ d = chNewline ∨ d = chReturn := by
    intro d hd
    have hne : d ≠ 0 := fun h => hzero (h ▸ hd)
    simp [isPlain, hne]
    tauto
  rw [ne_eq, List.dropWhile_eq_nil_iff, not_forall]
  simp only [not_forall, exists_prop]
  constructor
  · rintro (⟨s, d, rest, -, heq⟩ | ⟨-, d, hd, hbreak⟩)
    · cases heq
      exact absurd rfl hc
    · exact ⟨d, hd, (hplain d hd).mpr hbreak⟩
  · rintro ⟨d, hd, hbreak⟩
    exact .inr ⟨by simpa using hc, d, hd, (hplain d hd).mp hbreak⟩

theorem stopsEarly_iff (hzero : 0 ∉ line) : StopsEarly line ↔ (scanField 0 line).2 ≠ [] := by
  cases line with
  | nil => simp [StopsEarly, scanField]
  | cons c p =>
    rw [scanField]
    split_ifs with hc
    · subst hc
      exact stopsEarly_quoted
    · exact stopsEarly_raw hc hzero

/-! ## Behind the terminator -/

/-- Behind the terminator there is nothing to read. -/
theorem parseLoop_behind (hwill : Willing w) (hout : Obtained out w) (hsized : ArraySized out)
    (fuel : ℕ) (result : World × Option Record) : parseLoop delim fuel w out [] ≠ .ok result := by
  cases fuel with
  | zero =>
    intro h
    cases h
  | succ fuel =>
    obtain ⟨w₁, _, hgrow, hok, -, hyes, -⟩ := growFields_spends hout hsized
    obtain ⟨-, out₁, rfl, -, hout₁, -⟩ := hyes fun n _ => hwill _
    obtain ⟨w₂, _, hnew, -, -, hyes₂, -⟩ := newBuffer_spends hout₁
    obtain ⟨-, buf, rfl, -⟩ := hyes₂ fun n _ => by rw [hok]; exact hwill _
    rw [parseLoop, hgrow]
    simp only [andThen, Except.bind, Option.elim_some, Except.ok.inj hnew, readField]
    intro h
    cases h

theorem parseLoop_overruns (hwill : Willing w) (hout : Obtained out w) (hsized : ArraySized out)
    (hzero : 0 ∉ line) (hrest : (scanField 0 line).2 = []) (fuel : ℕ)
    (result : World × Option Record) : parseLoop 0 fuel w out (line ++ [0]) ≠ .ok result := by
  cases fuel with
  | zero =>
    intro h
    cases h
  | succ fuel =>
    obtain ⟨w', _, hfield, hok, -, hyes, -⟩ := @parseField_spends w out 0 line hzero hout hsized
    obtain ⟨-, ⟨out', p'⟩, rfl, hout', hsized', -, hstop⟩ := hyes fun n _ => hwill _
    rw [hrest] at hstop
    simp only at hstop
    subst hstop
    rw [parseLoop_succ, hfield]
    exact parseLoop_behind (fun n => by rw [hok]; exact hwill n) hout' hsized' fuel result

/-! ## Every line and every delimiter -/

theorem staysInside_of_ne (hdelim : delim ≠ 0) (hzero : 0 ∉ line) : StaysInside delim line := by
  intro w
  obtain ⟨w', r, code, hcall, -⟩ := parse_scans hdelim hzero w
  exact ⟨(w', r, code), hcall⟩

theorem staysInside_of_stopsEarly (hzero : 0 ∉ line) (h : StopsEarly line) :
    StaysInside 0 line := by
  intro w
  obtain ⟨w₁, r₁, halloc, -, -, -, hyes, hno⟩ := alloc_cases w
  rw [zenitCsvParseRecord, halloc]
  by_cases hg : Grants w 1
  · obtain ⟨block, rfl, hmem⟩ := hyes hg
    have hout : Obtained ⟨block, 8, []⟩ w₁ := hmem
    cases hrest : (scanField 0 line).2 with
    | nil => exact absurd hrest ((stopsEarly_iff hzero).mp h)
    | cons c rest =>
      have hc : c ≠ 0 := by
        rintro rfl
        have hsub := (scanField_suffix 0 line).subset
        rw [hrest] at hsub
        exact hzero (hsub List.mem_cons_self)
      have hstop : ∀ w' out', Obtained out' w' → ArraySized out' →
          texts out' = texts ⟨block, 8, []⟩ ++ [(scanField 0 line).1] →
          Spends w' (if c = 0 then parseLoop 0 (line ++ [0]).length w' out' (rest ++ [0])
            else .ok (w', some out')) 0 fun _ _ => True := by
        intro w' out' _ _ _
        rw [if_neg hc]
        exact Spends.pure trivial
      obtain ⟨w₂, r, hloop, -⟩ :=
        parseLoop_round hzero hout (newArray_sized block) (congrArg (· ++ [0]) hrest) hstop
      simp only [hloop]
      exact ⟨_, rfl⟩
  · obtain ⟨rfl, -⟩ := hno hg
    exact ⟨_, rfl⟩

/-- The parser stays inside the line exactly if the delimiter is not NUL or the first field ends
before the line does. -/
theorem parse_stays_inside_iff (hzero : 0 ∉ line) :
    StaysInside delim line ↔ delim ≠ 0 ∨ StopsEarly line := by
  constructor
  · intro hinside
    by_contra hnot
    obtain ⟨hdelim, hlate⟩ := not_or.mp hnot
    obtain rfl := not_not.mp hdelim
    have hrest := not_not.mp (mt (stopsEarly_iff hzero).mpr hlate)
    obtain ⟨result, hcall⟩ := hinside ⟨fun _ => true, 0, []⟩
    obtain ⟨r, hloop, -⟩ := map_eq_ok hcall
    exact parseLoop_overruns (fun _ => rfl) List.mem_cons_self (newArray_sized 0) hzero hrest _ r
      hloop
  · rintro (hdelim | hearly)
    · exact staysInside_of_ne hdelim hzero
    · by_cases hdelim : delim = 0
      · subst hdelim
        exact staysInside_of_stopsEarly hzero hearly
      · exact staysInside_of_ne hdelim hzero

/-- A line break ends the first field in time. -/
theorem broken_line_stays_inside : StaysInside 0 [97, 10] :=
  (parse_stays_inside_iff (by decide)).mpr
    (.inr (.inr ⟨by decide, 10, by decide, .inl rfl⟩))

/-- The empty line, with NUL as the delimiter. -/
theorem nul_delimiter_overruns :
    zenitCsvParseRecord ⟨fun _ => true, 0, []⟩ ([] ++ [0]) 0 = .error .outOfBounds ∧
      ¬StaysInside 0 [] := by
  refine ⟨rfl, fun hinside => ?_⟩
  obtain ⟨result, hcall⟩ := hinside ⟨fun _ => true, 0, []⟩
  cases hcall

end LibZenit.Csv
