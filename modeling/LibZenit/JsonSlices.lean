import LibZenit.JsonNumbers

/-!
# Parsing a slice of a longer memory

Two memories that agree on the first `length` bytes are `slice ++ t` and `slice ++ u` with a slice
of that length. All readers but `parse_number` see the slice only. A number sees what follows it,
and that is a delimiter of the slice unless the number ends the slice.
-/
namespace LibZenit.Json

variable {D : Type} {slice t u : List UInt8} {p q : ℕ}

/-! ## Readers that see the slice only -/

theorem peek_append : peek (slice ++ t) slice.length p = slice[p]? := by
  unfold peek
  split_ifs with hp
  · exact List.getElem?_append_left hp
  · exact (List.getElem?_eq_none (by omega)).symm

theorem peek_slice : peek slice slice.length p = slice[p]? := by
  have h : peek (slice ++ []) slice.length p = slice[p]? := peek_append
  rwa [List.append_nil] at h

theorem parseUnicodeCp_append :
    parseUnicodeCp (slice ++ t) slice.length p = parseUnicodeCp slice slice.length p := by
  unfold parseUnicodeCp
  split_ifs with hp
  · rfl
  · rw [List.getElem?_append_left (by omega), List.getElem?_append_left (by omega),
      List.getElem?_append_left (by omega), List.getElem?_append_left (by omega)]

theorem parseEscapeSeq_append :
    parseEscapeSeq (slice ++ t) slice.length p = parseEscapeSeq slice slice.length p := by
  unfold parseEscapeSeq
  rw [peek_append, peek_slice, parseUnicodeCp_append]

theorem parseStringFrom_append (fuel : ℕ) (buf : List UInt8) :
    parseStringFrom (slice ++ t) slice.length fuel p buf =
      parseStringFrom slice slice.length fuel p buf := by
  induction fuel generalizing p buf with
  | zero => rfl
  | succ fuel ih =>
    rw [parseStringFrom, parseStringFrom, peek_append, peek_slice, parseEscapeSeq_append]
    simp only [ih]

theorem parseStringRaw_append :
    parseStringRaw (slice ++ t) slice.length p = parseStringRaw slice slice.length p :=
  parseStringFrom_append _ _

theorem matchLiteral_append {word : List UInt8} :
    matchLiteral (slice ++ t) slice.length word p = matchLiteral slice slice.length word p := by
  unfold matchLiteral
  by_cases hp : p + word.length ≤ slice.length
  · rw [List.drop_append_of_le_length (by omega),
      List.take_append_of_le_length (by rw [List.length_drop]; omega)]
  · simp [hp]

theorem wsRun_append (h : WsRun (slice ++ t) slice.length p q) :
    WsRun (slice ++ u) slice.length p q := by
  refine ⟨h.1, fun i hi hq => ?_⟩
  obtain ⟨c, hc, hw⟩ := h.2 i hi hq
  rw [peek_append] at hc
  exact ⟨c, by rw [peek_append, hc], hw⟩

/-! ## Numbers inside the slice -/

theorem parseNumber_append {toDouble : List UInt8 → D} {d : D} {c : UInt8}
    (h : parseNumber toDouble (slice ++ t) p = some (d, q)) (hc : slice[q]? = some c)
    (hdelim : isDelimiter c = true) : parseNumber toDouble (slice ++ u) p = some (d, q) := by
  have hlt := parseNumber_lt h
  obtain ⟨hq, hget⟩ := List.getElem?_eq_some_iff.mp hc
  unfold parseNumber at h ⊢
  dsimp only at h ⊢
  rw [List.drop_append_of_le_length (by omega)] at h ⊢
  split_ifs at h with hn hscan
  simp only [Option.some.injEq, Prod.mk.injEq] at h
  obtain ⟨hd, hpq⟩ := h
  -- the token, and the slice behind it
  have hrest : slice.drop p = (slice.drop p).take (q - p) ++ slice.drop q := by
    rw [show q = p + (q - p) by omega, ← List.drop_drop, Nat.add_sub_cancel_left,
      List.take_append_drop]
  have htake : (slice.drop p ++ t).take (floatLen (slice.drop p ++ t)) =
      (slice.drop p).take (q - p) := by
    rw [show floatLen (slice.drop p ++ t) = q - p by omega,
      List.take_append_of_le_length (by rw [List.length_drop]; omega)]
  rw [htake] at hscan hd
  have hstop : Stops continues (slice.drop q ++ u) := by
    rw [List.drop_eq_getElem_cons hq]
    intro b s hb
    obtain ⟨rfl, -⟩ := List.cons.inj hb
    rw [hget]
    exact continues_eq_false hdelim
  have hlen := floatLen_shape (numberShape_of_scan hscan) hstop
  rw [← List.append_assoc, ← hrest, List.length_take, List.length_drop,
    Nat.min_eq_left (by omega)] at hlen
  rw [hlen, if_neg (by omega), List.take_append_of_le_length (by rw [List.length_drop]; omega),
    if_pos hscan, hd]
  simp only [Option.some.injEq, Prod.mk.injEq, true_and]
  omega

/-- A delimiter stands at `q`. -/
def Delimited (slice : List UInt8) (q : ℕ) : Prop :=
  ∃ c, slice[q]? = some c ∧ isDelimiter c = true

/-- A number, and a phrase that may end with one, is followed by a delimiter. -/
def Ended (slice : List UInt8) (q : ℕ) : Phrase D → Prop
  | .value v => ∀ d, v = .num d → Delimited slice q
  | .elements _ => Delimited slice q
  | .members _ => Delimited slice q

theorem delimited_of_peek {c : UInt8} (h : peek (slice ++ t) slice.length q = some c)
    (hc : isDelimiter c = true) : Delimited slice q := by
  rw [peek_append] at h
  exact ⟨c, h, hc⟩

/-- White space is a delimiter, so what is delimited behind white space is delimited before it. -/
theorem Delimited.before_ws (h : Delimited slice q) (hws : WsRun (slice ++ t) slice.length p q) :
    Delimited slice p := by
  by_cases hpq : p = q
  · exact hpq ▸ h
  · obtain ⟨c, hc, hw⟩ := hws.2 p le_rfl (lt_of_le_of_ne hws.1 hpq)
    exact delimited_of_peek hc (by simp [isDelimiter, hw])

/-- The texts of the slice, with the bytes `t` behind it. -/
def SliceDerives (toDouble : List UInt8 → D) (slice t : List UInt8) :
    ℕ → Phrase D → ℕ → Prop :=
  Derives (slice ++ t) slice.length (parseStringRaw (slice ++ t) slice.length)
    (within slice.length (parseNumber toDouble (slice ++ t)))

theorem SliceDerives.transfer {toDouble : List UInt8 → D} {x : Phrase D}
    (h : SliceDerives toDouble slice t p x q) (hx : Ended slice q x) :
    SliceDerives toDouble slice u p x q := by
  have hpeek : ∀ {i c}, peek (slice ++ t) slice.length i = some c →
      peek (slice ++ u) slice.length i = some c := fun hc => by
    rw [peek_append] at hc ⊢
    exact hc
  have hstr : ∀ {i r}, parseStringRaw (slice ++ t) slice.length i = some r →
      parseStringRaw (slice ++ u) slice.length i = some r := fun hr => by
    rw [parseStringRaw_append] at hr ⊢
    exact hr
  have hlit : ∀ {w i}, matchLiteral (slice ++ t) slice.length w i = true →
      matchLiteral (slice ++ u) slice.length w i = true := fun hw => by
    rw [matchLiteral_append] at hw ⊢
    exact hw
  induction h with
  | litNull lit => exact .litNull (hlit lit)
  | litTrue lit => exact .litTrue (hlit lit)
  | litFalse lit => exact .litFalse (hlit lit)
  | string first tok => exact .string (hpeek first) (hstr tok)
  | number first start tok =>
    obtain ⟨htok, hle⟩ := within_eq_some.mp tok
    obtain ⟨c, hc, hdelim⟩ := hx _ rfl
    exact .number (hpeek first) start
      (within_eq_some.mpr ⟨parseNumber_append htok hc hdelim, hle⟩)
  | emptyArray opening ws closing =>
    exact .emptyArray (hpeek opening) (wsRun_append ws) (hpeek closing)
  | array opening ws items closing ih =>
    exact .array (hpeek opening) (wsRun_append ws)
      (ih (delimited_of_peek closing (by decide))) (hpeek closing)
  | emptyObject opening ws closing =>
    exact .emptyObject (hpeek opening) (wsRun_append ws) (hpeek closing)
  | object opening ws items closing ih =>
    exact .object (hpeek opening) (wsRun_append ws)
      (ih (delimited_of_peek closing (by decide))) (hpeek closing)
  | lastElement item ws ih =>
    exact .lastElement (ih fun _ _ => Delimited.before_ws hx ws) (wsRun_append ws)
  | nextElement item before comma after rest ih ih' =>
    exact .nextElement
      (ih fun _ _ => (delimited_of_peek comma (by decide)).before_ws before)
      (wsRun_append before) (hpeek comma) (wsRun_append after) (ih' hx)
  | lastMember quote name before colon after item ws ih =>
    exact .lastMember (hpeek quote) (hstr name) (wsRun_append before) (hpeek colon)
      (wsRun_append after) (ih fun _ _ => Delimited.before_ws hx ws) (wsRun_append ws)
  | nextMember quote name before colon after item ws comma gap rest ih ih' =>
    exact .nextMember (hpeek quote) (hstr name) (wsRun_append before) (hpeek colon)
      (wsRun_append after) (ih fun _ _ => (delimited_of_peek comma (by decide)).before_ws ws)
      (wsRun_append ws) (hpeek comma) (wsRun_append gap) (ih' hx)

/-! ## The outcome -/

/-- Apart from white space before it, the slice is one number that runs up to its last byte. -/
def NumberToEnd (slice : List UInt8) : Prop :=
  ∃ ws tok, slice = ws ++ tok ∧ (∀ c ∈ ws, isWs c = true) ∧ scanNumber tok = some []

theorem numberToEnd_of_number {toDouble : List UInt8 → D} {d : D}
    (hws : WsRun (slice ++ t) slice.length 0 p)
    (h : parseNumber toDouble (slice ++ t) p = some (d, slice.length)) : NumberToEnd slice := by
  have hlt := parseNumber_lt h
  unfold parseNumber at h
  dsimp only at h
  rw [List.drop_append_of_le_length hlt.le] at h
  split_ifs at h with hn hscan
  simp only [Option.some.injEq, Prod.mk.injEq] at h
  rw [show floatLen (slice.drop p ++ t) = (slice.drop p).length by rw [List.length_drop]; omega,
    List.take_left] at hscan
  refine ⟨slice.take p, slice.drop p, (List.take_append_drop p slice).symm, fun c hc => ?_, hscan⟩
  obtain ⟨i, hi, rfl⟩ := List.mem_take_iff_getElem.mp hc
  obtain ⟨c, hpeek, hw⟩ := hws.2 i (Nat.zero_le i) (by omega)
  rw [peek_append, List.getElem?_eq_getElem (by omega)] at hpeek
  rw [Option.some.inj hpeek]
  exact hw

theorem Accepts.transfer {toDouble : List UInt8 → D} {v : Value D} (hend : ¬NumberToEnd slice)
    (h : Accepts toDouble (slice ++ t) slice.length v) :
    Accepts toDouble (slice ++ u) slice.length v := by
  obtain ⟨p, q, hws, hd, hws'⟩ := h
  refine ⟨p, q, wsRun_append hws, SliceDerives.transfer hd ?_, wsRun_append hws'⟩
  rintro d rfl
  by_cases hq : q = slice.length
  · subst hq
    cases hd with
    | number first start tok =>
      exact absurd (numberToEnd_of_number hws (within_eq_some.mp tok).1) hend
  · obtain ⟨c, hc, hw⟩ := hws'.2 q le_rfl (lt_of_le_of_ne hws'.1 hq)
    exact delimited_of_peek hc (by simp [isDelimiter, hw])

/-- Both runs fail, or both succeed with the same tree. -/
def SameOutcome (a b : Outcome (Value D)) : Prop :=
  a = .fail ∧ b = .fail ∨ ∃ v, a = .ok v ∧ b = .ok v

theorem sameOutcome_of_not_numberToEnd {toDouble : List UInt8 → D} (hend : ¬NumberToEnd slice)
    (t u : List UInt8) {fuel : ℕ} (hf : 3 * slice.length + 1 ≤ fuel) :
    SameOutcome (zenitJsonParseWithLength toDouble (slice ++ t) slice.length fuel)
      (zenitJsonParseWithLength toDouble (slice ++ u) slice.length fuel) := by
  have hok : ∀ {t u : List UInt8} {v : Value D},
      zenitJsonParseWithLength toDouble (slice ++ t) slice.length fuel = .ok v →
      zenitJsonParseWithLength toDouble (slice ++ u) slice.length fuel = .ok v := fun h =>
    (zenitJsonParseWithLength_eq_ok hf).mpr
      (((zenitJsonParseWithLength_eq_ok hf).mp h).transfer hend)
  cases ht : zenitJsonParseWithLength toDouble (slice ++ t) slice.length fuel with
  | stuck => exact absurd ht (zenitJsonParseWithLength_ne_stuck hf)
  | ok v => exact Or.inr ⟨v, rfl, hok ht⟩
  | fail =>
    refine Or.inl ⟨rfl, ?_⟩
    cases hu : zenitJsonParseWithLength toDouble (slice ++ u) slice.length fuel with
    | stuck => exact absurd hu (zenitJsonParseWithLength_ne_stuck hf)
    | fail => rfl
    | ok v =>
      have := hok hu (u := t)
      simp [ht] at this

/-! ## A number at the end -/

theorem wsRun_leading {ws tok : List UInt8} (hws : ∀ c ∈ ws, isWs c = true) :
    WsRun (ws ++ tok ++ t) (ws ++ tok).length 0 ws.length := by
  refine ⟨Nat.zero_le _, fun i _ hi => ⟨ws[i], ?_, hws _ (List.getElem_mem hi)⟩⟩
  rw [peek_append, List.getElem?_append_left hi, List.getElem?_eq_getElem hi]

theorem first_of_scan {tok : List UInt8} (h : scanNumber tok = some []) :
    ∃ c s, tok = c :: s ∧ (c = chMinus ∨ isDigit c = true) := by
  obtain ⟨sg, ds, fr, ex, hsg, hds, -, -, rfl⟩ := numberShape_of_scan h
  obtain ⟨d, ds', rfl⟩ := List.exists_cons_of_ne_nil hds.1
  rcases hsg with rfl | rfl
  · exact ⟨d, _, rfl, Or.inr (hds.2 d (by simp))⟩
  · exact ⟨chMinus, _, rfl, Or.inl rfl⟩

theorem floatLen_of_scan {tok : List UInt8} (h : scanNumber tok = some []) :
    floatLen tok = tok.length := by
  have hlen := floatLen_shape (numberShape_of_scan h) (fun _ _ he => by simp at he : Stops _ [])
  rwa [List.append_nil] at hlen

theorem floatLen_of_scan_digit {tok : List UInt8} {d : UInt8} (h : scanNumber tok = some [])
    (hd : isDigit d = true) : floatLen (tok ++ [d]) = tok.length + 1 := by
  have hlen := floatLen_shape ((numberShape_of_scan h).snoc hd)
    (fun _ _ he => by simp at he : Stops _ [])
  rwa [List.append_nil, List.length_append, List.length_singleton] at hlen

theorem peek_after_ws {ws tok : List UInt8} {c : UInt8} {s : List UInt8} (h : tok = c :: s) :
    peek (ws ++ tok ++ t) (ws ++ tok).length ws.length = some c := by
  rw [peek_append, h]
  simp

/-- With nothing behind it the number is read. -/
theorem accepts_number {toDouble : List UInt8 → D} {ws tok : List UInt8}
    (hws : ∀ c ∈ ws, isWs c = true) (hscan : scanNumber tok = some []) :
    Accepts toDouble (ws ++ tok ++ []) (ws ++ tok).length (.num (toDouble tok)) := by
  obtain ⟨c, s, htok, hstart⟩ := first_of_scan hscan
  have hpos : tok.length ≠ 0 := by simp [htok]
  refine ⟨ws.length, (ws ++ tok).length, wsRun_leading hws,
    .number (peek_after_ws htok) hstart (within_eq_some.mpr ⟨?_, le_rfl⟩), WsRun.refl⟩
  unfold parseNumber
  simp only [List.append_nil, List.drop_left, floatLen_of_scan hscan, List.take_length,
    if_neg hpos, if_pos hscan, List.length_append]

/-- With a digit behind it the number runs past the end of the slice. -/
theorem not_accepts_number {toDouble : List UInt8 → D} {ws tok : List UInt8} {b : UInt8} {d : D}
    (hws : ∀ c ∈ ws, isWs c = true) (hscan : scanNumber tok = some []) (hb : isDigit b = true) :
    ¬Accepts toDouble (ws ++ tok ++ [b]) (ws ++ tok).length (.num d) := by
  rintro ⟨p, q, hws', hd, -⟩
  obtain ⟨c, s, htok, hstart⟩ := first_of_scan hscan
  have hp : p = ws.length := by
    rw [← hd.skipWs_eq hws']
    exact skipWs_eq_of_byte (wsRun_leading hws) (peek_after_ws htok) (starts_of_digit hstart).1
  subst hp
  cases hd with
  | number first start tok' =>
    obtain ⟨hnum, hle⟩ := within_eq_some.mp tok'
    unfold parseNumber at hnum
    dsimp only at hnum
    rw [List.append_assoc, List.drop_left, floatLen_of_scan_digit hscan hb,
      if_neg (by omega)] at hnum
    split_ifs at hnum
    obtain ⟨-, hq⟩ := Prod.mk.inj (Option.some.inj hnum)
    rw [List.length_append] at hle
    omega

/-- The outcome depends on the slice alone exactly when no number runs up to the end of it. -/
theorem parse_ignores_tail_iff (toDouble : List UInt8 → D) (slice : List UInt8) :
    (∀ t u fuel, 3 * slice.length + 1 ≤ fuel →
      SameOutcome (zenitJsonParseWithLength toDouble (slice ++ t) slice.length fuel)
        (zenitJsonParseWithLength toDouble (slice ++ u) slice.length fuel)) ↔
      ¬NumberToEnd slice := by
  constructor
  · rintro h ⟨ws, tok, rfl, hws, hscan⟩
    have haccepts : Accepts toDouble (ws ++ tok ++ []) (ws ++ tok).length (.num (toDouble tok)) :=
      accepts_number hws hscan
    have hok := (zenitJsonParseWithLength_eq_ok le_rfl).mpr haccepts
    rcases h [] [chZero] _ le_rfl with ⟨hfail, -⟩ | ⟨v, hv, hv'⟩
    · exact absurd (hok.symm.trans hfail) (by simp)
    · rw [hok] at hv
      obtain rfl := Outcome.ok.inj hv
      exact not_accepts_number hws hscan (by decide) ((zenitJsonParseWithLength_eq_ok le_rfl).mp hv')
  · intro hend t u fuel hf
    exact sameOutcome_of_not_numberToEnd hend t u hf

/-- The text `1` of length one, with nothing or with the byte `2` behind it. -/
theorem number_read_past_length :
    ¬∀ (slice t u : List UInt8) (fuel : ℕ), 3 * slice.length + 1 ≤ fuel →
      SameOutcome (zenitJsonParseWithLength id (slice ++ t) slice.length fuel)
        (zenitJsonParseWithLength id (slice ++ u) slice.length fuel) := by
  intro h
  have hone : zenitJsonParseWithLength id ([49] ++ [0]) 1 4 = .ok (.num [49]) := rfl
  have htwo : zenitJsonParseWithLength id ([49] ++ [50]) 1 4 = .fail := rfl
  rcases h [49] [0] [50] 4 (by decide) with ⟨hfail, -⟩ | ⟨v, -, hv⟩
  · exact absurd (hone.symm.trans hfail) (by simp)
  · exact absurd (htwo.symm.trans hv) (by simp)

end LibZenit.Json
