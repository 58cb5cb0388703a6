import LibZenit.JsonGrammar

/-!
# The parser accepts exactly the grammar

Soundness and termination follow the fuel; completeness follows the derivation.
-/
namespace LibZenit.Json

variable {D : Type} {mem : List UInt8} {len : ℕ} {str : ℕ → Option (List UInt8 × ℕ)}
  {num : ℕ → Option (D × ℕ)} {p q r : ℕ} {c close : UInt8}

/-! ## Separators and literals -/

theorem parseSeparator_more (h : parseSeparator mem len close p = some (.more, q)) :
    ∃ r, WsRun mem len p r ∧ peek mem len r = some chComma ∧ WsRun mem len (r + 1) q := by
  unfold parseSeparator at h
  dsimp only at h
  cases hc : peek mem len (skipWs mem len p) with
  | none => simp [hc] at h
  | some c =>
    rw [hc] at h
    dsimp only at h
    split_ifs at h with h1 h2
    · subst h1
      cases hd : peek mem len (skipWs mem len (skipWs mem len p + 1)) with
      | none => simp [hd] at h
      | some d =>
        rw [hd] at h
        dsimp only at h
        split_ifs at h
        obtain rfl : skipWs mem len (skipWs mem len p + 1) = q := by simpa using h
        exact ⟨_, wsRun_skipWs, hc, wsRun_skipWs⟩
    · simp at h

theorem parseSeparator_done (h : parseSeparator mem len close p = some (.done, q)) :
    ∃ r, WsRun mem len p r ∧ peek mem len r = some close ∧ q = r + 1 := by
  unfold parseSeparator at h
  dsimp only at h
  cases hc : peek mem len (skipWs mem len p) with
  | none => simp [hc] at h
  | some c =>
    rw [hc] at h
    dsimp only at h
    split_ifs at h with h1 h2
    · cases hd : peek mem len (skipWs mem len (skipWs mem len p + 1)) with
      | none => simp [hd] at h
      | some d =>
        rw [hd] at h
        dsimp only at h
        split_ifs at h
        simp at h
    · subst h2
      obtain rfl : skipWs mem len p + 1 = q := by simpa using h
      exact ⟨_, wsRun_skipWs, hc, rfl⟩

theorem parseSeparator_comma (hws : WsRun mem len p r) (hcomma : peek mem len r = some chComma)
    (hgap : WsRun mem len (r + 1) q) (hc : peek mem len q = some c) (hw : isWs c = false)
    (hne : c ≠ close) : parseSeparator mem len close p = some (.more, q) := by
  have hskip := skipWs_eq_of_byte hws hcomma (by decide)
  have hskip' := skipWs_eq_of_byte hgap hc hw
  simp [parseSeparator, hskip, hcomma, hskip', hc, hne]

theorem parseSeparator_close (hws : WsRun mem len p r) (hclose : peek mem len r = some close)
    (hw : isWs close = false) (hne : close ≠ chComma) :
    parseSeparator mem len close p = some (.done, r + 1) := by
  have hskip := skipWs_eq_of_byte hws hclose hw
  simp [parseSeparator, hskip, hclose, hne]

theorem peek_of_matchLiteral {word : List UInt8} (h : matchLiteral mem len (c :: word) p = true) :
    peek mem len p = some c := by
  unfold matchLiteral at h
  simp only [List.length_cons, Bool.and_eq_true, decide_eq_true_eq, beq_iff_eq] at h
  obtain ⟨hlen, htake⟩ := h
  have hget := congrArg (fun l => l[0]?) htake
  simp only [List.getElem?_cons_zero] at hget
  rw [List.getElem?_take_of_lt (by omega), List.getElem?_drop, Nat.add_zero] at hget
  unfold peek
  rw [if_pos (by omega), hget]

/-! ## Soundness -/

theorem parseLiteral_ok {word : List UInt8} {value v : Value D}
    (h : parseLiteral mem len word value p = .ok (v, q)) :
    matchLiteral mem len word p = true ∧ v = value ∧ q = p + word.length := by
  unfold parseLiteral at h
  split_ifs at h with hm
  simp only [Outcome.ok.injEq, Prod.mk.injEq] at h
  exact ⟨hm, h.1.symm, h.2.symm⟩

/-- What an accepting run of each function says about the text. -/
structure Sound (mem : List UInt8) (len : ℕ) (str : ℕ → Option (List UInt8 × ℕ))
    (num : ℕ → Option (D × ℕ)) (fuel : ℕ) : Prop where
  value : ∀ {p v q}, parseValue mem len str num fuel p = .ok (v, q) →
    ∃ p', WsRun mem len p p' ∧ Derives mem len str num p' (.value v) q
  array : ∀ {p v q}, parseArray mem len str num fuel p = .ok (v, q) →
    Derives mem len str num p (.value v) q
  elements : ∀ {p arr v q}, parseElements mem len str num fuel p arr = .ok (v, q) →
    ∃ p' vs r, WsRun mem len p p' ∧ Derives mem len str num p' (.elements vs) r ∧
      peek mem len r = some chRBracket ∧ q = r + 1 ∧ v = .arr (arr.items ++ vs)
  object : ∀ {p v q}, parseObject mem len str num fuel p = .ok (v, q) →
    Derives mem len str num p (.value v) q
  members : ∀ {p obj v q}, parseMembers mem len str num fuel p obj = .ok (v, q) →
    ∃ p' ms r, WsRun mem len p p' ∧ Derives mem len str num p' (.members ms) r ∧
      peek mem len r = some chRBrace ∧ q = r + 1 ∧ v = .obj (obj.items ++ ms)

theorem push_items {α : Type} {g g' : Growable α} {a : α} (h : g.push a = some g') :
    g'.items = g.items ++ [a] := by
  unfold Growable.push at h
  dsimp only at h
  split_ifs at h <;> (obtain rfl := Option.some.inj h; rfl)

section SoundSteps

variable {fuel : ℕ} (ih : Sound mem len str num fuel)
include ih

theorem Sound.parseValue_succ {v : Value D}
    (h : parseValue mem len str num (fuel + 1) p = .ok (v, q)) :
    ∃ p', WsRun mem len p p' ∧ Derives mem len str num p' (.value v) q := by
  refine ⟨skipWs mem len p, wsRun_skipWs, ?_⟩
  rw [parseValue] at h
  cases hc : peek mem len (skipWs mem len p) with
  | none => simp [hc] at h
  | some c =>
    rw [hc] at h
    dsimp only at h
    split_ifs at h with h1 h2 h3 h4 h5 h6 h7
    · obtain ⟨hm, rfl, rfl⟩ := parseLiteral_ok h
      exact .litNull hm
    · obtain ⟨hm, rfl, rfl⟩ := parseLiteral_ok h
      exact .litTrue hm
    · obtain ⟨hm, rfl, rfl⟩ := parseLiteral_ok h
      exact .litFalse hm
    · exact ih.array h
    · exact ih.object h
    · cases hs : str (skipWs mem len p) with
      | none => simp [hs] at h
      | some sq =>
        obtain ⟨s, q'⟩ := sq
        simp only [hs, Outcome.ok.injEq, Prod.mk.injEq] at h
        obtain ⟨rfl, rfl⟩ := h
        exact .string (h6 ▸ hc) hs
    · cases hn : num (skipWs mem len p) with
      | none => simp [hn] at h
      | some dq =>
        obtain ⟨d, q'⟩ := dq
        simp only [hn, Outcome.ok.injEq, Prod.mk.injEq] at h
        obtain ⟨rfl, rfl⟩ := h
        exact .number hc h7 hn

theorem Sound.parseArray_succ {v : Value D}
    (h : parseArray mem len str num (fuel + 1) p = .ok (v, q)) :
    Derives mem len str num p (.value v) q := by
  rw [parseArray] at h
  dsimp only at h
  split_ifs at h with hopen hempty
  · simp only [Outcome.ok.injEq, Prod.mk.injEq] at h
    obtain ⟨rfl, rfl⟩ := h
    exact .emptyArray (by simpa using hopen) wsRun_skipWs hempty
  · obtain ⟨p', vs, r, hws, hd, hclose, rfl, rfl⟩ := ih.elements h
    exact .array (by simpa using hopen) (wsRun_skipWs.trans hws) hd hclose

theorem Sound.parseElements_succ {arr : Growable (Value D)} {v : Value D}
    (h : parseElements mem len str num (fuel + 1) p arr = .ok (v, q)) :
    ∃ p' vs r, WsRun mem len p p' ∧ Derives mem len str num p' (.elements vs) r ∧
      peek mem len r = some chRBracket ∧ q = r + 1 ∧ v = .arr (arr.items ++ vs) := by
  rw [parseElements] at h
  cases hv : parseValue mem len str num fuel p with
  | stuck => simp [hv] at h
  | fail => simp [hv] at h
  | ok eq =>
    obtain ⟨elem, q₁⟩ := eq
    obtain ⟨p', hws, hd⟩ := ih.value hv
    cases hpush : arr.push elem with
    | none => simp [hv, hpush] at h
    | some arr' =>
      have hitems := push_items hpush
      simp only [hv, hpush, parseArraySeparator] at h
      match hsep : parseSeparator mem len chRBracket q₁ with
      | none => simp [hsep] at h
      | some (.more, q₂) =>
        simp only [hsep] at h
        obtain ⟨r, hbefore, hcomma, hafter⟩ := parseSeparator_more hsep
        obtain ⟨s, vs, t, hws', hd', hclose, rfl, rfl⟩ := ih.elements h
        exact ⟨p', elem :: vs, t, hws, .nextElement hd hbefore hcomma (hafter.trans hws') hd',
          hclose, rfl, by simp [hitems]⟩
      | some (.done, q₂) =>
        simp only [hsep, Outcome.ok.injEq, Prod.mk.injEq] at h
        obtain ⟨rfl, rfl⟩ := h
        obtain ⟨r, hbefore, hclose, rfl⟩ := parseSeparator_done hsep
        exact ⟨p', [elem], r, hws, .lastElement hd hbefore, hclose, rfl, by rw [hitems]⟩

theorem Sound.parseObject_succ {v : Value D}
    (h : parseObject mem len str num (fuel + 1) p = .ok (v, q)) :
    Derives mem len str num p (.value v) q := by
  rw [parseObject] at h
  dsimp only at h
  split_ifs at h with hopen hempty
  · simp only [Outcome.ok.injEq, Prod.mk.injEq] at h
    obtain ⟨rfl, rfl⟩ := h
    exact .emptyObject (by simpa using hopen) wsRun_skipWs hempty
  · obtain ⟨p', ms, r, hws, hd, hclose, rfl, rfl⟩ := ih.members h
    exact .object (by simpa using hopen) (wsRun_skipWs.trans hws) hd hclose

theorem Sound.parseMembers_succ {obj : Growable (List UInt8 × Value D)} {v : Value D}
    (h : parseMembers mem len str num (fuel + 1) p obj = .ok (v, q)) :
    ∃ p' ms r, WsRun mem len p p' ∧ Derives mem len str num p' (.members ms) r ∧
      peek mem len r = some chRBrace ∧ q = r + 1 ∧ v = .obj (obj.items ++ ms) := by
  rw [parseMembers] at h
  dsimp only at h
  split_ifs at h with hquote
  rw [not_not] at hquote
  cases hs : str (skipWs mem len p) with
  | none => simp [hs] at h
  | some kq =>
    obtain ⟨key, q₀⟩ := kq
    simp only [hs] at h
    split_ifs at h with hcolon
    rw [not_not] at hcolon
    cases hv : parseValue mem len str num fuel (skipWs mem len q₀ + 1) with
    | stuck => simp [hv] at h
    | fail => simp [hv] at h
    | ok vq =>
      obtain ⟨val, q₁⟩ := vq
      obtain ⟨p', hws, hd⟩ := ih.value hv
      cases hpush : obj.push (key, val) with
      | none => simp [hv, hpush] at h
      | some obj' =>
        have hitems := push_items hpush
        simp only [hv, hpush, parseObjectSeparator] at h
        match hsep : parseSeparator mem len chRBrace q₁ with
        | none => simp [hsep] at h
        | some (.more, q₂) =>
          simp only [hsep] at h
          obtain ⟨r, hbefore, hcomma, hafter⟩ := parseSeparator_more hsep
          obtain ⟨s, ms, t, hws', hd', hclose, rfl, rfl⟩ := ih.members h
          exact ⟨skipWs mem len p, (key, val) :: ms, t, wsRun_skipWs,
            .nextMember hquote hs wsRun_skipWs hcolon hws hd hbefore hcomma (hafter.trans hws') hd',
            hclose, rfl, by simp [hitems]⟩
        | some (.done, q₂) =>
          simp only [hsep, Outcome.ok.injEq, Prod.mk.injEq] at h
          obtain ⟨rfl, rfl⟩ := h
          obtain ⟨r, hbefore, hclose, rfl⟩ := parseSeparator_done hsep
          exact ⟨skipWs mem len p, [(key, val)], r, wsRun_skipWs,
            .lastMember hquote hs wsRun_skipWs hcolon hws hd hbefore, hclose, rfl, by rw [hitems]⟩

end SoundSteps

theorem sound (fuel : ℕ) : Sound mem len str num fuel := by
  induction fuel with
  | zero =>
    refine ⟨?_, ?_, ?_, ?_, ?_⟩
    all_goals
      intros
      simp_all [parseValue, parseArray, parseElements, parseObject, parseMembers]
  | succ fuel ih =>
    exact ⟨ih.parseValue_succ, ih.parseArray_succ, ih.parseElements_succ, ih.parseObject_succ,
      ih.parseMembers_succ⟩

/-! ## Extent and first byte of a phrase -/

theorem matchLiteral_le {word : List UInt8} (h : matchLiteral mem len word p = true) :
    p + word.length ≤ len := by
  unfold matchLiteral at h
  simp only [Bool.and_eq_true, decide_eq_true_eq] at h
  exact h.1

/-- A phrase is not empty and ends within the input. -/
theorem Derives.extent (hb : TokensBounded len str num) {x : Phrase D}
    (h : Derives mem len str num p x q) : p < q ∧ q ≤ len := by
  induction h with
  | litNull lit => exact ⟨by omega, matchLiteral_le lit⟩
  | litTrue lit => exact ⟨by omega, matchLiteral_le lit⟩
  | litFalse lit => exact ⟨by omega, matchLiteral_le lit⟩
  | string _ tok => exact hb.str_lt tok
  | number _ _ tok => exact hb.num_lt tok
  | emptyArray _ ws closing => exact ⟨by have := ws.1; omega, peek_lt closing⟩
  | array _ ws _ closing ih => exact ⟨by have := ws.1; omega, peek_lt closing⟩
  | emptyObject _ ws closing => exact ⟨by have := ws.1; omega, peek_lt closing⟩
  | object _ ws _ closing ih => exact ⟨by have := ws.1; omega, peek_lt closing⟩
  | lastElement _ ws ih => exact ⟨by have := ws.1; omega, ws.le_len ih.2⟩
  | nextElement _ before _ after _ ih ih' =>
    exact ⟨by have := before.1; have := after.1; omega, ih'.2⟩
  | lastMember _ name before _ after _ ws ih =>
    have := hb.str_lt name
    exact ⟨by have := before.1; have := after.1; have := ws.1; omega, ws.le_len ih.2⟩
  | nextMember _ name before _ after _ ws _ gap _ ih ih' =>
    have := hb.str_lt name
    exact ⟨by have := before.1; have := after.1; have := ws.1; have := gap.1; omega, ih'.2⟩

/-- A byte that may start a phrase. -/
def Starts (c : UInt8) : Prop :=
  isWs c = false ∧ c ≠ chRBracket ∧ c ≠ chRBrace

theorem starts_of_digit (h : c = chMinus ∨ isDigit c = true) : Starts c := by
  rcases h with rfl | h
  · exact ⟨by decide, by decide, by decide⟩
  · unfold isDigit at h
    simp only [Bool.and_eq_true, decide_eq_true_eq] at h
    refine ⟨?_, ?_, ?_⟩
    · by_contra hw
      simp only [isWs, Bool.not_eq_false, Bool.or_eq_true, beq_iff_eq] at hw
      rcases hw with ((rfl | rfl) | rfl) | rfl <;> exact absurd h.1 (by decide)
    · rintro rfl
      exact absurd h.2 (by decide)
    · rintro rfl
      exact absurd h.2 (by decide)

theorem Derives.first {x : Phrase D} (h : Derives mem len str num p x q) :
    ∃ c, peek mem len p = some c ∧ Starts c := by
  induction h with
  | litNull lit => exact ⟨_, peek_of_matchLiteral lit, by decide, by decide, by decide⟩
  | litTrue lit => exact ⟨_, peek_of_matchLiteral lit, by decide, by decide, by decide⟩
  | litFalse lit => exact ⟨_, peek_of_matchLiteral lit, by decide, by decide, by decide⟩
  | string first _ => exact ⟨_, first, by decide, by decide, by decide⟩
  | number first start _ => exact ⟨_, first, starts_of_digit start⟩
  | emptyArray opening _ _ => exact ⟨_, opening, by decide, by decide, by decide⟩
  | array opening _ _ _ _ => exact ⟨_, opening, by decide, by decide, by decide⟩
  | emptyObject opening _ _ => exact ⟨_, opening, by decide, by decide, by decide⟩
  | object opening _ _ _ _ => exact ⟨_, opening, by decide, by decide, by decide⟩
  | lastElement _ _ ih => exact ih
  | nextElement _ _ _ _ _ ih _ => exact ih
  | lastMember quote _ _ _ _ _ _ _ => exact ⟨_, quote, by decide, by decide, by decide⟩
  | nextMember quote _ _ _ _ _ _ _ _ _ _ _ => exact ⟨_, quote, by decide, by decide, by decide⟩

theorem Derives.skipWs_eq {x : Phrase D} (h : Derives mem len str num q x r)
    (hws : WsRun mem len p q) : skipWs mem len p = q := by
  obtain ⟨c, hc, hw, -⟩ := h.first
  exact skipWs_eq_of_byte hws hc hw

/-! ## Completeness -/

/-- Parsing from anywhere in the white space before a phrase reads the phrase. The fuel is three
units for every byte left. -/
def Reads (mem : List UInt8) (len : ℕ) (str : ℕ → Option (List UInt8 × ℕ))
    (num : ℕ → Option (D × ℕ)) (q : ℕ) : Phrase D → ℕ → Prop
  | .value v, r => ∀ fuel p, WsRun mem len p q → 3 * (len - p) + 1 ≤ fuel →
      parseValue mem len str num fuel p = .ok (v, r)
  | .elements vs, r => ∀ fuel p arr, WsRun mem len p q → 3 * (len - p) + 2 ≤ fuel → arr.Ready →
      peek mem len r = some chRBracket →
      parseElements mem len str num fuel p arr = .ok (.arr (arr.items ++ vs), r + 1)
  | .members ms, r => ∀ fuel p obj, WsRun mem len p q → 3 * (len - p) + 2 ≤ fuel → obj.Ready →
      peek mem len r = some chRBrace →
      parseMembers mem len str num fuel p obj = .ok (.obj (obj.items ++ ms), r + 1)

section Dispatch

variable {v : Value D} {fuel : ℕ}

theorem parseLiteral_eq {word : List UInt8} (h : matchLiteral mem len word q = true) :
    parseLiteral mem len word v q = .ok (v, q + word.length) := by
  unfold parseLiteral
  rw [if_pos h]

variable (hws : WsRun mem len p q)
include hws

theorem parseValue_of_literal {word : List UInt8} (h : matchLiteral mem len word q = true)
    (hword : word = wordNull ∧ v = .null ∨ word = wordTrue ∧ v = .bool true ∨
      word = wordFalse ∧ v = .bool false) :
    parseValue mem len str num (fuel + 1) p = .ok (v, q + word.length) := by
  rw [parseValue]
  rcases hword with ⟨rfl, rfl⟩ | ⟨rfl, rfl⟩ | ⟨rfl, rfl⟩
  · have hc := peek_of_matchLiteral h
    simp only [skipWs_eq_of_byte hws hc (by decide), hc]
    exact parseLiteral_eq h
  · have hc := peek_of_matchLiteral h
    simp only [skipWs_eq_of_byte hws hc (by decide), hc]
    exact parseLiteral_eq h
  · have hc := peek_of_matchLiteral h
    simp only [skipWs_eq_of_byte hws hc (by decide), hc]
    exact parseLiteral_eq h

theorem parseValue_of_string {s : List UInt8} (hc : peek mem len q = some chQuote)
    (tok : str q = some (s, r)) : parseValue mem len str num (fuel + 1) p = .ok (.str s, r) := by
  rw [parseValue]
  simp only [skipWs_eq_of_byte hws hc (by decide), hc, tok]
  rw [if_neg (by decide), if_neg (by decide), if_neg (by decide), if_neg (by decide),
    if_neg (by decide), if_pos trivial]

theorem parseValue_of_number {d : D} (hc : peek mem len q = some c)
    (hstart : c = chMinus ∨ isDigit c = true) (tok : num q = some (d, r)) :
    parseValue mem len str num (fuel + 1) p = .ok (.num d, r) := by
  have hne : ∀ b, (b = chMinus ∨ isDigit b = true → False) → c ≠ b := by
    rintro b hb rfl
    exact hb hstart
  rw [parseValue]
  simp only [skipWs_eq_of_byte hws hc (starts_of_digit hstart).1, hc, tok]
  rw [if_neg (hne _ (by decide)), if_neg (hne _ (by decide)), if_neg (hne _ (by decide)),
    if_neg (hne _ (by decide)), if_neg (hne _ (by decide)), if_neg (hne _ (by decide)),
    if_pos hstart]

theorem parseValue_of_array (hc : peek mem len q = some chLBracket)
    (h : parseArray mem len str num fuel q = .ok (v, r)) :
    parseValue mem len str num (fuel + 1) p = .ok (v, r) := by
  rw [parseValue]
  simp only [skipWs_eq_of_byte hws hc (by decide), hc]
  rwa [if_neg (by decide), if_neg (by decide), if_neg (by decide), if_pos trivial]

theorem parseValue_of_object (hc : peek mem len q = some chLBrace)
    (h : parseObject mem len str num fuel q = .ok (v, r)) :
    parseValue mem len str num (fuel + 1) p = .ok (v, r) := by
  rw [parseValue]
  simp only [skipWs_eq_of_byte hws hc (by decide), hc]
  rwa [if_neg (by decide), if_neg (by decide), if_neg (by decide), if_neg (by decide), if_pos trivial]

end Dispatch

theorem exists_succ {n fuel : ℕ} (h : n + 1 ≤ fuel) : ∃ f, fuel = f + 1 ∧ n ≤ f :=
  ⟨fuel - 1, by omega, by omega⟩

section Rounds

variable {fuel s u : ℕ} {key : List UInt8} {elem : Value D} {arr arr' : Growable (Value D)}
  {obj obj' : Growable (List UInt8 × Value D)}

/-- One round of the loop of `parse_array` that goes on. -/
theorem parseElements_more (hval : parseValue mem len str num fuel p = .ok (elem, q))
    (hpush : arr.push elem = some arr')
    (hsep : parseSeparator mem len chRBracket q = some (.more, r)) :
    parseElements mem len str num (fuel + 1) p arr =
      parseElements mem len str num fuel r arr' := by
  rw [parseElements]
  simp only [hval, hpush, parseArraySeparator, hsep]

/-- The last round of the loop of `parse_array`. -/
theorem parseElements_done (hval : parseValue mem len str num fuel p = .ok (elem, q))
    (hpush : arr.push elem = some arr')
    (hsep : parseSeparator mem len chRBracket q = some (.done, r)) :
    parseElements mem len str num (fuel + 1) p arr = .ok (.arr arr'.items, r) := by
  rw [parseElements]
  simp only [hval, hpush, parseArraySeparator, hsep]

variable (hws : WsRun mem len p q) (hquote : peek mem len q = some chQuote)
  (hkey : str q = some (key, r)) (hbefore : WsRun mem len r s)
  (hcolon : peek mem len s = some chColon)
  (hval : parseValue mem len str num fuel (s + 1) = .ok (elem, u))
  (hpush : obj.push (key, elem) = some obj')
include hws hquote hkey hbefore hcolon hval hpush

/-- One round of the loop of `parse_object` that goes on. -/
theorem parseMembers_more {w : ℕ}
    (hsep : parseSeparator mem len chRBrace u = some (.more, w)) :
    parseMembers mem len str num (fuel + 1) p obj = parseMembers mem len str num fuel w obj' := by
  have hskip := skipWs_eq_of_byte hws hquote (by decide)
  have hskip' := skipWs_eq_of_byte hbefore hcolon (by decide)
  rw [parseMembers]
  simp only [hskip, hquote, hkey, hskip', hcolon, hval, hpush, parseObjectSeparator, hsep, ne_eq,
    not_true_eq_false, if_false]

/-- The last round of the loop of `parse_object`. -/
theorem parseMembers_done {w : ℕ}
    (hsep : parseSeparator mem len chRBrace u = some (.done, w)) :
    parseMembers mem len str num (fuel + 1) p obj = .ok (.obj obj'.items, w) := by
  have hskip := skipWs_eq_of_byte hws hquote (by decide)
  have hskip' := skipWs_eq_of_byte hbefore hcolon (by decide)
  rw [parseMembers]
  simp only [hskip, hquote, hkey, hskip', hcolon, hval, hpush, parseObjectSeparator, hsep, ne_eq,
    not_true_eq_false, if_false]

end Rounds

theorem Derives.reads (hb : TokensBounded len str num) {x : Phrase D}
    (h : Derives mem len str num p x q) : Reads mem len str num p x q := by
  induction h with
  | litNull lit =>
    intro fuel p hws hf
    obtain ⟨f, rfl, -⟩ := exists_succ (Nat.le_of_add_left_le hf)
    exact parseValue_of_literal hws lit (Or.inl ⟨rfl, rfl⟩)
  | litTrue lit =>
    intro fuel p hws hf
    obtain ⟨f, rfl, -⟩ := exists_succ (Nat.le_of_add_left_le hf)
    exact parseValue_of_literal hws lit (Or.inr (Or.inl ⟨rfl, rfl⟩))
  | litFalse lit =>
    intro fuel p hws hf
    obtain ⟨f, rfl, -⟩ := exists_succ (Nat.le_of_add_left_le hf)
    exact parseValue_of_literal hws lit (Or.inr (Or.inr ⟨rfl, rfl⟩))
  | string first tok =>
    intro fuel p hws hf
    obtain ⟨f, rfl, -⟩ := exists_succ (Nat.le_of_add_left_le hf)
    exact parseValue_of_string hws first tok
  | number first start tok =>
    intro fuel p hws hf
    obtain ⟨f, rfl, -⟩ := exists_succ (Nat.le_of_add_left_le hf)
    exact parseValue_of_number hws first start tok
  | emptyArray opening ws closing =>
    intro fuel p hws hf
    have := peek_lt opening
    have := hws.1
    obtain ⟨f, rfl⟩ : ∃ f, fuel = f + 2 := ⟨fuel - 2, by omega⟩
    apply parseValue_of_array hws opening
    have hskip := skipWs_eq_of_byte ws closing (by decide)
    simp [parseArray, opening, hskip, closing]
  | array opening ws items closing ih =>
    intro fuel p hws hf
    have := peek_lt opening
    have := hws.1
    have := ws.1
    obtain ⟨f, rfl⟩ : ∃ f, fuel = f + 2 := ⟨fuel - 2, by omega⟩
    apply parseValue_of_array hws opening
    obtain ⟨c, hc, hw, hne, -⟩ := items.first
    have hskip := skipWs_eq_of_byte ws hc hw
    have hrun := ih f _ ⟨[], 0⟩ WsRun.refl (by omega) Growable.Ready.empty closing
    simpa [parseArray, opening, hskip, hc, hne] using hrun
  | emptyObject opening ws closing =>
    intro fuel p hws hf
    have := peek_lt opening
    have := hws.1
    obtain ⟨f, rfl⟩ : ∃ f, fuel = f + 2 := ⟨fuel - 2, by omega⟩
    apply parseValue_of_object hws opening
    have hskip := skipWs_eq_of_byte ws closing (by decide)
    simp [parseObject, opening, hskip, closing]
  | object opening ws items closing ih =>
    intro fuel p hws hf
    have := peek_lt opening
    have := hws.1
    have := ws.1
    obtain ⟨f, rfl⟩ : ∃ f, fuel = f + 2 := ⟨fuel - 2, by omega⟩
    apply parseValue_of_object hws opening
    obtain ⟨c, hc, hw, -, hne⟩ := items.first
    have hskip := skipWs_eq_of_byte ws hc hw
    have hrun := ih f _ ⟨[], 0⟩ WsRun.refl (by omega) Growable.Ready.empty closing
    simpa [parseObject, opening, hskip, hc, hne] using hrun
  | lastElement item ws ih =>
    intro fuel p arr hws hf hready hclose
    obtain ⟨f, rfl, hf'⟩ := exists_succ hf
    obtain ⟨arr', hpush, hitems, -⟩ := hready.push _
    rw [parseElements_done (ih f p hws hf') hpush
      (parseSeparator_close ws hclose (by decide) (by decide)), hitems]
  | nextElement item before comma after rest ih ih' =>
    intro fuel p arr hws hf hready hclose
    have := (item.extent hb).1
    have := peek_lt comma
    have := before.1
    have := after.1
    have := hws.1
    obtain ⟨f, rfl, hf'⟩ := exists_succ hf
    obtain ⟨arr', hpush, hitems, hready'⟩ := hready.push _
    obtain ⟨c, hc, hw, hne, -⟩ := rest.first
    rw [parseElements_more (ih f p hws hf') hpush
      (parseSeparator_comma before comma after hc hw hne),
      ih' f _ arr' WsRun.refl (by omega) hready' hclose, hitems]
    simp
  | lastMember quote name before colon after item ws ih =>
    intro fuel p obj hws hf hready hclose
    have := (hb.str_lt name).1
    have := before.1
    have := hws.1
    obtain ⟨f, rfl, hf'⟩ := exists_succ hf
    obtain ⟨obj', hpush, hitems, -⟩ := hready.push _
    rw [parseMembers_done hws quote name before colon (ih f _ after (by omega)) hpush
      (parseSeparator_close ws hclose (by decide) (by decide)), hitems]
  | nextMember quote name before colon after item ws comma gap rest ih ih' =>
    intro fuel p obj hws hf hready hclose
    have := (hb.str_lt name).1
    have := (item.extent hb).1
    have := peek_lt comma
    have := before.1
    have := after.1
    have := ws.1
    have := gap.1
    have := hws.1
    obtain ⟨f, rfl, hf'⟩ := exists_succ hf
    obtain ⟨obj', hpush, hitems, hready'⟩ := hready.push _
    obtain ⟨c, hc, hw, -, hne⟩ := rest.first
    rw [parseMembers_more hws quote name before colon (ih f _ after (by omega)) hpush
      (parseSeparator_comma ws comma gap hc hw hne),
      ih' f _ obj' WsRun.refl (by omega) hready' hclose, hitems]
    simp

/-! ## Termination -/

/-- Fuel that suffices for each function: three units for every byte left. -/
structure Ends (mem : List UInt8) (len : ℕ) (str : ℕ → Option (List UInt8 × ℕ))
    (num : ℕ → Option (D × ℕ)) (fuel : ℕ) : Prop where
  value : ∀ {p}, p ≤ len → 3 * (len - p) + 1 ≤ fuel → parseValue mem len str num fuel p ≠ .stuck
  array : ∀ {p}, p ≤ len → 3 * (len - p) ≤ fuel → 0 < fuel →
    parseArray mem len str num fuel p ≠ .stuck
  elements : ∀ {p arr}, p ≤ len → 3 * (len - p) + 2 ≤ fuel → arr.Ready →
    parseElements mem len str num fuel p arr ≠ .stuck
  object : ∀ {p}, p ≤ len → 3 * (len - p) ≤ fuel → 0 < fuel →
    parseObject mem len str num fuel p ≠ .stuck
  members : ∀ {p obj}, p ≤ len → 3 * (len - p) + 2 ≤ fuel → obj.Ready →
    parseMembers mem len str num fuel p obj ≠ .stuck

theorem parseLiteral_ne_stuck (word : List UInt8) (v : Value D) :
    parseLiteral mem len word v p ≠ .stuck := by
  unfold parseLiteral
  split_ifs <;> simp

/-- The part of the input behind a parsed value. -/
theorem parseValue_extent (hb : TokensBounded len str num) {fuel : ℕ} {v : Value D}
    (h : parseValue mem len str num fuel p = .ok (v, q)) : p < q ∧ q ≤ len := by
  obtain ⟨p', hws, hd⟩ := (sound fuel).value h
  have := hd.extent hb
  have := hws.1
  omega

theorem parseSeparator_extent {sep : Sep} (h : parseSeparator mem len close p = some (sep, q)) :
    p < q ∧ q ≤ len := by
  cases sep with
  | more =>
    obtain ⟨r, h1, hc, h2⟩ := parseSeparator_more h
    have hr := peek_lt hc
    have := h1.1
    have := h2.1
    exact ⟨by omega, h2.le_len hr⟩
  | done =>
    obtain ⟨r, h1, hc, rfl⟩ := parseSeparator_done h
    have hr := peek_lt hc
    have := h1.1
    omega

section EndsSteps

variable {fuel : ℕ} (hb : TokensBounded len str num) (ih : Ends mem len str num fuel)
include ih

theorem Ends.parseValue_succ (hp : p ≤ len) (hf : 3 * (len - p) + 1 ≤ fuel + 1) :
    parseValue mem len str num (fuel + 1) p ≠ .stuck := by
  have hle : skipWs mem len p ≤ len := skipWs_le hp
  have hge : p ≤ skipWs mem len p := le_skipWs
  rw [parseValue]
  cases hc : peek mem len (skipWs mem len p) with
  | none => simp
  | some c =>
    have hlt := peek_lt hc
    dsimp only
    split_ifs
    · exact parseLiteral_ne_stuck _ _
    · exact parseLiteral_ne_stuck _ _
    · exact parseLiteral_ne_stuck _ _
    · exact ih.array hle (by omega) (by omega)
    · exact ih.object hle (by omega) (by omega)
    · cases str (skipWs mem len p) <;> simp
    · cases num (skipWs mem len p) <;> simp
    · simp

theorem Ends.parseArray_succ (hf : 3 * (len - p) ≤ fuel + 1) :
    parseArray mem len str num (fuel + 1) p ≠ .stuck := by
  rw [parseArray]
  dsimp only
  split_ifs with hopen hempty
  · simp
  · simp
  · have hlt := peek_lt (not_not.mp hopen)
    have hle : skipWs mem len (p + 1) ≤ len := skipWs_le (by omega)
    have hge : p + 1 ≤ skipWs mem len (p + 1) := le_skipWs
    exact ih.elements hle (by omega) Growable.Ready.empty

theorem Ends.parseObject_succ (hf : 3 * (len - p) ≤ fuel + 1) :
    parseObject mem len str num (fuel + 1) p ≠ .stuck := by
  rw [parseObject]
  dsimp only
  split_ifs with hopen hempty
  · simp
  · simp
  · have hlt := peek_lt (not_not.mp hopen)
    have hle : skipWs mem len (p + 1) ≤ len := skipWs_le (by omega)
    have hge : p + 1 ≤ skipWs mem len (p + 1) := le_skipWs
    exact ih.members hle (by omega) Growable.Ready.empty

include hb

theorem Ends.parseElements_succ {arr : Growable (Value D)} (hp : p ≤ len)
    (hf : 3 * (len - p) + 2 ≤ fuel + 1) (hready : arr.Ready) :
    parseElements mem len str num (fuel + 1) p arr ≠ .stuck := by
  have hval := ih.value hp (by omega)
  rw [parseElements]
  cases hv : parseValue mem len str num fuel p with
  | stuck => exact absurd hv hval
  | fail => simp
  | ok eq =>
    obtain ⟨elem, q₁⟩ := eq
    obtain ⟨arr', hpush, -, hready'⟩ := hready.push elem
    have h₁ := parseValue_extent hb hv
    simp only [hpush, parseArraySeparator]
    match hsep : parseSeparator mem len chRBracket q₁ with
    | none => simp
    | some (.done, q₂) => simp
    | some (.more, q₂) =>
      have h₂ := parseSeparator_extent hsep
      exact ih.elements h₂.2 (by omega) hready'

theorem Ends.parseMembers_succ {obj : Growable (List UInt8 × Value D)} (hp : p ≤ len)
    (hf : 3 * (len - p) + 2 ≤ fuel + 1) (hready : obj.Ready) :
    parseMembers mem len str num (fuel + 1) p obj ≠ .stuck := by
  have hge : p ≤ skipWs mem len p := le_skipWs
  rw [parseMembers]
  dsimp only
  split_ifs with hquote
  · simp
  cases hs : str (skipWs mem len p) with
  | none => simp
  | some kq =>
    obtain ⟨key, q₀⟩ := kq
    have h₀ := hb.str_lt hs
    have hge₀ : q₀ ≤ skipWs mem len q₀ := le_skipWs
    dsimp only
    split_ifs with hcolon
    · simp
    have hlt := peek_lt (not_not.mp hcolon)
    have hval := ih.value (by omega : skipWs mem len q₀ + 1 ≤ len) (by omega)
    cases hv : parseValue mem len str num fuel (skipWs mem len q₀ + 1) with
    | stuck => exact absurd hv hval
    | fail => simp
    | ok vq =>
      obtain ⟨val, q₁⟩ := vq
      obtain ⟨obj', hpush, -, hready'⟩ := hready.push (key, val)
      have h₁ := parseValue_extent hb hv
      simp only [hpush, parseObjectSeparator]
      match hsep : parseSeparator mem len chRBrace q₁ with
      | none => simp
      | some (.done, q₂) => simp
      | some (.more, q₂) =>
        have h₂ := parseSeparator_extent hsep
        exact ih.members h₂.2 (by omega) hready'

end EndsSteps

theorem ends (hb : TokensBounded len str num) (fuel : ℕ) : Ends mem len str num fuel := by
  induction fuel with
  | zero => exact ⟨by omega, by omega, by omega, by omega, by omega⟩
  | succ fuel ih =>
    exact ⟨ih.parseValue_succ, fun _ hf _ => ih.parseArray_succ hf, ih.parseElements_succ hb,
      fun _ hf _ => ih.parseObject_succ hf, ih.parseMembers_succ hb⟩

/-! ## The whole input -/

theorem jsonParseInto_ne_stuck (hb : TokensBounded len str num) {fuel : ℕ}
    (hf : 3 * len + 1 ≤ fuel) : jsonParseInto mem len str num fuel ≠ .stuck := by
  have hends : Ends mem len str num fuel := ends hb fuel
  have hval := hends.value (Nat.zero_le len) (by omega)
  unfold jsonParseInto
  cases hv : parseValue mem len str num fuel 0 with
  | stuck => exact absurd hv hval
  | fail => simp
  | ok vq =>
    dsimp only
    split_ifs <;> simp

theorem jsonText_of_ok {fuel : ℕ} {v : Value D} (h : jsonParseInto mem len str num fuel = .ok v) :
    JsonText mem len str num v := by
  unfold jsonParseInto at h
  cases hv : parseValue mem len str num fuel 0 with
  | stuck => simp [hv] at h
  | fail => simp [hv] at h
  | ok vq =>
    obtain ⟨w, q⟩ := vq
    simp only [hv] at h
    split_ifs at h with hend
    obtain rfl : w = v := by simpa using h
    obtain ⟨p, hws, hd⟩ := (sound fuel).value hv
    have hrun : WsRun mem len q (skipWs mem len q) := wsRun_skipWs
    rw [not_not.mp hend] at hrun
    exact ⟨p, q, hws, hd, hrun⟩

theorem ok_of_jsonText (hb : TokensBounded len str num) {fuel : ℕ} (hf : 3 * len + 1 ≤ fuel)
    {v : Value D} (h : JsonText mem len str num v) : jsonParseInto mem len str num fuel = .ok v := by
  obtain ⟨p, q, hws, hd, hend⟩ := h
  have hval := hd.reads hb fuel 0 hws (by omega)
  simp [jsonParseInto, hval, skipWs_eq_end hend]

end LibZenit.Json
