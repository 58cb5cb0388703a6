import LibZenit.JsonCorrectness

/-!
# Tokens and the end of the input

A string never runs past the end of the input. A number may, because `strtod` does not know the
end; a parse that meets such a number fails at the next look at the position. So the parser behaves
as if numbers that run past the end were refused, and `within` is that reader.
-/
namespace LibZenit.Json

variable {D : Type} {mem : List UInt8} {len : ℕ} {str : ℕ → Option (List UInt8 × ℕ)}
  {num : ℕ → Option (D × ℕ)} {p q : ℕ}

/-! ## Strings -/

theorem parseUnicodeCp_bounds {cp : ℕ} (h : parseUnicodeCp mem len p = some (cp, q)) :
    p < q ∧ q ≤ len := by
  unfold parseUnicodeCp at h
  split_ifs at h with hlen
  simp only [Option.bind_eq_bind, Option.bind_eq_some_iff, Option.some.injEq, Prod.mk.injEq] at h
  obtain ⟨-, -, -, -, -, -, -, -, -, -, -, -, -, -, -, -, -, rfl⟩ := h
  omega

theorem parseEscapeSeq_bounds {cp : ℕ} (h : parseEscapeSeq mem len p = some (cp, q)) :
    p < q ∧ q ≤ len := by
  unfold parseEscapeSeq at h
  cases hc : peek mem len p with
  | none => simp [hc] at h
  | some c =>
    have hlt := peek_lt hc
    rw [hc] at h
    dsimp only at h
    cases he : parseSimpleEscape c with
    | some e =>
      simp only [he, Option.some.injEq, Prod.mk.injEq] at h
      omega
    | none =>
      simp only [he] at h
      split_ifs at h
      have := parseUnicodeCp_bounds h
      omega

theorem parseStringFrom_bounds {fuel : ℕ} {buf s : List UInt8}
    (h : parseStringFrom mem len fuel p buf = some (s, q)) : p < q ∧ q ≤ len := by
  induction fuel generalizing p buf with
  | zero => simp [parseStringFrom] at h
  | succ fuel ih =>
    rw [parseStringFrom] at h
    cases hc : peek mem len p with
    | none => simp [hc] at h
    | some c =>
      have hlt := peek_lt hc
      rw [hc] at h
      dsimp only at h
      split_ifs at h with hquote hplain
      · simp only [Option.some.injEq, Prod.mk.injEq] at h
        omega
      · have := ih h
        omega
      · match he : parseEscapeSeq mem len (p + 1) with
        | none => simp [he] at h
        | some (cp, r) =>
          simp only [he] at h
          have := ih h
          have := parseEscapeSeq_bounds he
          omega

theorem parseStringRaw_bounds {s : List UInt8} (h : parseStringRaw mem len p = some (s, q)) :
    p < q ∧ q ≤ len := by
  have := parseStringFrom_bounds h
  omega

/-! ## Numbers -/

theorem parseNumber_lt {toDouble : List UInt8 → D} {d : D}
    (h : parseNumber toDouble mem p = some (d, q)) : p < q := by
  unfold parseNumber at h
  dsimp only at h
  split_ifs at h with hn hs
  simp only [Option.some.injEq, Prod.mk.injEq] at h
  omega

/-- The number reader that refuses a number running past the end of the input. -/
def within (len : ℕ) (num : ℕ → Option (D × ℕ)) (pos : ℕ) : Option (D × ℕ) :=
  (num pos).filter fun r => decide (r.2 ≤ len)

theorem within_eq_some {d : D} :
    within len num p = some (d, q) ↔ num p = some (d, q) ∧ q ≤ len := by
  simp [within, Option.filter_eq_some_iff]

theorem tokensBounded (toDouble : List UInt8 → D) (mem : List UInt8) (len : ℕ) :
    TokensBounded len (parseStringRaw mem len) (within len (parseNumber toDouble mem)) where
  str_lt h := parseStringRaw_bounds h
  num_lt h := ⟨parseNumber_lt (within_eq_some.mp h).1, (within_eq_some.mp h).2⟩

/-! ## The parser refuses numbers past the end -/

theorem skipWs_eq_self (h : len ≤ p) : skipWs mem len p = p := by
  unfold skipWs
  rw [Nat.sub_eq_zero_of_le h, skipWsFrom]

theorem peek_eq_none (h : len ≤ p) : peek mem len p = none := by
  unfold peek
  rw [if_neg (by omega)]

theorem parseSeparator_past_end {close : UInt8} (h : len ≤ p) :
    parseSeparator mem len close p = none := by
  simp [parseSeparator, skipWs_eq_self h, peek_eq_none h]

/-- The two runs agree, or the first one has gone past the end and the second one has failed. -/
def Overruns (len : ℕ) (a b : Outcome (Value D × ℕ)) : Prop :=
  a = b ∨ ∃ v q, a = .ok (v, q) ∧ len < q ∧ b = .fail

structure Overrun (mem : List UInt8) (len : ℕ) (str : ℕ → Option (List UInt8 × ℕ))
    (num : ℕ → Option (D × ℕ)) (fuel : ℕ) : Prop where
  value : ∀ p, Overruns len (parseValue mem len str num fuel p)
    (parseValue mem len str (within len num) fuel p)
  array : ∀ p, parseArray mem len str num fuel p = parseArray mem len str (within len num) fuel p
  elements : ∀ p {arr}, arr.Ready → parseElements mem len str num fuel p arr =
    parseElements mem len str (within len num) fuel p arr
  object : ∀ p, parseObject mem len str num fuel p = parseObject mem len str (within len num) fuel p
  members : ∀ p {obj}, obj.Ready → parseMembers mem len str num fuel p obj =
    parseMembers mem len str (within len num) fuel p obj

section OverrunSteps

variable {fuel : ℕ} (ih : Overrun mem len str num fuel)
include ih

theorem Overrun.parseValue_succ (p : ℕ) : Overruns len (parseValue mem len str num (fuel + 1) p)
    (parseValue mem len str (within len num) (fuel + 1) p) := by
  rw [parseValue, parseValue]
  cases hc : peek mem len (skipWs mem len p) with
  | none => exact Or.inl rfl
  | some c =>
    dsimp only
    split_ifs
    · exact Or.inl rfl
    · exact Or.inl rfl
    · exact Or.inl rfl
    · exact Or.inl (ih.array _)
    · exact Or.inl (ih.object _)
    · exact Or.inl rfl
    · rcases hn : num (skipWs mem len p) with _ | ⟨d, q⟩
      · exact Or.inl (by simp [within, hn])
      · by_cases hq : q ≤ len
        · exact Or.inl (by simp [within, hn, hq, Option.filter_some])
        · exact Or.inr ⟨.num d, q, rfl, by omega, by simp [within, hn, hq, Option.filter_some]⟩
    · exact Or.inl rfl

theorem Overrun.parseArray_succ (p : ℕ) : parseArray mem len str num (fuel + 1) p =
    parseArray mem len str (within len num) (fuel + 1) p := by
  rw [parseArray, parseArray]
  dsimp only
  rw [ih.elements _ Growable.Ready.empty]

theorem Overrun.parseObject_succ (p : ℕ) : parseObject mem len str num (fuel + 1) p =
    parseObject mem len str (within len num) (fuel + 1) p := by
  rw [parseObject, parseObject]
  dsimp only
  rw [ih.members _ Growable.Ready.empty]

theorem Overrun.parseElements_succ (p : ℕ) {arr : Growable (Value D)} (hready : arr.Ready) :
    parseElements mem len str num (fuel + 1) p arr =
      parseElements mem len str (within len num) (fuel + 1) p arr := by
  rw [parseElements, parseElements]
  rcases ih.value p with heq | ⟨v, q, hv, hq, hv'⟩
  · rw [heq]
    rcases parseValue mem len str (within len num) fuel p with _ | _ | ⟨elem, q⟩
    · rfl
    · rfl
    · obtain ⟨arr', hpush, -, hready'⟩ := hready.push elem
      simp only [hpush]
      rcases parseArraySeparator mem len q with _ | ⟨_ | _, q'⟩
      · rfl
      · exact ih.elements q' hready'
      · rfl
  · obtain ⟨arr', hpush, -⟩ := hready.push v
    rw [hv, hv']
    simp only [hpush, parseArraySeparator, parseSeparator_past_end hq.le]

theorem Overrun.parseMembers_succ (p : ℕ) {obj : Growable (List UInt8 × Value D)}
    (hready : obj.Ready) : parseMembers mem len str num (fuel + 1) p obj =
      parseMembers mem len str (within len num) (fuel + 1) p obj := by
  rw [parseMembers, parseMembers]
  dsimp only
  split_ifs with hquote
  · rfl
  rcases str (skipWs mem len p) with _ | ⟨key, q₀⟩
  · rfl
  · dsimp only
    split_ifs with hcolon
    · rfl
    rcases ih.value (skipWs mem len q₀ + 1) with heq | ⟨v, q, hv, hq, hv'⟩
    · rw [heq]
      rcases parseValue mem len str (within len num) fuel (skipWs mem len q₀ + 1) with
        _ | _ | ⟨val, q⟩
      · rfl
      · rfl
      · obtain ⟨obj', hpush, -, hready'⟩ := hready.push (key, val)
        simp only [hpush]
        rcases parseObjectSeparator mem len q with _ | ⟨_ | _, q'⟩
        · rfl
        · exact ih.members q' hready'
        · rfl
    · obtain ⟨obj', hpush, -⟩ := hready.push (key, v)
      rw [hv, hv']
      simp only [hpush, parseObjectSeparator, parseSeparator_past_end hq.le]

end OverrunSteps

theorem overrun (fuel : ℕ) : Overrun mem len str num fuel := by
  induction fuel with
  | zero =>
    refine ⟨fun p => Or.inl ?_, ?_, ?_, ?_, ?_⟩
    all_goals
      intros
      simp only [parseValue, parseArray, parseElements, parseObject, parseMembers]
  | succ fuel ih =>
    exact ⟨ih.parseValue_succ, ih.parseArray_succ, fun p _ h => ih.parseElements_succ p h,
      ih.parseObject_succ, fun p _ h => ih.parseMembers_succ p h⟩

theorem jsonParseInto_within (fuel : ℕ) :
    jsonParseInto mem len str num fuel = jsonParseInto mem len str (within len num) fuel := by
  have hover : Overrun mem len str num fuel := overrun fuel
  unfold jsonParseInto
  rcases hover.value 0 with heq | ⟨v, q, hv, hq, hv'⟩
  · rw [heq]
  · rw [hv, hv']
    dsimp only
    rw [if_pos]
    rw [skipWs_eq_self hq.le]
    omega

/-! ## The accepted texts -/

/-- The parser terminates on every input and accepts exactly the texts of the grammar, with the
tree that the derivation denotes. -/
theorem parser_accepts_exactly_the_grammar (mem : List UInt8) (len : ℕ)
    (str : ℕ → Option (List UInt8 × ℕ)) (num : ℕ → Option (D × ℕ))
    (hb : TokensBounded len str num) (fuel : ℕ) (hf : 3 * len + 1 ≤ fuel) :
    jsonParseInto mem len str num fuel ≠ .stuck ∧
      ∀ v, jsonParseInto mem len str num fuel = .ok v ↔ JsonText mem len str num v :=
  ⟨jsonParseInto_ne_stuck hb hf, fun _ => ⟨jsonText_of_ok, ok_of_jsonText hb hf⟩⟩

theorem parser_accepts_a_pair : jsonParseInto [91, 49, 44, 50, 93] 5
    (parseStringRaw [91, 49, 44, 50, 93] 5) (within 5 (parseNumber id [91, 49, 44, 50, 93])) 16 =
      .ok (.arr [.num [49], .num [50]]) ∧
    JsonText [91, 49, 44, 50, 93] 5 (parseStringRaw [91, 49, 44, 50, 93] 5)
      (within 5 (parseNumber id [91, 49, 44, 50, 93])) (.arr [.num [49], .num [50]]) := by
  have hrun : jsonParseInto [91, 49, 44, 50, 93] 5 (parseStringRaw [91, 49, 44, 50, 93] 5)
      (within 5 (parseNumber id [91, 49, 44, 50, 93])) 16 = .ok (.arr [.num [49], .num [50]]) := by
    rfl
  exact ⟨hrun, ((parser_accepts_exactly_the_grammar _ 5 _ _ (tokensBounded id _ 5) 16
    (by decide)).2 _).mp hrun⟩


/-- The texts that the library accepts, as grammar over the bytes of the memory. -/
def Accepts (toDouble : List UInt8 → D) (mem : List UInt8) (len : ℕ) (v : Value D) : Prop :=
  JsonText mem len (parseStringRaw mem len) (within len (parseNumber toDouble mem)) v

section Public

variable {toDouble : List UInt8 → D} {fuel : ℕ} (hf : 3 * len + 1 ≤ fuel)
include hf

theorem zenitJsonParseWithLength_ne_stuck :
    zenitJsonParseWithLength toDouble mem len fuel ≠ .stuck := by
  unfold zenitJsonParseWithLength
  rw [jsonParseInto_within]
  exact jsonParseInto_ne_stuck (tokensBounded toDouble mem len) hf

theorem zenitJsonParseWithLength_eq_ok {v : Value D} :
    zenitJsonParseWithLength toDouble mem len fuel = .ok v ↔ Accepts toDouble mem len v := by
  unfold zenitJsonParseWithLength
  rw [jsonParseInto_within]
  exact ⟨jsonText_of_ok, ok_of_jsonText (tokensBounded toDouble mem len) hf⟩

end Public

end LibZenit.Json
