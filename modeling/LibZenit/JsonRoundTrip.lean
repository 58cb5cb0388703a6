import Mathlib.Data.List.TakeWhile
import LibZenit.JsonBounds
import LibZenit.JsonSerializer

/-!
# Parsing what was serialized

The text of a value is a phrase of the grammar wherever it stands in the input, so the parser reads
it back. The induction follows the value.
-/
namespace LibZenit.Json

variable {D : Type} {mem : List UInt8} {len p : ℕ} {c : UInt8} {s t : List UInt8}

/-! ## Bytes that stand in the input -/

/-- The bytes `s` stand in the input from position `p` on. -/
def At (mem : List UInt8) (len p : ℕ) (s : List UInt8) : Prop := matchLiteral mem len s p = true

theorem at_iff : At mem len p s ↔ p + s.length ≤ len ∧ (mem.drop p).take s.length = s := by
  simp [At, matchLiteral]

theorem At.peek (h : At mem len p (c :: s)) : Json.peek mem len p = some c := peek_of_matchLiteral h

theorem At.append (h : At mem len p (s ++ t)) : At mem len p s ∧ At mem len (p + s.length) t := by
  rw [at_iff] at h
  obtain ⟨hlen, htake⟩ := h
  rw [List.length_append] at hlen htake
  have hsplit := htake
  rw [List.take_add, List.drop_drop] at hsplit
  have hlt : s.length ≤ (mem.drop p).length := by
    have hl := congrArg List.length htake
    rw [List.length_take, List.length_append] at hl
    omega
  obtain ⟨hs, ht⟩ := List.append_inj hsplit (by rw [List.length_take]; omega)
  exact ⟨at_iff.mpr ⟨by omega, hs⟩, at_iff.mpr ⟨by omega, ht⟩⟩

theorem At.tail (h : At mem len p (c :: s)) : At mem len (p + 1) s :=
  (At.append (show At mem len p ([c] ++ s) from h)).2

theorem at_zero (t : List UInt8) : At (s ++ t) s.length 0 s := at_iff.mpr (by simp)

/-! ## Strings -/

theorem serializeEscapeChar_eq (c : UInt8) (out : List UInt8) :
    serializeEscapeChar c out = out ++ serializeEscapeChar c [] := by
  simp only [serializeEscapeChar, List.nil_append, apply_ite (out ++ ·)]

theorem escapeChars_eq (s out : List UInt8) : escapeChars s out = out ++ escapeChars s [] := by
  induction s generalizing out with
  | nil => simp [escapeChars]
  | cons c s ih =>
    rw [escapeChars, escapeChars]
    split_ifs
    · simp
    · rw [ih (serializeEscapeChar c out), ih (serializeEscapeChar c []), serializeEscapeChar_eq c out,
        List.append_assoc]

theorem stringEscapeInto_eq (s out : List UInt8) :
    stringEscapeInto s out = out ++ stringEscapeInto s [] := by
  unfold stringEscapeInto
  rw [escapeChars_eq s (out ++ [chQuote]), escapeChars_eq s ([] ++ [chQuote])]
  simp

theorem hexDigit_hexFour : ∀ n < 32, (hexFour n).map hexDigit =
    [some 0, some 0, some (n / 16), some (n % 16)] ∧ encodeUtf8 n = [UInt8.ofNat n] := by decide

/-- The bytes with a short escape. -/
theorem serializeEscapeChar_simple :
    ∀ c ∈ [chQuote, chBackslash, 8, 12, chNewline, chReturn, chTab], ∃ e cp,
      serializeEscapeChar c [] = [chBackslash, e] ∧ parseSimpleEscape e = some cp ∧
      encodeUtf8 cp = [c] := by
  simp only [List.forall_mem_cons, List.not_mem_nil, false_implies, implies_true, and_true]
  exact ⟨⟨_, _, rfl, rfl, rfl⟩, ⟨_, _, rfl, rfl, rfl⟩, ⟨_, _, rfl, rfl, rfl⟩,
    ⟨_, _, rfl, rfl, rfl⟩, ⟨_, _, rfl, rfl, rfl⟩, ⟨_, _, rfl, rfl, rfl⟩, ⟨_, _, rfl, rfl, rfl⟩⟩

/-- The three forms in which a byte is written, each with what reading it gives. -/
theorem serializeEscapeChar_cases (c : UInt8) :
    (∃ e cp, serializeEscapeChar c [] = [chBackslash, e] ∧ parseSimpleEscape e = some cp ∧
      encodeUtf8 cp = [c]) ∨
    (∃ h₁ h₂ h₃ h₄ a b, serializeEscapeChar c [] = [chBackslash, chLowerU, h₁, h₂, h₃, h₄] ∧
      hexDigit h₁ = some 0 ∧ hexDigit h₂ = some 0 ∧ hexDigit h₃ = some a ∧ hexDigit h₄ = some b ∧
      encodeUtf8 (a * 16 + b) = [c]) ∨
    serializeEscapeChar c [] = [c] ∧ c ≠ chQuote ∧ c ≠ chBackslash := by
  by_cases hc : c ∈ [chQuote, chBackslash, 8, 12, chNewline, chReturn, chTab]
  · exact .inl (serializeEscapeChar_simple c hc)
  · simp only [List.mem_cons, List.not_mem_nil, or_false, not_or] at hc
    obtain ⟨h1, h2, h3, h4, h5, h6, h7⟩ := hc
    simp only [serializeEscapeChar, h1, h2, h3, h4, h5, h6, h7, if_false]
    by_cases h8 : c < 0x20
    · have hlt : c.toNat < 32 := UInt8.lt_iff_toNat_lt.mp h8
      obtain ⟨hhex, hutf⟩ := hexDigit_hexFour c.toNat hlt
      simp only [hexFour, List.map_cons, List.map_nil, List.cons.injEq, and_true] at hhex
      refine .inr (.inl ⟨_, _, _, _, c.toNat / 16, c.toNat % 16, if_pos h8, hhex.1, hhex.2.1,
        hhex.2.2.1, hhex.2.2.2, ?_⟩)
      rw [Nat.div_add_mod', hutf, UInt8.ofNat_toNat]
    · exact .inr (.inr ⟨if_neg h8, h1, h2⟩)

theorem parseEscapeSeq_simple {e : UInt8} {cp : ℕ} (hpeek : peek mem len p = some e)
    (he : parseSimpleEscape e = some cp) : parseEscapeSeq mem len p = some (cp, p + 1) := by
  simp only [parseEscapeSeq, hpeek, he]

theorem getElem?_of_peek (h : peek mem len p = some c) : mem[p]? = some c := by
  unfold peek at h
  split_ifs at h
  exact h

theorem parseEscapeSeq_unicode {h₁ h₂ h₃ h₄ : UInt8} {a b : ℕ}
    (h : At mem len p [chLowerU, h₁, h₂, h₃, h₄]) (e₁ : hexDigit h₁ = some 0)
    (e₂ : hexDigit h₂ = some 0) (e₃ : hexDigit h₃ = some a) (e₄ : hexDigit h₄ = some b) :
    parseEscapeSeq mem len p = some (a * 16 + b, p + 5) := by
  have hle := (at_iff.mp h).1
  have g₁ := getElem?_of_peek h.tail.peek
  have g₂ := getElem?_of_peek h.tail.tail.peek
  have g₃ := getElem?_of_peek h.tail.tail.tail.peek
  have g₄ := getElem?_of_peek h.tail.tail.tail.tail.peek
  simp only [List.length_cons, List.length_nil] at hle
  have hcp : parseUnicodeCp mem len (p + 1) = some (a * 16 + b, p + 5) := by
    unfold parseUnicodeCp
    rw [if_neg (by omega)]
    simp [g₁, g₂, g₃, g₄, e₁, e₂, e₃, e₄]
  simp [parseEscapeSeq, h.peek, show parseSimpleEscape chLowerU = none from rfl, hcp]

/-- Reading one written byte. -/
theorem parseStringFrom_char {fuel : ℕ} {buf : List UInt8}
    (h : At mem len p (serializeEscapeChar c [])) :
    parseStringFrom mem len (fuel + 1) p buf =
      parseStringFrom mem len fuel (p + (serializeEscapeChar c []).length) (buf ++ [c]) := by
  rw [parseStringFrom]
  rcases serializeEscapeChar_cases c with ⟨e, cp, hs, he, hutf⟩ |
    ⟨h₁, h₂, h₃, h₄, a, b, hs, e₁, e₂, e₃, e₄, hutf⟩ | ⟨hs, hquote, hback⟩
  · rw [hs] at h ⊢
    simp only [h.peek, show ¬chBackslash = chQuote by decide, if_false, ne_eq, not_true_eq_false,
      parseEscapeSeq_simple h.tail.peek he, hutf]
    rfl
  · rw [hs] at h ⊢
    simp only [h.peek, show ¬chBackslash = chQuote by decide, if_false, ne_eq, not_true_eq_false,
      parseEscapeSeq_unicode h.tail e₁ e₂ e₃ e₄, hutf]
    rfl
  · rw [hs] at h ⊢
    simp only [h.peek, hquote, if_false, ne_eq, hback, not_false_eq_true, if_true]
    rfl

theorem length_serializeEscapeChar_pos (c : UInt8) : 0 < (serializeEscapeChar c []).length := by
  rcases serializeEscapeChar_cases c with ⟨e, cp, hs, -⟩ | ⟨h₁, h₂, h₃, h₄, a, b, hs, -⟩ | ⟨hs, -⟩ <;>
    simp [hs]

/-- The loop of `parse_string_raw` undoes the loop of `string_escape_into`. -/
theorem parseStringFrom_escaped {fuel : ℕ} {buf : List UInt8} (hs : 0 ∉ s)
    (h : At mem len p (escapeChars s [] ++ [chQuote])) (hf : (escapeChars s []).length < fuel) :
    parseStringFrom mem len fuel p buf = some (buf ++ s, p + (escapeChars s []).length + 1) := by
  induction s generalizing p fuel buf with
  | nil =>
    obtain ⟨f, rfl, -⟩ := exists_succ hf
    rw [parseStringFrom, h.peek]
    simp [escapeChars]
  | cons c s ih =>
    have hc : c ≠ 0 := fun he => hs (by simp [he])
    have hcons : escapeChars (c :: s) [] = serializeEscapeChar c [] ++ escapeChars s [] := by
      rw [escapeChars, if_neg hc, escapeChars_eq]
    have hpos := length_serializeEscapeChar_pos c
    rw [hcons, List.append_assoc] at h
    rw [hcons, List.length_append] at hf ⊢
    obtain ⟨f, rfl, hf'⟩ := exists_succ hf
    obtain ⟨hfirst, hrest⟩ := h.append
    rw [parseStringFrom_char hfirst, ih (fun hm => hs (by simp [hm])) hrest (by omega)]
    simp [Nat.add_assoc]

theorem stringEscapeInto_nil (s : List UInt8) :
    stringEscapeInto s [] = chQuote :: (escapeChars s [] ++ [chQuote]) := by
  rw [stringEscapeInto, escapeChars_eq]
  simp

/-- A written string is a string token. -/
theorem parseStringRaw_escaped (hs : 0 ∉ s) (h : At mem len p (stringEscapeInto s [])) :
    parseStringRaw mem len p = some (s, p + (stringEscapeInto s []).length) := by
  rw [stringEscapeInto_nil] at h ⊢
  have hle := (at_iff.mp h).1
  simp only [List.length_cons, List.length_append, List.length_nil] at hle ⊢
  rw [parseStringRaw, parseStringFrom_escaped hs h.tail (by omega)]
  simp only [List.nil_append, Option.some.injEq, Prod.mk.injEq, true_and]
  omega

/-! ## Trees -/

mutual

/-- A tree without numbers whose strings and keys hold no zero byte. -/
def Value.Plain : Value D → Prop
  | .null => True
  | .bool _ => True
  | .num _ => False
  | .str s => 0 ∉ s
  | .arr items => PlainItems items
  | .obj members => PlainMembers members

def PlainItems : List (Value D) → Prop
  | [] => True
  | v :: vs => v.Plain ∧ PlainItems vs

def PlainMembers : List (List UInt8 × Value D) → Prop
  | [] => True
  | (k, v) :: ms => 0 ∉ k ∧ v.Plain ∧ PlainMembers ms

end

section Texts

variable (formatNumber : D → List UInt8)

mutual

theorem valueSerializeInto_eq (v : Value D) (out : List UInt8) :
    valueSerializeInto formatNumber v out = out ++ valueSerializeInto formatNumber v [] := by
  match v with
  | .null => simp [valueSerializeInto]
  | .bool true => simp [valueSerializeInto]
  | .bool false => simp [valueSerializeInto]
  | .num d => simp [valueSerializeInto]
  | .str s =>
    simp only [valueSerializeInto]
    exact stringEscapeInto_eq s out
  | .arr items =>
    simp only [valueSerializeInto]
    rw [serializeItems_eq items 0 (out ++ [chLBracket]), serializeItems_eq items 0 ([] ++ _)]
    simp
  | .obj members =>
    simp only [valueSerializeInto]
    rw [serializeMembers_eq members 0 (out ++ [chLBrace]), serializeMembers_eq members 0 ([] ++ _)]
    simp

theorem serializeItems_eq (vs : List (Value D)) (i : ℕ) (out : List UInt8) :
    serializeItems formatNumber vs i out = out ++ serializeItems formatNumber vs i [] := by
  match vs with
  | [] => simp [serializeItems]
  | v :: vs =>
    simp only [serializeItems]
    rw [serializeItems_eq vs (i + 1) (valueSerializeInto _ _ _), valueSerializeInto_eq v,
      serializeItems_eq vs (i + 1) (valueSerializeInto _ _ (if i > 0 then [] ++ _ else [])),
      valueSerializeInto_eq v (if i > 0 then [] ++ _ else [])]
    split_ifs <;> simp

theorem serializeMembers_eq (ms : List (List UInt8 × Value D)) (i : ℕ) (out : List UInt8) :
    serializeMembers formatNumber ms i out = out ++ serializeMembers formatNumber ms i [] := by
  match ms with
  | [] => simp [serializeMembers]
  | (k, v) :: ms =>
    simp only [serializeMembers]
    rw [serializeMembers_eq ms (i + 1) (valueSerializeInto _ _ _), valueSerializeInto_eq v,
      serializeMembers_eq ms (i + 1)
        (valueSerializeInto _ _ (stringEscapeInto k (if i > 0 then [] ++ _ else []) ++ _)),
      valueSerializeInto_eq v (stringEscapeInto k (if i > 0 then [] ++ _ else []) ++ _),
      stringEscapeInto_eq k (if i > 0 then out ++ _ else out),
      stringEscapeInto_eq k (if i > 0 then [] ++ _ else [])]
    split_ifs <;> simp

end

theorem serializeItems_index (vs : List (Value D)) (i : ℕ) (out : List UInt8) :
    serializeItems formatNumber vs (i + 1) out = serializeItems formatNumber vs 1 out := by
  induction vs generalizing i out with
  | nil => rfl
  | cons v vs ih =>
    simp only [serializeItems]
    rw [ih (i + 1), ih 1]
    simp

theorem serializeMembers_index (ms : List (List UInt8 × Value D)) (i : ℕ) (out : List UInt8) :
    serializeMembers formatNumber ms (i + 1) out = serializeMembers formatNumber ms 1 out := by
  induction ms generalizing i out with
  | nil => rfl
  | cons m ms ih =>
    simp only [serializeMembers]
    rw [ih (i + 1), ih 1]
    simp

theorem serializeItems_cons (v : Value D) (vs : List (Value D)) :
    serializeItems formatNumber (v :: vs) 0 [] =
      valueSerializeInto formatNumber v [] ++ serializeItems formatNumber vs 1 [] := by
  simp only [serializeItems, gt_iff_lt, Nat.lt_irrefl, if_false]
  exact serializeItems_eq formatNumber vs 1 _

theorem serializeItems_comma {vs : List (Value D)} (hne : vs ≠ []) :
    serializeItems formatNumber vs 1 [] = chComma :: serializeItems formatNumber vs 0 [] := by
  obtain ⟨v, vs, rfl⟩ := List.exists_cons_of_ne_nil hne
  rw [serializeItems_cons]
  simp only [serializeItems, gt_iff_lt, Nat.lt_one_iff, if_true, List.nil_append]
  rw [serializeItems_index, serializeItems_eq, valueSerializeInto_eq]
  simp

/-- The text of one member. -/
def memberText (k : List UInt8) (v : Value D) : List UInt8 :=
  stringEscapeInto k [] ++ chColon :: valueSerializeInto formatNumber v []

theorem serializeMembers_cons (k : List UInt8) (v : Value D) (ms : List (List UInt8 × Value D)) :
    serializeMembers formatNumber ((k, v) :: ms) 0 [] =
      memberText formatNumber k v ++ serializeMembers formatNumber ms 1 [] := by
  simp only [serializeMembers, gt_iff_lt, Nat.lt_irrefl, if_false]
  rw [serializeMembers_eq, valueSerializeInto_eq]
  simp [memberText]

theorem serializeMembers_comma {ms : List (List UInt8 × Value D)} (hne : ms ≠ []) :
    serializeMembers formatNumber ms 1 [] = chComma :: serializeMembers formatNumber ms 0 [] := by
  obtain ⟨⟨k, v⟩, ms, rfl⟩ := List.exists_cons_of_ne_nil hne
  rw [serializeMembers_cons]
  simp only [serializeMembers, gt_iff_lt, Nat.lt_one_iff, if_true, List.nil_append]
  rw [serializeMembers_index, serializeMembers_eq, valueSerializeInto_eq, stringEscapeInto_eq]
  simp [memberText]

theorem valueSerializeInto_arr (vs : List (Value D)) :
    valueSerializeInto formatNumber (.arr vs) [] =
      chLBracket :: (serializeItems formatNumber vs 0 [] ++ [chRBracket]) := by
  simp only [valueSerializeInto]
  rw [serializeItems_eq]
  simp

theorem valueSerializeInto_obj (ms : List (List UInt8 × Value D)) :
    valueSerializeInto formatNumber (.obj ms) [] =
      chLBrace :: (serializeMembers formatNumber ms 0 [] ++ [chRBrace]) := by
  simp only [valueSerializeInto]
  rw [serializeMembers_eq]
  simp

/-! ## The text is a phrase -/

variable {formatNumber} {num : ℕ → Option (D × ℕ)}

theorem derives_eq {x : Phrase D} {str : ℕ → Option (List UInt8 × ℕ)} {q r : ℕ}
    (h : Derives mem len str num p x q) (hq : q = r) : Derives mem len str num p x r := hq ▸ h

mutual

theorem derives_value (v : Value D) (hv : v.Plain) {p : ℕ}
    (h : At mem len p (valueSerializeInto formatNumber v [])) :
    Derives mem len (parseStringRaw mem len) num p (.value v)
      (p + (valueSerializeInto formatNumber v []).length) := by
  match v with
  | .null => exact .litNull h
  | .bool true => exact .litTrue h
  | .bool false => exact .litFalse h
  | .num d => exact absurd hv (by simp [Value.Plain])
  | .str s =>
    simp only [valueSerializeInto] at h ⊢
    simp only [Value.Plain] at hv
    have hquote := h
    rw [stringEscapeInto_nil] at hquote
    exact .string hquote.peek (parseStringRaw_escaped hv h)
  | .arr vs =>
    rw [valueSerializeInto_arr] at h ⊢
    by_cases hne : vs = []
    · subst hne
      exact .emptyArray h.peek WsRun.refl h.tail.peek
    · obtain ⟨hitems, hclose⟩ := h.tail.append
      simp only [Value.Plain] at hv
      refine derives_eq (.array h.peek WsRun.refl (derives_items vs hne hv hitems) hclose.peek) ?_
      simp only [List.length_cons, List.length_append, List.length_nil]
      omega
  | .obj ms =>
    rw [valueSerializeInto_obj] at h ⊢
    by_cases hne : ms = []
    · subst hne
      exact .emptyObject h.peek WsRun.refl h.tail.peek
    · obtain ⟨hitems, hclose⟩ := h.tail.append
      simp only [Value.Plain] at hv
      refine derives_eq (.object h.peek WsRun.refl (derives_members ms hne hv hitems)
        hclose.peek) ?_
      simp only [List.length_cons, List.length_append, List.length_nil]
      omega

theorem derives_items (vs : List (Value D)) (hne : vs ≠ []) (hv : PlainItems vs) {p : ℕ}
    (h : At mem len p (serializeItems formatNumber vs 0 [])) :
    Derives mem len (parseStringRaw mem len) num p (.elements vs)
      (p + (serializeItems formatNumber vs 0 []).length) := by
  match vs with
  | [] => exact absurd rfl hne
  | v :: vs =>
    rw [serializeItems_cons] at h ⊢
    rw [PlainItems] at hv
    obtain ⟨hfirst, hrest⟩ := h.append
    have hitem := derives_value v hv.1 hfirst
    by_cases hne : vs = []
    · subst hne
      exact derives_eq (.lastElement hitem WsRun.refl) (by simp [serializeItems])
    · rw [serializeItems_comma formatNumber hne] at hrest ⊢
      refine derives_eq (.nextElement hitem WsRun.refl hrest.peek WsRun.refl
        (derives_items vs hne hv.2 hrest.tail)) ?_
      simp only [List.length_append, List.length_cons]
      omega

theorem derives_members (ms : List (List UInt8 × Value D)) (hne : ms ≠ []) (hm : PlainMembers ms)
    {p : ℕ} (h : At mem len p (serializeMembers formatNumber ms 0 [])) :
    Derives mem len (parseStringRaw mem len) num p (.members ms)
      (p + (serializeMembers formatNumber ms 0 []).length) := by
  match ms with
  | [] => exact absurd rfl hne
  | (k, v) :: ms =>
    rw [serializeMembers_cons] at h ⊢
    rw [PlainMembers] at hm
    obtain ⟨hfirst, hrest⟩ := h.append
    obtain ⟨hkey, hval⟩ := At.append hfirst
    have hname := parseStringRaw_escaped hm.1 hkey
    have hitem := derives_value v hm.2.1 hval.tail
    have hquote := hkey
    rw [stringEscapeInto_nil] at hquote
    have hlen : (memberText formatNumber k v).length =
        (stringEscapeInto k []).length + 1 + (valueSerializeInto formatNumber v []).length := by
      simp only [memberText, List.length_append, List.length_cons]
      omega
    by_cases hne : ms = []
    · subst hne
      refine derives_eq (.lastMember hquote.peek hname WsRun.refl hval.peek WsRun.refl hitem
        WsRun.refl) ?_
      simp only [serializeMembers, List.append_nil, hlen]
      omega
    · rw [serializeMembers_comma formatNumber hne] at hrest ⊢
      have hcomma := hrest.peek
      have hnext := derives_members ms hne hm.2.2 hrest.tail
      rw [hlen, ← Nat.add_assoc, ← Nat.add_assoc] at hcomma hnext
      refine derives_eq (.nextMember hquote.peek hname WsRun.refl hval.peek WsRun.refl hitem
        WsRun.refl hcomma WsRun.refl hnext) ?_
      simp only [List.length_append, List.length_cons]
      omega

end

/-! ## The text is a C string -/

theorem zero_notMem_escapeChar (hc : c ≠ 0) : 0 ∉ serializeEscapeChar c [] := by
  have hhex : ∀ {h : UInt8} {n : ℕ}, hexDigit h = some n → 0 ≠ h := by
    rintro h n hn rfl
    cases hn
  rcases serializeEscapeChar_cases c with ⟨e, cp, hs, he, -⟩ |
    ⟨h₁, h₂, h₃, h₄, a, b, hs, g₁, g₂, g₃, g₄, -⟩ | ⟨hs, -⟩
  · have hescape : 0 ≠ e := by
      rintro rfl
      cases he
    simp [hs, hescape, chBackslash]
  · simp [hs, chBackslash, chLowerU, hhex g₁, hhex g₂, hhex g₃, hhex g₄]
  · simp [hs, hc.symm]

theorem zero_notMem_string (s : List UInt8) : 0 ∉ stringEscapeInto s [] := by
  have hchars : 0 ∉ escapeChars s [] := by
    induction s with
    | nil => simp [escapeChars]
    | cons c s ih =>
      rw [escapeChars]
      split_ifs with hc
      · simp
      · rw [escapeChars_eq]
        simp [zero_notMem_escapeChar hc, ih]
  rw [stringEscapeInto_nil]
  simp [hchars, show (0 : UInt8) ≠ chQuote by decide]

mutual

theorem zero_notMem_value (v : Value D) (hv : v.Plain) :
    0 ∉ valueSerializeInto formatNumber v [] := by
  match v with
  | .null => simp only [valueSerializeInto]; decide
  | .bool true => simp only [valueSerializeInto]; decide
  | .bool false => simp only [valueSerializeInto]; decide
  | .num d => exact absurd hv (by simp [Value.Plain])
  | .str s =>
    simp only [valueSerializeInto]
    exact zero_notMem_string s
  | .arr vs =>
    simp only [Value.Plain] at hv
    have h0 := zero_notMem_items vs 0 hv
    rw [valueSerializeInto_arr]
    simp [h0, show (0 : UInt8) ≠ chLBracket by decide, show (0 : UInt8) ≠ chRBracket by decide]
  | .obj ms =>
    simp only [Value.Plain] at hv
    have h0 := zero_notMem_members ms 0 hv
    rw [valueSerializeInto_obj]
    simp [h0, show (0 : UInt8) ≠ chLBrace by decide, show (0 : UInt8) ≠ chRBrace by decide]

theorem zero_notMem_items (vs : List (Value D)) (i : ℕ) (hv : PlainItems vs) :
    0 ∉ serializeItems formatNumber vs i [] := by
  match vs with
  | [] => simp [serializeItems]
  | v :: vs =>
    rw [PlainItems] at hv
    have h0 := zero_notMem_value v hv.1
    have h1 := zero_notMem_items vs (i + 1) hv.2
    simp only [serializeItems]
    rw [serializeItems_eq, valueSerializeInto_eq]
    split_ifs <;> simp [h0, h1, show (0 : UInt8) ≠ chComma by decide]

theorem zero_notMem_members (ms : List (List UInt8 × Value D)) (i : ℕ) (hm : PlainMembers ms) :
    0 ∉ serializeMembers formatNumber ms i [] := by
  match ms with
  | [] => simp [serializeMembers]
  | (k, v) :: ms =>
    rw [PlainMembers] at hm
    have h0 := zero_notMem_value v hm.2.1
    have h1 := zero_notMem_members ms (i + 1) hm.2.2
    have h2 := zero_notMem_string k
    simp only [serializeMembers]
    rw [serializeMembers_eq, valueSerializeInto_eq, stringEscapeInto_eq]
    split_ifs <;>
      simp [h0, h1, h2, show (0 : UInt8) ≠ chComma by decide, show (0 : UInt8) ≠ chColon by decide]

end

theorem cstr_append_zero (h : 0 ∉ s) (t : List UInt8) : cstr (s ++ 0 :: t) = s := by
  have hs : ∀ c ∈ s, (c != 0) = true := List.takeWhile_eq_self_iff.mp (cstr_eq_self h)
  unfold cstr
  rw [List.takeWhile_append_of_pos hs]
  simp

theorem zenitJsonValueSerialize_eq {v : Value D} (hv : v.Plain) :
    zenitJsonValueSerialize formatNumber v = valueSerializeInto formatNumber v [] :=
  cstr_eq_self (zero_notMem_value v hv)

end Texts

/-- The text of a tree, stored as a C string in front of any memory, is read to its end and gives
the tree back. -/
theorem parse_serialize (formatNumber : D → List UInt8) (toDouble : List UInt8 → D) (v : Value D)
    (hv : v.Plain) (rest : List UInt8) (fuel : ℕ)
    (hf : 3 * (zenitJsonValueSerialize formatNumber v).length + 1 ≤ fuel) :
    (cstr (zenitJsonValueSerialize formatNumber v ++ 0 :: rest)).length =
        (zenitJsonValueSerialize formatNumber v).length ∧
      zenitJsonParse toDouble (zenitJsonValueSerialize formatNumber v ++ 0 :: rest) fuel =
        .ok v := by
  rw [zenitJsonValueSerialize_eq hv] at hf ⊢
  have h0 : 0 ∉ valueSerializeInto formatNumber v [] := zero_notMem_value v hv
  have hcstr := cstr_append_zero h0 rest
  refine ⟨by rw [hcstr], ?_⟩
  unfold zenitJsonParse
  rw [hcstr, zenitJsonParseWithLength_eq_ok hf]
  refine ⟨0, _, WsRun.refl, derives_eq (derives_value v hv (at_zero _)) (Nat.zero_add _),
    WsRun.refl⟩

theorem parse_serialize_nested : zenitJsonParse (fun _ => 0) (zenitJsonValueSerialize
    (fun _ : ℕ => []) (.obj [([107], .arr [.str [1, 34, 200], .null])]) ++ [0]) 100 =
      .ok (.obj [([107], .arr [.str [1, 34, 200], .null])]) :=
  (parse_serialize _ _ (.obj [([107], .arr [.str [1, 34, 200], .null])])
    (by simp [Value.Plain, PlainItems, PlainMembers]) [] 100 (by decide)).2

end LibZenit.Json
