import LibZenit.JsonTokens

/-!
# The syntax of strings

A string literal is a sequence of items between quotes: a byte as it stands, a backslash with one
character, or a backslash, a `u` and four hexadecimal digits. `parse_string_raw` reads one item in
each round of its loop. It lets through every byte that stands for itself, the control characters
that RFC 8259 excludes among them.
-/
namespace LibZenit.Json

inductive Item where
  | raw (c : UInt8)
  | short (e : UInt8)
  | unicode (a b c d : UInt8)
  deriving DecidableEq, Repr

def Item.text : Item → List UInt8
  | .raw c => [c]
  | .short e => [chBackslash, e]
  | .unicode a b c d => [chBackslash, chLowerU, a, b, c, d]

/-- The value of the first four bytes as hexadecimal digits. -/
def fourDigits : List UInt8 → Option ℕ
  | a :: b :: c :: d :: _ => do
    let a ← hexDigit a
    let b ← hexDigit b
    let c ← hexDigit c
    let d ← hexDigit d
    some (((a * 16 + b) * 16 + c) * 16 + d)
  | _ => none

/-- What the loop takes for an item. -/
def Item.Scans : Item → Prop
  | .raw c => c ≠ chQuote ∧ c ≠ chBackslash
  | .short e => (parseSimpleEscape e).isSome = true
  | .unicode a b c d => (fourDigits [a, b, c, d]).isSome = true

/-- A byte below `0x20` that is not escaped. -/
def Item.IsControl : Item → Prop
  | .raw c => c < 0x20
  | _ => False

/-- The bytes that the loop appends for an item. -/
def Item.bytes : Item → List UInt8
  | .raw c => [c]
  | .short e => encodeUtf8 ((parseSimpleEscape e).getD 0)
  | .unicode a b c d => encodeUtf8 ((fourDigits [a, b, c, d]).getD 0)

def textOf (items : List Item) : List UInt8 := items.flatMap Item.text

def bytesOf (items : List Item) : List UInt8 := items.flatMap Item.bytes

/-- The input from the position on. -/
def ahead (mem : List UInt8) (len pos : ℕ) : List UInt8 := (mem.take len).drop pos

/-- A literal with these items stands at the position, and the input goes on at `after`. -/
def LiteralAt (mem : List UInt8) (len pos : ℕ) (items : List Item) (after : ℕ) : Prop :=
  (∀ it ∈ items, it.Scans) ∧ after = pos + (textOf items).length + 2 ∧
    ∃ rest, ahead mem len pos = chQuote :: (textOf items ++ chQuote :: rest)

/-- A string of RFC 8259. -/
def RfcStringAt (mem : List UInt8) (len pos after : ℕ) : Prop :=
  ∃ items, LiteralAt mem len pos items after ∧ ∀ it ∈ items, ¬it.IsControl

variable {mem mem' s t buf : List UInt8} {len pos fuel after : ℕ} {it : Item} {items : List Item}

/-! ## The item in front -/

def frontItem : List UInt8 → Option Item
  | [] => none
  | c :: s =>
    if c = chQuote then none
    else if c ≠ chBackslash then some (.raw c)
    else match s with
      | [] => none
      | e :: s =>
        if (parseSimpleEscape e).isSome then some (.short e)
        else if e ≠ chLowerU then none
        else match s with
          | a :: b :: c :: d :: _ =>
            if (fourDigits [a, b, c, d]).isSome then some (.unicode a b c d) else none
          | _ => none

theorem frontItem_text (h : it.Scans) (t : List UInt8) : frontItem (it.text ++ t) = some it := by
  cases it with
  | raw c =>
    obtain ⟨hquote, hback⟩ := h
    simp [Item.text, frontItem, hquote, hback]
  | short e =>
    have he : (parseSimpleEscape e).isSome = true := h
    simp [Item.text, frontItem, he, show chBackslash ≠ chQuote by decide]
  | unicode a b c d =>
    have hd : (fourDigits [a, b, c, d]).isSome = true := h
    simp [Item.text, frontItem, hd, show chBackslash ≠ chQuote by decide,
      show parseSimpleEscape chLowerU = none by decide]

theorem frontItem_some (h : frontItem s = some it) : it.Scans ∧ ∃ t, s = it.text ++ t := by
  fun_cases frontItem s with
  | case1 => simp [frontItem] at h
  | case2 t => simp [frontItem] at h
  | case3 c t hquote hback =>
    simp only [frontItem, if_neg hquote, if_pos hback, Option.some.injEq] at h
    subst h
    exact ⟨⟨hquote, hback⟩, t, rfl⟩
  | case4 c hquote hback => simp [frontItem, hquote, hback] at h
  | case5 c hquote hback e t he =>
    obtain rfl := not_not.mp hback
    simp only [frontItem, if_neg hquote, if_neg hback, if_pos he, Option.some.injEq] at h
    subst h
    exact ⟨he, t, rfl⟩
  | case6 c hquote hback e t he hu => simp [frontItem, hquote, hback, he, hu] at h
  | case7 c hquote hback e he hu a b c' d t hd =>
    obtain rfl := not_not.mp hback
    obtain rfl := not_not.mp hu
    simp only [frontItem, if_neg hquote, if_neg hback, if_neg he, if_neg hu, if_pos hd,
      Option.some.injEq] at h
    subst h
    exact ⟨hd, t, rfl⟩
  | case8 c hquote hback e he hu a b c' d t hd => simp [frontItem, hquote, hback, he, hu, hd] at h
  | case9 c hquote hback e t he hu ht =>
    simp only [frontItem, if_neg hquote, if_neg hback, if_neg he, if_neg hu] at h
    cases h

/-! ## The reads of the loop -/

theorem peek_eq_head (mem : List UInt8) (len pos : ℕ) :
    peek mem len pos = (ahead mem len pos).head? := by
  rw [peek, ahead, List.head?_drop, List.getElem?_take]

theorem ahead_add (mem : List UInt8) (len pos n : ℕ) :
    ahead mem len (pos + n) = (ahead mem len pos).drop n := by
  rw [ahead, ahead, List.drop_drop]

theorem getElem?_of_ahead {k : ℕ} {c : UInt8} (h : (ahead mem len pos)[k]? = some c) :
    pos + k < len ∧ mem[pos + k]? = some c := by
  rw [ahead, List.getElem?_drop, List.getElem?_take] at h
  split_ifs at h with hlt
  exact ⟨hlt, h⟩

/-- Four digits are read only if there are four bytes. -/
theorem parseUnicodeCp_short (h : (ahead mem len pos).length < 4) :
    parseUnicodeCp mem len pos = none := by
  rw [Option.eq_none_iff_forall_ne_some]
  intro r hr
  unfold parseUnicodeCp at hr
  split_ifs at hr with hlen
  simp only [Option.bind_eq_bind, Option.bind_eq_some_iff] at hr
  obtain ⟨-, -, -, -, -, -, -, -, -, -, -, -, d, hx, -⟩ := hr
  have hlt := (List.getElem?_eq_some_iff.mp hx).1
  rw [ahead, List.length_drop, List.length_take] at h
  omega

theorem parseUnicodeCp_eq (mem : List UInt8) (len pos : ℕ) :
    parseUnicodeCp mem len pos = (fourDigits (ahead mem len pos)).map (·, pos + 4) := by
  match hs : ahead mem len pos with
  | a :: b :: c :: d :: t =>
    have hread (k : ℕ) {x : UInt8} (hk : (a :: b :: c :: d :: t)[k]? = some x) :
        pos + k < len ∧ mem[pos + k]? = some x := getElem?_of_ahead (by rw [hs]; exact hk)
    have hfirst : mem[pos]? = some a := (hread 0 rfl).2
    have hlast := (hread 3 rfl).1
    rw [parseUnicodeCp, if_neg (by omega), hfirst, (hread 1 rfl).2, (hread 2 rfl).2,
      (hread 3 rfl).2]
    simp only [fourDigits, Option.bind_eq_bind, Option.bind_some]
    cases hexDigit a <;> cases hexDigit b <;> cases hexDigit c <;> cases hexDigit d <;> rfl
  | [] => exact parseUnicodeCp_short (by simp [hs])
  | [a] => exact parseUnicodeCp_short (by simp [hs])
  | [a, b] => exact parseUnicodeCp_short (by simp [hs])
  | [a, b, c] => exact parseUnicodeCp_short (by simp [hs])

/-- The escape behind a backslash, read from the input ahead. -/
theorem parseEscapeSeq_eq {t : List UInt8} (hs : ahead mem len pos = chBackslash :: t) :
    (frontItem (chBackslash :: t) = none ∧ parseEscapeSeq mem len (pos + 1) = none) ∨
      ∃ it cp, frontItem (chBackslash :: t) = some it ∧ it.bytes = encodeUtf8 cp ∧
        parseEscapeSeq mem len (pos + 1) = some (cp, pos + it.text.length) := by
  have htail : ahead mem len (pos + 1) = t := by
    rw [ahead_add, hs]
    rfl
  cases t with
  | nil => exact Or.inl ⟨by decide, by simp [parseEscapeSeq, peek_eq_head, htail]⟩
  | cons e t =>
    have hpeek : peek mem len (pos + 1) = some e := by rw [peek_eq_head, htail]; rfl
    cases he : parseSimpleEscape e with
    | some cp =>
      refine Or.inr ⟨.short e, cp, ?_, ?_, ?_⟩
      · simp [frontItem, he, show chBackslash ≠ chQuote by decide]
      · simp [Item.bytes, he]
      · simp [parseEscapeSeq, hpeek, he, Item.text]
    | none =>
      by_cases hu : e = chLowerU
      · subst hu
        have hdigits : parseEscapeSeq mem len (pos + 1) = (fourDigits t).map (·, pos + 6) := by
          have hrest : ahead mem len (pos + 1 + 1) = t := by
            rw [ahead_add, htail]
            rfl
          simp only [parseEscapeSeq, hpeek, he, if_true, parseUnicodeCp_eq, hrest]
        rw [hdigits]
        match t with
        | a :: b :: c :: d :: t =>
          cases hd : fourDigits [a, b, c, d] with
          | some cp =>
            have hcp : fourDigits (a :: b :: c :: d :: t) = some cp := hd
            refine Or.inr ⟨.unicode a b c d, cp, ?_, ?_, ?_⟩
            · simp [frontItem, he, hd, show chBackslash ≠ chQuote by decide]
            · simp [Item.bytes, hd]
            · simp [hcp, Item.text]
          | none =>
            have hcp : fourDigits (a :: b :: c :: d :: t) = none := hd
            refine Or.inl ⟨?_, by rw [hcp]; rfl⟩
            simp [frontItem, he, hd, show chBackslash ≠ chQuote by decide]
        | [] => exact Or.inl ⟨by simp [frontItem, he], rfl⟩
        | [a] => exact Or.inl ⟨by simp [frontItem, he], rfl⟩
        | [a, b] => exact Or.inl ⟨by simp [frontItem, he], rfl⟩
        | [a, b, c] => exact Or.inl ⟨by simp [frontItem, he], rfl⟩
      · refine Or.inl ⟨?_, ?_⟩
        · simp [frontItem, he, hu]
        · simp [parseEscapeSeq, hpeek, he, hu]

/-- One round of the loop, in terms of the input ahead. -/
def roundFrom (mem : List UInt8) (len fuel pos : ℕ) (buf : List UInt8) :
    Option (List UInt8 × ℕ) :=
  if (ahead mem len pos).head? = some chQuote then some (buf, pos + 1)
  else (frontItem (ahead mem len pos)).bind fun it =>
    parseStringFrom mem len fuel (pos + it.text.length) (buf ++ it.bytes)

theorem parseStringFrom_succ (mem : List UInt8) (len fuel pos : ℕ) (buf : List UInt8) :
    parseStringFrom mem len (fuel + 1) pos buf = roundFrom mem len fuel pos buf := by
  rw [parseStringFrom, peek_eq_head, roundFrom]
  match hs : ahead mem len pos with
  | [] => rfl
  | c :: t =>
    by_cases hquote : c = chQuote
    · simp [hquote]
    by_cases hback : c = chBackslash
    · subst hback
      simp only [List.head?_cons, Option.some.injEq, if_neg hquote, ne_eq, not_true_eq_false,
        if_false]
      obtain ⟨hfront, hesc⟩ | ⟨it, cp, hfront, hbytes, hesc⟩ := parseEscapeSeq_eq hs
      · rw [hfront, hesc]
        rfl
      · rw [hfront, hesc, Option.bind_some, hbytes]
    · simp [frontItem, hquote, hback, Item.text, Item.bytes]

/-! ## Literals -/

theorem Item.text_length (it : Item) : 0 < it.text.length := by
  cases it <;> simp [Item.text]

theorem textOf_cons (it : Item) (items : List Item) :
    textOf (it :: items) = it.text ++ textOf items := List.flatMap_cons

theorem bytesOf_cons (it : Item) (items : List Item) :
    bytesOf (it :: items) = it.bytes ++ bytesOf items := List.flatMap_cons

theorem length_le_textOf (items : List Item) : items.length ≤ (textOf items).length := by
  induction items with
  | nil => exact Nat.le_refl 0
  | cons it items ih =>
    have hit := it.text_length
    rw [textOf_cons, List.length_append, List.length_cons]
    omega

theorem Item.Scans.head_ne_quote (h : it.Scans) (t : List UInt8) :
    (it.text ++ t).head? ≠ some chQuote := by
  cases it with
  | raw c => simpa [Item.text] using h.1
  | short e => simp [Item.text, show chBackslash ≠ chQuote by decide]
  | unicode a b c d => simp [Item.text, show chBackslash ≠ chQuote by decide]

/-- The items of a literal are determined by the text. -/
theorem literal_unique {items' : List Item} {rest rest' : List UInt8}
    (h : ∀ it ∈ items, it.Scans) (h' : ∀ it ∈ items', it.Scans)
    (heq : textOf items ++ chQuote :: rest = textOf items' ++ chQuote :: rest') :
    items = items' := by
  induction items generalizing items' with
  | nil =>
    cases items' with
    | nil => rfl
    | cons it items' =>
      rw [textOf_cons, List.append_assoc] at heq
      have hhead := (h' it List.mem_cons_self).head_ne_quote (textOf items' ++ chQuote :: rest')
      rw [← heq] at hhead
      exact absurd rfl hhead
  | cons it items ih =>
    rw [textOf_cons, List.append_assoc] at heq
    have hit := h it List.mem_cons_self
    cases items' with
    | nil =>
      have hhead := hit.head_ne_quote (textOf items ++ chQuote :: rest)
      rw [heq] at hhead
      exact absurd rfl hhead
    | cons it' items' =>
      rw [textOf_cons, List.append_assoc] at heq
      have hfront := frontItem_text hit (textOf items ++ chQuote :: rest)
      rw [heq, frontItem_text (h' it' List.mem_cons_self)] at hfront
      obtain rfl := Option.some.inj hfront
      rw [ih (fun x hx => h x (List.mem_cons_of_mem _ hx))
        (fun x hx => h' x (List.mem_cons_of_mem _ hx)) (List.append_cancel_left heq)]

/-- The loop reads a literal to its end. -/
theorem parseStringFrom_literal {rest : List UInt8} (h : ∀ it ∈ items, it.Scans)
    (hs : ahead mem len pos = textOf items ++ chQuote :: rest) (hfuel : items.length < fuel) :
    parseStringFrom mem len fuel pos buf =
      some (buf ++ bytesOf items, pos + (textOf items).length + 1) := by
  induction items generalizing pos buf fuel with
  | nil =>
    obtain ⟨n, rfl⟩ : ∃ n, fuel = n + 1 := ⟨fuel - 1, by simp at hfuel; omega⟩
    rw [parseStringFrom_succ, roundFrom, hs]
    simp [textOf, bytesOf]
  | cons it items ih =>
    rw [List.length_cons] at hfuel
    obtain ⟨n, rfl⟩ : ∃ n, fuel = n + 1 := ⟨fuel - 1, by omega⟩
    rw [textOf_cons, List.append_assoc] at hs
    have hit := h it List.mem_cons_self
    have hnext : ahead mem len (pos + it.text.length) = textOf items ++ chQuote :: rest := by
      rw [ahead_add, hs, List.drop_left]
    rw [parseStringFrom_succ, roundFrom, hs, if_neg (hit.head_ne_quote _), frontItem_text hit,
      Option.bind_some, ih (fun x hx => h x (List.mem_cons_of_mem _ hx)) hnext (by omega),
      textOf_cons, bytesOf_cons, List.length_append, List.append_assoc]
    congr 2
    omega

/-- What the loop accepts is a literal. -/
theorem parseStringFrom_some (h : parseStringFrom mem len fuel pos buf = some (s, after)) :
    ∃ items rest, (∀ it ∈ items, it.Scans) ∧
      ahead mem len pos = textOf items ++ chQuote :: rest ∧ s = buf ++ bytesOf items ∧
      after = pos + (textOf items).length + 1 := by
  induction fuel generalizing pos buf with
  | zero => cases h
  | succ fuel ih =>
    rw [parseStringFrom_succ, roundFrom] at h
    split_ifs at h with hquote
    · obtain ⟨rfl, rfl⟩ : buf = s ∧ pos + 1 = after := by simpa using h
      match hs : ahead mem len pos with
      | [] => simp [hs] at hquote
      | c :: t =>
        obtain rfl : c = chQuote := by simpa [hs] using hquote
        exact ⟨[], t, by simp, rfl, by simp [bytesOf], by simp [textOf]⟩
    · obtain ⟨it, hfront, hrest⟩ := Option.bind_eq_some_iff.mp h
      obtain ⟨hit, t, ht⟩ := frontItem_some hfront
      obtain ⟨items, rest, hitems, hs, rfl, rfl⟩ := ih hrest
      rw [ahead_add, ht, List.drop_left] at hs
      refine ⟨it :: items, rest, ?_, ?_, ?_, ?_⟩
      · exact List.forall_mem_cons.mpr ⟨hit, hitems⟩
      · rw [ht, hs, textOf_cons, List.append_assoc]
      · rw [bytesOf_cons, List.append_assoc]
      · rw [textOf_cons, List.length_append]
        omega

theorem ahead_length_le (mem : List UInt8) (len pos : ℕ) :
    (ahead mem len pos).length ≤ len - pos := by
  rw [ahead, List.length_drop, List.length_take]
  omega

theorem ahead_of_quote (hquote : peek mem len pos = some chQuote) :
    ahead mem len pos = chQuote :: ahead mem len (pos + 1) ∧ pos < len := by
  have hle := ahead_length_le mem len pos
  rw [peek_eq_head] at hquote
  match hs : ahead mem len pos with
  | [] => simp [hs] at hquote
  | c :: t =>
    obtain rfl : c = chQuote := by simpa [hs] using hquote
    rw [hs, List.length_cons] at hle
    refine ⟨?_, by omega⟩
    rw [ahead_add, hs]
    rfl

/-- At a quote the parser succeeds exactly at a literal, and returns what its items stand for. -/
theorem parseStringRaw_eq_some (hquote : peek mem len pos = some chQuote) :
    parseStringRaw mem len pos = some (s, after) ↔
      ∃ items, LiteralAt mem len pos items after ∧ s = bytesOf items := by
  have hsplit := (ahead_of_quote hquote).1
  rw [parseStringRaw]
  constructor
  · intro h
    obtain ⟨items, rest, hitems, hs, rfl, rfl⟩ := parseStringFrom_some h
    exact ⟨items, ⟨hitems, by omega, rest, by rw [hsplit, hs]⟩, List.nil_append _⟩
  · rintro ⟨items, ⟨hitems, rfl, rest, hs⟩, rfl⟩
    have hle := ahead_length_le mem len pos
    have hlen := length_le_textOf items
    rw [hs] at hle
    simp only [List.length_cons, List.length_append] at hle
    rw [hs, List.cons.injEq] at hsplit
    rw [parseStringFrom_literal hitems hsplit.2.symm (by omega), List.nil_append]
    congr 2
    omega

/-! ## Acceptance -/

/-- The parser accepts the strings of RFC 8259 and no other text, reports an error otherwise, and
does not look behind the end of the input. -/
def DecidesStrings (mem : List UInt8) (len pos : ℕ) : Prop :=
  (∀ after, (∃ s, parseStringRaw mem len pos = some (s, after)) ↔ RfcStringAt mem len pos after) ∧
    ∀ mem', mem'.take len = mem.take len →
      parseStringRaw mem' len pos = parseStringRaw mem len pos

theorem parseStringFrom_congr (h : mem'.take len = mem.take len) (fuel pos : ℕ)
    (buf : List UInt8) :
    parseStringFrom mem' len fuel pos buf = parseStringFrom mem len fuel pos buf := by
  induction fuel generalizing pos buf with
  | zero => rfl
  | succ fuel ih =>
    have hahead : ahead mem' len pos = ahead mem len pos := by rw [ahead, h, ahead]
    rw [parseStringFrom_succ, parseStringFrom_succ, roundFrom, roundFrom, hahead]
    simp only [ih]

/-- A string of RFC 8259 read as a literal has no control character. -/
theorem RfcStringAt.clean {after' : ℕ} (h : RfcStringAt mem len pos after)
    (hlit : LiteralAt mem len pos items after') : ∀ it ∈ items, ¬it.IsControl := by
  obtain ⟨items', ⟨hscan', -, rest', hs'⟩, hclean⟩ := h
  obtain ⟨hscan, -, rest, hs⟩ := hlit
  rw [hs, List.cons.injEq] at hs'
  rw [literal_unique hscan hscan' hs'.2]
  exact hclean

/-- The strings of RFC 8259 are decided except where a literal has a control character in it. -/
theorem string_syntax_iff (hquote : peek mem len pos = some chQuote) :
    DecidesStrings mem len pos ↔
      ∀ items after, LiteralAt mem len pos items after → ∀ it ∈ items, ¬it.IsControl := by
  constructor
  · rintro ⟨hiff, -⟩ items after hlit
    have hparse := (parseStringRaw_eq_some hquote).mpr ⟨items, hlit, rfl⟩
    exact ((hiff after).mp ⟨_, hparse⟩).clean hlit
  · intro hclean
    refine ⟨fun after => ⟨?_, ?_⟩, fun mem' h => parseStringFrom_congr h _ _ _⟩
    · rintro ⟨s, hs⟩
      obtain ⟨items, hlit, -⟩ := (parseStringRaw_eq_some hquote).mp hs
      exact ⟨items, hlit, hclean items after hlit⟩
    · rintro ⟨items, hlit, -⟩
      exact ⟨_, (parseStringRaw_eq_some hquote).mpr ⟨items, hlit, rfl⟩⟩

theorem letter_literal : LiteralAt [34, 97, 34] 3 0 [.raw 97] 3 :=
  ⟨by simp [Item.Scans, chQuote, chBackslash], rfl, [], rfl⟩

/-- A letter between quotes. -/
theorem letter_string_decided : DecidesStrings [34, 97, 34] 3 0 := by
  have hletter : ∀ it ∈ [Item.raw 97], ¬it.IsControl := by
    simp [Item.IsControl]
  have hrfc : RfcStringAt [34, 97, 34] 3 0 3 := ⟨_, letter_literal, hletter⟩
  exact (string_syntax_iff rfl).mpr fun items after hlit => hrfc.clean hlit

/-- A line feed between quotes is accepted. -/
theorem newline_string_accepted :
    parseStringRaw [34, 10, 34] 3 0 = some ([10], 3) ∧ ¬RfcStringAt [34, 10, 34] 3 0 3 ∧
      ¬DecidesStrings [34, 10, 34] 3 0 := by
  have hparse : parseStringRaw [34, 10, 34] 3 0 = some ([10], 3) := by decide
  have hlit : LiteralAt [34, 10, 34] 3 0 [.raw 10] 3 :=
    ⟨by simp [Item.Scans, chQuote, chBackslash], rfl, [], rfl⟩
  have hnot : ¬RfcStringAt [34, 10, 34] 3 0 3 := fun hrfc =>
    hrfc.clean hlit (.raw 10) List.mem_cons_self (by decide : (10 : UInt8) < 0x20)
  exact ⟨hparse, hnot, fun hdecides => hnot ((hdecides.1 3).mp ⟨_, hparse⟩)⟩

end LibZenit.Json
