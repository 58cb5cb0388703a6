import LibZenit.HexRoundTrip
import LibZenit.UuidModel

/-!
# UUIDs as text

A text is the digits of the bytes with dashes put in by the index of the byte. The writer's cursor
and the reader's fixed places are both places in that text.
-/
namespace LibZenit.Uuid
open Blocks CString Hex

variable {pre rest digits a b c d e : Text} {uuid : ZenitUuid} {out : Out} {i : ℕ}

/-! ## Digits and dashes -/

/-- The pairs of digits from the byte `i` on, each with its dash. -/
def dashed : ℕ → Text → Text
  | i, hi :: lo :: rest => (if DashBefore i then [45] else []) ++ hi :: lo :: dashed (i + 1) rest
  | _, rest => rest

/-- Digits in groups of 8-4-4-4-12, separated by dashes. -/
def IsUuidText (s : Text) : Prop :=
  ∃ a b c d e : Text, s = a ++ 45 :: (b ++ 45 :: (c ++ 45 :: (d ++ 45 :: e))) ∧
    a.length = 8 ∧ b.length = 4 ∧ c.length = 4 ∧ d.length = 4 ∧ e.length = 12 ∧
    AllHex (a ++ (b ++ (c ++ (d ++ e))))

theorem hexVal_eq (c : UInt8) :
    hexVal c = if HexDigits.isHex c then some (HexDigits.value c) else none := by
  revert c
  decide +kernel

theorem readSlot_hex (v : UInt8) :
    readSlot hex (v &&& 0x0F).toNat = .ok (HexDigits.digit 97 v) := by
  revert v
  decide +kernel

theorem digit_low (b : UInt8) : HexDigits.digit 97 (b &&& 0x0F) = HexDigits.digit 97 b := by
  have hlow : b &&& 0x0F &&& 0x0F = b &&& 0x0F := by rw [UInt8.and_assoc, UInt8.and_self]
  rw [HexDigits.digit, hlow, HexDigits.digit]

theorem exists_pair {g : Text} (h : 2 ≤ g.length) : ∃ hi lo rest, g = hi :: lo :: rest := by
  rcases g with _ | ⟨hi, _ | ⟨lo, rest⟩⟩
  · simp at h
  · simp at h
  · exact ⟨hi, lo, rest, rfl⟩

/-- A group without a dash inside. -/
theorem dashed_plain {g : Text} {n : ℕ} (hlen : g.length = 2 * n)
    (hno : ∀ j, i ≤ j → j < i + n → ¬DashBefore j) :
    dashed i (g ++ rest) = g ++ dashed (i + n) rest := by
  induction n generalizing i g with
  | zero =>
    rw [List.length_eq_zero_iff.mp hlen]
    rfl
  | succ n ih =>
    obtain ⟨hi, lo, g, rfl⟩ := exists_pair (by omega : 2 ≤ g.length)
    simp only [List.length_cons] at hlen
    have hrest := @ih (i + 1) g (by omega) fun j hj hlt => hno j (by omega) (by omega)
    rw [List.cons_append, List.cons_append, dashed, if_neg (hno i le_rfl (by omega)), hrest,
      List.nil_append, show i + 1 + n = i + (n + 1) by omega]
    rfl

/-- A group behind a dash. -/
theorem dashed_group {g : Text} {n : ℕ} (hlen : g.length = 2 * (n + 1)) (hdash : DashBefore i)
    (hno : ∀ j, i < j → j < i + (n + 1) → ¬DashBefore j) :
    dashed i (g ++ rest) = 45 :: (g ++ dashed (i + (n + 1)) rest) := by
  obtain ⟨hi, lo, g, rfl⟩ := exists_pair (by omega : 2 ≤ g.length)
  simp only [List.length_cons] at hlen
  have hrest := @dashed_plain rest (i + 1) g n (by omega) fun j hj hlt =>
    hno j (by omega) (by omega)
  rw [List.cons_append, List.cons_append, dashed, if_pos hdash, hrest,
    show i + 1 + n = i + (n + 1) by omega]
  rfl

theorem dashed_groups (ha : a.length = 8) (hb : b.length = 4) (hc : c.length = 4)
    (hd : d.length = 4) (he : e.length = 12) :
    dashed 0 (a ++ (b ++ (c ++ (d ++ e)))) =
      a ++ 45 :: (b ++ 45 :: (c ++ 45 :: (d ++ 45 :: e))) := by
  rw [dashed_plain (n := 4) ha (by unfold DashBefore; omega),
    dashed_group (n := 1) hb (by decide) (by unfold DashBefore; omega),
    dashed_group (n := 1) hc (by decide) (by unfold DashBefore; omega),
    dashed_group (n := 1) hd (by decide) (by unfold DashBefore; omega), ← List.append_nil e,
    dashed_group (n := 5) he (by decide) (by unfold DashBefore; omega)]
  rfl

theorem encodeText_cons_pair (x : UInt8) (data : Text) : encodeText (x :: data) =
    HexDigits.digit 97 (x >>> 4) :: HexDigits.digit 97 x :: encodeText data := by
  rw [encodeText_cons, HexDigits.digits, digit_low]
  rfl

/-! ## Writing -/

/-- The loop writes the digits of the bytes that are left, each pair with its dash. -/
theorem formatLoop_eq (hbytes : uuid.bytes = pre ++ rest)
    (hroom : out.bytes.length + (dashed pre.length (encodeText rest)).length ≤ out.cap) :
    formatLoop uuid pre.length out =
      .ok ⟨out.cap, out.bytes ++ dashed pre.length (encodeText rest)⟩ := by
  have hlen := uuid.length_bytes
  rw [hbytes, List.length_append] at hlen
  induction rest generalizing pre out with
  | nil =>
    rw [List.length_nil] at hlen
    rw [formatLoop, if_neg (by omega)]
    simp [encodeText, dashed]
  | cons x rest ih =>
    rw [List.length_cons] at hlen
    have hread : readSlot uuid.bytes pre.length = .ok x := by
      rw [hbytes]
      exact readSlot_append pre _ (k := 0) rfl
    rw [encodeText_cons_pair, dashed] at hroom ⊢
    generalize hdash : (if DashBefore pre.length then [45] else [] : Text) = dash at hroom ⊢
    have hdashed : (if DashBefore pre.length then out.put 45 else .ok out) =
        .ok ⟨out.cap, out.bytes ++ dash⟩ := by
      subst hdash
      split_ifs at hroom ⊢
      · exact put_eq (by simp at hroom; omega) 45
      · rw [List.append_nil]
    simp only [List.length_append, List.length_cons] at hroom
    have hhigh := @put_eq ⟨out.cap, out.bytes ++ dash⟩ (by simp; omega)
      (HexDigits.digit 97 (x >>> 4))
    have hlow := @put_eq ⟨out.cap, out.bytes ++ dash ++ [HexDigits.digit 97 (x >>> 4)]⟩
      (by simp; omega) (HexDigits.digit 97 x)
    have hrest := @ih (pre ++ [x])
      ⟨out.cap, out.bytes ++ dash ++ [HexDigits.digit 97 (x >>> 4)] ++
        [HexDigits.digit 97 x]⟩ (by rw [hbytes]; simp) (by simp; omega)
      (by simp; omega)
    rw [List.length_append, List.length_singleton] at hrest
    rw [formatLoop, if_pos (by omega), hdashed]
    simp only [bind, Except.bind, hread, readSlot_hex, hhigh, hlow, hrest]
    simp

theorem exists_group {s : Text} {k : ℕ} (h : k ≤ s.length) :
    ∃ g r : Text, s = g ++ r ∧ g.length = k ∧ r.length = s.length - k :=
  ⟨s.take k, s.drop k, (List.take_append_drop k s).symm, List.length_take_of_le h,
    List.length_drop⟩

/-- The digits in the groups of the text. -/
theorem exists_groups (hlen : digits.length = 32) : ∃ a b c d e : Text,
    digits = a ++ (b ++ (c ++ (d ++ e))) ∧
      a.length = 8 ∧ b.length = 4 ∧ c.length = 4 ∧ d.length = 4 ∧ e.length = 12 := by
  obtain ⟨a, r, rfl, ha, hr⟩ := exists_group (by omega : 8 ≤ digits.length)
  obtain ⟨b, r, rfl, hb, hr⟩ := exists_group (by omega : 4 ≤ r.length)
  obtain ⟨c, r, rfl, hc, hr⟩ := exists_group (by omega : 4 ≤ r.length)
  obtain ⟨d, e, rfl, hd, he⟩ := exists_group (by omega : 4 ≤ r.length)
  exact ⟨a, b, c, d, e, rfl, ha, hb, hc, hd, by omega⟩

theorem isUuidText_iff {s : Text} :
    IsUuidText s ↔ ∃ digits : Text, digits.length = 32 ∧ AllHex digits ∧ s = dashed 0 digits := by
  constructor
  · rintro ⟨a, b, c, d, e, rfl, ha, hb, hc, hd, he, hall⟩
    refine ⟨_, ?_, hall, (dashed_groups ha hb hc hd he).symm⟩
    simp [ha, hb, hc, hd, he]
  · rintro ⟨digits, hlen, hall, rfl⟩
    obtain ⟨a, b, c, d, e, rfl, ha, hb, hc, hd, he⟩ := exists_groups hlen
    exact ⟨a, b, c, d, e, dashed_groups ha hb hc hd he, ha, hb, hc, hd, he, hall⟩

theorem length_dashed (hlen : digits.length = 32) : (dashed 0 digits).length = 36 := by
  obtain ⟨a, b, c, d, e, rfl, ha, hb, hc, hd, he⟩ := exists_groups hlen
  rw [dashed_groups ha hb hc hd he]
  simp [ha, hb, hc, hd, he]

theorem dashed_lower (i : ℕ) (digits : Text) :
    (dashed i digits).map HexDigits.lower = dashed i (digits.map HexDigits.lower) := by
  have hdash : HexDigits.lower 45 = 45 := by decide
  fun_induction dashed i digits with
  | case1 i hi lo rest ih =>
    rw [List.map_append, List.map_cons, List.map_cons, ih, List.map_cons, List.map_cons, dashed]
    split_ifs
    · rw [List.map_singleton, hdash]
    · rfl
  | case2 i rest hnot =>
    rcases rest with _ | ⟨hi, _ | ⟨lo, rest⟩⟩
    · rfl
    · rfl
    · exact absurd rfl (hnot hi lo rest)

/-! ## Reading -/

theorem take_setByte (hi : i < 16) (x : UInt8) :
    (uuid.setByte i x).bytes.take (i + 1) = uuid.bytes.take i ++ [x] := by
  have hlt : i < uuid.bytes.length := by rwa [uuid.length_bytes]
  exact take_succ_set hlt x

/-- The loop on the digits that are left: their bytes behind those already there, or the refusal if
a character is no digit. -/
theorem parseLoop_eq (hlen : digits.length + 2 * i = 32) :
    (AllHex digits ∧ ∃ u, parseLoop (pre ++ (dashed i digits ++ rest)) i pre.length uuid =
      .ok (.ok, u) ∧ u.bytes = uuid.bytes.take i ++ pairBytes digits) ∨
    (¬AllHex digits ∧ ∃ u, parseLoop (pre ++ (dashed i digits ++ rest)) i pre.length uuid =
      .ok (.param, u)) := by
  fun_induction dashed i digits generalizing pre uuid with
  | case1 i hi lo digits ih =>
    simp only [List.length_cons] at hlen
    generalize hdash : (if DashBefore i then [45] else [] : Text) = dash
    have hcursor : (if DashBefore i then pre.length + 1 else pre.length) =
        (pre ++ dash).length := by
      subst hdash
      split_ifs
      · simp
      · simp
    have hhi : readSlot (pre ++ (dash ++ hi :: lo :: dashed (i + 1) digits ++ rest))
        (pre ++ dash).length = .ok hi := by
      have hread := readSlot_append (pre ++ dash) (hi :: lo :: (dashed (i + 1) digits ++ rest))
        (k := 0) rfl
      simpa using hread
    have hlo : readSlot (pre ++ (dash ++ hi :: lo :: dashed (i + 1) digits ++ rest))
        ((pre ++ dash).length + 1) = .ok lo := by
      have hread := readSlot_append (pre ++ dash) (hi :: lo :: (dashed (i + 1) digits ++ rest))
        (k := 1) rfl
      simpa using hread
    have hrest := @ih (pre ++ dash ++ [hi, lo]) (uuid.setByte i (HexDigits.pair hi lo)) (by omega)
    rw [parseLoop, if_pos (by omega), allHex_cons, allHex_cons, pairBytes]
    simp only [hcursor, hhi, hlo, bind, Except.bind, hexVal_eq]
    by_cases hvalid : HexDigits.isHex hi = true ∧ HexDigits.isHex lo = true
    · obtain ⟨hvhi, hvlo⟩ := hvalid
      rw [take_setByte (by omega), List.append_assoc, List.length_append] at hrest
      simp only [List.append_assoc, List.cons_append, List.nil_append, List.length_cons,
        List.length_nil] at hrest
      simp only [hvhi, hvlo, if_true, true_and, List.append_assoc, List.cons_append]
      exact hrest
    · refine .inr ⟨fun h => hvalid ⟨h.1, h.2.1⟩, uuid, ?_⟩
      rcases not_and_or.mp hvalid with hbad | hbad
      · simp only [hbad, Bool.false_eq_true, if_false]
        rfl
      · simp only [hbad, Bool.false_eq_true, if_false]
        split_ifs
        · rfl
        · rfl
  | case2 i digits hnot =>
    obtain rfl := eq_nil_of_no_pair (by omega) hnot
    rw [List.length_nil] at hlen
    rw [parseLoop, if_neg (by omega)]
    refine .inl ⟨by simp [AllHex], uuid, rfl, ?_⟩
    rw [List.take_of_length_le (by rw [uuid.length_bytes]; omega)]
    simp [pairBytes]

/-- A group in front of a dash. -/
theorem exists_group_dash {s : Text} {k : ℕ} (hdash : s[k]? = some 45) :
    ∃ g r : Text, s = g ++ 45 :: r ∧ g.length = k ∧ r.length = s.length - (k + 1) ∧
      ∀ j, r[j]? = s[k + 1 + j]? := by
  obtain ⟨hlt, hget⟩ := List.getElem?_eq_some_iff.mp hdash
  refine ⟨s.take k, s.drop (k + 1), ?_, List.length_take_of_le hlt.le, List.length_drop,
    fun j => List.getElem?_drop⟩
  rw [← hget, List.getElem_cons_drop, List.take_append_drop]

/-- A text with the length and the dashes of a UUID is digits with dashes put in. -/
theorem exists_dashed {s : Text} (hlen : s.length = 36) (h8 : s[8]? = some 45)
    (h13 : s[13]? = some 45) (h18 : s[18]? = some 45) (h23 : s[23]? = some 45) :
    ∃ digits : Text, digits.length = 32 ∧ s = dashed 0 digits := by
  obtain ⟨a, r, rfl, ha, hr, hget⟩ := exists_group_dash h8
  rw [← hget 4] at h13
  rw [← hget 9] at h18
  rw [← hget 14] at h23
  obtain ⟨b, r, rfl, hb, hr, hget⟩ := exists_group_dash h13
  rw [← hget 4] at h18
  rw [← hget 9] at h23
  obtain ⟨c, r, rfl, hc, hr, hget⟩ := exists_group_dash h18
  rw [← hget 4] at h23
  obtain ⟨d, e, rfl, hd, he, hget⟩ := exists_group_dash h23
  refine ⟨_, ?_, (dashed_groups ha hb hc hd (by omega)).symm⟩
  simp only [List.length_append]
  omega

theorem readSlot_string {s : Text} {k : ℕ} {x : UInt8} (h : s[k]? = some x) (rest : Text) :
    readSlot (s ++ rest) k = .ok x := by
  obtain ⟨hlt, -⟩ := List.getElem?_eq_some_iff.mp h
  exact readSlot_eq (by rw [List.getElem?_append_left hlt, h])

/-- The length and the dashes that the reader asks for. -/
def HasDashes (s : Text) : Prop :=
  s.length = 36 ∧ s[8]? = some 45 ∧ s[13]? = some 45 ∧ s[18]? = some 45 ∧ s[23]? = some 45

theorem hasDashes_iff {s : Text} :
    HasDashes s ↔ ∃ digits : Text, digits.length = 32 ∧ s = dashed 0 digits := by
  constructor
  · rintro ⟨hlen, h8, h13, h18, h23⟩
    exact exists_dashed hlen h8 h13 h18 h23
  · rintro ⟨digits, hlen, rfl⟩
    have hlength := length_dashed hlen
    obtain ⟨a, b, c, d, e, rfl, ha, hb, hc, hd, he⟩ := exists_groups hlen
    refine ⟨hlength, ?_⟩
    rw [dashed_groups ha hb hc hd he]
    simp [List.getElem?_append, ha, hb, hc, hd]

/-- Without the dashes the string is refused, and with them the loop decides. -/
theorem parse_dashes {s : Text} (hs : 0 ∉ s) (rest : Text) (uuid : ZenitUuid) :
    (HasDashes s → zenitUuidParse (some (s ++ 0 :: rest)) (some uuid) =
      (parseLoop (s ++ 0 :: rest) 0 0 uuid).map fun r => (r.1, some r.2)) ∧
    (¬HasDashes s → zenitUuidParse (some (s ++ 0 :: rest)) (some uuid) =
      .ok (.param, some uuid)) := by
  rw [zenitUuidParse]
  simp only [strlen_append hs]
  by_cases hlen : s.length = 36
  swap
  · exact ⟨fun h => absurd h.1 hlen, fun _ => if_pos hlen⟩
  have hchar : ∀ k < 36, ∃ x, s[k]? = some x := fun k hk =>
    ⟨_, List.getElem?_eq_getElem (by omega)⟩
  obtain ⟨w, hw⟩ := hchar 8 (by omega)
  obtain ⟨x, hx⟩ := hchar 13 (by omega)
  obtain ⟨y, hy⟩ := hchar 18 (by omega)
  obtain ⟨z, hz⟩ := hchar 23 (by omega)
  simp only [HasDashes, hlen, hw, hx, hy, hz, Option.some.injEq, true_and, readSlot_string hw,
    readSlot_string hx, readSlot_string hy, readSlot_string hz, bind, Except.bind]
  by_cases hdashes : w = 45 ∧ x = 45 ∧ y = 45 ∧ z = 45
  · obtain ⟨rfl, rfl, rfl, rfl⟩ := hdashes
    refine ⟨fun _ => ?_, fun h => absurd ⟨rfl, rfl, rfl, rfl⟩ h⟩
    cases parseLoop (s ++ 0 :: rest) 0 0 uuid <;> rfl
  · refine ⟨fun h => absurd h hdashes, fun _ => ?_⟩
    by_cases hw45 : w = 45
    · by_cases hx45 : x = 45
      · by_cases hy45 : y = 45
        · have hz45 : z ≠ 45 := fun h => hdashes ⟨hw45, hx45, hy45, h⟩
          simp [hw45, hx45, hy45, hz45, pure, Except.pure]
        · simp [hw45, hx45, hy45, pure, Except.pure]
      · simp [hw45, hx45, pure, Except.pure]
    · simp [hw45, pure, Except.pure]

/-- The digits put in between dashes are read back as bytes. -/
theorem parse_dashed (hlen : digits.length = 32) (hzero : 0 ∉ dashed 0 digits) (rest : Text)
    (uuid : ZenitUuid) :
    (AllHex digits ∧ ∃ u, zenitUuidParse (some (dashed 0 digits ++ 0 :: rest)) (some uuid) =
      .ok (.ok, some u) ∧ u.bytes = pairBytes digits) ∨
    (¬AllHex digits ∧ ∃ u, zenitUuidParse (some (dashed 0 digits ++ 0 :: rest)) (some uuid) =
      .ok (.param, some u)) := by
  rw [(parse_dashes hzero rest uuid).1 (hasDashes_iff.mpr ⟨digits, hlen, rfl⟩)]
  have hloop := @parseLoop_eq [] (0 :: rest) digits uuid 0 (by omega)
  simp only [List.nil_append, List.length_nil, List.take_zero] at hloop
  rcases hloop with ⟨hall, u, hparse, hbytes⟩ | ⟨hbad, u, hparse⟩
  · exact .inl ⟨hall, u, by rw [hparse]; rfl, hbytes⟩
  · exact .inr ⟨hbad, u, by rw [hparse]; rfl⟩

theorem zero_notMem_dashed (hall : AllHex digits) (i : ℕ) : 0 ∉ dashed i digits := by
  fun_induction dashed i digits with
  | case1 i hi lo rest ih =>
    obtain ⟨hhi, hlo, hrest⟩ := allHex_cons.mp hall |>.imp_right allHex_cons.mp
    simp only [List.mem_append, List.mem_cons, not_or]
    refine ⟨?_, (HexDigits.ne_zero_of_isHex hhi).symm, (HexDigits.ne_zero_of_isHex hlo).symm,
      ih hrest⟩
    split_ifs
    · decide
    · simp
  | case2 i rest _ => exact hall.zero_notMem

theorem length_digits (uuid : ZenitUuid) : (encodeText uuid.bytes).length = 32 := by
  rw [length_encodeText, uuid.length_bytes]

theorem format_eq {size : ℕ} (hsize : zenitUuidStrLen ≤ size) (uuid : ZenitUuid) :
    zenitUuidFormat (some uuid) (some size) =
      .ok (.ok, dashed 0 (encodeText uuid.bytes) ++ [0]) := by
  have hlen := length_dashed (length_digits uuid)
  rw [zenitUuidStrLen] at hsize
  have hloop := @formatLoop_eq [] uuid.bytes uuid ⟨size, []⟩ rfl (by simp [hlen]; omega)
  have hput := @put_eq ⟨size, dashed 0 (encodeText uuid.bytes)⟩ (by simp [hlen]; omega) 0
  simp only [List.nil_append, List.length_nil] at hloop
  simp only [zenitUuidFormat, hloop, bind, Except.bind, hput]
  rfl

/-- A text of the form is read, and its value is written in lower case. -/
theorem parse_uuidText {s : Text} (h : IsUuidText s) (rest : Text) (out : ZenitUuid) :
    ∃ u, zenitUuidParse (some (s ++ 0 :: rest)) (some out) = .ok (.ok, some u) ∧
      ∀ size, zenitUuidStrLen ≤ size →
        zenitUuidFormat (some u) (some size) = .ok (.ok, s.map HexDigits.lower ++ [0]) := by
  obtain ⟨digits, hlen, hall, rfl⟩ := isUuidText_iff.mp h
  rcases parse_dashed hlen (zero_notMem_dashed hall 0) rest out with ⟨-, u, hparse, hu⟩ | ⟨hbad, -⟩
  · refine ⟨u, hparse, fun size hsize => ?_⟩
    rw [format_eq hsize, hu, encodeText_pairBytes (by omega) hall, dashed_lower]
  · exact absurd hall hbad

/-- Any other text is refused. -/
theorem parse_other {s : Text} (hzero : 0 ∉ s) (h : ¬IsUuidText s) (rest : Text) (out : ZenitUuid) :
    ∃ u, zenitUuidParse (some (s ++ 0 :: rest)) (some out) = .ok (.param, some u) := by
  by_cases hdashes : HasDashes s
  · obtain ⟨digits, hlen, rfl⟩ := hasDashes_iff.mp hdashes
    rcases parse_dashed hlen hzero rest out with ⟨hall, -⟩ | ⟨-, hparse⟩
    · exact absurd (isUuidText_iff.mpr ⟨digits, hlen, hall, rfl⟩) h
    · exact hparse
  · exact ⟨out, (parse_dashes hzero rest out).2 hdashes⟩

/-- Writing and reading gives the value back, in 37 bytes. A string is read exactly when it is
digits in groups of 8-4-4-4-12, and writing its value gives the string in lower case. -/
theorem uuid_text_form :
    (∀ (u : ZenitUuid) (size : ℕ), zenitUuidStrLen ≤ size → ∃ text : Text,
      zenitUuidFormat (some u) (some size) = .ok (.ok, text ++ [0]) ∧
      (text ++ [0]).length = zenitUuidStrLen ∧
      ∀ (rest : Text) (out : ZenitUuid),
        zenitUuidParse (some (text ++ 0 :: rest)) (some out) = .ok (.ok, some u)) ∧
    ∀ s : Text, 0 ∉ s → ∀ (rest : Text) (out : ZenitUuid), ∃ (code : ZenitError) (u : ZenitUuid),
      zenitUuidParse (some (s ++ 0 :: rest)) (some out) = .ok (code, some u) ∧
      (code = .ok ↔ IsUuidText s) ∧
      (code = .ok → ∀ size : ℕ, zenitUuidStrLen ≤ size →
        zenitUuidFormat (some u) (some size) = .ok (.ok, s.map HexDigits.lower ++ [0])) := by
  constructor
  · intro u size hsize
    have hlen := length_digits u
    have hall := allHex_encodeText u.bytes
    refine ⟨dashed 0 (encodeText u.bytes), format_eq hsize u, ?_, fun rest out => ?_⟩
    · rw [List.length_append, length_dashed hlen]
      rfl
    · rcases parse_dashed hlen (zero_notMem_dashed hall 0) rest out with
        ⟨-, v, hparse, hv⟩ | ⟨hbad, -⟩
      · have hvu : v = u := ZenitUuid.ext (by rw [hv, pairBytes_encodeText])
        rw [hparse, hvu]
      · exact absurd hall hbad
  · intro s hzero rest out
    by_cases hs : IsUuidText s
    · obtain ⟨u, hparse, hformat⟩ := parse_uuidText hs rest out
      exact ⟨.ok, u, hparse, iff_of_true rfl hs, fun _ => hformat⟩
    · obtain ⟨u, hparse⟩ := parse_other hzero hs rest out
      exact ⟨.param, u, hparse, iff_of_false (by decide) hs, fun h => by cases h⟩

end LibZenit.Uuid
