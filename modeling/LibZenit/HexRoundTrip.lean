import LibZenit.HexModel

/-!
# Encoding and decoding hexadecimal text

Every byte is two digits. A string of odd length is read as if a zero stood in front of it.
-/
namespace LibZenit.Hex
open Blocks CString

/-- The digits of the bytes, in lower case. -/
def encodeText (data : Text) : Text := data.flatMap (HexDigits.digits 97)

/-- The bytes of the pairs of digits. -/
def pairBytes : Text → Text
  | a :: b :: rest => HexDigits.pair a b :: pairBytes rest
  | _ => []

/-- The digits with a zero in front when their number is odd. -/
def padded (s : Text) : Text := if s.length % 2 = 0 then s else 48 :: s

/-- A string of digits only. -/
def AllHex (s : Text) : Prop := ∀ c ∈ s, HexDigits.isHex c = true

variable {pre rest s data : Text} {out : Out} {len : ℕ}

/-! ## Encoding -/

theorem encodeText_cons (b : UInt8) (data : Text) :
    encodeText (b :: data) = HexDigits.digits 97 b ++ encodeText data := List.flatMap_cons

theorem length_encodeText (data : Text) : (encodeText data).length = 2 * data.length := by
  induction data with
  | nil => rfl
  | cons b data ih =>
    rw [encodeText_cons, List.length_append, List.length_cons, ih]
    simp only [HexDigits.digits, List.length_cons, List.length_nil]
    omega

theorem encodeLoop_eq (hroom : out.bytes.length + 2 * rest.length ≤ out.cap) :
    encodeLoop (pre ++ rest) pre.length out = .ok ⟨out.cap, out.bytes ++ encodeText rest⟩ := by
  induction rest generalizing pre out with
  | nil =>
    rw [encodeLoop, if_neg (by simp)]
    simp [encodeText]
  | cons b rest ih =>
    rw [List.length_cons] at hroom
    have hread : readSlot (pre ++ b :: rest) pre.length = .ok b :=
      readSlot_append pre _ (k := 0) rfl
    have hput := putAll_eq (HexDigits.digits 97 b)
      (by simp only [HexDigits.digits, List.length_cons, List.length_nil]; omega :
        out.bytes.length + (HexDigits.digits 97 b).length ≤ out.cap)
    have hrest := @ih (pre ++ [b]) ⟨out.cap, out.bytes ++ HexDigits.digits 97 b⟩
      (by
        simp only [List.length_append, HexDigits.digits, List.length_cons, List.length_nil]
        omega)
    simp only [List.append_assoc, List.length_append, List.length_singleton,
      List.singleton_append] at hrest
    rw [encodeText_cons, ← hrest, encodeLoop, if_pos (by simp)]
    simp only [hread, bind, Except.bind]
    rw [HexDigits.digits] at hput ⊢
    simp only [nibbleToHex, hput]

theorem encode_eq (hlen : 2 * data.length + 1 < 2 ^ 64) :
    zenitHexEncode true (.inl data) = .ok (some (encodeText data ++ [0])) := by
  have hcap : zenitHexEncodeLen data.length = 2 * data.length + 1 := by
    unfold zenitHexEncodeLen wrap
    omega
  have hloop := @encodeLoop_eq [] data ⟨2 * data.length + 1, []⟩ (by simp)
  have hput := @put_eq ⟨2 * data.length + 1, encodeText data⟩
    (by simp only [length_encodeText]; omega) 0
  simp only [List.nil_append, List.length_nil] at hloop
  simp only [zenitHexEncode, zenitHexEncode.encode, Bool.not_true, Bool.false_eq_true, if_false,
    hcap, hloop, bind, Except.bind, hput]
  rfl

/-! ## Decoding -/

theorem length_pairBytes (s : Text) : (pairBytes s).length = s.length / 2 := by
  fun_induction pairBytes s with
  | case1 a b rest ih =>
    rw [List.length_cons, List.length_cons, List.length_cons, ih]
    omega
  | case2 s hs =>
    match s, hs with
    | [], _ => rfl
    | [a], _ => simp
    | a :: b :: rest, hs => exact absurd rfl (hs a b rest)

theorem allHex_cons {c : UInt8} : AllHex (c :: s) ↔ HexDigits.isHex c = true ∧ AllHex s :=
  List.forall_mem_cons

theorem eq_nil_of_no_pair (heven : s.length % 2 = 0)
    (hnot : ∀ a b rest, s = a :: b :: rest → False) : s = [] := by
  rcases s with _ | ⟨a, _ | ⟨b, rest⟩⟩
  · rfl
  · simp at heven
  · exact absurd rfl (hnot a b rest)

/-- The loop on the pairs that are left: their bytes, or nothing if one is not a pair of digits. -/
theorem decodeLoop_eq (heven : rest.length % 2 = 0) (hlen : len = pre.length + rest.length)
    (hroom : out.bytes.length + rest.length / 2 ≤ out.cap) :
    (AllHex rest → decodeLoop (pre ++ (rest ++ [0])) len pre.length out =
      .ok (some ⟨out.cap, out.bytes ++ pairBytes rest⟩)) ∧
    (¬AllHex rest → decodeLoop (pre ++ (rest ++ [0])) len pre.length out = .ok none) := by
  fun_induction pairBytes rest generalizing pre out with
  | case1 a b rest ih =>
    simp only [List.length_cons] at heven hlen hroom
    have hone : readSlot (pre ++ (a :: b :: rest ++ [0])) pre.length = .ok a :=
      readSlot_append pre _ (k := 0) rfl
    have htwo : readSlot (pre ++ (a :: b :: rest ++ [0])) (pre.length + 1) = .ok b :=
      readSlot_append pre _ rfl
    have hrest := @ih (pre ++ [a, b]) ⟨out.cap, out.bytes ++ [HexDigits.pair a b]⟩ (by omega)
      (by simp; omega) (by simp; omega)
    simp only [List.append_assoc, List.length_append, List.length_cons, List.length_nil,
      List.cons_append, List.nil_append] at hrest
    rw [allHex_cons, allHex_cons, decodeLoop, if_pos (by omega)]
    simp only [hone, htwo, bind, Except.bind]
    by_cases hvalid : HexDigits.isHex a = true ∧ HexDigits.isHex b = true
    · have hff : ¬(hexToNibble a = 0xFF ∨ hexToNibble b = 0xFF) := by
        rw [not_or]
        exact ⟨HexDigits.value_ne_ff hvalid.1, HexDigits.value_ne_ff hvalid.2⟩
      rw [if_neg hff, put_eq (by omega)]
      simp only [hvalid.1, hvalid.2, true_and]
      exact hrest
    · have hff : hexToNibble a = 0xFF ∨ hexToNibble b = 0xFF := by
        rw [hexToNibble, hexToNibble, HexDigits.value_eq_ff, HexDigits.value_eq_ff,
          ← Bool.not_eq_true, ← Bool.not_eq_true]
        exact not_and_or.mp hvalid
      rw [if_pos hff]
      exact ⟨fun h => absurd ⟨h.1, h.2.1⟩ hvalid, fun _ => rfl⟩
  | case2 rest hnot =>
    obtain rfl := eq_nil_of_no_pair heven hnot
    rw [decodeLoop, if_neg (by simp at hlen; omega)]
    exact ⟨fun _ => by rw [List.append_nil]; rfl, fun h => absurd (by simp [AllHex]) h⟩

theorem pair_zero (c : UInt8) : HexDigits.pair 48 c = hexToNibble c := by
  have hzero : HexDigits.value 48 = 0 := by decide
  rw [HexDigits.pair, hzero, hexToNibble]
  simp

theorem length_padded (s : Text) : (padded s).length = 2 * ((s.length + 1) / 2) := by
  rw [padded]
  split_ifs
  · omega
  · rw [List.length_cons]
    omega

theorem allHex_padded : AllHex (padded s) ↔ AllHex s := by
  rw [padded]
  split_ifs
  · exact Iff.rfl
  · rw [allHex_cons]
    exact and_iff_right (by decide)

theorem decodeLen_eq (hzero : 0 ∉ s) (hlen : s.length + 1 < 2 ^ 64) :
    zenitHexDecodeLen (some (s ++ [0])) = (s.length + 1) / 2 := by
  rw [zenitHexDecodeLen, Option.elim_some, strlen_eq hzero, wrap, Nat.mod_eq_of_lt hlen]

/-- A string of digits decodes to the bytes of its pairs, and one with another character is
refused. -/
theorem decode_eq (hzero : 0 ∉ s) (hlen : s.length + 1 < 2 ^ 64) (hne : s ≠ []) :
    (AllHex s → zenitHexDecode true (some (s ++ [0])) =
      .ok (some (pairBytes (padded s), (s.length + 1) / 2))) ∧
    (¬AllHex s → zenitHexDecode true (some (s ++ [0])) = .ok none) := by
  obtain ⟨c, t, rfl⟩ := List.exists_cons_of_ne_nil hne
  have hwrap : wrap ((c :: t).length + 1) = (c :: t).length + 1 := Nat.mod_eq_of_lt hlen
  rw [zenitHexDecode, padded]
  simp only [strlen_eq hzero, hwrap, Bool.not_true, Bool.false_eq_true, if_false, ne_eq, ite_not]
  rw [if_neg (by simp : ¬(c :: t).length = 0)]
  split_ifs with heven
  · have hloop := @decodeLoop_eq [] (c :: t) ⟨((c :: t).length + 1) / 2, []⟩ _ heven rfl
      (by simp only [List.length_nil]; omega)
    simp only [List.nil_append, List.length_nil, Nat.zero_add] at hloop
    constructor
    · intro hs
      rw [hloop.1 hs]
      rfl
    · intro hs
      rw [hloop.2 hs]
      rfl
  · have hread : readSlot (c :: (t ++ [0])) 0 = .ok c := rfl
    have hput := @put_eq ⟨((c :: t).length + 1) / 2, []⟩ (by simp) (hexToNibble c)
    have hloop := @decodeLoop_eq [c] t ⟨((c :: t).length + 1) / 2, [hexToNibble c]⟩
      (c :: t).length (by rw [List.length_cons] at heven; omega) (by simp; omega)
      (by simp only [List.length_cons, List.length_nil]; omega)
    simp only [List.singleton_append, List.length_singleton] at hloop
    rw [List.cons_append]
    simp only [hread, bind, Except.bind, hput, List.nil_append, allHex_cons]
    by_cases hc : HexDigits.isHex c = true
    · have hff : hexToNibble c ≠ 0xFF := HexDigits.value_ne_ff hc
      rw [if_neg hff, pairBytes, pair_zero]
      constructor
      · rintro ⟨-, hs⟩
        rw [hloop.1 hs]
        rfl
      · intro hs
        rw [hloop.2 fun h => hs ⟨hc, h⟩]
        rfl
    · have hff : hexToNibble c = 0xFF := (HexDigits.value_eq_ff c).mpr (by simpa using hc)
      rw [if_pos hff]
      exact ⟨fun hs => absurd hs.1 hc, fun _ => rfl⟩

/-! ## Round trips -/

theorem pairBytes_encodeText (data : Text) : pairBytes (encodeText data) = data := by
  induction data with
  | nil => rfl
  | cons b data ih =>
    rw [encodeText_cons, HexDigits.digits, List.cons_append, List.cons_append, List.nil_append,
      pairBytes, HexDigits.pair_digits_lower, ih]

theorem encodeText_pairBytes (heven : s.length % 2 = 0) (hs : AllHex s) :
    encodeText (pairBytes s) = s.map HexDigits.lower := by
  fun_induction pairBytes s with
  | case1 a b rest ih =>
    simp only [List.length_cons] at heven
    obtain ⟨ha, hb, hrest⟩ := allHex_cons.mp hs |>.imp_right allHex_cons.mp
    rw [encodeText_cons, HexDigits.digits_pair_lower ha hb, ih (by omega) hrest]
    rfl
  | case2 s hnot =>
    obtain rfl := eq_nil_of_no_pair heven hnot
    rfl

theorem allHex_encodeText (data : Text) : AllHex (encodeText data) := by
  intro c hc
  obtain ⟨b, -, hc⟩ := List.mem_flatMap.mp hc
  simp only [HexDigits.digits, List.mem_cons, List.not_mem_nil, or_false] at hc
  rcases hc with rfl | rfl
  · exact HexDigits.isHex_of_isLower (HexDigits.isLower_digit _)
  · exact HexDigits.isHex_of_isLower (HexDigits.isLower_digit _)

theorem AllHex.zero_notMem (hs : AllHex s) : 0 ∉ s :=
  fun h => HexDigits.ne_zero_of_isHex (hs 0 h) rfl

/-- What the decoder makes of a string of digits: the reported length, the block, and what the
encoder makes of its data. -/
def DecodesTo (s : Text) (block : Text) (n : ℕ) : Prop :=
  zenitHexDecode true (some (s ++ [0])) = .ok (some (block, n)) ∧
    n = zenitHexDecodeLen (some (s ++ [0])) ∧ (s ≠ [] → block.length = n) ∧
    zenitHexEncode true (.inl (block.take n)) =
      .ok (some ((if s.length % 2 = 0 then [] else [48]) ++ s.map HexDigits.lower ++ [0]))

theorem padded_lower (s : Text) : (padded s).map HexDigits.lower =
    (if s.length % 2 = 0 then [] else [48]) ++ s.map HexDigits.lower := by
  rw [padded]
  split_ifs
  · rfl
  · rfl

theorem decodesTo_hex (hlen : s.length + 1 < 2 ^ 64) (hs : AllHex s) :
    ∃ block n, DecodesTo s block n := by
  have hzero := hs.zero_notMem
  rcases eq_or_ne s [] with rfl | hne
  · exact ⟨[0], 0, rfl, rfl, fun h => absurd rfl h, encode_eq (by decide)⟩
  · have hhalf : (pairBytes (padded s)).length = (s.length + 1) / 2 := by
      rw [length_pairBytes, length_padded, Nat.mul_div_cancel_left _ Nat.two_pos]
    refine ⟨pairBytes (padded s), (s.length + 1) / 2, (decode_eq hzero hlen hne).1 hs,
      (decodeLen_eq hzero hlen).symm, fun _ => hhalf, ?_⟩
    have heven : (padded s).length % 2 = 0 := by
      rw [length_padded]
      omega
    rw [List.take_of_length_le hhalf.le, encode_eq (by omega),
      encodeText_pairBytes heven (allHex_padded.mpr hs), padded_lower]

/-- Encoding and decoding gives the data back. A string decodes exactly when it has digits only, and
encoding its data gives the string in lower case, with a zero in front of an odd one. -/
theorem hex_coding :
    (∀ data : Text, 2 * data.length + 1 < 2 ^ 64 → ∃ encoded block,
      zenitHexEncode true (.inl data) = .ok (some encoded) ∧
      zenitHexDecode true (some encoded) = .ok (some (block, data.length)) ∧
      block.take data.length = data) ∧
    ∀ s : Text, 0 ∉ s → s.length + 1 < 2 ^ 64 →
      (zenitHexDecode true (some (s ++ [0])) = .ok none ↔ ∃ c ∈ s, HexDigits.isHex c = false) ∧
      ((∀ c ∈ s, HexDigits.isHex c = true) → ∃ block n, DecodesTo s block n) := by
  constructor
  · intro data hlen
    have hhex := allHex_encodeText data
    have hlength := length_encodeText data
    rcases eq_or_ne data [] with rfl | hne
    · exact ⟨[0], [0], encode_eq (by decide), rfl, rfl⟩
    · have hpos := List.length_pos_iff.mpr hne
      have hsome : encodeText data ≠ [] := by
        rw [← List.length_pos_iff]
        omega
      have hdecode := (decode_eq hhex.zero_notMem (by omega) hsome).1 hhex
      rw [padded, if_pos (by omega), pairBytes_encodeText,
        show ((encodeText data).length + 1) / 2 = data.length by omega] at hdecode
      exact ⟨_, data, encode_eq hlen, hdecode, List.take_length⟩
  · intro s hzero hlen
    refine ⟨⟨fun hnone => ?_, ?_⟩, decodesTo_hex hlen⟩
    · by_contra hno
      have hs : AllHex s := by
        intro c hc
        by_contra hbad
        exact hno ⟨c, hc, by simpa using hbad⟩
      obtain ⟨block, n, hdecode, -⟩ := decodesTo_hex hlen hs
      rw [hnone] at hdecode
      cases hdecode
    · rintro ⟨c, hc, hbad⟩
      refine (decode_eq hzero hlen (List.ne_nil_of_mem hc)).2 fun hs => ?_
      rw [hs c hc] at hbad
      cases hbad

/-- Three digits, one of them in upper case. -/
theorem three_digits_decoded : (∃ block n, DecodesTo [49, 70, 98] block n) ∧
    ∃ encoded block, zenitHexEncode true (.inl [1, 251]) = .ok (some encoded) ∧
      zenitHexDecode true (some encoded) = .ok (some (block, 2)) ∧ block.take 2 = [1, 251] := by
  have hdigits : ∀ c ∈ ([49, 70, 98] : Text), HexDigits.isHex c = true := by
    simp [HexDigits.isHex, HexDigits.isUpper, HexDigits.isLower, HexDigits.isDecimal]
  exact ⟨(hex_coding.2 [49, 70, 98] (by decide) (by decide)).2 hdigits,
    hex_coding.1 [1, 251] (by decide)⟩

end LibZenit.Hex
