import LibZenit.UriModel

/-!
# Encoding and decoding percent-coded text

A text is cut from the left into pieces of one character or of a percent sign and two digits. The
encoder writes one piece per byte, and the decoder one byte per piece.
-/
namespace LibZenit.Uri
open Blocks CString

inductive Piece where
  | plain (c : UInt8)
  | plus
  | triple (hi lo : UInt8)
  deriving DecidableEq, Repr

def Piece.text : Piece → Text
  | .plain c => [c]
  | .plus => [chPlus]
  | .triple hi lo => [chPercent, hi, lo]

/-- The byte that a piece stands for. -/
def Piece.byte : Piece → UInt8
  | .plain c => c
  | .plus => chSpace
  | .triple hi lo => HexDigits.pair hi lo

def Piece.WellFormed : Piece → Prop
  | .plain c => c ≠ chPlus ∧ c ≠ chPercent
  | .plus => True
  | .triple hi lo => HexDigits.isHex hi = true ∧ HexDigits.isHex lo = true

/-- An unreserved character, or a triple in upper case. -/
def Piece.Canonical : Piece → Prop
  | .plain c => isUnreserved c = true
  | .plus => False
  | .triple hi lo => HexDigits.isUpper hi = true ∧ HexDigits.isUpper lo = true

def textOf (ps : List Piece) : Text := ps.flatMap Piece.text

/-- The text goes on with two digits. -/
def TwoDigits (s : Text) : Prop :=
  ∃ hi lo rest, s = hi :: lo :: rest ∧ HexDigits.isHex hi = true ∧ HexDigits.isHex lo = true

/-- The scan from the left meets a percent sign without two digits behind it. -/
def BadEscape (s : Text) : Prop :=
  ∃ ps rest, (∀ p ∈ ps, p.WellFormed) ∧ s = textOf ps ++ chPercent :: rest ∧ ¬TwoDigits rest

variable {pre rest s : Text} {out : Out} {len : ℕ} {p : Piece} {ps : List Piece}

theorem textOf_cons (p : Piece) (ps : List Piece) : textOf (p :: ps) = p.text ++ textOf ps :=
  List.flatMap_cons

theorem Piece.text_length (p : Piece) : 0 < p.text.length ∧ p.text.length ≤ 3 := by
  cases p <;> simp [Piece.text]

theorem length_le_textOf (ps : List Piece) : ps.length ≤ (textOf ps).length := by
  induction ps with
  | nil => exact Nat.le_refl 0
  | cons p ps ih =>
    have hp := p.text_length
    rw [textOf_cons, List.length_append, List.length_cons]
    omega

/-! ## The decoder on pieces -/

/-- One round of the loop reads one piece. -/
theorem decodeLoop_piece (rest : Text) (hp : p.WellFormed) (hroom : out.bytes.length < out.cap)
    (hlen : pre.length + p.text.length ≤ len) :
    decodeLoop (pre ++ (p.text ++ rest)) len pre.length out =
      decodeLoop (pre ++ (p.text ++ rest)) len (pre.length + p.text.length)
        ⟨out.cap, out.bytes ++ [p.byte]⟩ := by
  have hpos := p.text_length
  rw [decodeLoop, if_pos (by omega)]
  cases p with
  | plain c =>
    have hread : readSlot (pre ++ ([c] ++ rest)) pre.length = .ok c :=
      readSlot_append pre _ (k := 0) rfl
    obtain ⟨hplus, hpercent⟩ := hp
    simp only [Piece.text, hread, bind, Except.bind, if_neg hplus, if_neg hpercent,
      put_eq hroom, Piece.byte, List.length_singleton]
  | plus =>
    have hread : readSlot (pre ++ ([chPlus] ++ rest)) pre.length = .ok chPlus :=
      readSlot_append pre _ (k := 0) rfl
    simp only [Piece.text, hread, bind, Except.bind, if_true, put_eq hroom, Piece.byte,
      List.length_singleton]
  | triple hi lo =>
    have hread (k : ℕ) {c : UInt8} (hk : [chPercent, hi, lo][k]? = some c) :
        readSlot (pre ++ ([chPercent, hi, lo] ++ rest)) (pre.length + k) = .ok c := by
      have hlt : k < [chPercent, hi, lo].length := (List.getElem?_eq_some_iff.mp hk).1
      refine readSlot_append pre _ ?_
      rw [List.getElem?_append_left hlt, hk]
    have hzero : readSlot (pre ++ ([chPercent, hi, lo] ++ rest)) pre.length = .ok chPercent :=
      hread 0 rfl
    have hshort : ¬pre.length + 2 ≥ len := by
      simp only [Piece.text, List.length_cons, List.length_nil] at hlen
      omega
    have hvalid : ¬(HexDigits.value hi = 0xFF ∨ HexDigits.value lo = 0xFF) := by
      rw [not_or]
      exact ⟨HexDigits.value_ne_ff hp.1, HexDigits.value_ne_ff hp.2⟩
    simp only [Piece.text, hzero, hread 1 rfl, hread 2 rfl, bind, Except.bind, if_true,
      if_neg hshort, hexVal, if_neg hvalid, put_eq hroom, Piece.byte, HexDigits.pair,
      show chPercent ≠ chPlus by decide, if_false, List.length_cons, List.length_nil]

theorem decodeLoop_pieces (hps : ∀ p ∈ ps, p.WellFormed)
    (hroom : out.bytes.length + ps.length ≤ out.cap)
    (hlen : pre.length + (textOf ps).length ≤ len) :
    decodeLoop (pre ++ (textOf ps ++ rest)) len pre.length out =
      decodeLoop (pre ++ (textOf ps ++ rest)) len (pre.length + (textOf ps).length)
        ⟨out.cap, out.bytes ++ ps.map Piece.byte⟩ := by
  induction ps generalizing pre out with
  | nil => simp [textOf]
  | cons p ps ih =>
    rw [textOf_cons, List.length_append] at hlen
    rw [List.length_cons] at hroom
    have hstep := decodeLoop_piece (textOf ps ++ rest) (hps p List.mem_cons_self)
      (by omega : out.bytes.length < out.cap) (by omega : pre.length + p.text.length ≤ len)
    have hrest := @ih (pre ++ p.text) ⟨out.cap, out.bytes ++ [p.byte]⟩
      (fun q hq => hps q (List.mem_cons_of_mem _ hq)) (by simp; omega) (by simp; omega)
    simp only [List.append_assoc, List.length_append, List.singleton_append] at hstep hrest
    rw [textOf_cons, List.append_assoc, hstep, hrest, List.length_append, Nat.add_assoc,
      List.map_cons]

/-- At a percent sign without two digits the loop gives up. -/
theorem decodeLoop_bad (hbad : ¬TwoDigits rest) (hlen : len = pre.length + 1 + rest.length) :
    decodeLoop (pre ++ (chPercent :: rest ++ [0])) len pre.length out = .ok none := by
  have hread : readSlot (pre ++ (chPercent :: rest ++ [0])) pre.length = .ok chPercent :=
    readSlot_append pre _ (k := 0) rfl
  rw [decodeLoop, if_pos (by omega)]
  simp only [hread, bind, Except.bind, show chPercent ≠ chPlus by decide, if_false, if_true]
  match rest, hbad, hlen with
  | [], _, hlen =>
    rw [if_pos (by simp at hlen; omega)]
    rfl
  | [hi], _, hlen =>
    rw [if_pos (by simp at hlen; omega)]
    rfl
  | hi :: lo :: rest, hbad, hlen =>
    have hone : readSlot (pre ++ (chPercent :: (hi :: lo :: rest) ++ [0])) (pre.length + 1) =
        .ok hi := readSlot_append pre _ rfl
    have htwo : readSlot (pre ++ (chPercent :: (hi :: lo :: rest) ++ [0])) (pre.length + 2) =
        .ok lo := readSlot_append pre _ rfl
    have hinvalid : hexVal hi = 0xFF ∨ hexVal lo = 0xFF := by
      by_contra hvalid
      obtain ⟨hhi, hlo⟩ := not_or.mp hvalid
      rw [hexVal, HexDigits.value_eq_ff, Bool.not_eq_false] at hhi hlo
      exact hbad ⟨hi, lo, rest, rfl, hhi, hlo⟩
    simp only [List.length_cons] at hlen
    rw [if_neg (by omega), hone, htwo]
    simp only [if_pos hinvalid]
    rfl

/-- Every text is cut into pieces or has a bad escape. -/
theorem pieces_or_badEscape (s : Text) :
    (∃ ps : List Piece, (∀ p ∈ ps, p.WellFormed) ∧ s = textOf ps) ∨ BadEscape s := by
  induction hn : s.length using Nat.strong_induction_on generalizing s with
  | _ n ih =>
    -- a well-formed piece in front reduces the text to what is behind it
    have hfront : ∀ (p : Piece) (t : Text), p.WellFormed → s = p.text ++ t →
        (∃ ps : List Piece, (∀ p ∈ ps, p.WellFormed) ∧ s = textOf ps) ∨ BadEscape s := by
      intro p t hp hs
      have hpos := p.text_length
      have hlt : t.length < n := by
        rw [← hn, hs, List.length_append]
        omega
      have hcons : ∀ qs : List Piece, (∀ q ∈ qs, q.WellFormed) →
          ∀ q ∈ p :: qs, q.WellFormed := by
        intro qs hqs q hq
        rcases List.mem_cons.mp hq with rfl | hq
        · exact hp
        · exact hqs q hq
      rcases ih t.length hlt t rfl with ⟨ps, hps, ht⟩ | ⟨ps, rest, hps, ht, hbad⟩
      · exact Or.inl ⟨p :: ps, hcons ps hps, by rw [hs, textOf_cons, ht]⟩
      · exact Or.inr ⟨p :: ps, rest, hcons ps hps, by rw [hs, textOf_cons, ht, List.append_assoc],
          hbad⟩
    cases s with
    | nil => exact Or.inl ⟨[], by simp, rfl⟩
    | cons c t =>
      by_cases hplus : c = chPlus
      · exact hfront .plus t trivial (by rw [hplus]; rfl)
      by_cases hpercent : c = chPercent
      · by_cases htwo : TwoDigits t
        · obtain ⟨hi, lo, rest, rfl, hhi, hlo⟩ := htwo
          exact hfront (.triple hi lo) rest ⟨hhi, hlo⟩ (by rw [hpercent]; rfl)
        · exact Or.inr ⟨[], t, by simp, by rw [hpercent]; rfl, htwo⟩
      · exact hfront (.plain c) t ⟨hplus, hpercent⟩ rfl

theorem decode_pieces (hps : ∀ p ∈ ps, p.WellFormed) (hzero : 0 ∉ textOf ps)
    (hlen : (textOf ps).length + 1 < 2 ^ 64) :
    zenitUriDecode true (some (textOf ps ++ [0])) = .ok (some (ps.map Piece.byte ++ [0])) := by
  have hcount := length_le_textOf ps
  have hloop := @decodeLoop_pieces [] [0] ⟨wrap ((textOf ps).length + 1), []⟩ (textOf ps).length ps
    hps (by rw [wrap, Nat.mod_eq_of_lt hlen]; simp; omega) (by simp)
  simp only [List.nil_append, List.length_nil, Nat.zero_add] at hloop
  have hend : ∀ out : Out, decodeLoop (textOf ps ++ [0]) (textOf ps).length (textOf ps).length out =
      .ok (some out) := by
    intro out
    rw [decodeLoop, if_neg (lt_irrefl _)]
    rfl
  have hput := @put_eq ⟨wrap ((textOf ps).length + 1), ps.map Piece.byte⟩
    (by rw [wrap, Nat.mod_eq_of_lt hlen]; simp; omega) 0
  simp only [zenitUriDecode, strlen_eq hzero, Bool.not_true, Bool.false_eq_true, if_false, hloop,
    hend, bind, Except.bind, hput]
  rfl

theorem decode_bad (hzero : 0 ∉ s) (hlen : s.length + 1 < 2 ^ 64) (hbad : BadEscape s) :
    zenitUriDecode true (some (s ++ [0])) = .ok none := by
  obtain ⟨ps, rest, hps, rfl, hdigits⟩ := hbad
  have hcount := length_le_textOf ps
  have hlength :
      (textOf ps ++ chPercent :: rest).length = (textOf ps).length + 1 + rest.length := by
    rw [List.length_append, List.length_cons]
    omega
  rw [hlength] at hlen
  have hcap : wrap ((textOf ps).length + 1 + rest.length + 1) =
      (textOf ps).length + 1 + rest.length + 1 := Nat.mod_eq_of_lt hlen
  have hloop := @decodeLoop_pieces [] (chPercent :: rest ++ [0])
    ⟨(textOf ps).length + 1 + rest.length + 1, []⟩ ((textOf ps).length + 1 + rest.length)
    ps hps (by simp; omega) (by simp; omega)
  have hstop := @decodeLoop_bad (textOf ps) rest
    ⟨(textOf ps).length + 1 + rest.length + 1, ps.map Piece.byte⟩ _ hdigits rfl
  simp only [List.nil_append, List.length_nil, Nat.zero_add] at hloop
  rw [← List.append_assoc] at hloop hstop
  simp only [zenitUriDecode, strlen_eq hzero, Bool.not_true, Bool.false_eq_true, if_false, hlength,
    hcap, hloop, hstop, bind, Except.bind]
  rfl

/-! ## The encoder -/

/-- What the encoder writes for a byte. -/
def encodePiece (c : UInt8) : Piece :=
  if isUnreserved c then .plain c else .triple (hexDigit (c >>> 4)) (hexDigit (c &&& 0x0F))

theorem encodePiece_byte (c : UInt8) : (encodePiece c).byte = c := by
  unfold encodePiece
  split_ifs
  · rfl
  · exact HexDigits.pair_digits_upper c

theorem encodePiece_canonical (c : UInt8) : (encodePiece c).Canonical := by
  unfold encodePiece
  split_ifs with hc
  · exact hc
  · exact ⟨HexDigits.isUpper_digit _, HexDigits.isUpper_digit _⟩

theorem Piece.Canonical.wellFormed (h : p.Canonical) : p.WellFormed := by
  cases p with
  | plain c =>
    constructor
    · rintro rfl
      cases h
    · rintro rfl
      cases h
  | plus => exact trivial
  | triple hi lo => exact ⟨HexDigits.isHex_of_isUpper h.1, HexDigits.isHex_of_isUpper h.2⟩

theorem Piece.Canonical.zero_notMem (h : p.Canonical) : 0 ∉ p.text := by
  cases p with
  | plain c =>
    rw [Piece.text, List.mem_singleton]
    rintro rfl
    cases h
  | plus => exact h.elim
  | triple hi lo =>
    have hhi := HexDigits.ne_zero_of_isHex (HexDigits.isHex_of_isUpper h.1)
    have hlo := HexDigits.ne_zero_of_isHex (HexDigits.isHex_of_isUpper h.2)
    simp only [Piece.text, List.mem_cons, List.not_mem_nil, or_false, not_or]
    exact ⟨by decide, hhi.symm, hlo.symm⟩

theorem textOf_length_le (ps : List Piece) : (textOf ps).length ≤ 3 * ps.length := by
  induction ps with
  | nil => exact Nat.le_refl 0
  | cons p ps ih =>
    have hp := p.text_length
    rw [textOf_cons, List.length_append, List.length_cons]
    omega

theorem encodeLoop_eq (hroom : out.bytes.length + 3 * s.length ≤ out.cap)
    (hlen : len = pre.length + s.length) :
    encodeLoop (pre ++ (s ++ [0])) len pre.length out =
      .ok ⟨out.cap, out.bytes ++ textOf (s.map encodePiece)⟩ := by
  induction s generalizing pre out with
  | nil =>
    rw [encodeLoop, if_neg (by simp at hlen; omega)]
    simp [textOf]
  | cons c s ih =>
    rw [List.length_cons] at hroom hlen
    have hread : readSlot (pre ++ (c :: s ++ [0])) pre.length = .ok c :=
      readSlot_append pre _ (k := 0) rfl
    have hpiece := (encodePiece c).text_length
    have hrest := @ih (pre ++ [c]) ⟨out.cap, out.bytes ++ (encodePiece c).text⟩
      (by simp only [List.length_append]; omega)
      (by rw [List.length_append, List.length_singleton]; omega)
    simp only [List.append_assoc, List.length_append, List.length_singleton,
      List.singleton_append] at hrest
    rw [List.map_cons, textOf_cons, ← hrest, encodeLoop, if_pos (by omega), encodePiece]
    simp only [hread, bind, Except.bind]
    split_ifs
    · rw [put_eq (by omega) c]
      rfl
    · rw [putAll_eq _ (by simp only [List.length_cons, List.length_nil]; omega)]
      rfl

theorem encode_eq (hzero : 0 ∉ s) (hlen : 3 * s.length + 1 < 2 ^ 64) :
    zenitUriEncode true (some (s ++ [0])) = .ok (some (textOf (s.map encodePiece) ++ [0])) := by
  have hcap : wrap (wrap (s.length * 3) + 1) = 3 * s.length + 1 := by
    unfold wrap
    omega
  have hle := textOf_length_le (s.map encodePiece)
  rw [List.length_map] at hle
  have hloop := @encodeLoop_eq [] s ⟨3 * s.length + 1, []⟩ s.length (by simp) (by simp)
  have hput := @put_eq ⟨3 * s.length + 1, textOf (s.map encodePiece)⟩ (by simp only; omega) 0
  simp only [List.nil_append, List.length_nil] at hloop
  simp only [zenitUriEncode, strlen_eq hzero, Bool.not_true, Bool.false_eq_true, if_false, hcap,
    hloop, bind, Except.bind, hput]
  rfl

/-- The encoder writes unreserved characters and triples in upper case, and the decoder gives the
string back. A decoder returns nothing exactly at a bad escape, and otherwise a byte per piece. -/
theorem uri_percent_coding :
    (∀ s : Text, 0 ∉ s → 3 * s.length + 1 < 2 ^ 64 → ∃ ps : List Piece,
      zenitUriEncode true (some (s ++ [0])) = .ok (some (textOf ps ++ [0])) ∧
      (∀ p ∈ ps, p.Canonical) ∧ (textOf ps ++ [0]).length ≤ 3 * s.length + 1 ∧
      zenitUriDecode true (some (textOf ps ++ [0])) = .ok (some (s ++ [0]))) ∧
    ∀ s : Text, 0 ∉ s → s.length + 1 < 2 ^ 64 →
      (zenitUriDecode true (some (s ++ [0])) = .ok none ↔ BadEscape s) ∧
      (¬BadEscape s → ∃ ps : List Piece, (∀ p ∈ ps, p.WellFormed) ∧ s = textOf ps ∧
        zenitUriDecode true (some (s ++ [0])) = .ok (some (ps.map Piece.byte ++ [0]))) := by
  constructor
  · intro s hzero hlen
    have hcanonical : ∀ p ∈ s.map encodePiece, p.Canonical := by
      intro p hp
      obtain ⟨c, -, rfl⟩ := List.mem_map.mp hp
      exact encodePiece_canonical c
    have hnozero : 0 ∉ textOf (s.map encodePiece) := by
      intro hmem
      obtain ⟨p, hp, hin⟩ := List.mem_flatMap.mp hmem
      exact (hcanonical p hp).zero_notMem hin
    have hle := textOf_length_le (s.map encodePiece)
    rw [List.length_map] at hle
    have hbytes : (s.map encodePiece).map Piece.byte = s := by
      rw [List.map_map]
      exact (List.map_congr_left fun c _ => encodePiece_byte c).trans (List.map_id s)
    have hdecode := decode_pieces (fun p hp => (hcanonical p hp).wellFormed) hnozero (by omega)
    rw [hbytes] at hdecode
    refine ⟨s.map encodePiece, encode_eq hzero hlen, hcanonical, ?_, hdecode⟩
    rw [List.length_append, List.length_singleton]
    omega
  · intro s hzero hlen
    have hgood : ¬BadEscape s → ∃ ps : List Piece, (∀ p ∈ ps, p.WellFormed) ∧ s = textOf ps ∧
        zenitUriDecode true (some (s ++ [0])) = .ok (some (ps.map Piece.byte ++ [0])) := by
      intro hnot
      obtain ⟨ps, hps, rfl⟩ := (pieces_or_badEscape s).resolve_right hnot
      exact ⟨ps, hps, rfl, decode_pieces hps hzero hlen⟩
    refine ⟨⟨fun hnone => ?_, decode_bad hzero hlen⟩, hgood⟩
    by_contra hnot
    obtain ⟨ps, -, -, hsome⟩ := hgood hnot
    rw [hnone] at hsome
    cases hsome

/-- A space between two letters, and a plus sign there. -/
theorem space_percent_coded :
    (∃ ps : List Piece,
      zenitUriEncode true (some [97, 32, 98, 0]) = .ok (some (textOf ps ++ [0])) ∧
      zenitUriDecode true (some (textOf ps ++ [0])) = .ok (some [97, 32, 98, 0])) ∧
    ∃ ps : List Piece, [97, 43, 98] = textOf ps ∧
      zenitUriDecode true (some [97, 43, 98, 0]) = .ok (some (ps.map Piece.byte ++ [0])) := by
  have hnot : ¬BadEscape [97, 43, 98] := by
    rintro ⟨ps, rest, -, hs, -⟩
    have hmem : chPercent ∈ ([97, 43, 98] : Text) := by
      rw [hs]
      simp
    exact absurd hmem (by decide)
  obtain ⟨ps, hencode, -, -, hdecode⟩ := uri_percent_coding.1 [97, 32, 98] (by decide) (by decide)
  obtain ⟨qs, -, htext, hplus⟩ := (uri_percent_coding.2 [97, 43, 98] (by decide) (by decide)).2 hnot
  exact ⟨⟨ps, hencode, hdecode⟩, qs, htext, hplus⟩

end LibZenit.Uri
