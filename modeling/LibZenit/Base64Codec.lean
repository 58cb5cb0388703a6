import LibZenit.Base64Model

/-!
# The encoder and the decoder on lists

The loops, their indices and their blocks are taken out: the encoder turns triples of bytes into
quads of characters, the decoder turns quads into up to three bytes.
-/
namespace LibZenit.Base64
open Blocks CString

/-! ## Lists -/

def quadOf (a b c : UInt8) : Text := [
  encChar (a.toNat >>> 2),
  encChar (a.toNat <<< 4 ||| b.toNat >>> 4),
  encChar (b.toNat <<< 2 ||| c.toNat >>> 6),
  encChar c.toNat]

def encodeText : Text → Text
  | [] => []
  | [a] => [encChar (a.toNat >>> 2), encChar (a.toNat <<< 4), chPad, chPad]
  | [a, b] => [
      encChar (a.toNat >>> 2),
      encChar (a.toNat <<< 4 ||| b.toNat >>> 4),
      encChar (b.toNat <<< 2),
      chPad]
  | a :: b :: c :: rest => quadOf a b c ++ encodeText rest

/-- The number that a quad stands for. -/
def quadTriple (c0 c1 c2 c3 : UInt8) : Option ℕ :=
  if decChar c0 = 0xFF ∨ decChar c1 = 0xFF ∨ (c2 ≠ chPad ∧ decChar c2 = 0xFF) ∨
    (c3 ≠ chPad ∧ decChar c3 = 0xFF) then none
  else
    let triple := decChar c0 <<< 18 ||| decChar c1 <<< 12
    let triple := if c2 ≠ chPad then triple ||| decChar c2 <<< 6 else triple
    some (if c3 ≠ chPad then triple ||| decChar c3 else triple)

/-- The bytes of such a number that the padding leaves. -/
def tripleBytes (c2 c3 : UInt8) (triple : ℕ) : Text :=
  UInt8.ofNat (triple >>> 16) ::
    ((if c2 ≠ chPad then [UInt8.ofNat (triple >>> 8)] else []) ++
      if c3 ≠ chPad then [UInt8.ofNat triple] else [])

def decodeText : Text → Option Text
  | c0 :: c1 :: c2 :: c3 :: rest =>
    (quadTriple c0 c1 c2 c3).bind fun triple =>
      (decodeText rest).map (tripleBytes c2 c3 triple ++ ·)
  | _ => some []

variable {out : Out} {pre rest data s : Text}

/-! ## Encoding -/

theorem length_encodeText (data : Text) :
    (encodeText data).length = (data.length + 2) / 3 * 4 := by
  fun_induction encodeText data with
  | case1 => rfl
  | case2 a => simp
  | case3 a b => simp
  | case4 a b c rest ih =>
    simp only [List.length_append, List.length_cons, ih, quadOf, List.length_nil]
    omega

theorem encodeLoop_step {a b c : UInt8} (hroom : out.bytes.length + 4 ≤ out.cap) :
    encodeLoop (pre ++ a :: b :: c :: rest) pre.length out =
      encodeLoop ((pre ++ [a, b, c]) ++ rest) (pre ++ [a, b, c]).length
        ⟨out.cap, out.bytes ++ quadOf a b c⟩ := by
  have hput := putAll_eq (quadOf a b c) hroom
  have hread0 := readSlot_append pre (a :: b :: c :: rest) (k := 0) rfl
  have hread1 := readSlot_append pre (a :: b :: c :: rest) (k := 1) rfl
  have hread2 := readSlot_append pre (a :: b :: c :: rest) (k := 2) rfl
  rw [Nat.add_zero] at hread0
  rw [quadOf] at hput ⊢
  conv_lhs => rw [encodeLoop]
  rw [if_pos (by simp), hread0, hread1, hread2]
  simp only [bind, Except.bind, hput]
  simp

/-- The loop and what follows it write the encoding of the rest. -/
theorem encode_from (hroom : out.bytes.length + (encodeText rest).length ≤ out.cap) :
    ((encodeLoop (pre ++ rest) pre.length out).bind fun r => encodeTail (pre ++ rest) r.1 r.2) =
      .ok ⟨out.cap, out.bytes ++ encodeText rest⟩ := by
  fun_induction encodeText rest generalizing pre out with
  | case1 =>
    rw [encodeLoop, if_neg (by simp)]
    simp [Except.bind, encodeTail]
  | case2 a =>
    have hread := readSlot_append pre [a] (k := 0) rfl
    rw [Nat.add_zero] at hread
    rw [encodeLoop, if_neg (by simp)]
    simp only [Except.bind, encodeTail, List.length_append, List.length_singleton,
      Nat.add_sub_cancel_left, if_true, hread, bind]
    exact putAll_eq _ hroom
  | case3 a b =>
    have hread0 := readSlot_append pre [a, b] (k := 0) rfl
    have hread1 := readSlot_append pre [a, b] (k := 1) rfl
    rw [Nat.add_zero] at hread0
    rw [encodeLoop, if_neg (by simp)]
    simp only [Except.bind, encodeTail, List.length_append, List.length_cons, List.length_nil,
      Nat.add_sub_cancel_left, hread0, hread1, bind]
    exact putAll_eq _ hroom
  | case4 a b c rest ih =>
    have hquad : (quadOf a b c).length = 4 := rfl
    rw [List.length_append, hquad] at hroom
    have hrest := @ih ⟨out.cap, out.bytes ++ quadOf a b c⟩ (pre ++ [a, b, c])
      (by simp only [List.length_append, hquad]; omega)
    rw [encodeLoop_step (by omega)]
    simp only [List.append_assoc, List.cons_append, List.nil_append] at hrest ⊢
    exact hrest

theorem encode_eq (hlen : (data.length + 2) / 3 * 4 + 1 < 2 ^ 64) :
    zenitBase64Encode true (.inl data) = .ok (some (encodeText data ++ [0])) ∧
      (encodeText data ++ [0]).length = zenitBase64EncodeLen data.length := by
  have hsum : wrap (data.length + 2) = data.length + 2 := wrap_of_lt (by omega)
  have hquads : wrap ((data.length + 2) / 3 * 4) = (data.length + 2) / 3 * 4 :=
    wrap_of_lt (by omega)
  have hcap : zenitBase64EncodeLen data.length = (encodeText data).length + 1 := by
    rw [zenitBase64EncodeLen, length_encodeText, hsum, hquads, wrap_of_lt hlen]
  refine ⟨?_, by simp [hcap]⟩
  have hfrom := @encode_from ⟨zenitBase64EncodeLen data.length, []⟩ [] data (by simp [hcap])
  have hnul := @put_eq ⟨zenitBase64EncodeLen data.length, [] ++ encodeText data⟩ (by simp [hcap]) 0
  simp only [List.nil_append, List.length_nil] at hfrom hnul
  rw [zenitBase64Encode, zenitBase64Encode.encode]
  simp only [Bool.not_true, Bool.false_eq_true, if_false]
  cases hloop : encodeLoop data 0 ⟨zenitBase64EncodeLen data.length, []⟩ with
  | error e =>
    rw [hloop] at hfrom
    cases hfrom
  | ok r =>
    rw [hloop] at hfrom
    simp only [Except.bind] at hfrom
    simp only [bind, Except.bind, hfrom, hnul]
    rfl

/-! ## Decoding -/

theorem decodeQuad_eq {c0 c1 c2 c3 : UInt8} (pre rest : Text) :
    decodeQuad (pre ++ c0 :: c1 :: c2 :: c3 :: rest) pre.length =
      .ok (quadTriple c0 c1 c2 c3) := by
  have hread0 := readSlot_append pre (c0 :: c1 :: c2 :: c3 :: rest) (k := 0) rfl
  have hread1 := readSlot_append pre (c0 :: c1 :: c2 :: c3 :: rest) (k := 1) rfl
  have hread2 := readSlot_append pre (c0 :: c1 :: c2 :: c3 :: rest) (k := 2) rfl
  have hread3 := readSlot_append pre (c0 :: c1 :: c2 :: c3 :: rest) (k := 3) rfl
  rw [Nat.add_zero] at hread0
  rw [decodeQuad, hread0, hread1, hread2, hread3]
  simp only [bind, Except.bind, pure, Except.pure, quadTriple]
  split_ifs <;> first | rfl | simp_all

theorem length_tripleBytes (c2 c3 : UInt8) (triple : ℕ) :
    (tripleBytes c2 c3 triple).length ≤ 3 := by
  unfold tripleBytes
  split_ifs <;> simp

theorem decodeLoop_step {c0 c1 c2 c3 : UInt8} {triple len : ℕ} (hlen : pre.length < len)
    (htriple : quadTriple c0 c1 c2 c3 = some triple) (hroom : out.bytes.length + 3 ≤ out.cap) :
    decodeLoop (pre ++ c0 :: c1 :: c2 :: c3 :: rest) len pre.length out =
      decodeLoop ((pre ++ [c0, c1, c2, c3]) ++ rest) len (pre ++ [c0, c1, c2, c3]).length
        ⟨out.cap, out.bytes ++ tripleBytes c2 c3 triple⟩ := by
  have hread2 := readSlot_append pre (c0 :: c1 :: c2 :: c3 :: rest) (k := 2) rfl
  have hread3 := readSlot_append pre (c0 :: c1 :: c2 :: c3 :: rest) (k := 3) rfl
  conv_lhs => rw [decodeLoop]
  rw [if_pos hlen, decodeQuad_eq, htriple, hread2, hread3]
  simp only [bind, Except.bind, pure, Except.pure, put_eq (by omega : out.bytes.length < out.cap)]
  -- which of the last two bytes are there
  have hroom1 : out.bytes.length + 1 < out.cap := by omega
  have hroom2 : out.bytes.length + 2 < out.cap := by omega
  by_cases h2 : c2 = chPad
  · by_cases h3 : c3 = chPad
    · simp [h2, h3, tripleBytes]
    · simp [h2, h3, tripleBytes, Out.put, hroom1]
  · by_cases h3 : c3 = chPad
    · simp [h2, h3, tripleBytes, Out.put, hroom1]
    · simp [h2, h3, tripleBytes, Out.put, hroom1, hroom2]

theorem eq_nil_of_no_quad (hquads : rest.length % 4 = 0)
    (hshort : ∀ c0 c1 c2 c3 tail, rest = c0 :: c1 :: c2 :: c3 :: tail → False) : rest = [] := by
  match rest, hshort with
  | [], _ => rfl
  | [_], _ => simp at hquads
  | [_, _], _ => simp at hquads
  | [_, _, _], _ => simp at hquads
  | c0 :: c1 :: c2 :: c3 :: tail, h => exact absurd rfl (h c0 c1 c2 c3 tail)

/-- The loop writes the decoding of the rest of the string, or finds it invalid. -/
theorem decode_from {tail : Text} (hquads : rest.length % 4 = 0)
    (hroom : out.bytes.length + rest.length / 4 * 3 ≤ out.cap) :
    decodeLoop (pre ++ (rest ++ tail)) (pre.length + rest.length) pre.length out =
      .ok ((decodeText rest).map fun bytes => ⟨out.cap, out.bytes ++ bytes⟩) := by
  fun_induction decodeText rest generalizing pre out with
  | case1 c0 c1 c2 c3 rest ih =>
    simp only [List.length_cons] at hquads hroom
    cases htriple : quadTriple c0 c1 c2 c3 with
    | none =>
      rw [decodeLoop, if_pos (by simp), List.cons_append, List.cons_append, List.cons_append,
        List.cons_append, decodeQuad_eq, htriple]
      rfl
    | some triple =>
      have hbytes := length_tripleBytes c2 c3 triple
      have hrest := @ih ⟨out.cap, out.bytes ++ tripleBytes c2 c3 triple⟩ (pre ++ [c0, c1, c2, c3])
        (by omega) (by simp only [List.length_append]; omega)
      simp only [List.cons_append]
      rw [decodeLoop_step (by simp) htriple (by omega)]
      simp only [List.length_append, List.length_cons, List.length_nil] at hrest ⊢
      rw [show pre.length + (rest.length + 1 + 1 + 1 + 1) =
        pre.length + (0 + 1 + 1 + 1 + 1) + rest.length by omega, hrest]
      cases decodeText rest <;> simp
  | case2 rest hshort =>
    have hnil := eq_nil_of_no_quad hquads hshort
    subst hnil
    rw [decodeLoop, if_neg (by simp)]
    simp [pure, Except.pure]

/-- The decoder keeps to the string and to its block, whatever the string is. -/
theorem decode_eq (hs : 0 ∉ s) :
    zenitBase64Decode true (some (s ++ [0])) =
      .ok (if s = [] ∨ s.length % 4 ≠ 0 then none else decodeText s) := by
  have hcond : (s.length < 4 ∨ s.length % 4 ≠ 0) ↔ (s = [] ∨ s.length % 4 ≠ 0) := by
    rw [← List.length_eq_zero_iff]
    omega
  simp only [zenitBase64Decode, zenitBase64DecodeLen, Option.elim_some, strlen_eq hs, hcond]
  by_cases hbad : s = [] ∨ s.length % 4 ≠ 0
  · rw [if_pos hbad, if_pos hbad]
  · have hquads : s.length % 4 = 0 := by
      by_contra hno
      exact hbad (.inr hno)
    have hfrom := @decode_from ⟨s.length / 4 * 3, []⟩ [] s [0] hquads (by simp)
    rw [List.nil_append, List.length_nil, Nat.zero_add] at hfrom
    rw [if_neg hbad, if_neg (by decide), hfrom, if_neg hbad]
    cases decodeText s <;> rfl

theorem length_decodeText (s : Text) {bytes : Text} (h : decodeText s = some bytes) :
    bytes.length ≤ s.length / 4 * 3 := by
  fun_induction decodeText s generalizing bytes with
  | case1 c0 c1 c2 c3 rest ih =>
    obtain ⟨triple, -, h⟩ := Option.bind_eq_some_iff.mp h
    obtain ⟨tail, htail, rfl⟩ := Option.map_eq_some_iff.mp h
    have hrest := ih htail
    have hfirst := length_tripleBytes c2 c3 triple
    simp only [List.length_append, List.length_cons]
    omega
  | case2 rest =>
    cases h
    simp

end LibZenit.Base64
