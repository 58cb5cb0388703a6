import LibZenit.Base64Codec

/-!
# Decoding what has been encoded

The characters of a quad carry six bits each. Put together they are the three bytes as one number,
the bits that a padded quad does not carry being zero.
-/
namespace LibZenit.Base64
open Blocks CString

/-! ## Bits as numbers -/

theorem or_eq_add {x y k : ℕ} (hx : 2 ^ k ∣ x) (hy : y < 2 ^ k) : x ||| y = x + y := by
  obtain ⟨q, rfl⟩ := hx
  rw [mul_comm, ← Nat.shiftLeft_eq, Nat.shiftLeft_add_eq_or_of_lt hy]

theorem table_inverse : ∀ k < 64, decChar (encTable.getD k 0) = k ∧
    encTable.getD k 0 ≠ chPad ∧ encTable.getD k 0 ≠ 0 := by decide

theorem encChar_eq (n : ℕ) : encChar n = encTable.getD (n % 64) 0 := by
  rw [encChar, show (0x3F : ℕ) = 2 ^ 6 - 1 by norm_num, Nat.and_two_pow_sub_one_eq_mod]

theorem decChar_encChar (n : ℕ) : decChar (encChar n) = n % 64 := by
  rw [encChar_eq]
  exact (table_inverse (n % 64) (Nat.mod_lt n (by norm_num))).1

theorem encChar_ne_pad (n : ℕ) : encChar n ≠ chPad := by
  rw [encChar_eq]
  exact (table_inverse (n % 64) (Nat.mod_lt n (by norm_num))).2.1

theorem encChar_ne_zero (n : ℕ) : encChar n ≠ 0 := by
  rw [encChar_eq]
  exact (table_inverse (n % 64) (Nat.mod_lt n (by norm_num))).2.2

theorem join_four (x : ℕ) {y : ℕ} (hy : y < 256) : x <<< 4 ||| y >>> 4 = x * 16 + y / 16 := by
  rw [Nat.shiftLeft_eq, Nat.shiftRight_eq_div_pow]
  exact or_eq_add (Dvd.intro_left x rfl) (by omega)

theorem join_two (x : ℕ) {y : ℕ} (hy : y < 256) : x <<< 2 ||| y >>> 6 = x * 4 + y / 64 := by
  rw [Nat.shiftLeft_eq, Nat.shiftRight_eq_div_pow]
  exact or_eq_add (Dvd.intro_left x rfl) (by omega)

theorem join_high {d0 d1 : ℕ} (h1 : d1 < 64) :
    d0 <<< 18 ||| d1 <<< 12 = d0 * 2 ^ 18 + d1 * 2 ^ 12 := by
  rw [Nat.shiftLeft_eq, Nat.shiftLeft_eq]
  exact or_eq_add (Dvd.intro_left d0 rfl) (by omega)

theorem join_third {d0 d1 d2 : ℕ} (h1 : d1 < 64) (h2 : d2 < 64) :
    d0 <<< 18 ||| d1 <<< 12 ||| d2 <<< 6 = d0 * 2 ^ 18 + d1 * 2 ^ 12 + d2 * 2 ^ 6 := by
  rw [join_high h1, Nat.shiftLeft_eq]
  exact or_eq_add (k := 12) (by omega) (by omega)

theorem join_fourth {d0 d1 d2 d3 : ℕ} (h1 : d1 < 64) (h2 : d2 < 64) (h3 : d3 < 64) :
    d0 <<< 18 ||| d1 <<< 12 ||| d2 <<< 6 ||| d3 =
      d0 * 2 ^ 18 + d1 * 2 ^ 12 + d2 * 2 ^ 6 + d3 := by
  rw [join_third h1 h2]
  exact or_eq_add (k := 6) (by omega) (by omega)

/-! ## Quads -/

theorem mod_ne_ff (n : ℕ) : n % 64 ≠ 0xFF := by omega

theorem mod_lt_64 (n : ℕ) : n % 64 < 64 := Nat.mod_lt n (by norm_num)

theorem byte_eq {n : ℕ} {a : UInt8} (h : n % 256 = a.toNat) : UInt8.ofNat n = a := by
  rw [← UInt8.toNat_inj, UInt8.toNat_ofNat', ← h]

/-- Three bytes as one number. -/
def tripleOf (a b c : UInt8) : ℕ := a.toNat * 2 ^ 16 + b.toNat * 2 ^ 8 + c.toNat

theorem tripleOf_high (a b c : UInt8) : UInt8.ofNat (tripleOf a b c >>> 16) = a := by
  have hb := b.toNat_lt
  have hc := c.toNat_lt
  refine byte_eq ?_
  rw [Nat.shiftRight_eq_div_pow, tripleOf]
  have ha := a.toNat_lt
  omega

theorem tripleOf_middle (a b c : UInt8) : UInt8.ofNat (tripleOf a b c >>> 8) = b := by
  have hb := b.toNat_lt
  have hc := c.toNat_lt
  refine byte_eq ?_
  rw [Nat.shiftRight_eq_div_pow, tripleOf]
  omega

theorem tripleOf_low (a b c : UInt8) : UInt8.ofNat (tripleOf a b c) = c := by
  have hc := c.toNat_lt
  refine byte_eq ?_
  rw [tripleOf]
  omega

theorem quadTriple_three (a b c : UInt8) :
    quadTriple (encChar (a.toNat >>> 2)) (encChar (a.toNat <<< 4 ||| b.toNat >>> 4))
        (encChar (b.toNat <<< 2 ||| c.toNat >>> 6)) (encChar c.toNat) = some (tripleOf a b c) := by
  have ha := a.toNat_lt
  have hb := b.toNat_lt
  have hc := c.toNat_lt
  simp only [quadTriple, decChar_encChar, mod_ne_ff, encChar_ne_pad, false_or, and_false,
    if_false, ne_eq, not_false_eq_true, if_true]
  rw [join_fourth (mod_lt_64 _) (mod_lt_64 _) (mod_lt_64 _), join_four _ hb, join_two _ hc,
    Nat.shiftRight_eq_div_pow, tripleOf]
  refine congrArg some ?_
  omega

theorem quadTriple_two (a b : UInt8) :
    quadTriple (encChar (a.toNat >>> 2)) (encChar (a.toNat <<< 4 ||| b.toNat >>> 4))
        (encChar (b.toNat <<< 2)) chPad = some (tripleOf a b 0) := by
  have ha := a.toNat_lt
  have hb := b.toNat_lt
  simp only [quadTriple, decChar_encChar, mod_ne_ff, encChar_ne_pad, false_or, and_false,
    if_false, ne_eq, not_false_eq_true, if_true, not_true_eq_false, false_and]
  rw [join_third (mod_lt_64 _) (mod_lt_64 _), join_four _ hb, Nat.shiftRight_eq_div_pow,
    Nat.shiftLeft_eq, tripleOf, UInt8.toNat_zero]
  refine congrArg some ?_
  omega

theorem quadTriple_one (a : UInt8) :
    quadTriple (encChar (a.toNat >>> 2)) (encChar (a.toNat <<< 4)) chPad chPad =
      some (tripleOf a 0 0) := by
  have ha := a.toNat_lt
  simp only [quadTriple, decChar_encChar, mod_ne_ff, false_or, if_false, ne_eq,
    not_true_eq_false, false_and]
  rw [join_high (mod_lt_64 _), Nat.shiftRight_eq_div_pow, Nat.shiftLeft_eq, tripleOf,
    UInt8.toNat_zero]
  refine congrArg some ?_
  omega

/-! ## Strings -/

theorem decodeText_encodeText (data : Text) : decodeText (encodeText data) = some data := by
  fun_induction encodeText data with
  | case1 => rfl
  | case2 a =>
    simp [decodeText, quadTriple_one, tripleBytes, tripleOf_high]
  | case3 a b =>
    simp [decodeText, quadTriple_two, tripleBytes, tripleOf_high, tripleOf_middle, encChar_ne_pad]
  | case4 a b c rest ih =>
    simp [quadOf, decodeText, quadTriple_three, tripleBytes, tripleOf_high, tripleOf_middle,
      tripleOf_low, encChar_ne_pad, ih]

theorem zero_notMem_encodeText (data : Text) : 0 ∉ encodeText data := by
  have hpad : (0 : UInt8) ≠ chPad := by decide
  have hchar : ∀ n, (0 : UInt8) ≠ encChar n := fun n => (encChar_ne_zero n).symm
  fun_induction encodeText data with
  | case1 => simp
  | case2 a => simp [hpad, hchar]
  | case3 a b => simp [hpad, hchar]
  | case4 a b c rest ih => simp [quadOf, hchar, ih]

/-- Data that is encoded is decoded to itself. The encoder fills its block up to the terminator, and
the decoder keeps to the string and to its block on every string. -/
theorem base64_round_trip :
    (∀ data : Text, data ≠ [] → (data.length + 2) / 3 * 4 + 1 < 2 ^ 64 → ∃ encoded,
      zenitBase64Encode true (.inl data) = .ok (some encoded) ∧
      encoded.length = zenitBase64EncodeLen data.length ∧
      zenitBase64Decode true (some encoded) = .ok (some data)) ∧
    ∀ s : Text, 0 ∉ s → ∃ answer, zenitBase64Decode true (some (s ++ [0])) = .ok answer ∧
      ∀ out, answer = some out → out.length ≤ zenitBase64DecodeLen (some (s ++ [0])) := by
  constructor
  · intro data hdata hlen
    obtain ⟨hencode, hblock⟩ := encode_eq hlen
    refine ⟨_, hencode, hblock, ?_⟩
    have hquads : ¬ (encodeText data = [] ∨ (encodeText data).length % 4 ≠ 0) := by
      have hpos := List.length_pos_iff.mpr hdata
      rw [← List.length_eq_zero_iff, length_encodeText]
      omega
    rw [decode_eq (zero_notMem_encodeText data), if_neg hquads, decodeText_encodeText]
  · intro s hs
    refine ⟨_, decode_eq hs, ?_⟩
    intro out hout
    rw [zenitBase64DecodeLen, Option.elim_some, strlen_eq hs]
    split at hout
    · cases hout
    · exact length_decodeText s hout

/-- The two bytes `hi`. -/
theorem two_bytes_base64_round_trip :
    (∃ encoded, zenitBase64Encode true (.inl [104, 105]) = .ok (some encoded) ∧
      encoded.length = zenitBase64EncodeLen 2 ∧
      zenitBase64Decode true (some encoded) = .ok (some [104, 105])) ∧
    ∃ answer, zenitBase64Decode true (some ([61, 61, 61, 61] ++ [0])) = .ok answer ∧
      ∀ out, answer = some out →
        out.length ≤ zenitBase64DecodeLen (some ([61, 61, 61, 61] ++ [0])) :=
  ⟨base64_round_trip.1 [104, 105] (by simp) (by norm_num),
    base64_round_trip.2 [61, 61, 61, 61] (by decide)⟩

end LibZenit.Base64
