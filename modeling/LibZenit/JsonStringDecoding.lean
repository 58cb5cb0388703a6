import Mathlib.Data.List.TakeWhile
import LibZenit.JsonStringSyntax

/-!
# What a string denotes

A literal in UTF-8 is a sequence of symbols: characters as they stand, and escapes. It denotes a
sequence of Unicode scalar values, for which `Char` is taken. The parser encodes every `\u` escape
by itself, and so also the halves of a surrogate pair. What it returns is a C string, which ends at
its first NUL.
-/
namespace LibZenit.Json

inductive Symbol where
  | plain (c : Char)
  | short (e : UInt8)
  | unicode (a b c d : UInt8)

/-- The value of the four digits. -/
def unitOf (a b c d : UInt8) : ℕ := (fourDigits [a, b, c, d]).getD 0

/-- The items of a symbol. -/
def Symbol.items : Symbol → List Item
  | .plain c => (String.utf8EncodeChar c).map .raw
  | .short e => [.short e]
  | .unicode a b c d => [.unicode a b c d]

def Symbol.WellFormed : Symbol → Prop
  | .plain c => c ≠ '"' ∧ c ≠ '\\'
  | .short e => (Item.short e).Scans
  | .unicode a b c d => (Item.unicode a b c d).Scans

def itemsOf (symbols : List Symbol) : List Item := symbols.flatMap Symbol.items

def IsHigh (u : ℕ) : Prop := 0xD800 ≤ u ∧ u ≤ 0xDBFF

def IsLow (u : ℕ) : Prop := 0xDC00 ≤ u ∧ u ≤ 0xDFFF

instance (u : ℕ) : Decidable (IsHigh u) := inferInstanceAs (Decidable (_ ∧ _))

instance (u : ℕ) : Decidable (IsLow u) := inferInstanceAs (Decidable (_ ∧ _))

/-- The scalar value of a pair of surrogates. -/
def combine (hi lo : ℕ) : ℕ := 0x10000 + (hi - 0xD800) * 0x400 + (lo - 0xDC00)

/-- The scalar values of a literal. A surrogate that is not in a pair has none. -/
def denote : List Symbol → Option (List Char)
  | [] => some []
  | .plain c :: symbols => (denote symbols).map (c :: ·)
  | .short e :: symbols =>
    (denote symbols).map (Char.ofNat ((parseSimpleEscape e).getD 0) :: ·)
  | .unicode a b c d :: symbols =>
    if ¬(IsHigh (unitOf a b c d) ∨ IsLow (unitOf a b c d)) then
      (denote symbols).map (Char.ofNat (unitOf a b c d) :: ·)
    else match symbols with
      | .unicode a' b' c' d' :: symbols =>
        if IsHigh (unitOf a b c d) ∧ IsLow (unitOf a' b' c' d') then
          (denote symbols).map (Char.ofNat (combine (unitOf a b c d) (unitOf a' b' c' d')) :: ·)
        else none
      | _ => none

def utf8 (cs : List Char) : List UInt8 := cs.flatMap String.utf8EncodeChar

def Symbol.IsSurrogate : Symbol → Prop
  | .unicode a b c d => IsHigh (unitOf a b c d) ∨ IsLow (unitOf a b c d)
  | _ => False

def Symbol.IsZero : Symbol → Prop
  | .plain c => c = '\x00'
  | .short _ => False
  | .unicode a b c d => unitOf a b c d = 0

/-- The C string in the buffer is what the literal denotes. -/
def DecodesTo (buf : List UInt8) (symbols : List Symbol) : Prop :=
  ∃ cs, denote symbols = some cs ∧ cstr buf = utf8 cs

variable {cp : ℕ} {c : Char} {p : Symbol} {symbols : List Symbol} {cs : List Char}

/-! ## Bytes of a character -/

theorem toNat_ofNat_of_valid (h : cp.isValidChar) : (Char.ofNat cp).val.toNat = cp := by
  rw [Char.ofNat, dif_pos h]
  rfl

/-- A lead of UTF-8 in front of bits that fit behind it. -/
theorem lead_or {a b : ℕ} (i k : ℕ) (ha : 2 ^ i * k = a) (hb : b < 2 ^ i) : a ||| b = b + a := by
  rw [← ha, ← Nat.two_pow_add_eq_or_of_lt hb k, Nat.add_comm]

/-- A code point of the basic plane that is not a surrogate gets its UTF-8. -/
theorem encodeUtf8_eq (hvalid : cp.isValidChar) (hlt : cp < 0x10000) :
    encodeUtf8 cp = String.utf8EncodeChar (Char.ofNat cp) := by
  have hmask : ∀ n : ℕ, n &&& 0x3F = n % 64 := fun n => Nat.and_two_pow_sub_one_eq_mod n 6
  have hlow : ∀ n : ℕ, 0x80 ||| n % 64 = n % 64 + 0x80 := fun n =>
    lead_or 6 2 (by norm_num) (Nat.mod_lt n (by norm_num))
  have hsix : cp >>> 6 = cp / 64 := Nat.shiftRight_eq_div_pow cp 6
  have htwelve : cp >>> 12 = cp / 4096 := Nat.shiftRight_eq_div_pow cp 12
  rw [encodeUtf8, String.utf8EncodeChar, toNat_ofNat_of_valid hvalid]
  split_ifs with h₁ h₂ h₃
  · rfl
  · have hlead : 0xC0 ||| cp / 64 = cp / 64 + 0xC0 := lead_or 5 6 (by norm_num) (by omega)
    rw [hmask, hlow, hsix, hlead, Nat.mod_eq_of_lt (by omega : cp / 64 < 0x20)]
  · have hlead : 0xE0 ||| cp / 4096 = cp / 4096 + 0xE0 := lead_or 4 14 (by norm_num) (by omega)
    rw [hmask, hlow, hsix, hmask, hlow, htwelve, hlead,
      Nat.mod_eq_of_lt (by omega : cp / 4096 < 0x10)]
  · omega

theorem ofNat_ne_zero {n : ℕ} (h : 0 < n) (hlt : n < 256) : UInt8.ofNat n ≠ 0 := by
  intro hzero
  have hnat := congrArg UInt8.toNat hzero
  simp [Nat.mod_eq_of_lt hlt] at hnat
  omega

theorem zero_notMem_encodeUtf8 (hpos : cp ≠ 0) (hlt : cp < 0x10000) : 0 ∉ encodeUtf8 cp := by
  have hsix : cp >>> 6 = cp / 64 := Nat.shiftRight_eq_div_pow cp 6
  have htwelve : cp >>> 12 = cp / 4096 := Nat.shiftRight_eq_div_pow cp 12
  have hlow : ∀ n : ℕ, UInt8.ofNat (0x80 ||| n &&& 0x3F) ≠ 0 := fun n => by
    have hlt : n &&& 0x3F < 64 := Nat.and_lt_two_pow n (by norm_num : 0x3F < 2 ^ 6)
    have hor : 0x80 ||| n &&& 0x3F = (n &&& 0x3F) + 0x80 := lead_or 6 2 (by norm_num) hlt
    exact ofNat_ne_zero (by omega) (by omega)
  rw [encodeUtf8, hsix, htwelve]
  split_ifs with h₁ h₂
  · simpa using (ofNat_ne_zero (by omega) (by omega)).symm
  · have hlead : 0xC0 ||| cp / 64 = cp / 64 + 0xC0 := lead_or 5 6 (by norm_num) (by omega)
    have hfirst : UInt8.ofNat (0xC0 ||| cp / 64) ≠ 0 := ofNat_ne_zero (by omega) (by omega)
    simp only [List.mem_cons, List.not_mem_nil, or_false, not_or]
    exact ⟨hfirst.symm, (hlow cp).symm⟩
  · have hlead : 0xE0 ||| cp / 4096 = cp / 4096 + 0xE0 := lead_or 4 14 (by norm_num) (by omega)
    have hfirst : UInt8.ofNat (0xE0 ||| cp / 4096) ≠ 0 := ofNat_ne_zero (by omega) (by omega)
    simp only [List.mem_cons, List.not_mem_nil, or_false, not_or]
    exact ⟨hfirst.symm, (hlow (cp / 64)).symm, (hlow cp).symm⟩

/-- The bytes of a character above ASCII are not ASCII. -/
theorem utf8EncodeChar_cases (c : Char) : c.val.toNat ≤ 0x7F ∧
      String.utf8EncodeChar c = [UInt8.ofNat c.val.toNat] ∨
    ∀ b ∈ String.utf8EncodeChar c, 0x80 ≤ b.toNat := by
  rw [String.utf8EncodeChar]
  split_ifs with h₁ h₂ h₃
  · exact Or.inl ⟨h₁, rfl⟩
  · right
    simp only [List.mem_cons, List.not_mem_nil, or_false, forall_eq_or_imp, forall_eq,
      UInt8.toNat_ofNat']
    omega
  · right
    simp only [List.mem_cons, List.not_mem_nil, or_false, forall_eq_or_imp, forall_eq,
      UInt8.toNat_ofNat']
    omega
  · right
    simp only [List.mem_cons, List.not_mem_nil, or_false, forall_eq_or_imp, forall_eq,
      UInt8.toNat_ofNat']
    omega

/-- An ASCII byte occurs only in the encoding of its character. -/
theorem eq_of_mem_utf8EncodeChar {b : UInt8} (hb : b.toNat < 0x80)
    (h : b ∈ String.utf8EncodeChar c) : c.val.toNat = b.toNat := by
  rcases utf8EncodeChar_cases c with ⟨hle, heq⟩ | hall
  · rw [heq, List.mem_singleton] at h
    rw [h, UInt8.toNat_ofNat', Nat.mod_eq_of_lt (by omega)]
  · have := hall b h
    omega

/-! ## Symbols -/

/-- The bytes that the loop appends for a symbol. -/
def Symbol.bytes : Symbol → List UInt8
  | .plain c => String.utf8EncodeChar c
  | .short e => encodeUtf8 ((parseSimpleEscape e).getD 0)
  | .unicode a b c d => encodeUtf8 (unitOf a b c d)

/-- The scalar value of a symbol that is not a surrogate. -/
def Symbol.scalar : Symbol → Char
  | .plain c => c
  | .short e => Char.ofNat ((parseSimpleEscape e).getD 0)
  | .unicode a b c d => Char.ofNat (unitOf a b c d)

theorem hexDigit_lt {h : UInt8} {n : ℕ} (heq : hexDigit h = some n) : n < 16 := by
  unfold hexDigit at heq
  simp only [UInt8.le_iff_toNat_le] at heq
  split_ifs at heq with h₁ h₂ h₃
  · simp at heq h₁
    omega
  · simp at heq h₂
    omega
  · simp at heq h₃
    omega

theorem unitOf_lt (a b c d : UInt8) : unitOf a b c d < 0x10000 := by
  unfold unitOf
  cases h : fourDigits [a, b, c, d] with
  | none => simp
  | some n =>
    simp only [fourDigits, Option.bind_eq_bind, Option.bind_eq_some_iff, Option.some.injEq] at h
    obtain ⟨w, hw, x, hx, y, hy, z, hz, rfl⟩ := h
    have := hexDigit_lt hw
    have := hexDigit_lt hx
    have := hexDigit_lt hy
    have := hexDigit_lt hz
    simp only [Option.getD_some]
    omega

theorem parseSimpleEscape_bounds (e : UInt8) (h : (parseSimpleEscape e).isSome = true) :
    0 < (parseSimpleEscape e).getD 0 ∧ (parseSimpleEscape e).getD 0 < 0x80 := by
  unfold parseSimpleEscape at h ⊢
  split_ifs at h ⊢ <;> simp at h ⊢

theorem isValidChar_of_lt {n : ℕ} (hlt : n < 0x10000) (h : ¬(IsHigh n ∨ IsLow n)) :
    n.isValidChar := by
  unfold IsHigh IsLow at h
  unfold Nat.isValidChar
  omega

theorem bytesOf_raw (bs : List UInt8) : bytesOf (bs.map .raw) = bs := by
  induction bs with
  | nil => rfl
  | cons b bs ih =>
    rw [List.map_cons, bytesOf_cons, ih]
    rfl

theorem bytesOf_itemsOf (symbols : List Symbol) :
    bytesOf (itemsOf symbols) = symbols.flatMap Symbol.bytes := by
  rw [bytesOf, itemsOf, List.flatMap_assoc]
  refine List.flatMap_congr fun p _ => ?_
  cases p with
  | plain c => exact bytesOf_raw _
  | short e => simp [Symbol.items, Symbol.bytes, Item.bytes]
  | unicode a b c d => simp [Symbol.items, Symbol.bytes, Item.bytes, unitOf]

/-- A symbol that is not a surrogate is written as the UTF-8 of its scalar value. -/
theorem Symbol.bytes_eq (hp : p.WellFormed) (h : ¬p.IsSurrogate) :
    p.bytes = String.utf8EncodeChar p.scalar := by
  cases p with
  | plain c => rfl
  | short e =>
    obtain ⟨-, hlt⟩ := parseSimpleEscape_bounds e hp
    refine encodeUtf8_eq (isValidChar_of_lt (by omega) ?_) (by omega)
    unfold IsHigh IsLow
    omega
  | unicode a b c d =>
    exact encodeUtf8_eq (isValidChar_of_lt (unitOf_lt a b c d) h) (unitOf_lt a b c d)

theorem Symbol.zero_notMem_bytes (hp : p.WellFormed) (h : ¬p.IsZero) : 0 ∉ p.bytes := by
  cases p with
  | plain c =>
    intro hzero
    have heq := eq_of_mem_utf8EncodeChar (by decide) hzero
    exact h (Char.ext (UInt32.toNat_inj.mp heq))
  | short e =>
    obtain ⟨hpos, hlt⟩ := parseSimpleEscape_bounds e hp
    exact zero_notMem_encodeUtf8 (by omega) (by omega)
  | unicode a b c d => exact zero_notMem_encodeUtf8 h (unitOf_lt a b c d)

/-! ## Literals -/

theorem denote_of_no_surrogate (h : ∀ p ∈ symbols, ¬p.IsSurrogate) :
    denote symbols = some (symbols.map Symbol.scalar) := by
  fun_induction denote symbols with
  | case1 => rfl
  | case2 c symbols ih =>
    rw [ih fun p hp => h p (List.mem_cons_of_mem _ hp)]
    rfl
  | case3 e symbols ih =>
    rw [ih fun p hp => h p (List.mem_cons_of_mem _ hp)]
    rfl
  | case4 a b c d symbols hu ih =>
    rw [ih fun p hp => h p (List.mem_cons_of_mem _ hp)]
    rfl
  | case5 a b c d hu => exact absurd (not_not.mp hu) (h _ List.mem_cons_self)
  | case6 a b c d hu => exact absurd (not_not.mp hu) (h _ List.mem_cons_self)
  | case7 a b c d symbols hu => exact absurd (not_not.mp hu) (h _ List.mem_cons_self)

theorem utf8_cons (c : Char) (cs : List Char) :
    utf8 (c :: cs) = String.utf8EncodeChar c ++ utf8 cs := List.flatMap_cons

theorem length_utf8EncodeChar_le (c : Char) : (String.utf8EncodeChar c).length ≤ 4 := by
  rw [String.length_utf8EncodeChar]
  exact c.utf8Size_le_four

theorem length_encodeUtf8_surrogate (h : IsHigh cp ∨ IsLow cp) : (encodeUtf8 cp).length = 3 := by
  unfold IsHigh IsLow at h
  rw [encodeUtf8, if_neg (by omega), if_neg (by omega)]
  rfl

/-- What the loop writes for `symbols` is not shorter than `cs`, and longer with a surrogate. -/
def NotShorter (symbols : List Symbol) (cs : List Char) : Prop :=
  (utf8 cs).length ≤ (symbols.flatMap Symbol.bytes).length ∧
    ((∃ p ∈ symbols, p.IsSurrogate) → (utf8 cs).length < (symbols.flatMap Symbol.bytes).length)

/-- A symbol that stands for one scalar value takes as many bytes as this. -/
theorem NotShorter.cons (p : Symbol) (h : NotShorter symbols cs) (hp : p.WellFormed)
    (hnot : ¬p.IsSurrogate) : NotShorter (p :: symbols) (p.scalar :: cs) := by
  rw [NotShorter, utf8_cons, List.flatMap_cons, List.length_append, List.length_append,
    Symbol.bytes_eq hp hnot]
  refine ⟨Nat.add_le_add_left h.1 _, fun ⟨q, hq, hsur⟩ => ?_⟩
  rcases List.mem_cons.mp hq with rfl | hq
  · exact absurd hsur hnot
  · exact Nat.add_lt_add_left (h.2 ⟨q, hq, hsur⟩) _

theorem length_denote (hs : ∀ p ∈ symbols, p.WellFormed) (h : denote symbols = some cs) :
    NotShorter symbols cs := by
  fun_induction denote symbols generalizing cs with
  | case1 =>
    cases h
    simp [NotShorter, utf8]
  | case2 c symbols ih =>
    obtain ⟨cs, hcs, rfl⟩ := Option.map_eq_some_iff.mp h
    obtain ⟨hp, hrest⟩ := List.forall_mem_cons.mp hs
    exact (ih hrest hcs).cons (.plain c) hp (fun hsur => hsur)
  | case3 e symbols ih =>
    obtain ⟨cs, hcs, rfl⟩ := Option.map_eq_some_iff.mp h
    obtain ⟨hp, hrest⟩ := List.forall_mem_cons.mp hs
    exact (ih hrest hcs).cons (.short e) hp (fun hsur => hsur)
  | case4 a b c d symbols hu ih =>
    obtain ⟨cs, hcs, rfl⟩ := Option.map_eq_some_iff.mp h
    obtain ⟨hp, hrest⟩ := List.forall_mem_cons.mp hs
    exact (ih hrest hcs).cons (.unicode a b c d) hp hu
  | case5 a b c d hu a' b' c' d' symbols hpair ih =>
    obtain ⟨cs, hcs, rfl⟩ := Option.map_eq_some_iff.mp h
    have hrest : ∀ q ∈ symbols, q.WellFormed := fun q hq =>
      hs q (List.mem_cons_of_mem _ (List.mem_cons_of_mem _ hq))
    have hle := (ih hrest hcs).1
    have hfour :=
      length_utf8EncodeChar_le (Char.ofNat (combine (unitOf a b c d) (unitOf a' b' c' d')))
    have hhi : ((Symbol.unicode a b c d).bytes).length = 3 :=
      length_encodeUtf8_surrogate (Or.inl hpair.1)
    have hlo : ((Symbol.unicode a' b' c' d').bytes).length = 3 :=
      length_encodeUtf8_surrogate (Or.inr hpair.2)
    rw [NotShorter, utf8_cons, List.flatMap_cons, List.flatMap_cons, List.length_append,
      List.length_append, List.length_append, hhi, hlo]
    exact ⟨by omega, fun _ => by omega⟩
  | case6 => cases h
  | case7 => cases h

theorem zero_mem_denote (h : denote symbols = some cs) (hz : ∃ p ∈ symbols, p.IsZero) :
    '\x00' ∈ cs := by
  obtain ⟨q, hq, hzero⟩ := hz
  fun_induction denote symbols generalizing cs with
  | case1 => cases hq
  | case2 c symbols ih =>
    obtain ⟨cs, hcs, rfl⟩ := Option.map_eq_some_iff.mp h
    rcases List.mem_cons.mp hq with rfl | hq
    · exact List.mem_cons.mpr (Or.inl hzero.symm)
    · exact List.mem_cons_of_mem _ (ih hcs hq)
  | case3 e symbols ih =>
    obtain ⟨cs, hcs, rfl⟩ := Option.map_eq_some_iff.mp h
    rcases List.mem_cons.mp hq with rfl | hq
    · exact hzero.elim
    · exact List.mem_cons_of_mem _ (ih hcs hq)
  | case4 a b c d symbols hu ih =>
    obtain ⟨cs, hcs, rfl⟩ := Option.map_eq_some_iff.mp h
    rcases List.mem_cons.mp hq with rfl | hq
    · have hunit : unitOf a b c d = 0 := hzero
      rw [hunit]
      exact List.mem_cons_self
    · exact List.mem_cons_of_mem _ (ih hcs hq)
  | case5 a b c d hu a' b' c' d' symbols hpair ih =>
    obtain ⟨cs, hcs, rfl⟩ := Option.map_eq_some_iff.mp h
    have hhi : 0xD800 ≤ unitOf a b c d := hpair.1.1
    have hlo : 0xDC00 ≤ unitOf a' b' c' d' := hpair.2.1
    rcases List.mem_cons.mp hq with rfl | hq
    · have hunit : unitOf a b c d = 0 := hzero
      omega
    rcases List.mem_cons.mp hq with rfl | hq
    · have hunit : unitOf a' b' c' d' = 0 := hzero
      omega
    · exact List.mem_cons_of_mem _ (ih hcs hq)
  | case6 => cases h
  | case7 => cases h

theorem zero_notMem_cstr (s : List UInt8) : 0 ∉ cstr s := by
  intro hmem
  have := List.mem_takeWhile_imp hmem
  simp at this

theorem zero_mem_utf8 (h : '\x00' ∈ cs) : 0 ∈ utf8 cs :=
  List.mem_flatMap.mpr ⟨'\x00', h, by decide⟩

/-- The buffer holds what the literal denotes exactly when no escape is a surrogate and no
character is NUL. -/
theorem decodesTo_iff (hs : ∀ p ∈ symbols, p.WellFormed) :
    DecodesTo (symbols.flatMap Symbol.bytes) symbols ↔
      ∀ p ∈ symbols, ¬p.IsSurrogate ∧ ¬p.IsZero := by
  constructor
  · rintro ⟨cs, hcs, heq⟩
    have hnozero : ∀ p ∈ symbols, ¬p.IsZero := by
      intro p hp hzero
      have hmem := zero_mem_utf8 (zero_mem_denote hcs ⟨p, hp, hzero⟩)
      rw [← heq] at hmem
      exact zero_notMem_cstr _ hmem
    have hfree : 0 ∉ symbols.flatMap Symbol.bytes := by
      intro hmem
      obtain ⟨p, hp, hin⟩ := List.mem_flatMap.mp hmem
      exact Symbol.zero_notMem_bytes (hs p hp) (hnozero p hp) hin
    rw [cstr_eq_self hfree] at heq
    refine fun p hp => ⟨fun hsur => ?_, hnozero p hp⟩
    have hlt := (length_denote hs hcs).2 ⟨p, hp, hsur⟩
    rw [heq] at hlt
    exact lt_irrefl _ hlt
  · intro h
    have hfree : 0 ∉ symbols.flatMap Symbol.bytes := by
      intro hmem
      obtain ⟨p, hp, hin⟩ := List.mem_flatMap.mp hmem
      exact Symbol.zero_notMem_bytes (hs p hp) (h p hp).2 hin
    refine ⟨_, denote_of_no_surrogate fun p hp => (h p hp).1, ?_⟩
    rw [cstr_eq_self hfree, utf8, List.flatMap_map]
    exact List.flatMap_congr fun p hp => Symbol.bytes_eq (hs p hp) (h p hp).1

/-- For every accepted literal in UTF-8, the string returned is what the literal denotes exactly
when it has no surrogate escape and no NUL. -/
theorem string_decoding_iff {mem : List UInt8} {len pos after : ℕ}
    (hquote : peek mem len pos = some chQuote) (hs : ∀ p ∈ symbols, p.WellFormed)
    (hlit : LiteralAt mem len pos (itemsOf symbols) after) :
    ∃ buf, parseStringRaw mem len pos = some (buf, after) ∧
      (DecodesTo buf symbols ↔ ∀ p ∈ symbols, ¬p.IsSurrogate ∧ ¬p.IsZero) := by
  refine ⟨_, (parseStringRaw_eq_some hquote).mpr ⟨_, hlit, rfl⟩, ?_⟩
  rw [bytesOf_itemsOf]
  exact decodesTo_iff hs

/-- A letter between quotes. -/
theorem letter_string_decoded : ∃ buf, parseStringRaw [34, 97, 34] 3 0 = some (buf, 3) ∧
    DecodesTo buf [.plain 'a'] := by
  have hplain : ∀ p ∈ [Symbol.plain 'a'], p.WellFormed := by
    simp [Symbol.WellFormed]
  obtain ⟨buf, hparse, hiff⟩ := string_decoding_iff rfl hplain letter_literal
  exact ⟨buf, hparse, hiff.mpr (by simp [Symbol.IsSurrogate, Symbol.IsZero])⟩

/-- The surrogate pair of U+1F600 comes out as two sequences of three bytes, and the string
`a\u0000b` ends behind its first letter. -/
theorem escapes_decoded_wrongly :
    (denote [.unicode 68 56 51 68, .unicode 68 69 48 48] = some [Char.ofNat 0x1F600] ∧
      parseStringRaw [34, 92, 117, 68, 56, 51, 68, 92, 117, 68, 69, 48, 48, 34] 14 0 =
        some ([0xED, 0xA0, 0xBD, 0xED, 0xB8, 0x80], 14) ∧
      ¬DecodesTo [0xED, 0xA0, 0xBD, 0xED, 0xB8, 0x80]
        [.unicode 68 56 51 68, .unicode 68 69 48 48]) ∧
    denote [.plain 'a', .unicode 48 48 48 48, .plain 'b'] = some ['a', '\x00', 'b'] ∧
      parseStringRaw [34, 97, 92, 117, 48, 48, 48, 48, 98, 34] 10 0 = some ([97, 0, 98], 10) ∧
      ¬DecodesTo [97, 0, 98] [.plain 'a', .unicode 48 48 48 48, .plain 'b'] := by
  have hpair : denote [.unicode 68 56 51 68, .unicode 68 69 48 48] =
      some [Char.ofNat 0x1F600] := by decide
  have hzero : denote [.plain 'a', .unicode 48 48 48 48, .plain 'b'] =
      some ['a', '\x00', 'b'] := by decide
  refine ⟨⟨hpair, by decide, ?_⟩, hzero, by decide, ?_⟩
  · rintro ⟨cs, hcs, heq⟩
    rw [hpair, Option.some.injEq] at hcs
    subst hcs
    exact absurd heq (by decide)
  · rintro ⟨cs, hcs, heq⟩
    rw [hzero, Option.some.injEq] at hcs
    subst hcs
    exact absurd heq (by decide)

end LibZenit.Json
