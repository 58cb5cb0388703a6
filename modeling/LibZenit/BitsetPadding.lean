import LibZenit.BitsetModel
import LibZenit.PackedBits
import Mathlib.Data.Set.Card

/-!
# The bits behind the capacity

The last byte may have bits behind `num_bits`. They are not tested, but they are counted, and they
are there again after a growth. `Padded` says that they are all zero. Filling all the bytes with
ones breaks it unless the bits make up whole bytes, and so does a shrink that drops a bit inside
the last byte that it keeps.
-/
namespace LibZenit.Bitsets
open Blocks PackedBits

variable {bs bs' : Bitset} {pos n : ℕ}

/-- The block has the bytes that the capacity asks for. -/
structure Shape (bs : Bitset) : Prop where
  bytes : bs.bits.length = bs.numBytes
  needed : bs.numBytes = bytesNeeded bs.numBits

structure Padded (bs : Bitset) : Prop extends Shape bs where
  small : bs.numBits + 7 < 2 ^ 64
  padding : ∀ i, bs.numBits ≤ i → bit bs.bits i = false

/-! ## Bytes -/

theorem bytesNeeded_lt (n : ℕ) : 8 * bytesNeeded n < 2 ^ 64 - 7 := by
  unfold bytesNeeded wrap
  dsimp only
  split_ifs <;> omega

/-- The bytes hold the bits unless the rounding has wrapped. -/
theorem le_bytesNeeded_iff : n ≤ 8 * bytesNeeded n ↔ n + 7 < 2 ^ 64 := by
  constructor
  · intro hle
    have hlt := bytesNeeded_lt n
    omega
  · intro hsmall
    unfold bytesNeeded
    rw [wrap_of_lt hsmall]
    dsimp only
    split_ifs <;> omega

/-! ## Reading -/

theorem test_eq (h : pos / 8 < bs.bits.length) :
    zenitBitsetTest bs pos = .ok (if pos < bs.numBits ∧ bit bs.bits pos then 1 else 0) := by
  unfold zenitBitsetTest
  by_cases hpos : pos < bs.numBits
  · have hread : readSlot bs.bits (pos / 8) = .ok (bs.bits.getD (pos / 8) 0) := by
      refine readSlot_eq ?_
      rw [List.getD_eq_getElem?_getD, List.getElem?_eq_getElem h]
      rfl
    rw [if_neg (by omega), hread]
    simp only [Except.map, shift_and_one _ (Nat.mod_lt pos (by norm_num)), hpos, true_and, bit]
  · rw [if_pos (by omega), if_neg (by simp [hpos])]

theorem Padded.fits (h : Padded bs) : bs.numBits ≤ 8 * bs.bits.length := by
  rw [h.bytes, h.needed]
  exact le_bytesNeeded_iff.mpr h.small

theorem Padded.test (h : Padded bs) (pos : ℕ) :
    zenitBitsetTest bs pos = .ok (if bit bs.bits pos then 1 else 0) := by
  have hfits := h.fits
  by_cases hpos : pos < bs.numBits
  · rw [test_eq (by omega)]
    simp [hpos]
  · rw [zenitBitsetTest, if_pos (by omega), h.padding pos (by omega)]
    rfl

theorem Padded.test_ne_one (h : Padded bs) (pos : ℕ) :
    zenitBitsetTest bs pos ≠ .ok 1 ↔ bit bs.bits pos = false := by
  rw [h.test]
  cases bit bs.bits pos <;> simp

/-! ## Counting -/

theorem count_eq (h : Shape bs) :
    zenitBitsetCount bs = .ok (Nat.count (fun i => bit bs.bits i = true) (8 * bs.numBytes)) := by
  have hlt := bytesNeeded_lt bs.numBits
  rw [← h.needed, ← h.bytes] at hlt
  have hinit : ∀ k ≤ bs.bits.length, (List.range k).foldlM
      (fun count i => (readSlot bs.bits i).map fun byte => wrap (count + popcount byte)) 0 =
      (.ok (Nat.count (fun i => bit bs.bits i = true) (8 * k)) : Exec ℕ) := by
    intro k
    induction k with
    | zero =>
      intro _
      rfl
    | succ k ih =>
      intro hk
      have hread : readSlot bs.bits k = .ok bs.bits[k] :=
        readSlot_eq (List.getElem?_eq_getElem (by omega))
      have hbound := Nat.count_le (p := fun i => bit bs.bits i = true) (n := 8 * (k + 1))
      rw [count_bit_succ (by omega)] at hbound ⊢
      rw [List.range_succ, List.foldlM_append, ih (by omega)]
      simp only [bind, Except.bind, List.foldlM_cons, List.foldlM_nil, hread, Except.map, pure,
        Except.pure]
      exact congrArg Except.ok (wrap_of_lt (hbound.trans_lt (by omega)))
  rw [← h.bytes, ← hinit _ le_rfl, h.bytes]
  rfl

/-- The count is the number of the positions below the capacity that are tested as 1. -/
def CountExact (bs : Bitset) : Prop :=
  (∀ pos < zenitBitsetCapacity bs, ∃ b, zenitBitsetTest bs pos = .ok b) ∧
    zenitBitsetCount bs =
      .ok {pos | pos < zenitBitsetCapacity bs ∧ zenitBitsetTest bs pos = .ok 1}.ncard

theorem tests_defined_iff (h : Shape bs) :
    (∀ pos < zenitBitsetCapacity bs, ∃ b, zenitBitsetTest bs pos = .ok b) ↔
      bs.numBits ≤ 8 * bs.numBytes := by
  have hlen := h.bytes
  unfold zenitBitsetCapacity
  constructor
  · intro hall
    by_contra hlt
    obtain ⟨b, hb⟩ := hall (8 * bs.numBytes) (by omega)
    have hread : readSlot bs.bits (8 * bs.numBytes / 8) = .error .outOfBounds := by
      rw [readSlot, List.getElem?_eq_none (by omega)]
    rw [zenitBitsetTest, if_neg (by omega), hread] at hb
    cases hb
  · intro hle pos hpos
    exact ⟨_, test_eq (by omega)⟩

theorem ncard_tested (hlen : bs.numBits ≤ 8 * bs.bits.length) :
    {pos | pos < zenitBitsetCapacity bs ∧ zenitBitsetTest bs pos = .ok 1}.ncard =
      Nat.count (fun i => bit bs.bits i = true) bs.numBits := by
  have hset : {pos | pos < zenitBitsetCapacity bs ∧ zenitBitsetTest bs pos = .ok 1} =
      ((Finset.range bs.numBits).filter fun pos => bit bs.bits pos = true : Finset ℕ) := by
    ext pos
    simp only [Set.mem_ofPred_eq, Finset.coe_filter, Finset.mem_range, zenitBitsetCapacity]
    refine and_congr_right fun hpos => ?_
    rw [test_eq (by omega)]
    cases bit bs.bits pos <;> simp [hpos]
  rw [hset, Set.ncard_coe_finset, Nat.count_eq_card_filter_range]

theorem countExact_iff (h : Shape bs) : CountExact bs ↔ Padded bs := by
  have hlen := h.bytes
  rw [CountExact, tests_defined_iff h, count_eq h]
  constructor
  · rintro ⟨hle, hcount⟩
    rw [ncard_tested (by omega)] at hcount
    have hsmall : bs.numBits + 7 < 2 ^ 64 := le_bytesNeeded_iff.mp (h.needed ▸ hle)
    -- the ones of the block that are not below the capacity
    have hrest : Nat.count (fun k => bit bs.bits (bs.numBits + k) = true)
        (8 * bs.numBytes - bs.numBits) = 0 := by
      have hsplit := Nat.count_add (fun i => bit bs.bits i = true) bs.numBits
        (8 * bs.numBytes - bs.numBits)
      rw [Nat.add_sub_cancel' hle, Except.ok.inj hcount] at hsplit
      omega
    refine ⟨h, hsmall, fun i hi => ?_⟩
    by_cases hin : i < 8 * bs.numBytes
    · have hzero := Nat.count_iff_forall_not.mp hrest (i - bs.numBits) (by omega)
      rw [Nat.add_sub_cancel' hi] at hzero
      simpa using hzero
    · exact bit_eq_false (by omega)
  · intro hpad
    have hle := hpad.fits
    rw [hlen] at hle
    refine ⟨hle, ?_⟩
    have hrest : Nat.count (fun k => bit bs.bits (bs.numBits + k) = true)
        (8 * bs.numBytes - bs.numBits) = 0 := by
      refine Nat.count_iff_forall_not.mpr fun k _ => ?_
      rw [hpad.padding _ (by omega)]
      simp
    rw [ncard_tested hpad.fits]
    conv_lhs => rw [← Nat.add_sub_cancel' hle, Nat.count_add, hrest, Nat.add_zero]

/-! ## Resizing -/

theorem patch_resize {bits : List UInt8} {junk : UInt8} (h : bits.length < n) :
    patch (resize junk n bits) bits.length (List.replicate (n - bits.length) 0) =
      resize 0 n bits := by
  rw [patch, take_resize junk le_rfl h.le, List.take_length, List.length_replicate,
    Nat.add_sub_cancel' h.le, List.drop_eq_nil_of_le (by simp), List.append_nil, resize,
    List.take_of_length_le h.le]

theorem bit_resize (bits : List UInt8) (n i : ℕ) :
    bit (resize 0 n bits) i = if i < 8 * n then bit bits i else false := by
  rw [resize, bit_append_zeros, bit_take]

/-- The set after a resize: the bits of the bytes that are kept. -/
def resized (bs : Bitset) (n : ℕ) : Bitset :=
  ⟨resize 0 (bytesNeeded n) bs.bits, bytesNeeded n, n⟩

theorem resize_granted (h : Shape bs) (junk : UInt8) (n : ℕ) :
    zenitBitsetResize true junk bs n = .ok (resized bs n, .ok) := by
  have hlen := h.bytes
  simp only [zenitBitsetResize, Bool.not_true, Bool.false_eq_true, if_false]
  by_cases hgrow : bytesNeeded n > bs.numBytes
  · rw [if_pos hgrow, ← hlen, writeSlots, if_pos (by simp; omega), patch_resize (by omega)]
    rfl
  · have hkeep : resize junk (bytesNeeded n) bs.bits = resize 0 (bytesNeeded n) bs.bits := by
      rw [resize, resize, Nat.sub_eq_zero_of_le (by omega)]
      rfl
    rw [if_neg hgrow, hkeep]
    rfl

theorem resized_shape (bs : Bitset) (n : ℕ) : Shape (resized bs n) :=
  ⟨length_resize 0 (bytesNeeded n) bs.bits, rfl⟩

theorem resized_padded_iff (bs : Bitset) (n : ℕ) : Padded (resized bs n) ↔
    n + 7 < 2 ^ 64 ∧ ∀ i, n ≤ i → i < 8 * bytesNeeded n → bit bs.bits i = false := by
  have hbits : ∀ i, bit (resized bs n).bits i =
      if i < 8 * bytesNeeded n then bit bs.bits i else false := bit_resize bs.bits _
  constructor
  · intro h
    refine ⟨h.small, fun i hi hlt => ?_⟩
    have hpad := h.padding i hi
    rwa [hbits, if_pos hlt] at hpad
  · rintro ⟨hsmall, hdropped⟩
    refine ⟨resized_shape bs n, hsmall, fun i hi => ?_⟩
    rw [hbits]
    split_ifs with hlt
    · exact hdropped i hi hlt
    · rfl

/-- A growth keeps all the bits. -/
theorem Padded.grown (h : Padded bs) (hle : bs.numBits ≤ n) (hn : n + 7 < 2 ^ 64) :
    Padded (resized bs n) ∧ ∀ i, bit (resized bs n).bits i = bit bs.bits i := by
  refine ⟨(resized_padded_iff bs n).mpr ⟨hn, fun i hi _ => h.padding i (by omega)⟩, fun i => ?_⟩
  have hbits : bit (resized bs n).bits i = if i < 8 * bytesNeeded n then bit bs.bits i else false :=
    bit_resize bs.bits _ i
  rw [hbits]
  split_ifs with hi
  · rfl
  · have hmore := le_bytesNeeded_iff.mpr hn
    rw [h.padding i (by omega)]

/-! ## Growing -/

theorem growLoop_spec {needed k : ℕ} (hneeded : needed ≤ 2 ^ 60) (fuel : ℕ) {c : ℕ}
    (hc : 0 < c) (hk : needed ≤ c * 2 ^ k) (hle : c ≤ 2 ^ 61) :
    ∃ cap, growLoop needed (fuel + k + 1) c = .ok cap ∧ needed ≤ cap ∧ cap ≤ 2 ^ 61 := by
  induction k generalizing c with
  | zero =>
    refine ⟨c, ?_, by omega, hle⟩
    rw [growLoop, if_neg (by omega)]
  | succ k ih =>
    rw [show fuel + (k + 1) + 1 = (fuel + k + 1) + 1 by ring, growLoop]
    by_cases hlt : c < needed
    · rw [if_pos hlt, if_neg hc.ne', wrap_of_lt (by omega)]
      refine ih (by omega) ?_ (by omega)
      calc needed ≤ c * 2 ^ (k + 1) := hk
        _ = c * 2 * 2 ^ k := by ring
    · exact ⟨c, by rw [if_neg hlt], by omega, hle⟩

/-- The loop doubles at most sixty times, and from nothing it starts with one word. -/
theorem growLoop_ends {needed : ℕ} (hneeded : needed ≤ 2 ^ 60) (fuel : ℕ) {c : ℕ}
    (hlt : c < needed) :
    ∃ cap, growLoop needed (fuel + 64) c = .ok cap ∧ needed ≤ cap ∧ cap ≤ 2 ^ 61 := by
  by_cases hc : c = 0
  · subst hc
    rw [growLoop, if_pos hlt, if_pos rfl]
    exact growLoop_spec hneeded (fuel + 2) (by norm_num) (by omega : needed ≤ 64 * 2 ^ 60)
      (by norm_num)
  · exact growLoop_spec hneeded (fuel + 3) (Nat.pos_of_ne_zero hc)
      (by nlinarith [Nat.pos_of_ne_zero hc] : needed ≤ c * 2 ^ 60) (by omega)

/-- Room for a position: the same bits, unless the memory that it takes is denied. -/
theorem ensureCapacity_spec (h : Padded bs) (hpos : pos < 2 ^ 60) (fuel : ℕ) (ok : Bool)
    (junk : UInt8) :
    (ok = false ∧ bs.numBits ≤ pos ∧
      ensureCapacity (fuel + 64) ok junk bs pos = .ok (bs, .alloc)) ∨
    ∃ bs', ensureCapacity (fuel + 64) ok junk bs pos = .ok (bs', .ok) ∧ Padded bs' ∧
      pos < bs'.numBits ∧ bs.numBits ≤ bs'.numBits ∧
      (pos < bs.numBits → bs'.numBits = bs.numBits) ∧ ∀ i, bit bs'.bits i = bit bs.bits i := by
  unfold ensureCapacity
  rw [wrap_of_lt (by omega)]
  by_cases hin : pos + 1 ≤ bs.numBits
  · exact .inr ⟨bs, if_pos hin, h, by omega, le_rfl, fun _ => rfl, fun _ => rfl⟩
  · obtain ⟨cap, hloop, hneeded, hcap⟩ :=
      growLoop_ends (by omega) fuel (by omega : bs.numBits < pos + 1)
    simp only [if_neg hin, hloop, Except.bind]
    cases ok with
    | false => exact .inl ⟨rfl, by omega, rfl⟩
    | true =>
      obtain ⟨hgrown, hbits⟩ := h.grown (by omega : bs.numBits ≤ cap) (by omega)
      have hle : bs.numBits ≤ (resized bs cap).numBits := by
        show bs.numBits ≤ cap
        omega
      exact .inr ⟨_, resize_granted h.toShape junk cap, hgrown, hneeded, hle,
        fun hlt => absurd hlt (by omega), hbits⟩

/-! ## Single bits -/

theorem set_eq_modify {bits : List UInt8} (change : UInt8 → UInt8) (h : n < bits.length) :
    bits.set n (change bits[n]) = bits.modify n change := by
  rw [List.modify_eq_set, List.getElem?_eq_getElem h]
  rfl

/-- The new byte has `g` applied to the bit of a position. -/
def Changes (pos : ℕ) (change : UInt8 → UInt8) (g : Bool → Bool) : Prop :=
  ∀ b, ∀ k < 8, byteBit (change b) k = if k = pos % 8 then g (byteBit b k) else byteBit b k

theorem set_changes (pos : ℕ) :
    Changes pos (fun b => b ||| (1 <<< UInt8.ofNat (pos % 8))) fun _ => true :=
  fun b k _ => byteBit_or_shift b (Nat.mod_lt pos (by norm_num)) k

theorem clear_changes (pos : ℕ) :
    Changes pos (fun b => b &&& ~~~(1 <<< UInt8.ofNat (pos % 8))) fun _ => false :=
  fun b _ hk => byteBit_and_not_shift b (Nat.mod_lt pos (by norm_num)) hk

theorem toggle_changes (pos : ℕ) :
    Changes pos (fun b => b ^^^ (1 <<< UInt8.ofNat (pos % 8))) not :=
  fun b k _ => byteBit_xor_shift b (Nat.mod_lt pos (by norm_num)) k

/-- The call applies `g` to one bit, after the growth that it may need. -/
structure Changed (g : Bool → Bool) (bs : Bitset) (pos : ℕ) (bs' : Bitset) : Prop where
  padded : Padded bs'
  room : pos < bs'.numBits
  grows : bs.numBits ≤ bs'.numBits
  keeps : pos < bs.numBits → bs'.numBits = bs.numBits
  bits : ∀ i, bit bs'.bits i = if i = pos then g (bit bs.bits i) else bit bs.bits i

theorem changeBit_room {fuel : ℕ} {ok : Bool} {junk : UInt8}
    (hroom : ensureCapacity fuel ok junk bs pos = .ok (bs', .ok))
    (hbyte : pos / 8 < bs'.bits.length) (change : UInt8 → UInt8) :
    changeBit change fuel ok junk bs pos =
      .ok ({ bs' with bits := bs'.bits.modify (pos / 8) change }, .ok) := by
  have hread := readSlot_eq (List.getElem?_eq_getElem hbyte)
  have hwrite := writeSlot_eq hbyte (change bs'.bits[pos / 8])
  rw [set_eq_modify change hbyte] at hwrite
  unfold changeBit
  rw [hroom]
  simp only [Except.bind, ne_eq, not_true_eq_false, if_false, hread, hwrite, Except.map]

theorem changeBit_spec (h : Padded bs) (hpos : pos < 2 ^ 60) {change : UInt8 → UInt8}
    {g : Bool → Bool} (hchange : Changes pos change g) (fuel : ℕ) (ok : Bool) (junk : UInt8) :
    (ok = false ∧ bs.numBits ≤ pos ∧
      changeBit change (fuel + 64) ok junk bs pos = .ok (bs, .alloc)) ∨
    ∃ bs', changeBit change (fuel + 64) ok junk bs pos = .ok (bs', .ok) ∧ Changed g bs pos bs' := by
  rcases ensureCapacity_spec h hpos fuel ok junk with
    ⟨hok, hout, heq⟩ | ⟨bs₁, heq, h₁, hroom, hle, hkeep, hbits⟩
  · left
    rw [changeBit, heq]
    exact ⟨hok, hout, rfl⟩
  · right
    have hfits := h₁.fits
    have hbyte : pos / 8 < bs₁.bits.length := by omega
    refine ⟨_, changeBit_room heq hbyte change, ?_⟩
    · have hnew := bit_change hbyte hchange
      refine ⟨⟨⟨?_, h₁.needed⟩, h₁.small, fun i hi => ?_⟩, hroom, hle, hkeep, fun i => ?_⟩
      · simp [h₁.bytes]
      · have hne : i ≠ pos := by
          rintro rfl
          exact absurd hroom (not_lt.mpr hi)
        rw [hnew, if_neg hne]
        exact h₁.padding i hi
      · rw [hnew, hbits]

/-! ## All bits -/

theorem fill_eq (h : Shape bs) (b : UInt8) :
    writeSlots bs.bits 0 (List.replicate bs.numBytes b) = .ok (List.replicate bs.numBytes b) := by
  have hlen := h.bytes
  rw [writeSlots, if_pos (by simp [hlen]), patch]
  simp [hlen]

theorem setAll_eq (h : Shape bs) :
    zenitBitsetSetAll bs = .ok { bs with bits := List.replicate bs.numBytes 0xFF } := by
  rw [zenitBitsetSetAll, fill_eq h]
  rfl

theorem clearAll_eq (h : Shape bs) :
    zenitBitsetClearAll bs = .ok { bs with bits := List.replicate bs.numBytes 0 } := by
  rw [zenitBitsetClearAll, fill_eq h]
  rfl

theorem Padded.cleared (h : Padded bs) :
    Padded { bs with bits := List.replicate bs.numBytes 0 } :=
  ⟨⟨List.length_replicate, h.needed⟩, h.small, fun i _ => bit_replicate_zero bs.numBytes i⟩

/-- Ones in all the bytes are ones behind the capacity unless it is made of whole bytes. -/
theorem Padded.filled_iff (h : Padded bs) :
    Padded { bs with bits := List.replicate bs.numBytes 0xFF } ↔
      bs.numBits ≠ 0 ∧ 8 ∣ bs.numBits := by
  have hfull : bs.numBits ≠ 0 ∧ 8 ∣ bs.numBits ↔ 8 * bs.numBytes ≤ bs.numBits := by
    have hsmall := h.small
    rw [h.needed, bytesNeeded, wrap_of_lt hsmall]
    split_ifs <;> omega
  rw [hfull]
  constructor
  · intro hpad
    by_contra hlt
    have hone : bit (List.replicate bs.numBytes 0xFF) bs.numBits = true :=
      bit_replicate_ones (by omega)
    have hzero : bit (List.replicate bs.numBytes 0xFF) bs.numBits = false :=
      hpad.padding bs.numBits le_rfl
    rw [hone] at hzero
    cases hzero
  · intro hle
    refine ⟨⟨List.length_replicate, h.needed⟩, h.small, fun i hi => ?_⟩
    refine bit_eq_false ?_
    rw [List.length_replicate]
    exact hle.trans hi

/-! ## Runs -/

/-- No capacity that such a position asks for wraps. -/
def Call.InRange : Call → Prop
  | .set _ _ pos => pos < 2 ^ 60
  | .clear _ _ pos => pos < 2 ^ 60
  | .toggle _ _ pos => pos < 2 ^ 60
  | .test pos => pos < 2 ^ 60
  | _ => True

/-- The call leaves no ones behind the capacity: all the bits are set only if they fill their
bytes, and a resize drops no member that lies in the last byte it keeps. -/
def Clean (bs : Bitset) : Call → Prop
  | .setAll => bs.numBits ≠ 0 ∧ 8 ∣ bs.numBits
  | .resize ok _ n => ok = true → n + 7 < 2 ^ 64 ∧
      ∀ pos, n ≤ pos → pos < 8 * bytesNeeded n → zenitBitsetTest bs pos ≠ .ok 1
  | _ => True

theorem changeBit_steps (h : Padded bs) (hpos : pos < 2 ^ 60) {change : UInt8 → UInt8}
    {g : Bool → Bool} (hchange : Changes pos change g) (fuel : ℕ) (ok : Bool) (junk : UInt8) :
    ∃ bs' code, changeBit change (fuel + 64) ok junk bs pos = .ok (bs', code) ∧ Padded bs' := by
  rcases changeBit_spec h hpos hchange fuel ok junk with ⟨-, -, heq⟩ | ⟨bs', heq, hnew⟩
  · exact ⟨bs, _, heq, h⟩
  · exact ⟨bs', _, heq, hnew.padded⟩

/-- A padded set stays padded under the clean calls and under no others. -/
theorem Padded.step_iff (h : Padded bs) (fuel : ℕ) {call : Call} (hrange : call.InRange) :
    ∃ bs' reply, step (fuel + 64) bs call = .ok (bs', reply) ∧ Shape bs' ∧
      (Padded bs' ↔ Clean bs call) := by
  cases call with
  | set ok junk pos =>
    obtain ⟨bs', code, heq, hnew⟩ := changeBit_steps h hrange (set_changes pos) fuel ok junk
    exact ⟨bs', _, congrArg (Except.map _) heq, hnew.toShape, iff_of_true hnew trivial⟩
  | clear ok junk pos =>
    obtain ⟨bs', code, heq, hnew⟩ := changeBit_steps h hrange (clear_changes pos) fuel ok junk
    exact ⟨bs', _, congrArg (Except.map _) heq, hnew.toShape, iff_of_true hnew trivial⟩
  | toggle ok junk pos =>
    obtain ⟨bs', code, heq, hnew⟩ := changeBit_steps h hrange (toggle_changes pos) fuel ok junk
    exact ⟨bs', _, congrArg (Except.map _) heq, hnew.toShape, iff_of_true hnew trivial⟩
  | test pos =>
    exact ⟨bs, _, congrArg (Except.map _) (h.test pos), h.toShape, iff_of_true h trivial⟩
  | setAll =>
    exact ⟨_, _, congrArg (Except.map _) (setAll_eq h.toShape),
      ⟨List.length_replicate, h.needed⟩, h.filled_iff⟩
  | clearAll =>
    exact ⟨_, _, congrArg (Except.map _) (clearAll_eq h.toShape), h.cleared.toShape,
      iff_of_true h.cleared trivial⟩
  | resize ok junk n =>
    cases ok with
    | false => exact ⟨bs, _, rfl, h.toShape, iff_of_true h (fun hok => by cases hok)⟩
    | true =>
      refine ⟨_, _, congrArg (Except.map _) (resize_granted h.toShape junk n),
        resized_shape bs n, ?_⟩
      rw [resized_padded_iff]
      simp only [Clean, h.test_ne_one, forall_const]

theorem create_eq {handle block : Bool} (h : zenitBitsetCreate handle block n = some bs) :
    bs = ⟨List.replicate (bytesNeeded n) 0, bytesNeeded n, n⟩ := by
  unfold zenitBitsetCreate at h
  split_ifs at h
  cases h
  rfl

theorem create_shape {handle block : Bool} (h : zenitBitsetCreate handle block n = some bs) :
    Shape bs := by
  obtain rfl := create_eq h
  exact ⟨List.length_replicate, rfl⟩

theorem create_padded_iff {handle block : Bool} (h : zenitBitsetCreate handle block n = some bs) :
    Padded bs ↔ n + 7 < 2 ^ 64 := by
  obtain rfl := create_eq h
  constructor
  · intro hpad
    exact hpad.small
  · intro hsmall
    exact ⟨⟨List.length_replicate, rfl⟩, hsmall, fun i _ => bit_replicate_zero _ i⟩

/-- A property that says of a set that it is padded holds in all the states of a run if and only
if the bytes of the new set hold its bits and every call of the run is clean. -/
theorem good_states_iff {good : Bitset → Prop}
    (hgood : ∀ {bs : Bitset}, Shape bs → (good bs ↔ Padded bs)) {handle block : Bool} (fuel : ℕ)
    (hcreate : zenitBitsetCreate handle block n = some bs) {calls : List Call}
    (hrange : ∀ call ∈ calls, call.InRange) :
    (∀ before, before <+: calls → ∃ bs' replies,
      Refinement.run (step (fuel + 64)) bs before = .ok (bs', replies) ∧ good bs') ↔
    n + 7 < 2 ^ 64 ∧ Refinement.Along (step (fuel + 64)) Clean bs calls := by
  have hshape := create_shape hcreate
  rw [← create_padded_iff hcreate, ← hgood hshape]
  have hstep : ∀ bs call, Shape bs → good bs → call.InRange → ∃ bs' reply,
      step (fuel + 64) bs call = .ok (bs', reply) ∧ Shape bs' ∧ (good bs' ↔ Clean bs call) := by
    intro bs call hshape hbs hrange
    obtain ⟨bs', reply, hdone, hshape', hiff⟩ := ((hgood hshape).mp hbs).step_iff fuel hrange
    exact ⟨bs', reply, hdone, hshape', (hgood hshape').trans hiff⟩
  constructor
  · intro hall
    obtain ⟨bs', replies, hrun, hbs⟩ := hall [] List.nil_prefix
    cases hrun
    exact ⟨hbs, (Refinement.good_along_iff hstep hshape hbs hrange).mp hall⟩
  · rintro ⟨hbs, hclean⟩
    exact (Refinement.good_along_iff hstep hshape hbs hrange).mpr hclean

/-- In all the states of a run the count is the number of ones below the capacity, if and only if
the bytes of the new set hold its bits and every call of the run is clean. -/
theorem count_exact_iff {handle block : Bool} (fuel : ℕ)
    (hcreate : zenitBitsetCreate handle block n = some bs) {calls : List Call}
    (hrange : ∀ call ∈ calls, call.InRange) :
    (∀ before, before <+: calls → ∃ bs' replies,
      Refinement.run (step (fuel + 64)) bs before = .ok (bs', replies) ∧ CountExact bs') ↔
    n + 7 < 2 ^ 64 ∧ Refinement.Along (step (fuel + 64)) Clean bs calls :=
  good_states_iff countExact_iff fuel hcreate hrange

/-- Sixteen bits, all set, and one of them cleared. -/
theorem whole_bytes_count_exact : ∃ bs' replies,
    Refinement.run (step 64) ⟨[0, 0], 2, 16⟩ [.setAll, .clear true 0 3] = .ok (bs', replies) ∧
      CountExact bs' := by
  have hcreate : zenitBitsetCreate true true 16 = some ⟨[0, 0], 2, 16⟩ := rfl
  have hrange : ∀ call ∈ [Call.setAll, .clear true 0 3], call.InRange := by
    simp [Call.InRange]
  have hclean : Refinement.Along (step (0 + 64)) Clean ⟨[0, 0], 2, 16⟩
      [.setAll, .clear true 0 3] :=
    ⟨⟨by decide, by decide⟩, fun _ _ _ => ⟨trivial, fun _ _ _ => trivial⟩⟩
  exact (count_exact_iff 0 hcreate hrange).mpr ⟨by norm_num, hclean⟩ _ (List.prefix_refl _)

/-- One bit, set with all the others of its byte: they are counted too. -/
theorem single_bit_count_not_exact :
    zenitBitsetCreate true true 1 = some ⟨[0], 1, 1⟩ ∧
    Refinement.run (step 64) ⟨[0], 1, 1⟩ [.setAll] = .ok (⟨[255], 1, 1⟩, [⟨.ok, none⟩]) ∧
    zenitBitsetCount ⟨[255], 1, 1⟩ = .ok 8 ∧ ¬CountExact ⟨[255], 1, 1⟩ := by
  refine ⟨rfl, rfl, rfl, fun hexact => ?_⟩
  have hpad := (countExact_iff ⟨rfl, rfl⟩).mp hexact
  have hone : bit [255] 1 = true := by decide
  have hzero : bit [255] 1 = false := hpad.padding 1 le_rfl
  rw [hone] at hzero
  cases hzero

end LibZenit.Bitsets
