import Mathlib.Tactic
import Mathlib.Data.List.GetD
import Mathlib.Data.Nat.Count

/-!
# Bits packed into bytes

A list of bytes as an array of bits: bit `i` is bit `i % 8` of byte `i / 8`, and bits behind the
end read 0. Setting and clearing a bit change that bit only, and the bits and the length make up
the list.
-/
namespace LibZenit.PackedBits

variable {bytes bytes' : List UInt8} {i j k : ℕ}

/-! ## One byte -/

def byteBit (b : UInt8) (k : ℕ) : Bool := b.toBitVec.getLsbD k

theorem byteBit_ext {b c : UInt8} (h : ∀ k < 8, byteBit b k = byteBit c k) : b = c :=
  UInt8.toBitVec_inj.mp (BitVec.eq_of_getLsbD_eq h)

theorem toBitVec_one_shift (hk : k < 8) :
    ((1 : UInt8) <<< UInt8.ofNat k).toBitVec = 1#8 <<< k := by
  simp [Nat.mod_eq_of_lt hk]

theorem getLsbD_one_shift (hk : k < 8) (j : ℕ) : (1#8 <<< k).getLsbD j = decide (j = k) := by
  rw [BitVec.getLsbD_shiftLeft, BitVec.getLsbD_one, Bool.eq_iff_iff]
  simp
  omega

theorem byteBit_or_shift (b : UInt8) (hk : k < 8) (j : ℕ) :
    byteBit (b ||| (1 <<< UInt8.ofNat k)) j = if j = k then true else byteBit b j := by
  rw [byteBit, UInt8.toBitVec_or, toBitVec_one_shift hk, BitVec.getLsbD_or, getLsbD_one_shift hk]
  by_cases hjk : j = k <;> simp [hjk, byteBit]

theorem byteBit_and_not_shift (b : UInt8) (hk : k < 8) (hj : j < 8) :
    byteBit (b &&& ~~~(1 <<< UInt8.ofNat k)) j = if j = k then false else byteBit b j := by
  rw [byteBit, UInt8.toBitVec_and, UInt8.toBitVec_not, toBitVec_one_shift hk, BitVec.getLsbD_and,
    BitVec.getLsbD_not, getLsbD_one_shift hk]
  by_cases hjk : j = k <;> simp [hjk, hj, byteBit]

theorem byteBit_xor_shift (b : UInt8) (hk : k < 8) (j : ℕ) :
    byteBit (b ^^^ (1 <<< UInt8.ofNat k)) j = if j = k then !byteBit b j else byteBit b j := by
  rw [byteBit, UInt8.toBitVec_xor, toBitVec_one_shift hk, BitVec.getLsbD_xor, getLsbD_one_shift hk]
  by_cases hjk : j = k <;> simp [hjk, byteBit]

theorem shift_and_one (b : UInt8) (hk : k < 8) :
    (b >>> UInt8.ofNat k) &&& 1 = if byteBit b k then 1 else 0 := by
  have hshift : (b >>> UInt8.ofNat k).toBitVec = b.toBitVec >>> k := by
    simp [Nat.mod_eq_of_lt hk]
  rw [← UInt8.toBitVec_inj, UInt8.toBitVec_and, hshift, UInt8.toBitVec_one,
    BitVec.and_one_eq_setWidth_ofBool_getLsbD, BitVec.getLsbD_ushiftRight, Nat.add_zero, byteBit]
  cases b.toBitVec.getLsbD k <;> decide

theorem shift_and_one_eq_zero (b : UInt8) (hk : k < 8) :
    (b >>> UInt8.ofNat k) &&& 1 = 0 ↔ byteBit b k = false := by
  rw [shift_and_one b hk]
  cases byteBit b k <;> decide

/-! ## Lists of bytes -/

def bit (bytes : List UInt8) (i : ℕ) : Bool := byteBit (bytes.getD (i / 8) 0) (i % 8)

theorem bit_modify (f : UInt8 → UInt8) {n : ℕ} (hn : n < bytes.length) (j : ℕ) :
    bit (bytes.modify n f) j =
      if j / 8 = n then byteBit (f (bytes.getD n 0)) (j % 8) else bit bytes j := by
  unfold bit
  by_cases hj : j / 8 = n
  · rw [if_pos hj, hj]
    simp [List.getD_eq_getElem?_getD, hn]
  · rw [if_neg hj, List.getD_eq_getElem?_getD, List.getElem?_modify, List.getD_eq_getElem?_getD]
    simp [Ne.symm hj]

/-- An update of byte `i / 8` that applies `g` to bit `i % 8` and keeps the others. -/
theorem bit_change {f : UInt8 → UInt8} {g : Bool → Bool} (hi : i / 8 < bytes.length)
    (hf : ∀ b, ∀ k < 8, byteBit (f b) k = if k = i % 8 then g (byteBit b k) else byteBit b k)
    (j : ℕ) : bit (bytes.modify (i / 8) f) j = if j = i then g (bit bytes j) else bit bytes j := by
  rw [bit_modify f hi, hf _ _ (Nat.mod_lt j (by norm_num))]
  by_cases hbyte : j / 8 = i / 8
  · by_cases hbit : j % 8 = i % 8
    · rw [if_pos hbyte, if_pos hbit, if_pos (by omega), bit, hbyte]
    · rw [if_pos hbyte, if_neg hbit, if_neg (by rintro rfl; exact hbit rfl), bit, hbyte]
  · rw [if_neg hbyte, if_neg (by rintro rfl; exact hbyte rfl)]

/-- An update of byte `i / 8` that gives bit `i % 8` the value `v` and keeps the others. -/
theorem bit_update {f : UInt8 → UInt8} {v : Bool} (hi : i / 8 < bytes.length)
    (hf : ∀ b, ∀ k < 8, byteBit (f b) k = if k = i % 8 then v else byteBit b k) (j : ℕ) :
    bit (bytes.modify (i / 8) f) j = if j = i then v else bit bytes j :=
  bit_change (g := fun _ => v) hi hf j

theorem bit_ext (hlen : bytes.length = bytes'.length) (h : ∀ i, bit bytes i = bit bytes' i) :
    bytes = bytes' := by
  refine List.ext_getElem hlen fun n hn hn' => byteBit_ext fun k hk => ?_
  have hbit := h (8 * n + k)
  rw [bit, bit, show (8 * n + k) / 8 = n by omega, show (8 * n + k) % 8 = k by omega,
    List.getD_eq_getElem?_getD, List.getD_eq_getElem?_getD, List.getElem?_eq_getElem hn,
    List.getElem?_eq_getElem hn'] at hbit
  exact hbit

theorem bit_replicate_zero (n i : ℕ) : bit (List.replicate n 0) i = false := by
  have hzero : (List.replicate n (0 : UInt8)).getD (i / 8) 0 = 0 := by
    rw [List.getD_eq_getElem?_getD, List.getElem?_replicate]
    split_ifs <;> rfl
  rw [bit, hzero]
  simp [byteBit]

theorem bit_eq_false (h : 8 * bytes.length ≤ i) : bit bytes i = false := by
  rw [bit, List.getD_eq_getElem?_getD, List.getElem?_eq_none (by omega)]
  simp [byteBit]

theorem bit_replicate_ones {n : ℕ} (h : i < 8 * n) : bit (List.replicate n 0xFF) i = true := by
  have hones : ∀ k < 8, byteBit 0xFF k = true := by decide
  have hbyte : (List.replicate n (0xFF : UInt8)).getD (i / 8) 0 = 0xFF := by
    rw [List.getD_eq_getElem?_getD, List.getElem?_replicate, if_pos (by omega)]
    rfl
  rw [bit, hbyte]
  exact hones _ (Nat.mod_lt i (by norm_num))

theorem bit_take (n : ℕ) (bytes : List UInt8) (i : ℕ) :
    bit (bytes.take n) i = if i < 8 * n then bit bytes i else false := by
  by_cases hi : i < 8 * n
  · rw [if_pos hi, bit, bit, List.getD_eq_getElem?_getD, List.getElem?_take_of_lt (by omega),
      List.getD_eq_getElem?_getD]
  · rw [if_neg hi]
    refine bit_eq_false ?_
    rw [List.length_take]
    omega

/-- Bytes of zeros at the end add no bits. -/
theorem bit_append_zeros (bytes : List UInt8) (n i : ℕ) :
    bit (bytes ++ List.replicate n 0) i = bit bytes i := by
  by_cases hi : i / 8 < bytes.length
  · rw [bit, bit, List.getD_append _ _ _ _ hi]
  · rw [bit_eq_false (by omega : 8 * bytes.length ≤ i), bit, List.getD_append_right _ _ _ _ (by omega)]
    have hzero : (List.replicate n (0 : UInt8)).getD (i / 8 - bytes.length) 0 = 0 := by
      rw [List.getD_eq_getElem?_getD, List.getElem?_replicate]
      split_ifs <;> rfl
    rw [hzero]
    simp [byteBit]

/-! ## Counting -/

/-- The ones of the first bytes and of the next one. -/
theorem count_bit_succ (hk : k < bytes.length) :
    Nat.count (fun i => bit bytes i = true) (8 * (k + 1)) =
      Nat.count (fun i => bit bytes i = true) (8 * k) +
        Nat.count (fun j => byteBit bytes[k] j = true) 8 := by
  rw [show 8 * (k + 1) = 8 * k + 8 by ring, Nat.count_add, Nat.count_eq_card_filter_range _ 8,
    Nat.count_eq_card_filter_range _ 8]
  congr 2
  refine Finset.filter_congr fun j hj => ?_
  rw [Finset.mem_range] at hj
  rw [bit, show (8 * k + j) / 8 = k by omega, show (8 * k + j) % 8 = j by omega,
    List.getD_eq_getElem?_getD, List.getElem?_eq_getElem hk]
  rfl

end LibZenit.PackedBits
