import Mathlib.Tactic
import Mathlib.Data.List.GetD

/-!
# Bits packed into words

A list of words of one width as an array of bits: bit `i` is bit `i % w` of word `i / w`, and bits
behind the end read 0. The bits and the length make up the list.
-/
namespace LibZenit.WordBits

variable {w : ℕ} {words words' : List (BitVec w)} {i j : ℕ}

def bit (words : List (BitVec w)) (i : ℕ) : Bool := (words.getD (i / w) 0).getLsbD (i % w)

def setBit (words : List (BitVec w)) (i : ℕ) : List (BitVec w) :=
  words.set (i / w) (words.getD (i / w) 0 ||| (1#w <<< (i % w)))

@[simp] theorem length_setBit (words : List (BitVec w)) (i : ℕ) :
    (setBit words i).length = words.length := by
  simp [setBit]

theorem getLsbD_or_one_shift (x : BitVec w) {k : ℕ} (hk : k < w) (m : ℕ) :
    (x ||| (1#w <<< k)).getLsbD m = (decide (m = k) || x.getLsbD m) := by
  rw [BitVec.getLsbD_or, BitVec.getLsbD_shiftLeft, BitVec.getLsbD_one, Bool.or_comm]
  congr 1
  rw [Bool.eq_iff_iff]
  simp
  omega

theorem bit_setBit (hw : 0 < w) (hi : i < words.length * w) (j : ℕ) :
    bit (setBit words i) j = (decide (j = i) || bit words j) := by
  have hword : i / w < words.length := by rwa [Nat.div_lt_iff_lt_mul hw]
  have hmod : i % w < w := Nat.mod_lt i hw
  unfold bit setBit
  by_cases hsame : j / w = i / w
  · rw [hsame, List.getD_eq_getElem?_getD, List.getElem?_set_self hword, Option.getD_some,
      getLsbD_or_one_shift _ hmod]
    have hiff : j % w = i % w ↔ j = i := by
      constructor
      · intro hrest
        rw [← Nat.div_add_mod j w, ← Nat.div_add_mod i w, hsame, hrest]
      · rintro rfl
        rfl
    rw [decide_eq_decide.mpr hiff]
  · have hne : j ≠ i := fun h => hsame (by rw [h])
    rw [List.getD_eq_getElem?_getD, List.getElem?_set_ne (Ne.symm hsame),
      ← List.getD_eq_getElem?_getD, decide_eq_false hne, Bool.false_or]

theorem bit_zeros (n i : ℕ) : bit (List.replicate n 0#w) i = false := by
  have hword : (List.replicate n 0#w).getD (i / w) 0 = 0#w := by
    rw [List.getD_eq_getElem?_getD, List.getElem?_replicate]
    split_ifs <;> rfl
  rw [bit, hword]
  exact BitVec.getLsbD_zero

theorem words_ext (hw : 0 < w) (hlen : words.length = words'.length)
    (hbits : ∀ i, bit words i = bit words' i) : words = words' := by
  refine List.ext_getElem hlen fun k hk hk' => ?_
  refine BitVec.eq_of_getLsbD_eq fun m hm => ?_
  have hbit := hbits (k * w + m)
  have hdiv : (k * w + m) / w = k := by
    rw [Nat.add_comm, Nat.add_mul_div_right _ _ hw, Nat.div_eq_of_lt hm, Nat.zero_add]
  have hmod : (k * w + m) % w = m := by
    rw [Nat.add_comm, Nat.add_mul_mod_self_right, Nat.mod_eq_of_lt hm]
  rw [bit, bit, hdiv, hmod, List.getD_eq_getElem _ _ hk, List.getD_eq_getElem _ _ hk'] at hbit
  exact hbit

end LibZenit.WordBits
