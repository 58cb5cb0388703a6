import LibZenit.Blocks

/-!
# Strings in memory

A pointer to a string is the memory from there on, the terminator included. The bytes before the
terminator are the text of the string.
-/
namespace LibZenit.CString
open Blocks

abbrev Text := List UInt8

/-- The bytes of a string before its terminator. -/
def strlen (mem : Text) : ℕ := (mem.takeWhile (· != 0)).length

/-- Whether `strchr` finds the character. The terminator belongs to the string. -/
def strchr (mem : Text) (c : UInt8) : Bool := c == 0 || (mem.takeWhile (· != 0)).contains c

/-- A text that an object in memory can hold with its terminator. -/
def IsString (s : Text) : Prop := 0 ∉ s ∧ s.length + 1 < 2 ^ 63

variable {s : Text}

theorem takeWhile_eq (hs : 0 ∉ s) (rest : Text) :
    (s ++ 0 :: rest).takeWhile (· != 0) = s := by
  have hall : ∀ c ∈ s, (c != 0) = true := by
    intro c hc
    have hne : c ≠ 0 := fun hzero => hs (hzero ▸ hc)
    simpa using hne
  rw [List.takeWhile_append_of_pos hall]
  simp

theorem strlen_append (hs : 0 ∉ s) (rest : Text) : strlen (s ++ 0 :: rest) = s.length := by
  rw [strlen, takeWhile_eq hs]

theorem strlen_eq (hs : 0 ∉ s) : strlen (s ++ [0]) = s.length := strlen_append hs []

theorem strchr_eq (hs : 0 ∉ s) {c : UInt8} (hc : c ≠ 0) : strchr (s ++ [0]) c = s.contains c := by
  rw [strchr, takeWhile_eq hs]
  simp [hc]

theorem readSlots_text (s rest : Text) : readSlots (s ++ rest) 0 s.length = .ok s := by
  rw [readSlots, if_pos (by simp)]
  simp

/-! ## Output blocks -/

/-- The size of a block and what has been written to it, one byte behind the other. -/
structure Out where
  cap : ℕ
  bytes : Text

/-- `out[o++] = c` -/
def Out.put (out : Out) (c : UInt8) : Exec Out :=
  if out.bytes.length < out.cap then .ok { out with bytes := out.bytes ++ [c] }
  else .error .outOfBounds

def Out.putAll (out : Out) (cs : Text) : Exec Out := cs.foldlM Out.put out

variable {out : Out}

theorem put_eq (h : out.bytes.length < out.cap) (c : UInt8) :
    out.put c = .ok ⟨out.cap, out.bytes ++ [c]⟩ := if_pos h

theorem putAll_eq (cs : Text) (h : out.bytes.length + cs.length ≤ out.cap) :
    out.putAll cs = .ok ⟨out.cap, out.bytes ++ cs⟩ := by
  induction cs generalizing out with
  | nil =>
    rw [List.append_nil]
    rfl
  | cons c cs ih =>
    rw [List.length_cons] at h
    have hput := put_eq (by omega : out.bytes.length < out.cap) c
    have hrest := @ih ⟨out.cap, out.bytes ++ [c]⟩ (by simp; omega)
    rw [List.append_assoc, List.singleton_append] at hrest
    rw [Out.putAll, List.foldlM_cons, hput]
    exact hrest

theorem readSlot_append (pre rest : Text) {c : UInt8} {k : ℕ} (h : rest[k]? = some c) :
    readSlot (pre ++ rest) (pre.length + k) = .ok c := by
  refine readSlot_eq ?_
  rw [List.getElem?_append_right (by omega), Nat.add_sub_cancel_left, h]

theorem writeSlot_append (pre : Text) (c d : UInt8) (rest : Text) :
    writeSlot (pre ++ c :: rest) pre.length d = .ok (pre ++ d :: rest) := by
  rw [writeSlot_eq (by simp), List.set_append_right _ _ le_rfl, Nat.sub_self]
  rfl

end LibZenit.CString
