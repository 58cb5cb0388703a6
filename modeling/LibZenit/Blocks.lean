import LibZenit.Basics

/-!
# Blocks of memory as lists of slots

A block holds as many slots as fit into its bytes. The accesses of a program are checked against
the block; an execution that leaves the defined behaviour ends with a `Fault`.
-/
namespace LibZenit

/-- `hang` is a loop that has used up the rounds it was given. -/
inductive Fault where
  | outOfBounds
  | wrappedSize
  | hang
  deriving DecidableEq, Repr

abbrev Exec (α : Type) := Except Fault α

/-- The answer of a container: the result code, and the element handed out. -/
structure Reply (α : Type) where
  code : ZenitError
  elem : Option α

/-- Subtraction of `size_t` values. -/
def subSize (a b : ℕ) : ℕ := wrap (a + (2 ^ 64 - wrap b))

theorem subSize_of_le {a b : ℕ} (hb : b ≤ a) (ha : a < 2 ^ 64) : subSize a b = a - b := by
  unfold subSize
  rw [wrap_of_lt (by omega : b < 2 ^ 64)]
  unfold wrap
  omega

theorem subSize_zero {a : ℕ} (ha : a < 2 ^ 64) : subSize a 0 = a := subSize_of_le (Nat.zero_le a) ha

theorem map_bind {α β γ : Type} (x : Exec α) (f : α → Exec β) (g : β → γ) :
    (x.bind f).map g = x.bind fun a => (f a).map g := by
  cases x <;> rfl

theorem bind_map {α β γ : Type} (x : Exec α) (f : α → β) (g : β → Exec γ) :
    (x.map f).bind g = x.bind fun a => g (f a) := by
  cases x <;> rfl

theorem map_eq_ok {α β : Type} {x : Exec α} {f : α → β} {b : β} (h : x.map f = .ok b) :
    ∃ a, x = .ok a ∧ f a = b := by
  cases x with
  | error e => cases h
  | ok a => exact ⟨a, rfl, Except.ok.inj h⟩

theorem bind_eq_ok {α β : Type} {x : Exec α} {f : α → Exec β} {b : β} (h : x.bind f = .ok b) :
    ∃ a, x = .ok a ∧ f a = .ok b := by
  cases x with
  | error e => cases h
  | ok a => exact ⟨a, rfl, h⟩

namespace Blocks

variable {α : Type} {xs : List α} {i j n : ℕ} {a : α}

/-- `realloc`: the common slots are kept, new slots hold `fill`. -/
def resize (fill : α) (n : ℕ) (xs : List α) : List α :=
  xs.take n ++ List.replicate (n - xs.length) fill

/-- `memmove(xs + dst, xs + src, n)` inside one block. -/
def memmove (xs : List α) (dst src n : ℕ) : List α :=
  xs.take dst ++ (xs.drop src).take n ++ xs.drop (dst + n)

@[simp] theorem length_resize (fill : α) (n : ℕ) (xs : List α) : (resize fill n xs).length = n := by
  simp only [resize, List.length_append, List.length_take, List.length_replicate]
  omega

theorem take_resize (fill : α) {k : ℕ} (hk : k ≤ xs.length) (hn : k ≤ n) :
    (resize fill n xs).take k = xs.take k := by
  rw [resize, List.take_append_of_le_length (by simp; omega), List.take_take, min_eq_left hn]

/-- The slots from `dst` on, overwritten. -/
def patch (xs : List α) (dst : ℕ) (data : List α) : List α :=
  xs.take dst ++ data ++ xs.drop (dst + data.length)

theorem patch_nil (xs : List α) (dst : ℕ) : patch xs dst [] = xs := by
  simp [patch]

theorem length_patch {dst : ℕ} {data : List α} (h : dst + data.length ≤ xs.length) :
    (patch xs dst data).length = xs.length := by
  simp only [patch, List.length_append, List.length_take, List.length_drop]
  omega

theorem getElem?_patch {dst : ℕ} {data : List α} (h : dst + data.length ≤ xs.length) (i : ℕ) :
    (patch xs dst data)[i]? =
      if dst ≤ i ∧ i < dst + data.length then data[i - dst]? else xs[i]? := by
  have htake : (xs.take dst).length = dst := by
    rw [List.length_take]
    omega
  rw [patch, List.append_assoc]
  by_cases hlow : i < dst
  · rw [if_neg (by omega), List.getElem?_append_left (by omega), List.getElem?_take_of_lt hlow]
  · rw [List.getElem?_append_right (by omega), htake]
    by_cases hhigh : i < dst + data.length
    · rw [if_pos ⟨by omega, hhigh⟩, List.getElem?_append_left (by omega)]
    · rw [if_neg (by omega), List.getElem?_append_right (by omega), List.getElem?_drop]
      congr 1
      omega

theorem length_memmove {dst src : ℕ} (hs : src + n ≤ xs.length) (hd : dst + n ≤ xs.length) :
    (memmove xs dst src n).length = xs.length := by
  simp only [memmove, List.length_append, List.length_take, List.length_drop]
  omega

/-- Moving the tail down by one slot erases the slot it moves onto. -/
theorem take_memmove_down (hj : j < n) (hn : n ≤ xs.length) :
    (memmove xs j (j + 1) (n - j - 1)).take (n - 1) = (xs.take n).eraseIdx j := by
  have hlen : (xs.take j ++ (xs.drop (j + 1)).take (n - j - 1)).length = n - 1 := by
    simp only [List.length_append, List.length_take, List.length_drop]
    omega
  rw [memmove, List.take_left' hlen, List.eraseIdx_eq_take_drop_succ, List.take_take,
    min_eq_left (by omega), List.drop_take, Nat.sub_sub]

theorem take_succ_set (h : i < xs.length) (a : α) :
    (xs.set i a).take (i + 1) = xs.take i ++ [a] := by
  rw [List.take_succ_eq_append_getElem (by simpa using h), List.getElem_set_self,
    List.take_set_of_le (le_refl i)]

/-- Moving the tail up by one slot makes room for an element. -/
theorem take_memmove_up (hj : j ≤ n) (hn : n < xs.length) (a : α) :
    ((memmove xs (j + 1) j (n - j)).set j a).take (n + 1) =
      (xs.take n).take j ++ a :: (xs.take n).drop j := by
  have hfront : (xs.take (j + 1)).length = j + 1 := by
    rw [List.length_take]
    omega
  have hset : (memmove xs (j + 1) j (n - j)).set j a =
      (xs.take j ++ a :: (xs.drop j).take (n - j)) ++ xs.drop (j + 1 + (n - j)) := by
    rw [memmove, List.set_append_left _ _ (by simp; omega),
      List.set_append_left _ _ (by omega), List.take_succ_eq_append_getElem (by omega),
      List.set_append_right _ _ (by simp)]
    simp [min_eq_left (by omega : j ≤ xs.length)]
  have hlen : (xs.take j ++ a :: (xs.drop j).take (n - j)).length = n + 1 := by
    simp only [List.length_append, List.length_take, List.length_cons, List.length_drop]
    omega
  rw [hset, List.take_left' hlen, List.take_take, min_eq_left hj, List.drop_take]

/-! ## Checked access -/

/-- No object has more than `PTRDIFF_MAX` bytes, whatever the allocator would say. -/
def granted (ok : Bool) (size : ℕ) : Bool := ok && decide (size < 2 ^ 63)

/-- The slots of `es` bytes in an allocation of `n * es` bytes, a product of `size_t` values. -/
def slotsOf (es n : ℕ) : ℕ := wrap (n * es) / es

theorem slotsOf_eq {es : ℕ} (hes : 0 < es) (h : n * es < 2 ^ 64) : slotsOf es n = n := by
  rw [slotsOf, wrap_of_lt h, Nat.mul_div_cancel n hes]

theorem slotsOf_le (es n : ℕ) : slotsOf es n ≤ n := by
  calc wrap (n * es) / es ≤ n * es / es := Nat.div_le_div_right (Nat.mod_le _ _)
    _ ≤ n := Nat.div_le_of_le_mul (Nat.mul_comm n es).le

def readSlot (xs : List α) (i : ℕ) : Exec α :=
  match xs[i]? with
  | some a => .ok a
  | none => .error .outOfBounds

def writeSlot (xs : List α) (i : ℕ) (a : α) : Exec (List α) :=
  if i < xs.length then .ok (xs.set i a) else .error .outOfBounds

/-- `memmove(xs + dst, xs + src, n)` -/
def moveSlots (xs : List α) (dst src n : ℕ) : Exec (List α) :=
  if src + n ≤ xs.length ∧ dst + n ≤ xs.length then .ok (memmove xs dst src n)
  else .error .outOfBounds

/-- `memcpy(xs + dst, data, n)`, with the slots to write as a list. -/
def writeSlots (xs : List α) (dst : ℕ) (data : List α) : Exec (List α) :=
  if dst + data.length ≤ xs.length then .ok (patch xs dst data) else .error .outOfBounds

/-- `memcpy(data, xs + src, n)` -/
def readSlots (xs : List α) (src n : ℕ) : Exec (List α) :=
  if src + n ≤ xs.length then .ok ((xs.drop src).take n) else .error .outOfBounds

theorem readSlot_eq (h : xs[i]? = some a) : readSlot xs i = .ok a := by
  simp only [readSlot, h]

theorem writeSlot_eq (h : i < xs.length) (a : α) : writeSlot xs i a = .ok (xs.set i a) := if_pos h

variable {ys data : List α}

theorem length_of_writeSlot (h : writeSlot xs i a = .ok ys) : ys.length = xs.length := by
  unfold writeSlot at h
  split_ifs at h
  rw [← Except.ok.inj h, List.length_set]

theorem length_of_writeSlots (h : writeSlots xs i data = .ok ys) : ys.length = xs.length := by
  unfold writeSlots at h
  split_ifs at h with hfits
  rw [← Except.ok.inj h, length_patch hfits]

theorem length_of_moveSlots (h : moveSlots xs i j n = .ok ys) : ys.length = xs.length := by
  unfold moveSlots at h
  split_ifs at h with hfits
  rw [← Except.ok.inj h, length_memmove hfits.1 hfits.2]

end Blocks
end LibZenit
