import Mathlib.Data.List.InsertIdx
import Mathlib.Data.List.Induction
import Mathlib.Tactic.Common

/-!
# Closing and opening a gap in an array

The loops that move a run of slots by one place, over arrays given as lists, and what they amount
to.
-/
namespace LibZenit.ArrayShifts

variable {α : Type} {xs : List α} {i : ℕ}

/-- `xs[to] = xs[from]` -/
def copySlot (source target : ℕ) (xs : List α) : List α :=
  match xs[source]? with
  | some x => xs.set target x
  | none => xs

/-- `for (k = j; k < j + n; k++) xs[k - 1] = xs[k];` -/
def shiftDown : ℕ → ℕ → List α → List α
  | _, 0, xs => xs
  | j, n + 1, xs => shiftDown (j + 1) n (copySlot j (j - 1) xs)

/-- `for (k = j + n; k > j; k--) xs[k] = xs[k - 1];` -/
def shiftUp (j : ℕ) : ℕ → List α → List α
  | 0, xs => xs
  | n + 1, xs => shiftUp j n (copySlot (j + n) (j + n + 1) xs)

theorem copySlot_append_cons (xs ys : List α) (x y : α) :
    copySlot (xs.length + 1) xs.length (xs ++ x :: y :: ys) = xs ++ y :: y :: ys := by
  unfold copySlot
  simp

/-- The slots behind the gap move down by one, and the last one stands twice. -/
theorem shiftDown_append (front ys : List α) (x : α) :
    (shiftDown (front.length + 1) ys.length (front ++ x :: ys)).take (front.length + ys.length) =
      front ++ ys := by
  induction ys generalizing front x with
  | nil => simp [shiftDown]
  | cons y ys ih =>
    rw [List.length_cons, shiftDown, Nat.add_sub_cancel, copySlot_append_cons]
    have hrest := ih (front ++ [y]) y
    rw [List.append_assoc, List.length_append, List.length_singleton] at hrest
    simpa [Nat.add_assoc, Nat.add_comm 1] using hrest

/-- Closing the gap at `i` and dropping the last slot. -/
theorem shiftDown_eraseIdx (hi : i < xs.length) :
    (shiftDown (i + 1) (xs.length - (i + 1)) xs).take (xs.length - 1) = xs.eraseIdx i := by
  obtain ⟨front, x, ys, rfl, rfl⟩ : ∃ front x ys, xs = front ++ x :: ys ∧ front.length = i :=
    ⟨xs.take i, xs[i], xs.drop (i + 1), by simp, by simp [Nat.le_of_lt hi]⟩
  have hlen : (front ++ x :: ys).length - (front.length + 1) = ys.length := by simp; omega
  have hkeep : (front ++ x :: ys).length - 1 = front.length + ys.length := by simp
  rw [hlen, hkeep, shiftDown_append, List.eraseIdx_append_of_length_le (Nat.le_refl _)]
  simp

theorem copySlot_append_last (xs ys : List α) (x y : α) :
    copySlot xs.length (xs.length + 1) (xs ++ x :: y :: ys) = xs ++ x :: x :: ys := by
  unfold copySlot
  simp

/-- The slots from the gap on move up by one, over the slot behind the last. -/
theorem shiftUp_append (front ys rest : List α) (y : α) :
    ∃ x, shiftUp front.length ys.length (front ++ ys ++ y :: rest) = front ++ x :: ys ++ rest := by
  induction ys using List.reverseRecOn generalizing y rest with
  | nil => exact ⟨y, by simp [shiftUp]⟩
  | append_singleton ys x ih =>
    obtain ⟨z, hz⟩ := ih (x :: rest) x
    refine ⟨z, ?_⟩
    have hcopy := copySlot_append_last (front ++ ys) rest x y
    rw [List.length_append] at hcopy
    rw [List.length_append, List.length_singleton, shiftUp]
    simp only [List.append_assoc, List.cons_append, List.nil_append] at hcopy hz ⊢
    rw [hcopy, hz]

theorem insertIdx_append (front ys : List α) (x : α) :
    (front ++ ys).insertIdx front.length x = front ++ x :: ys := by
  induction front with
  | nil => rfl
  | cons y front ih => simpa using ih

/-- Opening the gap at `i` and filling it. -/
theorem shiftUp_insertIdx (hi : i ≤ xs.length) (last x : α) :
    (shiftUp i (xs.length - i) (xs ++ [last])).set i x = xs.insertIdx i x := by
  obtain ⟨front, ys, rfl, rfl⟩ : ∃ front ys, xs = front ++ ys ∧ front.length = i :=
    ⟨xs.take i, xs.drop i, by simp, by simp [hi]⟩
  obtain ⟨z, hz⟩ := shiftUp_append front ys [] last
  have hlen : (front ++ ys).length - front.length = ys.length := by simp
  rw [hlen, hz, insertIdx_append]
  simp

end LibZenit.ArrayShifts
