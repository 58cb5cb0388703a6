import Mathlib.Tactic

/-!
# Checked arrays

Arrays are lists of slots. A read is `xs[i]?`; `store` is the write. Both fail outside the bounds.
-/
namespace LibZenit.Slots

variable {α : Type*} {xs : List α} {i j : ℕ} {a : α}

def store (xs : List α) (i : ℕ) (a : α) : Option (List α) :=
  if i < xs.length then some (xs.set i a) else none

/-- `for (i = 0; i < n; i++) xs[i] = f(i);` -/
def storeAll (f : ℕ → α) (n : ℕ) (xs : List α) : Option (List α) :=
  (List.range n).foldlM (fun xs i => store xs i (f i)) xs

theorem store_eq (h : i < xs.length) (a : α) : store xs i a = some (xs.set i a) := if_pos h

theorem storeAll_take (f : ℕ → α) {n : ℕ} (hn : n ≤ xs.length) :
    storeAll f n xs = some ((List.range n).map f ++ xs.drop n) := by
  induction n with
  | zero => simp [storeAll]
  | succ n ih =>
    have ih := ih (by omega)
    unfold storeAll at ih ⊢
    have hlen : ((List.range n).map f).length = n := by simp
    rw [List.range_succ, List.foldlM_append, ih]
    simp only [Option.bind_eq_bind, Option.bind_some, List.foldlM_cons, List.foldlM_nil]
    have hdrop : (xs.drop n).set 0 (f n) = f n :: xs.drop (n + 1) := by
      rw [List.drop_eq_getElem_cons (by omega : n < xs.length), List.set_cons_zero]
    rw [store_eq (by simp; omega), List.set_append_right _ _ (by simp), hlen, Nat.sub_self, hdrop]
    simp

theorem storeAll_eq (f : ℕ → α) {n : ℕ} (hn : xs.length = n) :
    storeAll f n xs = some ((List.range n).map f) := by
  rw [storeAll_take f (by omega), ← hn]
  simp

/-- An array read as a total function with a default outside the bounds. -/
def slot (d : α) (xs : List α) (i : ℕ) : α := xs[i]?.getD d

theorem getElem?_eq_slot (d : α) (h : i < xs.length) : xs[i]? = some (slot d xs i) := by
  simp [slot, List.getElem?_eq_getElem h]

theorem slot_eq_of_getElem? {d : α} (h : xs[i]? = some a) : slot d xs i = a := by
  simp [slot, h]

theorem slot_set {d : α} (h : i < xs.length) (j : ℕ) :
    slot d (xs.set i a) j = if j = i then a else slot d xs j := by
  unfold slot
  by_cases hj : j = i
  · subst hj
    simp [List.getElem?_set_self h]
  · rw [List.getElem?_set_ne (fun he => hj he.symm), if_neg hj]

theorem slot_map_range {d : α} (f : ℕ → α) {n : ℕ} (h : i < n) :
    slot d ((List.range n).map f) i = f i := by
  simp [slot, h]

end LibZenit.Slots
