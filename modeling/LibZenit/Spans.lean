import Mathlib.Data.List.TakeWhile
import Mathlib.Tactic

/-!
# Spans

A scanner reads the bytes of a class until one outside it. `Ends cls rest` says that the rest has
no further byte of the class in front.
-/
namespace LibZenit.Spans

variable {α : Type*} {cls : α → Bool} {xs ys rest rest' : List α} {c : α}

def Ends (cls : α → Bool) (rest : List α) : Prop := ∀ c, rest.head? = some c → cls c = false

theorem ends_nil : Ends cls [] := by
  intro c h
  cases h

theorem ends_cons (h : cls c = false) : Ends cls (c :: rest) := by
  intro a ha
  cases ha
  exact h

theorem ends_append (hx : Ends cls xs) (hr : Ends cls rest) : Ends cls (xs ++ rest) := by
  cases xs with
  | nil => exact hr
  | cons a xs => exact ends_cons (hx a rfl)

theorem ends_dropWhile (cls : α → Bool) (xs : List α) : Ends cls (xs.dropWhile cls) := by
  intro c h
  have hnot := List.head?_dropWhile_not cls xs
  rw [h] at hnot
  exact hnot

theorem takeWhile_span (hx : ∀ c ∈ xs, cls c = true) (hr : Ends cls rest) :
    (xs ++ rest).takeWhile cls = xs := by
  rw [List.takeWhile_append_of_pos hx]
  cases rest with
  | nil => simp
  | cons c rest => simp [hr c rfl]

theorem dropWhile_span (hx : ∀ c ∈ xs, cls c = true) (hr : Ends cls rest) :
    (xs ++ rest).dropWhile cls = rest := by
  rw [List.dropWhile_append_of_pos hx]
  cases rest with
  | nil => rfl
  | cons c rest => simp [hr c rfl]

/-- A text splits in one way into a span and what ends it. -/
theorem span_unique (hx : ∀ c ∈ xs, cls c = true) (hr : Ends cls rest)
    (hy : ∀ c ∈ ys, cls c = true) (hr' : Ends cls rest') (h : xs ++ rest = ys ++ rest') :
    xs = ys ∧ rest = rest' := by
  constructor
  · rw [← takeWhile_span hx hr, h, takeWhile_span hy hr']
  · rw [← dropWhile_span hx hr, h, dropWhile_span hy hr']

end LibZenit.Spans
