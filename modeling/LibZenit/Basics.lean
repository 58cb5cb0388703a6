import Mathlib.Tactic

/-!
# Result codes and `size_t`

The result struct of the library has the error code as its only field, so the code itself stands
for it. Sizes are natural numbers; `wrap` marks the places where the 64-bit type truncates.
-/
namespace LibZenit

inductive ZenitError where
  | ok
  | null
  | alloc
  | param
  | notFound
  | corrupt
  | doubleFree
  | state
  | size
  | full
  | empty
  | overflow
  deriving DecidableEq, Repr

def sizeMax : ℕ := 2 ^ 64 - 1

def wrap (n : ℕ) : ℕ := n % 2 ^ 64

theorem wrap_of_lt {n : ℕ} (h : n < 2 ^ 64) : wrap n = n := Nat.mod_eq_of_lt h

end LibZenit
