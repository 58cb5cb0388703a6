import Mathlib.Tactic
import Mathlib.Data.Set.Card

/-!
# Finite maps

Partial functions with the set of the arguments they bind.
-/
namespace LibZenit.FiniteMaps

variable {α β : Type}

def domain (m : α → Option β) : Set α := { a | (m a).isSome }

theorem domain_empty : domain (fun _ : α => (none : Option β)) = ∅ := by
  ext x
  simp [domain]

variable [DecidableEq α]

theorem domain_update_some (m : α → Option β) (a : α) (b : β) :
    domain (Function.update m a (some b)) = insert a (domain m) := by
  ext x
  by_cases hx : x = a
  · subst hx
    simp [domain]
  · simp [domain, hx]

theorem domain_update_none (m : α → Option β) (a : α) :
    domain (Function.update m a none) = domain m \ {a} := by
  ext x
  by_cases hx : x = a
  · subst hx
    simp [domain]
  · simp [domain, hx]

end LibZenit.FiniteMaps
