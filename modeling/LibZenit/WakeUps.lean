import Mathlib.Data.Finset.Card
import Mathlib.Tactic.Common

/-!
# Condition variables

A condition variable is the set of the threads that sleep on it. A signal wakes at least one of
them. What keeps a thread from sleeping for ever is a balance: while somebody sleeps, the units of
the resource it waits for are matched by signals that are still to be sent and by threads that are
awake and will test for a unit before they sleep.
-/
namespace LibZenit.WakeUps

variable {ι : Type} {sleepers woken : Finset ι} {units owed awake : ℕ}

/-- What one signal may do: nothing when nobody sleeps, else it wakes some of the sleepers. -/
def MayWake (sleepers woken : Finset ι) : Prop :=
  woken ⊆ sleepers ∧ (sleepers.Nonempty → woken.Nonempty)

instance [DecidableEq ι] : Decidable (MayWake sleepers woken) :=
  inferInstanceAs (Decidable (_ ∧ (_ → _)))

/-- While somebody sleeps, the units are matched by signals owed and threads awake. -/
def Covered (sleepers : Finset ι) (units owed awake : ℕ) : Prop :=
  sleepers.Nonempty → units ≤ owed + awake

theorem covered_empty : Covered (∅ : Finset ι) units owed awake :=
  fun h => absurd h Finset.not_nonempty_empty

/-- A thread falls asleep only when there is no unit. -/
theorem Covered.sleep (hnone : units = 0) : Covered sleepers units owed awake :=
  fun _ => hnone ▸ Nat.zero_le _

/-- A unit is released and its signal owed. -/
theorem Covered.release (h : Covered sleepers units owed awake) :
    Covered sleepers (units + 1) (owed + 1) awake := by
  intro hne
  have hle := h hne
  omega

/-- The signal is sent: whoever it wakes is awake. -/
theorem Covered.signal [DecidableEq ι] (hwake : MayWake sleepers woken)
    (h : Covered sleepers units (owed + 1) awake) :
    Covered (sleepers \ woken) units owed (awake + woken.card) := by
  intro hne
  have hsleeping := hne.mono Finset.sdiff_subset
  have hpos := (hwake.2 hsleeping).card_pos
  have hle := h hsleeping
  omega

theorem Covered.mono {units' owed' awake' : ℕ} {sleepers' : Finset ι}
    (h : Covered sleepers units owed awake) (hsleepers : sleepers' ⊆ sleepers)
    (hunits : units' + (owed + awake) ≤ units + (owed' + awake')) :
    Covered sleepers' units' owed' awake' := by
  intro hne
  have hle := h (hne.mono hsleepers)
  omega

theorem card_sdiff_add_card [DecidableEq ι] (hwake : MayWake sleepers woken) :
    (sleepers \ woken).card + woken.card = sleepers.card :=
  Finset.card_sdiff_add_card_eq_card hwake.1

end LibZenit.WakeUps
