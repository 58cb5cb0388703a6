import LibZenit.Blocks

/-!
# The growth loop

`vector.c`, `deque.c` and `heap.c` share the loop that looks for a sufficient capacity: one and a
half times the old one, and eight slots for none. A fuel bounds its rounds.
-/
namespace LibZenit.Growth

def growthFactor (n : ℕ) : ℕ := if n = 0 then 8 else n + n / 2

def nextCapacity (newCap : ℕ) : ℕ := wrap (growthFactor newCap)

/-- `while (new_cap < min_capacity)` -/
def growLoop (minCapacity : ℕ) : ℕ → ℕ → Exec ℕ
  | 0, _ => .error .hang
  | fuel + 1, newCap =>
    if newCap < minCapacity then growLoop minCapacity fuel (nextCapacity newCap) else .ok newCap

/-- The loop ends with a sufficient capacity. -/
def Grows (minCapacity capacity : ℕ) : Prop :=
  ∃ fuel newCap, growLoop minCapacity fuel capacity = .ok newCap ∧ minCapacity ≤ newCap

variable {n : ℕ}

theorem nextCapacity_one : nextCapacity 1 = 1 := by decide

theorem growLoop_one {m : ℕ} (hm : 1 < m) (fuel : ℕ) : growLoop m fuel 1 = .error .hang := by
  induction fuel with
  | zero => rfl
  | succ fuel ih => rw [growLoop, if_pos hm, nextCapacity_one, ih]

theorem lt_growthFactor (hone : n ≠ 1) : n < growthFactor n := by
  unfold growthFactor
  split_ifs <;> omega

theorem le_growthFactor (n : ℕ) : n ≤ growthFactor n := by
  unfold growthFactor
  split_ifs <;> omega

/-- From any capacity but one, a single round makes room for one more slot. -/
theorem growLoop_succ (hone : n ≠ 1) (h : growthFactor n < 2 ^ 64) (fuel : ℕ) :
    growLoop (n + 1) (fuel + 2) n = .ok (growthFactor n) := by
  have hlt := lt_growthFactor hone
  have hnext : nextCapacity n = growthFactor n := wrap_of_lt h
  rw [growLoop, if_pos (by omega), growLoop, hnext, if_neg (by omega)]

/-- One slot and half of it is one slot. -/
theorem grows_iff (h : n < 2 ^ 62) : Grows (wrap (n + 1)) n ↔ n ≠ 1 := by
  rw [wrap_of_lt (by omega)]
  constructor
  · rintro ⟨fuel, newCap, hloop, -⟩ rfl
    rw [growLoop_one (by omega)] at hloop
    cases hloop
  · intro hone
    have hfits : growthFactor n < 2 ^ 64 := by
      unfold growthFactor
      split_ifs <;> omega
    exact ⟨2, growthFactor n, growLoop_succ hone hfits 0, lt_growthFactor hone⟩

end LibZenit.Growth
