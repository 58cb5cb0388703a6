import LibZenit.DequeModel
import LibZenit.HeapModel
import LibZenit.VectorModel

/-!
# Which containers can grow

Every caller of `grow` asks for one slot more than the block has: `zenit_vector_insert` writes the
request as `count + 1`, in a block that is full.
-/
namespace LibZenit.GrowthTermination
open Growth

variable {α : Type} [Inhabited α]

/-- The loop ends with room for the request if and only if the block has not just one slot. -/
theorem growth_terminates_iff :
    (∀ v : Vectors.Vector α, Vectors.Reachable v → v.capacity < 2 ^ 62 →
      (Grows (wrap (v.capacity + 1)) v.capacity ↔ v.capacity ≠ 1) ∧
      (v.count = v.capacity → (Grows (wrap (v.count + 1)) v.capacity ↔ v.capacity ≠ 1))) ∧
    (∀ d : Deques.Deque α, Deques.Reachable d → d.capacity < 2 ^ 62 →
      (Grows (wrap (d.capacity + 1)) d.capacity ↔ d.capacity ≠ 1)) ∧
    (∀ h : Heaps.Heap α, Heaps.Reachable h → h.capacity < 2 ^ 62 →
      (Grows (wrap (h.capacity + 1)) h.capacity ↔ h.capacity ≠ 1)) := by
  refine ⟨fun v _ hv => ⟨grows_iff hv, fun hfull => ?_⟩, fun d _ hd => grows_iff hd,
    fun h _ hh => grows_iff hh⟩
  rw [hfull]
  exact grows_iff hv

/-- A full vector hangs in the growth loop. -/
theorem withRoom_hangs {v : Vectors.Vector α} {m fuel : ℕ} (hfull : v.count = v.capacity)
    (hloop : growLoop m fuel v.capacity = .error .hang) (ok : Bool)
    (go : Vectors.Vector α → Exec (Vectors.Vector α × Reply α)) :
    Vectors.withRoom fuel ok v m go = .error .hang := by
  rw [Vectors.withRoom, if_pos hfull, Vectors.grow, hloop]
  rfl

/-- A vector of four-byte elements that is full with the elements of `xs`. -/
def fullVector (xs : List ℕ) : Vectors.Vector ℕ := ⟨xs, 4, xs.length, xs.length⟩

theorem full_pair_grows :
    Vectors.Reachable (fullVector [5, 6]) ∧ Grows (wrap 3) (fullVector [5, 6]).capacity := by
  have hnew : Vectors.zenitVectorCreateWithCapacity true true 4 2 =
      some (⟨[0, 0], 4, 0, 2⟩ : Vectors.Vector ℕ) := rfl
  have hfirst : Vectors.step 0 ⟨[0, 0], 4, 0, 2⟩ (.push true 5) = .ok (⟨[5, 0], 4, 1, 2⟩, _) := rfl
  have hsecond : Vectors.step 0 ⟨[5, 0], 4, 1, 2⟩ (.push true 6) = .ok (fullVector [5, 6], _) := rfl
  have hreach := ((Vectors.Reachable.withCapacity hnew).step hfirst).step hsecond
  have hgrows := (growth_terminates_iff.1 _ hreach (by decide)).1
  exact ⟨hreach, hgrows.mpr (by decide)⟩

/-- A vector created for one element hangs in the second push. -/
theorem full_single_hangs :
    Vectors.Reachable (fullVector [5]) ∧ (fullVector [5]).capacity < 2 ^ 62 ∧
      ¬Grows (wrap ((fullVector [5]).capacity + 1)) (fullVector [5]).capacity ∧
      ∀ fuel ok x, Vectors.step fuel (fullVector [5]) (.push ok x) = .error .hang := by
  have hnew : Vectors.zenitVectorCreateWithCapacity true true 4 1 =
      some (⟨[0], 4, 0, 1⟩ : Vectors.Vector ℕ) := rfl
  have hpush : Vectors.step 0 ⟨[0], 4, 0, 1⟩ (.push true 5) = .ok (fullVector [5], _) := rfl
  have hreach := (Vectors.Reachable.withCapacity hnew).step hpush
  have hcap : (fullVector [5]).capacity < 2 ^ 62 := by decide
  refine ⟨hreach, hcap, fun h => (grows_iff hcap).mp h rfl, fun fuel ok x => ?_⟩
  have hloop : growLoop (wrap ((fullVector [5]).capacity + 1)) fuel (fullVector [5]).capacity =
      .error .hang := growLoop_one (by decide) fuel
  rw [Vectors.step, Vectors.zenitVectorPush]
  exact withRoom_hangs rfl hloop ok _

end LibZenit.GrowthTermination
