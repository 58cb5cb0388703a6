import LibZenit.Blocks

/-!
# Reallocation with and without a `realloc_fn`

`zenit_allocator_realloc` calls the allocator's own function if there is one. Without it a new block
is allocated and the smaller of the two sizes is copied to it.
-/
namespace LibZenit.Reallocation
open Blocks

variable {α : Type}

def zenitAllocatorRealloc (hasRealloc : Bool) (fill : α) (old : List α) (oldSlots newSlots : ℕ) :
    Exec (List α) :=
  if hasRealloc then .ok (resize fill newSlots old)
  else (readSlots old 0 (min oldSlots newSlots)).bind (writeSlots (List.replicate newSlots fill) 0)

/-- A caller that reports the size of its old block gets the same new block either way. -/
theorem zenitAllocatorRealloc_eq (hasRealloc : Bool) (fill : α) (old : List α) (newSlots : ℕ) :
    zenitAllocatorRealloc hasRealloc fill old old.length newSlots =
      .ok (resize fill newSlots old) := by
  cases hasRealloc with
  | true => rfl
  | false =>
    have hread : readSlots old 0 (min old.length newSlots) = .ok (old.take newSlots) := by
      rw [readSlots, if_pos (by omega), List.drop_zero]
      congr 1
      by_cases hle : old.length ≤ newSlots
      · rw [min_eq_left hle, List.take_length, List.take_of_length_le hle]
      · rw [min_eq_right (by omega)]
    have hlen : (old.take newSlots).length ≤ newSlots := by simp
    rw [zenitAllocatorRealloc, if_neg (by simp), hread]
    simp only [Except.bind]
    rw [writeSlots, if_pos (by simp), patch, resize]
    simp
    omega

/-- A caller that reports slots of its old block keeps these either way. -/
theorem zenitAllocatorRealloc_keeps {old : List α} {oldSlots : ℕ} (hold : oldSlots ≤ old.length)
    (hasRealloc : Bool) (fill : α) (newSlots : ℕ) :
    ∃ new, zenitAllocatorRealloc hasRealloc fill old oldSlots newSlots = .ok new ∧
      new.take oldSlots = old.take (min oldSlots newSlots) := by
  cases hasRealloc with
  | true =>
    refine ⟨resize fill newSlots old, rfl, ?_⟩
    -- the new slots lie behind those reported, or there are none
    have hnew : (List.replicate (newSlots - old.length) fill).take
        (oldSlots - (old.take newSlots).length) = [] := by
      simp
      omega
    rw [resize, List.take_append, hnew, List.append_nil, List.take_take]
  | false =>
    have hread : readSlots old 0 (min oldSlots newSlots) =
        .ok (old.take (min oldSlots newSlots)) := by
      rw [readSlots, if_pos (by omega), List.drop_zero]
    have hlen : (old.take (min oldSlots newSlots)).length = min oldSlots newSlots := by
      rw [List.length_take]
      omega
    have hwrite : writeSlots (List.replicate newSlots fill) 0 (old.take (min oldSlots newSlots)) =
        .ok (old.take (min oldSlots newSlots) ++
          List.replicate (newSlots - min oldSlots newSlots) fill) := by
      rw [writeSlots, if_pos (by rw [hlen, List.length_replicate]; omega), patch, hlen]
      simp
    refine ⟨_, by rw [zenitAllocatorRealloc, if_neg (by simp), hread]; exact hwrite, ?_⟩
    have hrest : (List.replicate (newSlots - min oldSlots newSlots) fill).take
        (oldSlots - (old.take (min oldSlots newSlots)).length) = [] := by
      rw [hlen]
      simp
      omega
    rw [List.take_append, hrest, List.append_nil, List.take_take]
    congr 1
    omega

end LibZenit.Reallocation
