import LibZenit.HashCommon
import LibZenit.SpscSafety

/-!
# The capacity of a single-producer single-consumer queue

`zenit_spsc_create` rounds the low 32 bits of the capacity it is asked for. Up to `2 ^ 31` that
gives the slots that the free-running indices need.
-/
namespace LibZenit.Spsc
open HashCommon FreeRunning

def roundPow2U32 (v : BitVec 32) : BitVec 32 :=
  let v := v - 1
  let v := v ||| v >>> 1
  let v := v ||| v >>> 2
  let v := v ||| v >>> 4
  let v := v ||| v >>> 8
  let v := v ||| v >>> 16
  v + 1

/-- The queue as `zenit_spsc_create` returns it, `buffer` being the size of the block. -/
structure Handle where
  buffer : ℕ
  capacity : ℕ
  elemSize : ℕ
  head : BitVec 32
  tail : BitVec 32
  deriving DecidableEq

/-- `handle` and `buffer` are the outcomes of the two requests for memory. -/
def zenitSpscCreate (handle buffer : Bool) (elemSize capacity : ℕ) : Option Handle :=
  if elemSize = 0 ∨ capacity = 0 then none
  else
    let cap := roundPow2U32 (BitVec.ofNat 32 capacity)
    let cap := if cap = 0 then BitVec.ofNat 32 capacity else cap
    if !handle then none
    else if !buffer then none
    else some ⟨wrap (elemSize * cap.toNat), cap.toNat, elemSize, 0, 0⟩

variable {elemSize capacity : ℕ} {handle buffer : Bool} {spsc : Handle} {v : BitVec 32}

/-! ## Rounding -/

theorem roundPow2U32_toNat (hv : v ≠ 0) :
    (roundPow2U32 v).toNat = 2 ^ (v.toNat - 1).size % 2 ^ 32 := by
  have hlt := v.isLt
  have hpos : 1 ≤ v.toNat := by
    by_contra h
    exact hv (BitVec.eq_of_toNat_eq (by simp; omega))
  have hdec : (v - 1).toNat = v.toNat - 1 := by
    rw [BitVec.toNat_sub]
    simp
    omega
  have hone : Smeared (v.toNat - 1) (v.toNat - 1) 1 := by
    intro i
    simp
  have hones := hone.double.double.double.double.double.eq_ones (by omega)
  have hsize : 0 < 2 ^ (v.toNat - 1).size := by positivity
  unfold roundPow2U32
  simp only [BitVec.toNat_add, BitVec.toNat_or, BitVec.toNat_ushiftRight, hdec] at hones ⊢
  have honeBit : (1 : BitVec 32).toNat = 1 := rfl
  rw [hones, honeBit, Nat.sub_add_cancel hsize]

theorem toNat_ofNat_request (hlt : capacity < 2 ^ 32) :
    (BitVec.ofNat 32 capacity).toNat = capacity := by
  rw [BitVec.toNat_ofNat, Nat.mod_eq_of_lt hlt]

/-- The rounding of a request that is not truncated. -/
theorem roundPow2U32_request (hpos : 0 < capacity) (hlt : capacity < 2 ^ 32) :
    (roundPow2U32 (BitVec.ofNat 32 capacity)).toNat = 2 ^ (capacity - 1).size % 2 ^ 32 := by
  have htoNat := toNat_ofNat_request hlt
  have hne : BitVec.ofNat 32 capacity ≠ 0 := by
    intro h
    have hzero : (0 : BitVec 32).toNat = 0 := rfl
    rw [h, hzero] at htoNat
    omega
  rw [roundPow2U32_toNat hne, htoNat]

/-- What a call that succeeds returns. -/
theorem create_some (hs : zenitSpscCreate handle buffer elemSize capacity = some spsc) :
    0 < capacity ∧ spsc.elemSize = elemSize ∧ spsc.buffer = wrap (elemSize * spsc.capacity) ∧
      spsc.capacity = (if roundPow2U32 (BitVec.ofNat 32 capacity) = 0 then
        BitVec.ofNat 32 capacity else roundPow2U32 (BitVec.ofNat 32 capacity)).toNat := by
  unfold zenitSpscCreate at hs
  split_ifs at hs with hzero hhandle hbuffer
  obtain rfl := Option.some.inj hs
  exact ⟨by omega, rfl, rfl, rfl⟩

theorem create_capacity (hs : zenitSpscCreate handle buffer elemSize capacity = some spsc)
    (hle : capacity ≤ 2 ^ 31) : spsc.capacity = 2 ^ (capacity - 1).size := by
  obtain ⟨hpos, -, -, hcap⟩ := create_some hs
  have hsize : (capacity - 1).size ≤ 31 := Nat.size_le.mpr (by omega)
  have hpow : 2 ^ (capacity - 1).size ≤ 2 ^ 31 := Nat.pow_le_pow_right (by norm_num) hsize
  have hpow' : 0 < 2 ^ (capacity - 1).size := by positivity
  have hround := roundPow2U32_request hpos (by omega)
  rw [Nat.mod_eq_of_lt (by omega)] at hround
  have hne : roundPow2U32 (BitVec.ofNat 32 capacity) ≠ 0 := by
    intro h
    have hzero : (0 : BitVec 32).toNat = 0 := rfl
    rw [h, hzero] at hround
    omega
  rw [hcap, if_neg hne, hround]

/-- Between `2 ^ 31` and `2 ^ 32` the rounding wraps to zero, and the capacity stays as it is. -/
theorem create_capacity_high (hs : zenitSpscCreate handle buffer elemSize capacity = some spsc)
    (hlow : 2 ^ 31 < capacity) (hhigh : capacity < 2 ^ 32) : spsc.capacity = capacity := by
  obtain ⟨hpos, -, -, hcap⟩ := create_some hs
  have hge : 31 < (capacity - 1).size := Nat.lt_size.mpr (by omega)
  have hle : (capacity - 1).size ≤ 32 := Nat.size_le.mpr (by omega)
  have hsize : (capacity - 1).size = 32 := by omega
  have hround := roundPow2U32_request hpos hhigh
  rw [hsize, Nat.mod_self] at hround
  rw [hcap, if_pos (BitVec.eq_of_toNat_eq hround), toNat_ofNat_request hhigh]

/-! ## Slots -/

/-- What the indices need of the queue that was made for `requested` elements. -/
structure SlotsSound (requested : ℕ) (spsc : Handle) : Prop where
  power : spsc.capacity.isPowerOfTwo
  enough : requested ≤ spsc.capacity
  distinct : ∀ first : BitVec 32, Set.InjOn
    (fun i => slotOf spsc.capacity (first + BitVec.ofNat 32 i)) (Set.Iio spsc.capacity)
  bound : ∀ index : BitVec 32, slotOf spsc.capacity index < spsc.capacity

/-- Every slot lies in the block. -/
def InBlock (spsc : Handle) : Prop :=
  ∀ index : BitVec 32, (slotOf spsc.capacity index + 1) * spsc.elemSize ≤ spsc.buffer

theorem slotOf_eq (hcap : PowerOfTwo capacity) (index : BitVec 32) :
    slotOf capacity index = index.toNat % capacity := by
  rw [← slotOf_ofNat hcap, BitVec.ofNat_toNat, BitVec.setWidth_eq]

theorem slotOf_lt (hcap : PowerOfTwo capacity) (index : BitVec 32) :
    slotOf capacity index < capacity := by
  obtain ⟨k, -, hk⟩ := id hcap
  rw [slotOf_eq hcap]
  exact Nat.mod_lt _ (by rw [hk]; positivity)

theorem slotOf_injOn (hcap : PowerOfTwo capacity) (first : BitVec 32) :
    Set.InjOn (fun i => slotOf capacity (first + BitVec.ofNat 32 i)) (Set.Iio capacity) := by
  have hslot (i : ℕ) :
      slotOf capacity (first + BitVec.ofNat 32 i) = (first.toNat + i) % capacity := by
    rw [← slotOf_ofNat hcap, BitVec.ofNat_add, BitVec.ofNat_toNat, BitVec.setWidth_eq]
  intro i hi j hj hij
  rw [Set.mem_Iio] at hi hj
  simp only [hslot] at hij
  by_contra hne
  rcases Nat.lt_or_gt_of_ne hne with hlt | hlt
  · exact slot_ne (by omega) (by omega) hij
  · exact slot_ne (by omega) (by omega) hij.symm

theorem create_powerOfTwo (hs : zenitSpscCreate handle buffer elemSize capacity = some spsc)
    (hle : capacity ≤ 2 ^ 31) : PowerOfTwo spsc.capacity :=
  ⟨(capacity - 1).size, Nat.size_le.mpr (by have := (create_some hs).1; omega),
    create_capacity hs hle⟩

theorem create_sound (hs : zenitSpscCreate handle buffer elemSize capacity = some spsc)
    (hle : capacity ≤ 2 ^ 31) : SlotsSound capacity spsc where
  power := ⟨_, create_capacity hs hle⟩
  enough := by
    have hlt := Nat.lt_size_self (capacity - 1)
    rw [create_capacity hs hle]
    omega
  distinct := slotOf_injOn (create_powerOfTwo hs hle)
  bound := slotOf_lt (create_powerOfTwo hs hle)

theorem le_of_sound (hs : zenitSpscCreate handle buffer elemSize capacity = some spsc)
    (h : SlotsSound capacity spsc) : capacity ≤ 2 ^ 31 := by
  by_contra hlow
  have henough := h.enough
  obtain ⟨k, hk⟩ := h.power
  by_cases hhigh : capacity < 2 ^ 32
  · -- no power of two lies between the two bounds
    rw [create_capacity_high hs (by omega) hhigh] at hk
    have hlt : 31 < k := (Nat.pow_lt_pow_iff_right (by norm_num)).mp (hk ▸ not_le.mp hlow)
    have hgt : k < 32 := (Nat.pow_lt_pow_iff_right (by norm_num)).mp (hk ▸ hhigh)
    omega
  · have hcap : spsc.capacity < 2 ^ 32 := by
      rw [(create_some hs).2.2.2]
      exact BitVec.isLt _
    omega

theorem inBlock_iff (hs : zenitSpscCreate handle buffer elemSize capacity = some spsc)
    (hle : capacity ≤ 2 ^ 31) : InBlock spsc ↔ elemSize * 2 ^ (capacity - 1).size < 2 ^ 64 := by
  have hcap := create_powerOfTwo hs hle
  have hlt := hcap.lt
  have hpos : 0 < spsc.capacity := (slotOf_lt hcap 0).pos
  obtain ⟨-, hsize, hbuffer, -⟩ := create_some hs
  rw [← create_capacity hs hle, InBlock, hbuffer, hsize]
  constructor
  · intro h
    -- the last slot ends where the block does
    have hlast := h (BitVec.ofNat 32 (spsc.capacity - 1))
    rw [slotOf_ofNat hcap, Nat.mod_eq_of_lt (by omega), Nat.sub_add_cancel hpos,
      Nat.mul_comm] at hlast
    exact hlast.trans_lt (Nat.mod_lt _ (by norm_num))
  · intro h index
    rw [wrap_of_lt h, Nat.mul_comm]
    exact Nat.mul_le_mul_left _ (slotOf_lt hcap index)

/-- Rounding serves the indices exactly up to `2 ^ 31`, and the block holds the slots exactly where
its size does not wrap either. -/
theorem create_slots_iff (hs : zenitSpscCreate handle buffer elemSize capacity = some spsc) :
    (SlotsSound capacity spsc ↔ capacity ≤ 2 ^ 31) ∧
    (SlotsSound capacity spsc ∧ InBlock spsc ↔
      capacity ≤ 2 ^ 31 ∧ elemSize * 2 ^ (capacity - 1).size < 2 ^ 64) := by
  have hsound : SlotsSound capacity spsc ↔ capacity ≤ 2 ^ 31 := ⟨le_of_sound hs, create_sound hs⟩
  refine ⟨hsound, ?_⟩
  rw [hsound]
  exact and_congr_right fun hle => inBlock_iff hs hle

theorem create_slots_five : ∃ spsc, zenitSpscCreate true true 4 5 = some spsc ∧
    SlotsSound 5 spsc ∧ InBlock spsc :=
  ⟨⟨32, 8, 4, 0, 0⟩, by decide, (@create_slots_iff 4 5 true true _ (by decide)).2.mpr
    (by decide)⟩

/-- A request for `2 ^ 32` elements is granted, with no slot at all. -/
theorem truncated_request : ∃ spsc, zenitSpscCreate true true 4 (2 ^ 32) = some spsc ∧
    spsc.capacity = 0 ∧ ¬SlotsSound (2 ^ 32) spsc := by
  refine ⟨⟨0, 0, 4, 0, 0⟩, by decide, rfl, fun h => ?_⟩
  exact absurd h.enough (by decide)

end LibZenit.Spsc
