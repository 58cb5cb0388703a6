import LibZenit.CircularBuffer
import LibZenit.RingModel

/-!
# The ring buffer is a bounded queue of bytes

A reserve that leaves no room stores the end of the buffer as the head, outside of its documented
range. The next push takes its bytes in one chunk from there, which is empty, and goes on at the
front; the modulus then brings the head back.
-/
namespace LibZenit.Rings
open Blocks CircularBuffer

variable {ring ring' : Ring}

/-! ## The queue -/

structure Queue where
  capacity : ℕ
  bytes : List UInt8

def resized (ok : Bool) (newCapacity : ℕ) (q : Queue) : Reply (List UInt8) × Queue :=
  if newCapacity = 0 then (⟨.param, none⟩, q)
  else if granted ok newCapacity then (⟨.ok, none⟩, ⟨newCapacity, q.bytes.take newCapacity⟩)
  else (⟨.alloc, none⟩, q)

/-- What a call does to the queue. -/
def queueStep : Op → Queue → Reply (List UInt8) × Queue
  | .push data, q =>
    if data = [] then (⟨.param, none⟩, q)
    else if q.bytes.length + data.length ≤ q.capacity then
      (⟨.ok, none⟩, { q with bytes := q.bytes ++ data })
    else (⟨.full, none⟩, q)
  | .pop size, q =>
    if size = 0 then (⟨.param, none⟩, q)
    else if q.bytes = [] then (⟨.empty, none⟩, q)
    else (⟨.ok, some (q.bytes.take size)⟩, { q with bytes := q.bytes.drop size })
  | .peek size, q =>
    if size = 0 then (⟨.param, none⟩, q)
    else if q.bytes = [] then (⟨.empty, none⟩, q)
    else (⟨.ok, some (q.bytes.take size)⟩, q)
  | .clear, q => (⟨.ok, none⟩, { q with bytes := [] })
  | .reserve ok newCapacity, q => resized ok newCapacity q
  | .shrinkToFit ok, q => resized ok (max q.bytes.length 1) q

def Conforms (q : Queue) (op : Op) (reply : Reply (List UInt8)) (q' : Queue) : Prop :=
  (reply, q') = queueStep op q

/-- The sum of sizes that a push computes does not wrap. -/
def NoWrap (ring : Ring) : Op → Prop
  | .push data => ring.count + data.length < 2 ^ 64
  | _ => True

instance (ring : Ring) : DecidablePred (NoWrap ring)
  | .push data => inferInstanceAs (Decidable (ring.count + data.length < 2 ^ 64))
  | .pop _ | .peek _ | .clear | .reserve _ _ | .shrinkToFit _ => inferInstanceAs (Decidable True)

/-! ## The representation -/

structure Represents (ring : Ring) (q : Queue) : Prop where
  capacity : ring.capacity = q.capacity
  bytes : ring.buffer.length = ring.capacity
  count : ring.count = q.bytes.length
  small : ring.capacity < 2 ^ 63
  holds : Holds ring.buffer ring.tail q.bytes
  tail : ring.tail < ring.capacity
  head_le : ring.head ≤ ring.capacity
  head : ring.head % ring.capacity = (ring.tail + ring.count) % ring.capacity

theorem Represents.fits {q : Queue} (h : Represents ring q) : ring.count ≤ ring.capacity := by
  rw [h.count, ← h.bytes]
  exact h.holds.fits

theorem clamp_eq (first size : ℕ) : clamp first size = min first size := by
  unfold clamp
  split_ifs <;> omega

theorem create_represents {handle block : Bool} {capacity : ℕ}
    (h : zenitRingCreate handle block capacity = some ring) : Represents ring ⟨capacity, []⟩ := by
  unfold zenitRingCreate at h
  split_ifs at h with hzero hhandle hblock
  cases h
  have hsmall : capacity < 2 ^ 63 := by
    simp only [granted, Bool.not_eq_true', Bool.and_eq_false_iff, decide_eq_false_iff_not,
      not_or, not_not, Bool.not_eq_false] at hblock
    exact hblock.2
  refine ⟨rfl, by simp, rfl, hsmall, holds_nil _ _, ?_, Nat.zero_le _, rfl⟩
  exact Nat.pos_of_ne_zero hzero

theorem chunk_eq {cap head : ℕ} (hhead : head ≤ cap) (hcap : cap < 2 ^ 63) (n : ℕ) :
    clamp (subSize cap head) n = chunk cap head n := by
  rw [subSize_of_le hhead (by omega), clamp_eq]
  rfl

/-- The two copies hand out the oldest bytes. -/
theorem copyFrom_eq {q : Queue} (h : Represents ring q) {n : ℕ} (hn : n ≤ q.bytes.length) :
    copyFrom ring n = .ok (q.bytes.take n) := by
  have htail := h.tail
  have hfits := h.fits
  rw [h.count] at hfits
  have hchunk : chunk ring.capacity ring.tail n ≤ n := min_le_right _ _
  have hend : chunk ring.capacity ring.tail n ≤ ring.capacity - ring.tail := min_le_left _ _
  rw [← h.holds.gather_eq (by rw [h.bytes]; exact htail) hn, gather, h.bytes]
  unfold copyFrom
  simp only [chunk_eq htail.le h.small]
  have hfirst : readSlots ring.buffer ring.tail (chunk ring.capacity ring.tail n) =
      .ok ((ring.buffer.drop ring.tail).take (chunk ring.capacity ring.tail n)) :=
    if_pos (by rw [h.bytes]; omega)
  rw [hfirst]
  simp only [Except.bind]
  split_ifs with hpos
  · have hsecond : readSlots ring.buffer 0 (n - chunk ring.capacity ring.tail n) =
        .ok ((ring.buffer.drop 0).take (n - chunk ring.capacity ring.tail n)) :=
      if_pos (by rw [h.bytes]; omega)
    rw [hsecond]
    rfl
  · have hzero : n - chunk ring.capacity ring.tail n = 0 := by omega
    rw [hzero]
    rfl

/-- The two copies into the buffer. -/
theorem copyTo_eq {buf data : List UInt8} {head : ℕ} (hhead : head ≤ buf.length)
    (hdata : data.length ≤ buf.length) :
    ((writeSlots buf head (data.take (chunk buf.length head data.length))).bind fun buffer =>
      if data.length - chunk buf.length head data.length > 0 then
        writeSlots buffer 0 (data.drop (chunk buf.length head data.length))
      else .ok buffer) = .ok (scatter buf head data) := by
  obtain ⟨hfirst, hsecond⟩ := scatter_bounds hhead hdata
  have hlen := length_patch hfirst
  rw [writeSlots, if_pos hfirst]
  simp only [Except.bind]
  split_ifs with hpos
  · exact if_pos (by rw [hlen]; exact hsecond)
  · have hdrop : data.drop (chunk buf.length head data.length) = [] :=
      List.drop_of_length_le (by omega)
    rw [scatter, hdrop, patch_nil]

theorem push_spec {q : Queue} (h : Represents ring q) {data : List UInt8}
    (hwrap : ring.count + data.length < 2 ^ 64) :
    ∃ ring' reply q', zenitRingPush ring data = .ok (ring', reply) ∧
      Conforms q (.push data) reply q' ∧ Represents ring' q' := by
  have hsmall := h.small
  have hcap := h.capacity
  have hcount := h.count
  unfold zenitRingPush Conforms
  simp only [queueStep, wrap_of_lt hwrap, List.length_eq_zero_iff]
  by_cases hnil : data = []
  · rw [if_pos hnil, if_pos hnil]
    exact ⟨_, _, _, rfl, rfl, h⟩
  rw [if_neg hnil, if_neg hnil]
  by_cases hfull : ring.count + data.length > ring.capacity
  · rw [if_pos hfull, if_neg (by omega)]
    exact ⟨_, _, _, rfl, rfl, h⟩
  rw [if_neg hfull, if_pos (by omega)]
  have hroom : data.length ≤ ring.buffer.length := by
    rw [h.bytes]
    omega
  have hhead : ring.head ≤ ring.buffer.length := by
    rw [h.bytes]
    exact h.head_le
  have hcopy := copyTo_eq hhead hroom
  have hlen := length_scatter hhead hroom
  have hpos := h.tail
  have hle := h.head_le
  have hsum : wrap (ring.head + data.length) = ring.head + data.length := wrap_of_lt (by omega)
  rw [h.bytes] at hcopy hlen
  refine ⟨⟨scatter ring.buffer ring.head data, ring.capacity,
    (ring.head + data.length) % ring.capacity, ring.tail, ring.count + data.length⟩, _, _, ?_, rfl,
    ⟨hcap, hlen, ?_, hsmall, ?_, hpos, ?_, ?_⟩⟩
  · simp only [chunk_eq h.head_le hsmall, hsum, ← map_bind, hcopy]
    rfl
  · simp only [List.length_append, hcount]
  · refine h.holds.scatter hhead ?_ ?_
    · rw [h.bytes, ← hcount]
      exact h.head
    · rw [h.bytes, ← hcount]
      omega
  · exact (Nat.mod_lt _ (by omega)).le
  · simp only [Nat.mod_mod]
    rw [← Nat.mod_add_mod, h.head, Nat.mod_add_mod, Nat.add_assoc]

/-- What a pop and a peek hand out. -/
theorem copyOldest_eq {q : Queue} (h : Represents ring q) (size : ℕ) :
    copyFrom ring (min size ring.count) = .ok (q.bytes.take size) := by
  have hcount := h.count
  rw [copyFrom_eq h (by omega), hcount, ← List.take_take, List.take_length]

theorem pop_spec {q : Queue} (h : Represents ring q) (size : ℕ) :
    ∃ ring' reply q', zenitRingPop ring size = .ok (ring', reply) ∧
      Conforms q (.pop size) reply q' ∧ Represents ring' q' := by
  have hcount := h.count
  have hfits := h.fits
  have htail := h.tail
  have hsmall := h.small
  unfold zenitRingPop Conforms
  simp only [queueStep, clamp_eq]
  by_cases hzero : size = 0
  · rw [if_pos hzero, if_pos hzero]
    exact ⟨_, _, _, rfl, rfl, h⟩
  rw [if_neg hzero, if_neg hzero]
  by_cases hempty : ring.count = 0
  · rw [if_pos hempty, if_pos (List.length_eq_zero_iff.mp (by omega))]
    exact ⟨_, _, _, rfl, rfl, h⟩
  have hne : q.bytes ≠ [] := fun he => hempty (by rw [hcount, he]; rfl)
  have hdrop : q.bytes.drop (min size ring.count) = q.bytes.drop size := by
    rcases le_total size ring.count with hle | hle
    · rw [min_eq_left hle]
    · rw [min_eq_right hle, List.drop_of_length_le (by omega), List.drop_of_length_le (by omega)]
  have hsum : wrap (ring.tail + min size ring.count) = ring.tail + min size ring.count :=
    wrap_of_lt (by omega)
  rw [if_neg hempty, if_neg hne, copyOldest_eq h, hsum]
  refine ⟨_, _, _, rfl, rfl, ⟨h.capacity, h.bytes, ?_, hsmall, ?_, Nat.mod_lt _ (by omega),
    h.head_le, ?_⟩⟩
  · simp only [List.length_drop]
    omega
  · have hholds := h.holds.drop (min size ring.count)
    rwa [hdrop, h.bytes] at hholds
  · simp only [h.head, Nat.mod_add_mod]
    congr 1
    omega

theorem peek_spec {q : Queue} (h : Represents ring q) (size : ℕ) :
    ∃ ring' reply q', zenitRingPeek ring size = .ok (ring', reply) ∧
      Conforms q (.peek size) reply q' ∧ Represents ring' q' := by
  have hcount := h.count
  unfold zenitRingPeek Conforms
  simp only [queueStep, clamp_eq]
  by_cases hzero : size = 0
  · rw [if_pos hzero, if_pos hzero]
    exact ⟨_, _, _, rfl, rfl, h⟩
  rw [if_neg hzero, if_neg hzero]
  by_cases hempty : ring.count = 0
  · rw [if_pos hempty, if_pos (List.length_eq_zero_iff.mp (by omega))]
    exact ⟨_, _, _, rfl, rfl, h⟩
  have hne : q.bytes ≠ [] := fun he => hempty (by rw [hcount, he]; rfl)
  rw [if_neg hempty, if_neg hne, copyOldest_eq h]
  exact ⟨_, _, _, rfl, rfl, h⟩

theorem reserve_spec {q : Queue} (h : Represents ring q) (ok : Bool) (newCapacity : ℕ) :
    ∃ ring' reply q', zenitRingReserve ok ring newCapacity = .ok (ring', reply) ∧
      (reply, q') = resized ok newCapacity q ∧ Represents ring' q' := by
  have hcount := h.count
  unfold zenitRingReserve resized
  by_cases hzero : newCapacity = 0
  · rw [if_pos hzero, if_pos hzero]
    exact ⟨_, _, _, rfl, rfl, h⟩
  rw [if_neg hzero, if_neg hzero]
  by_cases hgrant : granted ok newCapacity = true
  · have hsmall : newCapacity < 2 ^ 63 := by
      simp only [granted, Bool.and_eq_true, decide_eq_true_eq] at hgrant
      exact hgrant.2
    have hdata : (if clamp ring.count newCapacity > 0 then
        copyFrom ring (clamp ring.count newCapacity) else .ok []) =
        .ok (q.bytes.take newCapacity) := by
      rw [clamp_eq, min_comm]
      split_ifs with hpos
      · exact copyOldest_eq h newCapacity
      · have hempty : q.bytes = [] := List.length_eq_zero_iff.mp (by omega)
        rw [hempty, List.take_nil]
    have hlen : (q.bytes.take newCapacity).length = clamp ring.count newCapacity := by
      rw [clamp_eq, List.length_take, hcount, min_comm]
    have hroom : 0 + (q.bytes.take newCapacity).length ≤
        (List.replicate newCapacity (0 : UInt8)).length := by
      rw [List.length_take, List.length_replicate]
      omega
    have hwrite : writeSlots (List.replicate newCapacity 0) 0 (q.bytes.take newCapacity) =
        .ok (patch (List.replicate newCapacity 0) 0 (q.bytes.take newCapacity)) := if_pos hroom
    have hpatch : patch (List.replicate newCapacity 0) 0 (q.bytes.take newCapacity) =
        q.bytes.take newCapacity ++
          (List.replicate newCapacity 0).drop (q.bytes.take newCapacity).length := by
      simp [patch]
    rw [if_neg (by simp [hgrant]), if_pos hgrant]
    simp only [hdata, Except.bind, hwrite]
    refine ⟨_, _, _, rfl, rfl, ⟨rfl, ?_, hlen.symm, hsmall, ?_, ?_, ?_, ?_⟩⟩
    · simp only [length_patch hroom, List.length_replicate]
    · simp only [hpatch]
      exact holds_linear _ _
    · exact Nat.pos_of_ne_zero hzero
    · simp only [clamp_eq]
      omega
    · rw [Nat.zero_add]
  · rw [if_pos (by simpa using hgrant), if_neg hgrant]
    exact ⟨_, _, _, rfl, rfl, h⟩

theorem clear_spec {q : Queue} (h : Represents ring q) :
    Represents (zenitRingClear ring) { q with bytes := [] } :=
  ⟨h.capacity, h.bytes, rfl, h.small, holds_nil _ _, Nat.zero_lt_of_lt h.tail, Nat.zero_le _, rfl⟩

/-- One call is a call of the queue, and every copy it makes is inside the buffer. -/
theorem step_spec (ring : Ring) (q : Queue) (op : Op) (h : Represents ring q)
    (hwrap : NoWrap ring op) : ∃ ring' reply q', step ring op = .ok (ring', reply) ∧
      Conforms q op reply q' ∧ Represents ring' q' := by
  cases op with
  | push data => exact push_spec h hwrap
  | pop size => exact pop_spec h size
  | peek size => exact peek_spec h size
  | clear => exact ⟨_, _, _, rfl, rfl, clear_spec h⟩
  | reserve ok newCapacity => exact reserve_spec h ok newCapacity
  | shrinkToFit ok =>
    have hmax : (if ring.count = 0 then 1 else ring.count) = max q.bytes.length 1 := by
      rw [h.count]
      split_ifs <;> omega
    obtain ⟨ring', reply, q', hreserve, hconf, h'⟩ := reserve_spec h ok (max q.bytes.length 1)
    refine ⟨ring', reply, q', ?_, hconf, h'⟩
    rw [step, zenitRingShrinkToFit, hmax, hreserve]

/-- A run of a ring is a run of the bounded queue, without a copy outside the buffer. -/
theorem ring_runs_as_queue {handle block : Bool} {capacity : ℕ}
    (hcreate : zenitRingCreate handle block capacity = some ring) {ops : List Op}
    (hwrap : Refinement.Along step NoWrap ring ops) :
    ∃ ring' replies q, Refinement.run step ring ops = .ok (ring', replies) ∧
      Refinement.Conforming Conforms ⟨capacity, []⟩ ops replies q ∧
      ring'.capacity = q.capacity ∧ ring'.count = q.bytes.length ∧ q.bytes.length ≤ q.capacity := by
  obtain ⟨ring', replies, q, hrun, hconf, h⟩ :=
    Refinement.run_refines step_spec (create_represents hcreate) hwrap
  refine ⟨ring', replies, q, hrun, hconf, h.capacity, h.count, ?_⟩
  rw [← h.count, ← h.capacity]
  exact h.fits

/-- A full ring, reserved to what it holds, goes on with its head at the end of the buffer. -/
theorem full_ring_runs_as_queue : ∃ ring' replies q,
    Refinement.run step ⟨[0, 0], 2, 0, 0, 0⟩
      [.push [1, 2], .shrinkToFit true, .pop 1, .push [3], .peek 5] = .ok (ring', replies) ∧
    Refinement.Conforming Conforms ⟨2, []⟩
      [.push [1, 2], .shrinkToFit true, .pop 1, .push [3], .peek 5] replies q := by
  have hcreate : zenitRingCreate true true 2 = some ⟨[0, 0], 2, 0, 0, 0⟩ := rfl
  have hwrap : Refinement.Along step NoWrap ⟨[0, 0], 2, 0, 0, 0⟩
      [.push [1, 2], .shrinkToFit true, .pop 1, .push [3], .peek 5] := by
    refine ⟨by decide, fun r₁ _ h₁ => ⟨trivial, fun r₂ _ h₂ => ⟨trivial, fun r₃ _ h₃ => ?_⟩⟩⟩
    cases h₁
    cases h₂
    cases h₃
    exact ⟨by decide, fun _ _ _ => ⟨trivial, fun _ _ _ => trivial⟩⟩
  obtain ⟨ring', replies, q, hrun, hconf, -⟩ := ring_runs_as_queue hcreate hwrap
  exact ⟨ring', replies, q, hrun, hconf⟩

end LibZenit.Rings
