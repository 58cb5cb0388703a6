import LibZenit.HeapSifting

/-!
# The heap is a priority queue

`Holds h m` is the invariant between calls: heap order, and a block of `capacity` slots whose first
`count` slots hold the elements of `m`.
-/
namespace LibZenit.Heaps
open Blocks BinaryHeap Growth

variable {α : Type} {compare : α → α → ℤ} {h h' : Heap α} {m m' : Multiset α}

/-! ## The priority queue -/

def Greatest (compare : α → α → ℤ) (m : Multiset α) (x : α) : Prop :=
  x ∈ m ∧ ∀ y ∈ m, compare y x ≤ 0

/-- What a call does to the elements. A call that fails leaves them as they are. -/
def Conforms (compare : α → α → ℤ) (m : Multiset α) : Op α → Reply α → Multiset α → Prop
  | .push ok x, reply, m' => reply = ⟨.ok, none⟩ ∧ m' = x ::ₘ m ∨
      ok = false ∧ reply = ⟨.alloc, none⟩ ∧ m' = m
  | .pop, reply, m' => m = 0 ∧ reply = ⟨.empty, none⟩ ∧ m' = m ∨
      ∃ x, Greatest compare m x ∧ reply = ⟨.ok, some x⟩ ∧ m = x ::ₘ m'
  | .peek, reply, m' => m' = m ∧ (m = 0 ∧ reply = ⟨.ok, none⟩ ∨
      ∃ x, Greatest compare m x ∧ reply = ⟨.ok, some x⟩)
  | .build ok xs, reply, m' => reply = ⟨.ok, none⟩ ∧ m' = xs ∨
      ok = false ∧ reply = ⟨.alloc, none⟩ ∧ m' = m
  | .reserve ok _, reply, m' => m' = m ∧ (reply = ⟨.ok, none⟩ ∨
      ok = false ∧ reply = ⟨.alloc, none⟩)
  | .clear, reply, m' => reply = ⟨.ok, none⟩ ∧ m' = 0

/-! ## The invariant -/

/-- The elements of the heap. -/
def stored (h : Heap α) : Multiset α := h.buffer.take h.count

variable [Inhabited α]

structure Holds (compare : α → α → ℤ) (h : Heap α) (m : Multiset α) : Prop where
  order : h.compare = compare
  sized : 0 < h.elemSize
  bytes : h.capacity * h.elemSize < 2 ^ 64
  slots : h.buffer.length = h.capacity
  fits : h.count ≤ h.capacity
  room : 2 ≤ h.capacity
  elems : stored h = m
  ordered : Ordered compare 0 h.count h.buffer

theorem Holds.card (hh : Holds compare h m) : Multiset.card m = h.count := by
  have hfits := hh.fits
  rw [← hh.elems, stored, Multiset.coe_card, List.length_take, hh.slots]
  omega

/-- The call ends, its reply is that of a priority queue, and the invariant holds again. -/
def StepsTo (compare : α → α → ℤ) (fuel : ℕ) (h : Heap α) (op : Op α) (m : Multiset α) : Prop :=
  ∃ h' reply m', step fuel h op = .ok (h', reply) ∧ Conforms compare m op reply m' ∧
    Holds compare h' m'

theorem create_holds {handle block : Bool} {elemSize capacity : ℕ} (hroom : 2 ≤ capacity)
    (hbytes : capacity * elemSize < 2 ^ 64)
    (hcreate : zenitHeapCreateWithCapacity handle block elemSize compare capacity = some h) :
    Holds compare h 0 := by
  unfold zenitHeapCreateWithCapacity at hcreate
  split_ifs at hcreate with hzero
  cases hcreate
  have hsized : 0 < elemSize := Nat.pos_of_ne_zero fun he => hzero (.inl he)
  refine ⟨rfl, hsized, hbytes, ?_, Nat.zero_le _, hroom, by simp [stored], ?_⟩
  · rw [List.length_replicate, slotsOf_eq hsized hbytes]
  · intro i _ hi
    exact absurd hi (Nat.not_lt_zero i)

/-! ## Room -/

theorem reallocBuffer_holds (hh : Holds compare h m) {newCap : ℕ} (hcap : h.capacity ≤ newCap)
    (hbytes : newCap * h.elemSize < 2 ^ 64) :
    Holds compare (reallocBuffer true h newCap).1 m := by
  have hslots := slotsOf_eq hh.sized hbytes
  have hfits := hh.fits
  have hroom := hh.room
  have hlen := hh.slots
  have htake : (resize default newCap h.buffer).take h.count = h.buffer.take h.count :=
    take_resize default (by omega) (by omega)
  simp only [reallocBuffer, Bool.not_true, Bool.false_eq_true, if_false, hslots]
  refine ⟨hh.order, hh.sized, hbytes, length_resize _ _ _, by simp only; omega,
    by simp only; omega, ?_, ?_⟩
  · rw [← hh.elems, stored, stored, htake]
  · intro i hpos hi hs
    have hsame : ∀ j < h.count, Slots.slot default (resize default newCap h.buffer) j =
        Slots.slot default h.buffer j := by
      intro j hj
      have hget := congrArg (·[j]?) htake
      simp only [List.getElem?_take, if_pos hj] at hget
      rw [Slots.slot, hget, Slots.slot]
    rw [hsame i hi, hsame (parent i) ((parent_lt hpos).trans hi)]
    exact hh.ordered i hpos hi hs

theorem reserve_steps (hh : Holds compare h m) (fuel : ℕ) {ok : Bool} {n : ℕ}
    (hbytes : h.capacity < n → n * h.elemSize < 2 ^ 64) :
    StepsTo compare fuel h (.reserve ok n) m := by
  rw [StepsTo, step, zenitHeapReserve]
  by_cases hle : n ≤ h.capacity
  · rw [if_pos hle]
    exact ⟨h, _, m, rfl, ⟨rfl, .inl rfl⟩, hh⟩
  · rw [if_neg hle]
    cases ok with
    | false => exact ⟨h, _, m, rfl, ⟨rfl, .inr ⟨rfl, rfl⟩⟩, hh⟩
    | true =>
      exact ⟨_, _, m, rfl, ⟨rfl, .inl rfl⟩, reallocBuffer_holds hh (by omega) (hbytes (by omega))⟩

/-! ## Pushing -/

theorem putLast_holds (hp : TotalPreorder compare) (hh : Holds compare h m)
    (hroom : h.count < h.capacity) (x : α) :
    ∃ h', putLast h x = .ok (h', .ok) ∧ Holds compare h' (x ::ₘ m) := by
  have hslots := hh.slots
  have hlt : h.count < h.buffer.length := by omega
  have hbroken : BrokenAbove (fun a b => compare a b ≤ 0) h.count (h.count + 1)
      (Slots.slot default (h.buffer.set h.count x)) := by
    constructor
    · intro i hpos hi hne
      have hparent := parent_lt hpos
      rw [Slots.slot_set hlt, if_neg hne, Slots.slot_set hlt, if_neg (by omega)]
      exact hh.ordered i hpos (by omega) (Nat.zero_le _)
    · intro i hpos hi hpar
      have hparent := parent_lt hpos
      omega
  obtain ⟨buf, hloop, hsift⟩ := siftUpLoop_sifted hp (by rw [List.length_set]; omega)
    (Nat.lt_succ_self _) (Nat.lt_succ_self _) hbroken
  have htake : (h.buffer.set h.count x).take (h.count + 1) = h.buffer.take h.count ++ [x] :=
    take_succ_set hlt x
  refine ⟨{ h with buffer := buf, count := h.count + 1 }, ?_, hh.order, hh.sized, hh.bytes,
    ?_, hroom, hh.room, ?_, hsift.ordered⟩
  · rw [putLast, writeSlot_eq hlt]
    simp only [Except.bind, siftUp]
    rw [hh.order, hloop]
    rfl
  · rw [← hslots]
    exact hsift.length.trans (List.length_set ..)
  · rw [stored, Multiset.coe_eq_coe.mpr hsift.perm, htake, ← hh.elems, stored,
      ← Multiset.coe_add, add_comm]
    rfl

theorem push_steps (hp : TotalPreorder compare) (hh : Holds compare h m) (fuel : ℕ) {ok : Bool}
    {x : α} (hbytes : h.count = h.capacity → growthFactor h.capacity * h.elemSize < 2 ^ 64) :
    StepsTo compare (fuel + 2) h (.push ok x) m := by
  rw [StepsTo, step, zenitHeapPush]
  have hfits := hh.fits
  by_cases hfull : h.count = h.capacity
  · have hroom := hh.room
    have hsized := hh.sized
    have hgrown := hbytes hfull
    have hlt := lt_growthFactor (by omega : h.capacity ≠ 1)
    have hcap : growthFactor h.capacity < 2 ^ 64 :=
      lt_of_le_of_lt (Nat.le_mul_of_pos_right _ hsized) hgrown
    rw [if_pos hfull, wrap_of_lt (by omega), grow, growLoop_succ (by omega) hcap]
    cases ok with
    | false => exact ⟨h, _, m, rfl, .inr ⟨rfl, rfl, rfl⟩, hh⟩
    | true =>
      have hgrow := reallocBuffer_holds hh hlt.le hgrown
      obtain ⟨h', hput, hh'⟩ := putLast_holds hp hgrow
        (show h.count < growthFactor h.capacity by omega) x
      exact ⟨h', ⟨.ok, none⟩, x ::ₘ m, congrArg (Except.map _) hput, .inl ⟨rfl, rfl⟩, hh'⟩
  · rw [if_neg hfull]
    obtain ⟨h', hput, hh'⟩ := putLast_holds hp hh (by omega) x
    exact ⟨h', ⟨.ok, none⟩, x ::ₘ m, congrArg (Except.map _) hput, .inl ⟨rfl, rfl⟩, hh'⟩

/-! ## The root -/

theorem Holds.root_greatest (hp : TotalPreorder compare) (hh : Holds compare h m)
    (hpos : 0 < h.count) : Greatest compare m (Slots.slot default h.buffer 0) := by
  have hfits := hh.fits
  have hslots := hh.slots
  have hroot := hh.ordered.le_root hp.refl hp.trans
  rw [← hh.elems, stored]
  constructor
  · rw [Multiset.mem_coe, List.mem_iff_getElem?]
    refine ⟨0, ?_⟩
    rw [List.getElem?_take, if_pos hpos]
    exact Slots.getElem?_eq_slot default (by omega)
  · intro y hy
    rw [Multiset.mem_coe, List.mem_iff_getElem?] at hy
    obtain ⟨i, hi⟩ := hy
    rw [List.getElem?_take] at hi
    split_ifs at hi with hlt
    rw [← Slots.slot_eq_of_getElem? (d := default) hi]
    exact hroot i hlt

theorem peek_steps (hp : TotalPreorder compare) (hh : Holds compare h m) (fuel : ℕ) :
    StepsTo compare fuel h .peek m := by
  rw [StepsTo, step, zenitHeapPeek]
  have hfits := hh.fits
  have hslots := hh.slots
  by_cases hzero : h.count = 0
  · have hm : m = 0 := by rw [← Multiset.card_eq_zero, hh.card, hzero]
    rw [if_pos hzero]
    exact ⟨h, _, m, rfl, ⟨rfl, .inl ⟨hm, rfl⟩⟩, hh⟩
  · rw [if_neg hzero, readSlot_slot (by omega)]
    exact ⟨h, _, m, rfl, ⟨rfl, .inr ⟨_, hh.root_greatest hp (by omega), rfl⟩⟩, hh⟩

/-- The last element takes the place of the first. -/
theorem take_set_last {buf : List α} {n : ℕ} (hpos : 0 < n) (hn : n < buf.length) :
    (Slots.slot default buf 0 :: (buf.set 0 (Slots.slot default buf n)).take n).Perm
      (buf.take (n + 1)) := by
  have hlast := Slots.getElem?_eq_slot default hn
  revert hlast
  generalize Slots.slot default buf n = last
  intro hlast
  cases buf with
  | nil => cases hlast
  | cons x xs =>
    obtain ⟨k, rfl⟩ : ∃ k, n = k + 1 := ⟨n - 1, by omega⟩
    rw [List.getElem?_cons_succ] at hlast
    rw [List.set_cons_zero, List.take_succ_cons, List.take_succ_cons, List.take_add_one, hlast]
    exact (List.perm_append_singleton last _).symm.cons _

theorem pop_steps (hp : TotalPreorder compare) (hh : Holds compare h m) (fuel : ℕ) :
    StepsTo compare fuel h .pop m := by
  rw [StepsTo, step, zenitHeapPop]
  have hfits := hh.fits
  have hslots := hh.slots
  by_cases hzero : h.count = 0
  · have hm : m = 0 := by rw [← Multiset.card_eq_zero, hh.card, hzero]
    rw [if_pos hzero]
    exact ⟨h, _, m, rfl, .inl ⟨hm, rfl, rfl⟩, hh⟩
  have hroot := hh.root_greatest hp (by omega)
  obtain ⟨n, hn⟩ : ∃ n, h.count = n + 1 := ⟨h.count - 1, by omega⟩
  rw [if_neg hzero, readSlot_slot (by omega)]
  simp only [Except.bind, hn, Nat.add_sub_cancel]
  by_cases hpos : n > 0
  · have hbroken : BrokenBelow (fun a b => compare a b ≤ 0) 0 0 n
        (Slots.slot default (h.buffer.set 0 (Slots.slot default h.buffer n))) := by
      constructor
      · intro i hi hin _ hne
        have hparent := parent_lt hi
        rw [Slots.slot_set (by omega), if_neg (by omega), Slots.slot_set (by omega), if_neg hne]
        exact hh.ordered i hi (by omega) (Nat.zero_le _)
      · intro i _ _ _ habs
        omega
    obtain ⟨buf, hloop, hsift⟩ := siftDownLoop_sifted hp (by rw [List.length_set]; omega) hpos
      (Nat.le_refl 0) (by omega : n ≤ 0 + (n + 1)) hbroken
    have hperm := take_set_last hpos (by omega : n < h.buffer.length)
    rw [if_pos hpos, readSlot_slot (by omega)]
    simp only
    rw [writeSlot_eq (by omega)]
    refine ⟨{ h with buffer := buf, count := n }, ⟨.ok, some (Slots.slot default h.buffer 0)⟩,
      (buf.take n : Multiset α), ?_, .inr ⟨_, hroot, rfl, ?_⟩, ?_⟩
    · simp only [siftDown]
      rw [hh.order, hloop]
      rfl
    · rw [← hh.elems, stored, hn, ← Multiset.coe_eq_coe.mpr hperm,
        ← Multiset.cons_coe, Multiset.coe_eq_coe.mpr hsift.perm]
    · refine ⟨hh.order, hh.sized, hh.bytes, ?_, by simp only; omega, hh.room, rfl, hsift.ordered⟩
      rw [← hslots]
      exact hsift.length.trans (List.length_set ..)
  · obtain rfl : n = 0 := by omega
    rw [if_neg hpos]
    refine ⟨_, _, 0, rfl, .inr ⟨_, hroot, rfl, ?_⟩, hh.order, hh.sized, hh.bytes, hslots,
      Nat.zero_le _, hh.room, by simp [stored], ?_⟩
    · obtain ⟨a, ha⟩ := Multiset.card_eq_one.mp (hh.card.trans hn)
      have hmem := hroot.1
      rw [ha, Multiset.mem_singleton] at hmem
      rw [ha, hmem]
      rfl
    · intro i _ hi
      exact absurd hi (Nat.not_lt_zero i)

/-! ## Building -/

theorem heapify_sifted (hp : TotalPreorder compare) (hord : h.compare = compare)
    (hfits : h.count ≤ h.buffer.length) {k : ℕ} (hk : k ≤ h.count)
    (hbelow : Ordered compare k h.count h.buffer) :
    ∃ buf, heapify h k = .ok { h with buffer := buf } ∧ Sifted compare 0 h.count h.buffer buf := by
  induction k generalizing h with
  | zero => exact ⟨h.buffer, rfl, rfl, List.Perm.refl _, hbelow⟩
  | succ k ih =>
    have hbroken : BrokenBelow (fun a b => compare a b ≤ 0) k k h.count
        (Slots.slot default h.buffer) := by
      constructor
      · intro i hpos hi hs hne
        exact hbelow i hpos hi (by omega)
      · intro i _ _ _ hpos hs
        have hparent := parent_lt hpos
        omega
    obtain ⟨buf₁, hloop, hsift₁⟩ := siftDownLoop_sifted hp hfits (by omega) (Nat.le_refl k)
      (by omega : h.count ≤ k + (h.count + 1)) hbroken
    have hlen := hsift₁.length
    obtain ⟨buf, hrest, hsift⟩ := ih (h := { h with buffer := buf₁ }) hord (by simp only; omega)
      (by simp only; omega) hsift₁.ordered
    refine ⟨buf, ?_, hsift.length.trans hlen, hsift.perm.trans hsift₁.perm, hsift.ordered⟩
    rw [← hord] at hloop
    rw [heapify, siftDown, hloop]
    exact hrest

theorem fillFrom_holds (hp : TotalPreorder compare) (hh : Holds compare h m) (xs : List α)
    (hxs : xs.length ≤ h.capacity) :
    ∃ h', fillFrom h xs = .ok (h', .ok) ∧ Holds compare h' xs := by
  have hslots := hh.slots
  have hbytes : xs.length * h.elemSize < 2 ^ 64 :=
    lt_of_le_of_lt (Nat.mul_le_mul_right _ hxs) hh.bytes
  have hcopy : copyIn h.elemSize h.buffer xs = .ok (xs ++ h.buffer.drop xs.length) := by
    rw [copyIn, slotsOf_eq hh.sized hbytes]
    simp only [List.take_length]
    exact if_pos (by omega)
  have hlen : (xs ++ h.buffer.drop xs.length).length = h.capacity := by
    rw [List.length_append, List.length_drop]
    omega
  obtain ⟨buf, hheap, hsift⟩ := heapify_sifted hp
    (h := { h with buffer := xs ++ h.buffer.drop xs.length, count := xs.length }) hh.order
    (by simp only; omega) (Nat.div_le_self _ 2) (orderedFrom_half _ _)
  refine ⟨{ h with buffer := buf, count := xs.length }, ?_, hh.order, hh.sized, hh.bytes,
    hsift.length.trans hlen, hxs, hh.room, ?_, hsift.ordered⟩
  · rw [fillFrom, hcopy]
    exact congrArg (Except.map _) hheap
  · have helems : buf.take xs.length |>.Perm xs := by
      have hperm := hsift.perm
      simp only [List.take_left] at hperm
      exact hperm
    exact Multiset.coe_eq_coe.mpr helems

theorem build_steps (hp : TotalPreorder compare) (hh : Holds compare h m) (fuel : ℕ) {ok : Bool}
    {xs : List α} (hbytes : h.capacity < xs.length → xs.length * h.elemSize < 2 ^ 64) :
    StepsTo compare fuel h (.build ok xs) m := by
  rw [StepsTo, step, zenitHeapBuild]
  by_cases hempty : xs.length = 0
  · rw [if_pos hempty]
    refine ⟨_, _, xs, rfl, .inl ⟨rfl, rfl⟩, hh.order, hh.sized, hh.bytes, hh.slots,
      Nat.zero_le _, hh.room, ?_, ?_⟩
    · rw [List.length_eq_zero_iff.mp hempty]
      rfl
    · intro i _ hi
      exact absurd hi (Nat.not_lt_zero i)
  rw [if_neg hempty]
  by_cases hgrow : xs.length > h.capacity
  · rw [if_pos hgrow]
    cases ok with
    | false => exact ⟨h, _, m, rfl, .inr ⟨rfl, rfl, rfl⟩, hh⟩
    | true =>
      have hroom := reallocBuffer_holds hh hgrow.le (hbytes hgrow)
      obtain ⟨h', hfill, hh'⟩ := fillFrom_holds hp hroom xs (Nat.le_refl xs.length)
      exact ⟨h', ⟨.ok, none⟩, xs, congrArg (Except.map _) hfill, .inl ⟨rfl, rfl⟩, hh'⟩
  · rw [if_neg hgrow]
    obtain ⟨h', hfill, hh'⟩ := fillFrom_holds hp hh xs (by omega)
    exact ⟨h', ⟨.ok, none⟩, xs, congrArg (Except.map _) hfill, .inl ⟨rfl, rfl⟩, hh'⟩

theorem clear_steps (hh : Holds compare h m) (fuel : ℕ) : StepsTo compare fuel h .clear m := by
  refine ⟨zenitHeapClear h, _, 0, rfl, ⟨rfl, rfl⟩, hh.order, hh.sized, hh.bytes, hh.slots,
    Nat.zero_le _, hh.room, by simp [stored, zenitHeapClear], ?_⟩
  intro i _ hi
  exact absurd hi (Nat.not_lt_zero i)

/-! ## Runs -/

/-- No byte size the call asks for wraps. -/
def Fits (h : Heap α) : Op α → Prop
  | .push _ _ => h.count = h.capacity → growthFactor h.capacity * h.elemSize < 2 ^ 64
  | .build _ xs => h.capacity < xs.length → xs.length * h.elemSize < 2 ^ 64
  | .reserve _ n => h.capacity < n → n * h.elemSize < 2 ^ 64
  | _ => True

theorem step_steps (hp : TotalPreorder compare) (hh : Holds compare h m) {op : Op α}
    (hfits : Fits h op) (fuel : ℕ) : StepsTo compare (fuel + 2) h op m := by
  cases op with
  | push ok x => exact push_steps hp hh fuel hfits
  | pop => exact pop_steps hp hh _
  | peek => exact peek_steps hp hh _
  | build ok xs => exact build_steps hp hh _ hfits
  | reserve ok n => exact reserve_steps hh _ hfits
  | clear => exact clear_steps hh _

/-- Every call of the run meets the condition in the state it finds. -/
abbrev Along (cond : Heap α → Op α → Prop) (fuel : ℕ) (h : Heap α) (ops : List (Op α)) : Prop :=
  Refinement.Along (step fuel) cond h ops

/-- The replies of a run are those of a priority queue that goes from `m` to `m'`. -/
abbrev Conforming (compare : α → α → ℤ) (m : Multiset α) (ops : List (Op α))
    (replies : List (Reply α)) (m' : Multiset α) : Prop :=
  Refinement.Conforming (Conforms compare) m ops replies m'

theorem exec_conforms (hp : TotalPreorder compare) (hh : Holds compare h m) (fuel : ℕ)
    {ops : List (Op α)} (hfits : Along Fits (fuel + 2) h ops) :
    ∃ h' replies m', exec (fuel + 2) h ops = .ok (h', replies) ∧
      Conforming compare m ops replies m' ∧ Holds compare h' m' := by
  have hstep : ∀ (h : Heap α) m op, Holds compare h m → Fits h op →
      StepsTo compare (fuel + 2) h op m := fun h m op hh hfits => step_steps hp hh hfits fuel
  exact Refinement.run_refines hstep hh hfits

/-- Popping until the heap is empty sorts the elements. -/
theorem drain_sorts (hp : TotalPreorder compare) (hh : Holds compare h m) (fuel : ℕ) :
    ∃ (h' : Heap α) (out : List α), exec (fuel + 2) h (List.replicate (Multiset.card m) .pop) =
        .ok (h', out.map fun x => ⟨.ok, some x⟩) ∧
      (out : Multiset α) = m ∧ out.Pairwise (fun a b => compare b a ≤ 0) ∧ stored h' = 0 := by
  induction hn : Multiset.card m generalizing h m with
  | zero =>
    have hm := Multiset.card_eq_zero.mp hn
    exact ⟨h, [], rfl, hm.symm, List.Pairwise.nil, hh.elems.trans hm⟩
  | succ n ih =>
    obtain ⟨h₁, reply, m₁, hstep, hconf, hh₁⟩ := pop_steps hp hh (fuel + 2)
    rcases hconf with ⟨hzero, -⟩ | ⟨x, hx, rfl, hm⟩
    · rw [hzero] at hn
      cases hn
    · rw [hm, Multiset.card_cons] at hn
      obtain ⟨h', out, hexec, hout, hsorted, hempty⟩ := ih hh₁ (Nat.succ_injective hn)
      refine ⟨h', x :: out, ?_, ?_, List.pairwise_cons.mpr ⟨?_, hsorted⟩, hempty⟩
      · rw [List.replicate_succ]
        exact Refinement.run_cons hstep hexec
      · rw [← Multiset.cons_coe, hout, hm]
      · intro y hy
        apply hx.2 y
        rw [hm, ← hout]
        exact Multiset.mem_cons_of_mem (Multiset.mem_coe.mpr hy)

/-- A run in which no requested byte size wraps is a run of a priority queue. -/
theorem heap_runs_as_priority_queue (hp : TotalPreorder compare) {handle block : Bool}
    {elemSize capacity : ℕ} (hroom : 2 ≤ capacity) (hbytes : capacity * elemSize < 2 ^ 64)
    (hcreate : zenitHeapCreateWithCapacity handle block elemSize compare capacity = some h)
    (fuel : ℕ) {ops : List (Op α)} (hfits : Along Fits (fuel + 2) h ops) :
    ∃ h' replies, exec (fuel + 2) h ops = .ok (h', replies) ∧
      h'.count ≤ h'.buffer.length ∧
      (∀ i a b, 0 < i → i < h'.count → h'.buffer[i]? = some a →
        h'.buffer[(i - 1) / 2]? = some b → compare a b ≤ 0) ∧
      Conforming compare 0 ops replies (stored h') ∧
      ∃ (h'' : Heap α) (out : List α), exec (fuel + 2) h' (List.replicate h'.count .pop) =
          .ok (h'', out.map fun x => ⟨.ok, some x⟩) ∧
        (out : Multiset α) = stored h' ∧ out.Pairwise (fun a b => compare b a ≤ 0) := by
  obtain ⟨h', replies, m', hexec, hconf, hh⟩ :=
    exec_conforms hp (create_holds hroom hbytes hcreate) fuel hfits
  obtain ⟨h'', out, hdrain, hout, hsorted, -⟩ := drain_sorts hp hh fuel
  rw [hh.card] at hdrain
  rw [← hh.elems] at hconf hout
  have hfit := hh.fits
  have hslots := hh.slots
  refine ⟨h', replies, hexec, by omega, ?_, hconf, h'', out, hdrain, hout, hsorted⟩
  intro i a b hpos hi ha hb
  have hord := hh.ordered i hpos hi (Nat.zero_le _)
  rw [parent, Slots.slot_eq_of_getElem? ha, Slots.slot_eq_of_getElem? hb] at hord
  exact hord

/-- Numbers in their order. -/
def compareNat (a b : ℕ) : ℤ := a - b

theorem compareNat_preorder : TotalPreorder compareNat := by
  constructor
  · intro a b
    unfold compareNat
    omega
  · intro a b c
    unfold compareNat
    omega

/-- A new heap of sixteen-byte elements with room for two of them. -/
def blank : Heap ℕ := ⟨[0, 0], 16, 0, 2, compareNat⟩

theorem push_pop_runs_as_priority_queue : ∃ h' replies,
    exec 2 blank [.push true 3, .push true 8, .pop] = .ok (h', replies) ∧
    Conforming compareNat 0 [.push true 3, .push true 8, .pop] replies (stored h') := by
  have hcreate : zenitHeapCreateWithCapacity true true 16 compareNat 2 = some blank := rfl
  have hfits : Along Fits (0 + 2) blank [.push true 3, .push true 8, .pop] := by
    refine ⟨fun h => absurd h (by decide), fun h₁ _ done => ?_⟩
    cases done
    exact ⟨fun h => absurd h (by decide), fun _ _ _ => ⟨trivial, fun _ _ _ => trivial⟩⟩
  obtain ⟨h', replies, hexec, -, -, hconf, -⟩ := heap_runs_as_priority_queue compareNat_preorder
    (Nat.le_refl 2) (by decide) hcreate 0 hfits
  exact ⟨h', replies, hexec, hconf⟩

/-- The byte size of `2 ^ 60 + 1` elements wraps to one element: the reserve succeeds and cuts the
second element off. -/
theorem wrapped_reserve_loses_element : ∃ h',
    exec 2 blank [.push true 3, .push true 8, .reserve true (2 ^ 60 + 1)] =
      .ok (h', [⟨.ok, none⟩, ⟨.ok, none⟩, ⟨.ok, none⟩]) ∧
    h'.count = 2 ∧ stored h' = {8} ∧ step 2 h' .pop = .error .outOfBounds := by
  refine ⟨⟨[8], 16, 2, 2 ^ 60 + 1, compareNat⟩, rfl, rfl, rfl, rfl⟩

end LibZenit.Heaps
