import LibZenit.PoolModel

/-!
# The free list is the complement of the acquired objects

Which slots are acquired is not stored anywhere: it follows from the calls and their answers. The
part of the free list below `free_count` lists the other slots, each once.
-/
namespace LibZenit.Pools
open Blocks

/-! ## The loops over the free list -/

theorem fillFreeList_append (i : ℕ) (stale : List ℕ) :
    fillFreeList (List.range i ++ stale) i stale.length = .ok (List.range (i + stale.length)) := by
  induction stale generalizing i with
  | nil => simp [fillFreeList]
  | cons entry stale ih =>
    have hset : (List.range i ++ entry :: stale).set i i = List.range (i + 1) ++ stale := by
      rw [List.set_append_right _ _ (by simp), List.length_range, Nat.sub_self, List.set_cons_zero,
        List.range_succ, List.append_assoc, List.singleton_append]
    rw [List.length_cons, fillFreeList, writeSlot_eq (by simp), hset]
    simp only [Except.bind]
    rw [ih (i + 1)]
    congr 2
    omega

theorem fillFreeList_all (freeList : List ℕ) :
    fillFreeList freeList 0 freeList.length = .ok (List.range freeList.length) := by
  simpa using fillFreeList_append 0 freeList

theorem length_of_fillFreeList {freeList filled : List ℕ} {i rest : ℕ} (hi : i ≤ freeList.length)
    (h : fillFreeList freeList i rest = .ok filled) : i + rest ≤ freeList.length := by
  induction rest generalizing freeList i with
  | zero => exact hi
  | succ rest ih =>
    rw [fillFreeList, writeSlot] at h
    split_ifs at h with hlt
    · have hlen := ih (by rw [List.length_set]; omega) h
      rw [List.length_set] at hlen
      omega
    · cases h

theorem listed_eq {freeList : List ℕ} {i rest : ℕ} (h : i + rest ≤ freeList.length) (slot : ℕ) :
    listed freeList slot i rest = .ok (decide (slot ∈ (freeList.drop i).take rest)) := by
  induction rest generalizing i with
  | zero => simp [listed]
  | succ rest ih =>
    have hi : i < freeList.length := by omega
    rw [listed, readSlot_eq (List.getElem?_eq_getElem hi), List.drop_eq_getElem_cons hi,
      List.take_succ_cons]
    simp only [Except.bind]
    by_cases hentry : freeList[i] = slot
    · rw [if_pos hentry, ← hentry]
      simp
    · rw [if_neg hentry, ih (by omega)]
      simp [Ne.symm hentry]

/-! ## The invariant -/

/-- The free list and the acquired slots share the slots of the pool. -/
structure Partition (objectSize capacity : ℕ) (pool : Pool) (acquired : Finset ℕ) : Prop where
  size : pool.objectSize = objectSize
  slots : pool.capacity = capacity
  block : pool.freeList.length = capacity
  count : pool.freeCount ≤ capacity
  distinct : (pool.freeList.take pool.freeCount).Nodup
  free : ∀ slot, slot ∈ pool.freeList.take pool.freeCount ↔ slot < capacity ∧ slot ∉ acquired
  within : ∀ slot ∈ acquired, slot < capacity

/-- What the calls promise, in terms of the acquired slots. -/
def Conforms (objectSize capacity : ℕ) (acquired : Finset ℕ) :
    Call → Answer → Finset ℕ → Prop
  | .acquire, .object none, acquired' => (∀ slot < capacity, slot ∈ acquired) ∧ acquired' = acquired
  | .acquire, .object (some offset), acquired' => ∃ slot < capacity, slot ∉ acquired ∧
      offset = slot * objectSize ∧ acquired' = insert slot acquired
  | .release obj, .result code, acquired' =>
    (∃ slot ∈ acquired, obj = some ((slot * objectSize : ℕ) : ℤ) ∧ code = .ok ∧
      acquired' = acquired.erase slot) ∨
    ((∀ slot ∈ acquired, obj ≠ some ((slot * objectSize : ℕ) : ℤ)) ∧ code ≠ .ok ∧
      acquired' = acquired)
  | .clear, .done, acquired' => acquired' = ∅
  | _, _, _ => False

variable {objectSize capacity : ℕ} {pool : Pool} {acquired : Finset ℕ}

theorem partition_full (objectSize capacity : ℕ) :
    Partition objectSize capacity ⟨List.range capacity, capacity, objectSize, capacity⟩ ∅ where
  size := rfl
  slots := rfl
  block := List.length_range
  count := le_rfl
  distinct := by
    rw [List.take_of_length_le (by simp)]
    exact List.nodup_range
  free := by
    intro slot
    rw [List.take_of_length_le (by simp)]
    simp
  within := by simp

theorem create_partition {handle buffer list : Bool}
    (hcreate : zenitPoolCreate handle buffer list objectSize capacity = .ok (some pool)) :
    Partition objectSize capacity pool ∅ ∧ 0 < objectSize := by
  unfold zenitPoolCreate at hcreate
  split_ifs at hcreate with hzero
  case neg =>
    have hslots := slotsOf_le 8 capacity
    obtain ⟨freeList, hfill, hpool⟩ := map_eq_ok hcreate
    have hlen := length_of_fillFreeList (Nat.zero_le _) hfill
    rw [List.length_replicate, Nat.zero_add] at hlen
    have hblock : (List.replicate (slotsOf 8 capacity) 0).length = capacity := by
      rw [List.length_replicate]
      omega
    have hall := fillFreeList_all (List.replicate (slotsOf 8 capacity) 0)
    rw [hblock, hfill] at hall
    cases hall
    cases hpool
    exact ⟨partition_full objectSize capacity, by omega⟩
  all_goals cases hcreate

/-- A slot that is not free is acquired, and then the free list has room for it. -/
theorem Partition.room (h : Partition objectSize capacity pool acquired) {slot : ℕ}
    (hslot : slot ∈ acquired) : pool.freeCount < capacity := by
  have hfree : slot ∉ pool.freeList.take pool.freeCount := fun hmem =>
    ((h.free slot).mp hmem).2 hslot
  have hsub : slot :: pool.freeList.take pool.freeCount ⊆ List.range capacity := by
    intro x hx
    rcases List.mem_cons.mp hx with rfl | hx
    · exact List.mem_range.mpr (h.within x hslot)
    · exact List.mem_range.mpr ((h.free x).mp hx).1
  have hle := (List.subperm_of_subset (h.distinct.cons hfree) hsub).length_le
  have hcount := h.count
  rw [List.length_cons, List.length_take, h.block, List.length_range] at hle
  omega

/-! ## The operations -/

theorem acquire_spec (h : Partition objectSize capacity pool acquired)
    (hwrap : capacity * objectSize < 2 ^ 64) :
    ∃ pool' offset acquired', zenitPoolAcquire pool = .ok (pool', offset) ∧
      Conforms objectSize capacity acquired .acquire (.object offset) acquired' ∧
      Partition objectSize capacity pool' acquired' := by
  unfold zenitPoolAcquire
  split_ifs with hempty
  · refine ⟨pool, none, acquired, rfl, ⟨fun slot hslot => ?_, rfl⟩, h⟩
    have hfree := h.free slot
    rw [hempty, List.take_zero] at hfree
    by_contra hnot
    exact List.not_mem_nil (hfree.mpr ⟨hslot, hnot⟩)
  · have hcount := h.count
    have hblock := h.block
    obtain ⟨n, hn⟩ := Nat.exists_eq_succ_of_ne_zero hempty
    have hlt : n < pool.freeList.length := by omega
    have htake : pool.freeList.take pool.freeCount =
        pool.freeList.take n ++ [pool.freeList[n]] := by
      rw [hn, Nat.succ_eq_add_one, List.take_succ_eq_append_getElem hlt]
    have hslot : pool.freeList[n] ∈ pool.freeList.take pool.freeCount := by
      rw [htake]
      exact List.mem_append_right _ (List.mem_singleton_self _)
    obtain ⟨hbound, hnew⟩ := (h.free _).mp hslot
    have hdistinct := h.distinct
    rw [htake, List.nodup_append_comm, List.singleton_append, List.nodup_cons] at hdistinct
    have hoffset : pool.freeList[n] * pool.objectSize < 2 ^ 64 := by
      rw [h.size]
      exact (Nat.mul_le_mul_right objectSize hbound.le).trans_lt hwrap
    simp only [hn, Nat.succ_eq_add_one, Nat.add_sub_cancel]
    rw [readSlot_eq (List.getElem?_eq_getElem hlt)]
    refine ⟨_, _, insert pool.freeList[n] acquired, rfl,
      ⟨pool.freeList[n], hbound, hnew, by rw [wrap_of_lt hoffset, h.size], rfl⟩,
      { h with
        count := by simp only; omega
        distinct := hdistinct.2
        free := fun slot => ?_
        within := fun slot hmem => ?_ }⟩
    · have hold := h.free slot
      rw [htake, List.mem_append, List.mem_singleton] at hold
      simp only [Finset.mem_insert, not_or]
      constructor
      · intro hmem
        obtain ⟨hlo, hnot⟩ := hold.mp (.inl hmem)
        exact ⟨hlo, fun heq => hdistinct.1 (heq ▸ hmem), hnot⟩
      · rintro ⟨hlo, hne, hnot⟩
        exact (hold.mpr ⟨hlo, hnot⟩).resolve_right hne
    · rcases Finset.mem_insert.mp hmem with rfl | hmem
      · exact hbound
      · exact h.within slot hmem

/-- The start of a slot is aligned, and the division finds the slot. -/
theorem slot_of_start {slot : ℕ} (hsize : 0 < objectSize) :
    ((slot * objectSize : ℕ) : ℤ).toNat % objectSize = 0 ∧
      ((slot * objectSize : ℕ) : ℤ).toNat / objectSize = slot := by
  rw [Int.toNat_natCast]
  exact ⟨Nat.mul_mod_left _ _, Nat.mul_div_cancel _ hsize⟩

/-- Giving back an acquired slot puts it on top of the free list. -/
theorem Partition.give_back (h : Partition objectSize capacity pool acquired) {slot : ℕ}
    (hslot : slot ∈ acquired) :
    Partition objectSize capacity
      { pool with
        freeList := pool.freeList.set pool.freeCount slot
        freeCount := pool.freeCount + 1 } (acquired.erase slot) := by
  have hroom := h.room hslot
  have hlt : pool.freeCount < pool.freeList.length := by
    rw [h.block]
    exact hroom
  have hnew : slot ∉ pool.freeList.take pool.freeCount := fun hmem =>
    ((h.free slot).mp hmem).2 hslot
  have htake : (pool.freeList.set pool.freeCount slot).take (pool.freeCount + 1) =
      pool.freeList.take pool.freeCount ++ [slot] := take_succ_set hlt slot
  exact
    { size := h.size
      slots := h.slots
      block := by rw [List.length_set, h.block]
      count := hroom
      distinct := by
        rw [htake, List.nodup_append_comm, List.singleton_append]
        exact h.distinct.cons hnew
      free := by
        intro other
        rw [htake, List.mem_append, List.mem_singleton, h.free other, Finset.mem_erase]
        by_cases heq : other = slot
        · subst heq
          simp [h.within other hslot]
        · simp [heq]
      within := fun other hother => h.within other (Finset.mem_of_mem_erase hother) }

theorem release_spec (h : Partition objectSize capacity pool acquired) (hsize : 0 < objectSize)
    (hcap : capacity < 2 ^ 64) (hwrap : capacity * objectSize < 2 ^ 64) (obj : Option ℤ) :
    ∃ pool' code acquired', zenitPoolRelease pool obj = .ok (pool', code) ∧
      Conforms objectSize capacity acquired (.release obj) (.result code) acquired' ∧
      Partition objectSize capacity pool' acquired' ∧ (code ≠ .ok → pool' = pool) := by
  cases obj with
  | none =>
    exact ⟨pool, .null, acquired, rfl, .inr ⟨fun _ _ => by simp, by simp, rfl⟩, h, fun _ => rfl⟩
  | some offset =>
    have hreject : ∀ code : ZenitError, code ≠ .ok →
        (∀ slot ∈ acquired, offset ≠ ((slot * objectSize : ℕ) : ℤ)) →
        Conforms objectSize capacity acquired (.release (some offset)) (.result code) acquired :=
      fun code hcode hno => .inr ⟨fun slot hslot heq => hno slot hslot (Option.some.inj heq),
        hcode, rfl⟩
    simp only [zenitPoolRelease, h.slots, h.size, wrap_of_lt hwrap]
    split_ifs with hrange halign
    · refine ⟨pool, .param, acquired, rfl, hreject _ (by simp) fun slot hslot heq => ?_, h,
        fun _ => rfl⟩
      have hlt := Nat.mul_lt_mul_of_pos_right (h.within slot hslot) hsize
      rw [heq, Int.toNat_natCast] at hrange
      omega
    · refine ⟨pool, .param, acquired, rfl, hreject _ (by simp) fun slot hslot heq => halign ?_, h,
        fun _ => rfl⟩
      rw [heq]
      exact (slot_of_start hsize).1
    · push Not at hrange halign
      have hstart : offset = ((offset.toNat / objectSize * objectSize : ℕ) : ℤ) := by
        rw [Nat.div_mul_cancel (Nat.dvd_of_mod_eq_zero halign), Int.toNat_of_nonneg hrange.1]
      have hbound : offset.toNat / objectSize < capacity :=
        (Nat.div_lt_iff_lt_mul hsize).mpr hrange.2
      rw [listed_eq (by rw [Nat.zero_add, h.block]; exact h.count), List.drop_zero]
      simp only [Except.bind]
      by_cases hfound : offset.toNat / objectSize ∈ pool.freeList.take pool.freeCount
      · rw [decide_eq_true hfound]
        refine ⟨pool, .doubleFree, acquired, rfl, hreject _ (by simp) fun slot hslot heq => ?_, h,
          fun _ => rfl⟩
        have hslot' := ((h.free _).mp hfound).2
        rw [heq, (slot_of_start hsize).2] at hslot'
        exact hslot' hslot
      · have hacquired : offset.toNat / objectSize ∈ acquired := by
          by_contra hnot
          exact hfound ((h.free _).mpr ⟨hbound, hnot⟩)
        have hroom := h.room hacquired
        have hback := h.give_back hacquired
        rw [h.slots, h.size] at hback
        rw [decide_eq_false hfound, if_neg (by simp),
          writeSlot_eq (by rw [h.block]; exact hroom), wrap_of_lt (by omega)]
        exact ⟨_, .ok, _, rfl, .inl ⟨_, hacquired, congrArg some hstart, rfl, rfl⟩,
          hback, fun hne => absurd rfl hne⟩

theorem clear_spec (h : Partition objectSize capacity pool acquired) :
    ∃ pool', zenitPoolClear pool = .ok pool' ∧ Partition objectSize capacity pool' ∅ := by
  have hfill := fillFreeList_all pool.freeList
  rw [h.block] at hfill
  rw [zenitPoolClear, h.slots, hfill]
  refine ⟨_, rfl, ?_⟩
  rw [h.size]
  exact partition_full objectSize capacity

/-! ## Runs -/

theorem step_conforms (h : Partition objectSize capacity pool acquired) (hsize : 0 < objectSize)
    (hcap : capacity < 2 ^ 64) (hwrap : capacity * objectSize < 2 ^ 64) (call : Call) :
    ∃ pool' answer acquired', step pool call = .ok (pool', answer) ∧
      Conforms objectSize capacity acquired call answer acquired' ∧
      Partition objectSize capacity pool' acquired' := by
  cases call with
  | acquire =>
    obtain ⟨pool', offset, acquired', hdone, hconf, h'⟩ := acquire_spec h hwrap
    exact ⟨pool', .object offset, acquired', by rw [step, hdone]; rfl, hconf, h'⟩
  | release obj =>
    obtain ⟨pool', code, acquired', hdone, hconf, h', -⟩ := release_spec h hsize hcap hwrap obj
    exact ⟨pool', .result code, acquired', by rw [step, hdone]; rfl, hconf, h'⟩
  | clear =>
    obtain ⟨pool', hdone, h'⟩ := clear_spec h
    exact ⟨pool', .done, ∅, by rw [step, hdone]; rfl, rfl, h'⟩

/-- Every run of a pool goes through without a fault and answers as the set of acquired slots
says. The free part of the list is then the complement of that set, each slot once, and a release
that is rejected changes nothing. -/
theorem pool_runs_as_set {handle buffer list : Bool} {pool₀ : Pool}
    (hcreate : zenitPoolCreate handle buffer list objectSize capacity = .ok (some pool₀))
    (hwrap : capacity * objectSize < 2 ^ 64) (calls : List Call) :
    ∃ pool answers acquired, Refinement.run step pool₀ calls = .ok (pool, answers) ∧
      Refinement.Conforming (Conforms objectSize capacity) ∅ calls answers acquired ∧
      pool.freeList.length = capacity ∧ pool.freeCount ≤ capacity ∧
      (pool.freeList.take pool.freeCount).Nodup ∧
      (∀ slot, slot ∈ pool.freeList.take pool.freeCount ↔ slot < capacity ∧ slot ∉ acquired) ∧
      ∀ obj pool' code, zenitPoolRelease pool obj = .ok (pool', code) → code ≠ .ok →
        pool' = pool := by
  obtain ⟨h₀, hsize⟩ := create_partition hcreate
  have hcap : capacity < 2 ^ 64 := (Nat.le_mul_of_pos_right capacity hsize).trans_lt hwrap
  have hstep : ∀ pool acquired call, Partition objectSize capacity pool acquired → True →
      ∃ pool' answer acquired', step pool call = .ok (pool', answer) ∧
        Conforms objectSize capacity acquired call answer acquired' ∧
        Partition objectSize capacity pool' acquired' :=
    fun pool acquired call h _ => step_conforms h hsize hcap hwrap call
  obtain ⟨pool, answers, acquired, hrun, hconf, h⟩ :=
    Refinement.run_refines hstep h₀ (Refinement.along_of_forall (fun _ _ => trivial) pool₀)
  refine ⟨pool, answers, acquired, hrun, hconf, h.block, h.count, h.distinct, h.free,
    fun obj pool' code hdone hcode => ?_⟩
  obtain ⟨pool'', code', -, hdone', -, -, hsame⟩ := release_spec h hsize hcap hwrap obj
  rw [hdone] at hdone'
  cases hdone'
  exact hsame hcode

/-- Two objects of four bytes: the second release of an object and one inside it are rejected. -/
theorem two_object_pool_runs : ∃ pool answers acquired,
    Refinement.run step ⟨[0, 1], 2, 4, 2⟩
      [.acquire, .acquire, .release (some 4), .release (some 4), .release (some 2), .acquire] =
        .ok (pool, answers) ∧
    Refinement.Conforming (Conforms 4 2) ∅
      [.acquire, .acquire, .release (some 4), .release (some 4), .release (some 2), .acquire]
      answers acquired := by
  have hcreate : zenitPoolCreate true true true 4 2 = .ok (some ⟨[0, 1], 2, 4, 2⟩) := rfl
  obtain ⟨pool, answers, acquired, hrun, hconf, -⟩ := pool_runs_as_set hcreate (by norm_num)
    [.acquire, .acquire, .release (some 4), .release (some 4), .release (some 2), .acquire]
  exact ⟨pool, answers, acquired, hrun, hconf⟩

end LibZenit.Pools
