import LibZenit.HashTableInvariant

/-!
# Rehashing, removal and clearing

The internal steps behind the public operations, each with its effect on the stored entries.
-/
namespace LibZenit.HashTable
open Blocks HashCommon LinearProbe Slots

variable {keySize slotSize : ℕ} {ε : Type} {keyOf : ε → Bytes keySize} {t t' : Table ε}
  {key : Bytes keySize} {slot : ε} {i : ℕ}

theorem Wf.capacity_le (h : Wf keyOf t) : t.capacity ≤ 2 ^ 63 := by
  obtain ⟨k, hk, hc⟩ := h.pow
  rw [hc]
  exact Nat.pow_le_pow_right (by norm_num) hk

/-! ## Fresh tables -/

theorem wf_fresh (zero : ε) {k : ℕ} (hk : k ≤ 63) (hsize : 0 < slotSize)
    (hbytes : 2 ^ k * slotSize < 2 ^ 64) : Wf keyOf (fresh slotSize zero (2 ^ k)) := by
  have hnone : ∀ i, entryAt (fresh slotSize zero (2 ^ k)) i = none := fun i => by
    unfold entryAt fresh
    rw [if_neg]
    intro hs
    simp [List.getElem?_replicate] at hs
  refine ⟨⟨k, hk, rfl⟩, by simp [fresh, slotsOf_eq hsize hbytes], by simp [fresh],
    Probed.empty fun i _ => ?_, ?_, ?_, ?_⟩
  · simp [keyAt, hnone]
  · simp [fresh, List.count_replicate]
  · simp [fresh, List.count_replicate]
  · simp [fresh]

theorem not_stores_fresh (zero : ε) (n : ℕ) (e : ε) : ¬Stores (fresh slotSize zero n) e := by
  rintro ⟨i, hi⟩
  have hs := (entryAt_eq_some.mp hi).1
  simp [fresh, List.getElem?_replicate] at hs

/-! ## Re-insertion -/

theorem probeFree_eq {states : List SlotState} {k start e : ℕ} (hlen : states.length = 2 ^ k)
    (he : states[(start + e) % 2 ^ k]? ≠ some .occupied)
    (hmin : ∀ l < e, states[(start + l) % 2 ^ k]? = some .occupied) (fuel : ℕ) {j : ℕ} (hj : j ≤ e)
    (hf : e < j + fuel) :
    probeFree states (2 ^ k - 1) fuel ((start + j) % 2 ^ k) = some ((start + e) % 2 ^ k) := by
  have hpos : 0 < 2 ^ k := by positivity
  induction fuel generalizing j with
  | zero => omega
  | succ fuel ih =>
    have hlt : (start + j) % 2 ^ k < states.length := by
      rw [hlen]
      exact Nat.mod_lt _ hpos
    rw [probeFree]
    by_cases hje : j = e
    · subst hje
      rw [List.getElem?_eq_getElem hlt] at he ⊢
      simpa using fun h => absurd h (by simpa using he)
    · rw [hmin j (by omega)]
      simp only [Option.bind_eq_bind, Option.bind_some, if_true]
      rw [mask_step]
      exact ih (by omega) (by omega)

/-- Without tombstones the probe of a rehash ends where a lookup would. -/
theorem Wf.reinsert_spec (h : Wf keyOf t) (hdel : t.deleted = 0)
    (habs : ∀ e, Stores t e → keyOf e ≠ keyOf slot) (hroom : t.count + 1 < t.capacity) :
    ∃ t', reinsert keyOf t slot = some t' ∧ Wf keyOf t' ∧ t'.capacity = t.capacity ∧
      t'.count = t.count + 1 ∧ t'.deleted = 0 ∧ ∀ e, Stores t' e ↔ e = slot ∨ Stores t e := by
  obtain ⟨k, hk, hcap⟩ := h.pow
  obtain ⟨i, hi, hempty⟩ := h.exists_empty
  rw [hcap] at hi
  have hunused : ¬InUse t i := not_not.mpr hempty
  obtain ⟨e, hlt, he, hmin⟩ := exists_first (home (2 ^ k) (keyOf slot)) hi hunused
  have hlen : t.states.length = 2 ^ k := h.statesLen.trans hcap
  have hpos : 0 < 2 ^ k := by positivity
  have hno : SlotState.deleted ∉ t.states := by
    rw [← List.count_eq_zero, ← h.deleted]
    exact hdel
  have hocc : ∀ l < e, t.states[(home (2 ^ k) (keyOf slot) + l) % 2 ^ k]? = some .occupied := by
    intro l hl
    have hll : (home (2 ^ k) (keyOf slot) + l) % 2 ^ k < t.states.length := by
      rw [hlen]
      exact Nat.mod_lt _ hpos
    have hu := hmin l hl
    unfold InUse at hu
    rw [List.getElem?_eq_getElem hll] at hu ⊢
    have hmem := List.getElem_mem hll
    cases hs : t.states[(home (2 ^ k) (keyOf slot) + l) % 2 ^ k] with
    | occupied => rfl
    | empty => exact absurd (congrArg some hs) hu
    | deleted => exact absurd (hs ▸ hmem) hno
  have hend := not_not.mp he
  have hprobe := probeFree_eq hlen (by rw [hend]; simp) hocc (2 ^ k) (Nat.zero_le e) (by omega)
  rw [Nat.add_zero, Nat.mod_eq_of_lt (home_lt hk _)] at hprobe
  obtain ⟨idx, hidx⟩ : ∃ idx, idx = (home (2 ^ k) (keyOf slot) + e) % 2 ^ k := ⟨_, rfl⟩
  rw [← hidx] at hprobe hend
  have hidxlt : idx < t.capacity := by
    rw [hcap, hidx]
    exact Nat.mod_lt _ hpos
  have hans : Answers keyOf t (keyOf slot) (some (.empty, idx)) := by
    refine ⟨hend, hidxlt, ?_, habs⟩
    rw [hcap]
    exact ⟨e, hlt, hidx, hmin⟩
  obtain ⟨t', hplace, hwf, hcap', hcount, hused, hst⟩ := h.place_spec slot (by simp) hans (by omega)
  have hdel' : t'.deleted = 0 := by omega
  refine ⟨t', ?_, hwf, hcap', hcount, hdel', hst⟩
  rw [← hplace]
  simp only [reinsert, place, hcap, mask_two_pow hk, hprobe, Option.bind_eq_bind, Option.bind_some,
    reduceCtorEq, if_false]

/-- The entries in the first `n` slots. -/
def StoresBelow (t : Table ε) (n : ℕ) (e : ε) : Prop := ∃ i < n, entryAt t i = some e

theorem Wf.stores_iff_below (h : Wf keyOf t) (e : ε) : Stores t e ↔ StoresBelow t t.capacity e :=
  ⟨fun ⟨i, hi⟩ => ⟨i, entryAt_lt h hi, hi⟩, fun ⟨i, _, hi⟩ => ⟨i, hi⟩⟩

theorem storesBelow_succ {n : ℕ} (e : ε) :
    StoresBelow t (n + 1) e ↔ StoresBelow t n e ∨ entryAt t n = some e := by
  constructor
  · rintro ⟨i, hi, he⟩
    by_cases hin : i < n
    · exact Or.inl ⟨i, hin, he⟩
    · obtain rfl : i = n := by omega
      exact Or.inr he
  · rintro (⟨i, hi, he⟩ | he)
    · exact ⟨i, by omega, he⟩
    · exact ⟨n, by omega, he⟩

/-- After `n` slots the new table holds exactly their entries. -/
theorem Wf.moveSlots_spec (h : Wf keyOf t) (zero : ε) {k : ℕ} (hk : k ≤ 63) (hsize : 0 < slotSize)
    (hbytes : 2 ^ k * slotSize < 2 ^ 64) (hgrow : t.capacity < 2 ^ k) {n : ℕ}
    (hn : n ≤ t.capacity) :
    ∃ new, (List.range n).foldlM (moveSlot keyOf t) (fresh slotSize zero (2 ^ k)) = some new ∧
      Wf keyOf new ∧ new.capacity = 2 ^ k ∧ new.deleted = 0 ∧
      new.count = (t.states.take n).count .occupied ∧
      ∀ e, Stores new e ↔ StoresBelow t n e := by
  induction n with
  | zero =>
    refine ⟨fresh slotSize zero (2 ^ k), rfl, wf_fresh zero hk hsize hbytes, rfl, rfl,
      by simp [fresh], fun e => ?_⟩
    simp [not_stores_fresh, StoresBelow]
  | succ n ih =>
    obtain ⟨new, hrun, hwf, hcap, hdel, hcount, hst⟩ := ih (by omega)
    have hlt : n < t.states.length := by
      rw [h.statesLen]
      omega
    have hstep : (List.range (n + 1)).foldlM (moveSlot keyOf t) (fresh slotSize zero (2 ^ k)) =
        moveSlot keyOf t new n := by
      rw [List.range_succ, List.foldlM_append, hrun]
      simp
    have htake : (t.states.take (n + 1)).count .occupied =
        (t.states.take n).count .occupied + if t.states[n] = .occupied then 1 else 0 := by
      rw [← List.take_append_getElem hlt, List.count_append, List.count_singleton]
      simp
    rw [hstep]
    unfold moveSlot
    rw [List.getElem?_eq_getElem hlt]
    simp only [Option.bind_eq_bind, Option.bind_some]
    by_cases hs : t.states[n] = .occupied
    · obtain ⟨slot, hslot⟩ : ∃ slot, t.slots[n]? = some slot :=
        ⟨_, List.getElem?_eq_getElem (by rw [h.slotsLen]; omega)⟩
      have hentry : entryAt t n = some slot :=
        entryAt_eq_some.mpr ⟨by rw [List.getElem?_eq_getElem hlt, hs], hslot⟩
      have habs : ∀ e, Stores new e → keyOf e ≠ keyOf slot := by
        intro e he hkey
        obtain ⟨j, hj, hje⟩ := (hst e).mp he
        have := h.probed.unique j (by omega) n (by omega) (keyOf slot)
          (by simp [keyAt, hje, hkey]) (by simp [keyAt, hentry])
        omega
      have hroom : new.count + 1 < new.capacity := by
        have hle : (t.states.take (n + 1)).count .occupied ≤ t.states.count .occupied :=
          (List.take_sublist _ _).count_le _
        rw [htake, if_pos hs, ← h.count] at hle
        have := h.room
        omega
      obtain ⟨t', hre, hwf', hcap', hcount', hdel', hst'⟩ := hwf.reinsert_spec hdel habs hroom
      refine ⟨t', ?_, hwf', hcap'.trans hcap, hdel', ?_, fun e => ?_⟩
      · rw [if_pos hs, hslot]
        exact hre
      · rw [hcount', hcount, htake, if_pos hs]
      · rw [hst', hst, storesBelow_succ, hentry, Option.some.injEq, eq_comm, or_comm]
    · refine ⟨new, if_neg hs, hwf, hcap, hdel, ?_, fun e => ?_⟩
      · rw [hcount, htake, if_neg hs, Nat.add_zero]
      · have hnone : entryAt t n = none := by
          unfold entryAt
          rw [if_neg (by rw [List.getElem?_eq_getElem hlt]; simpa using hs)]
        rw [hst, storesBelow_succ, hnone]
        simp

theorem rehash_refused (zero : ε) {granted : Bool × Bool} (hg : (granted.1 && granted.2) = false)
    (newCapacity : ℕ) : rehash keyOf slotSize zero granted t newCapacity = some (.alloc, t) := by
  obtain ⟨g₁, g₂⟩ := granted
  cases g₁ with
  | false => rfl
  | true =>
    obtain rfl : g₂ = false := hg
    rfl

theorem Wf.rehash_spec (h : Wf keyOf t) (zero : ε) {k : ℕ} (hk : k ≤ 63) (hsize : 0 < slotSize)
    (hbytes : 2 ^ k * slotSize < 2 ^ 64) (hgrow : t.capacity < 2 ^ k) :
    ∃ t', rehash keyOf slotSize zero (true, true) t (2 ^ k) = some (.ok, t') ∧
      Wf keyOf t' ∧ t'.capacity = 2 ^ k ∧ t'.count = t.count ∧ t'.deleted = 0 ∧
        ∀ e, Stores t' e ↔ Stores t e := by
  obtain ⟨new, hrun, hwf, hcap, hdel, hcount, hst⟩ :=
    h.moveSlots_spec zero hk hsize hbytes hgrow le_rfl
  refine ⟨new, by simp [rehash, hrun], hwf, hcap, ?_, hdel, fun e => ?_⟩
  · rw [hcount, ← h.statesLen, List.take_length, h.count]
  · rw [hst, h.stores_iff_below]

/-! ## Tombstones and clearing -/

theorem Wf.tombstone_spec (h : Wf keyOf t) (hentry : entryAt t i = some slot) :
    ∃ states t', store t.states i .deleted = some states ∧
      { t with
        states := states
        count := wrap (t.count + sizeMax)
        deleted := wrap (t.deleted + 1) } = t' ∧ Wf keyOf t' ∧ t'.capacity = t.capacity ∧
      t'.count + 1 = t.count ∧
      t'.count + t'.deleted = t.count + t.deleted ∧
      ∀ e, Stores t' e ↔ Stores t e ∧ keyOf e ≠ keyOf slot := by
  obtain ⟨hst, -⟩ := entryAt_eq_some.mp hentry
  have hstl : i < t.states.length := (List.getElem?_eq_some_iff.mp hst).1
  have hle := h.capacity_le
  have hroom := h.room
  have hocc := count_set_state hstl hst .deleted .occupied
  have hdel := count_set_state hstl hst .deleted .deleted
  rw [← h.count] at hocc
  rw [← h.deleted] at hdel
  simp only [reduceCtorEq, if_false, if_true, Nat.add_zero] at hocc hdel
  have hcount : wrap (t.count + sizeMax) = (t.states.set i .deleted).count .occupied := by
    unfold wrap sizeMax
    omega
  have hdeleted : wrap (t.deleted + 1) = (t.states.set i .deleted).count .deleted := by
    rw [wrap_of_lt (by omega), hdel]
  obtain ⟨t', ht'⟩ : ∃ t', t' = { t with
      states := t.states.set i .deleted
      count := (t.states.set i .deleted).count SlotState.occupied
      deleted := (t.states.set i .deleted).count SlotState.deleted } := ⟨_, rfl⟩
  have hent : ∀ j, entryAt t' j = if j = i then none else entryAt t j := fun j => by
    subst ht'
    simp only [entryAt, getElem?_set_eq hstl]
    by_cases hj : j = i <;> simp [hj]
  refine ⟨_, t', store_eq hstl _, ?_, ⟨?_, ?_, ?_, ?_, ?_, ?_, ?_⟩, ?_, ?_, ?_, fun e => ?_⟩
  · rw [hcount, hdeleted, ht']
  · subst ht'
    exact h.pow
  · subst ht'
    exact h.slotsLen
  · subst ht'
    simpa using h.statesLen
  · have hcap : t'.capacity = t.capacity := by rw [ht']
    rw [hcap]
    refine h.probed.mono (fun j _ k hk => ?_) fun j _ hu => ?_
    · simp only [keyAt, hent] at hk
      split_ifs at hk with hj
      · simp at hk
      · exact hk
    · subst ht'
      simp only [InUse, getElem?_set_eq hstl]
      split_ifs
      · simp
      · exact hu
  · rw [ht']
  · rw [ht']
  · simp only [ht']
    omega
  · rw [ht']
  · simp only [ht']
    omega
  · simp only [ht']
    omega
  · constructor
    · rintro ⟨j, hj⟩
      rw [hent] at hj
      split_ifs at hj with hji
      refine ⟨⟨j, hj⟩, fun hkey => hji ?_⟩
      exact h.probed.unique j (entryAt_lt h hj) i (entryAt_lt h hentry) (keyOf slot)
        (by simp [keyAt, hj, hkey]) (by simp [keyAt, hentry])
    · rintro ⟨⟨j, hj⟩, hkey⟩
      refine ⟨j, ?_⟩
      rw [hent, if_neg]
      · exact hj
      · rintro rfl
        exact hkey (by rw [Option.some.inj (hj.symm.trans hentry)])

theorem Wf.clear_spec (h : Wf keyOf t) :
    ∃ t', clear t = some t' ∧ Wf keyOf t' ∧ t'.capacity = t.capacity ∧ t'.count = 0 ∧
      t'.deleted = 0 ∧ ∀ e, ¬Stores t' e := by
  obtain ⟨t', ht'⟩ : ∃ t', t' = { t with
      states := (List.range t.capacity).map fun _ => SlotState.empty
      count := 0
      deleted := 0 } := ⟨_, rfl⟩
  have hnone : ∀ i, entryAt t' i = none := fun i => by
    unfold entryAt
    rw [if_neg]
    intro hs
    simp [ht', List.getElem?_replicate] at hs
  have hzero : ∀ s ≠ SlotState.empty, ((List.range t.capacity).map fun _ => SlotState.empty).count s
      = 0 := fun s hs => by
    rw [List.count_eq_zero]
    intro hm
    simp [hs] at hm
  refine ⟨t', ?_, ⟨?_, ?_, ?_, Probed.empty fun i _ => ?_, ?_, ?_, ?_⟩, ?_, ?_, ?_, ?_⟩
  · simp [clear, storeAll_eq _ h.statesLen, ht']
  · simpa [ht'] using h.pow
  · simpa [ht'] using h.slotsLen
  · simp [ht']
  · simp [keyAt, hnone]
  · simp only [ht', hzero .occupied (by simp)]
  · simp only [ht', hzero .deleted (by simp)]
  · have := h.room
    simp only [ht']
    omega
  · rw [ht']
  · rw [ht']
  · rw [ht']
  · rintro e ⟨i, hi⟩
    simp [hnone] at hi

/-! ## The load check -/

/-- What the load check lets through: the next insertion fits. The bound on the load accounts for
the capacities at which the products of the check wrap. -/
structure Light (slotSize : ℕ) (keyOf : ε → Bytes keySize) (t : Table ε) : Prop where
  wf : Wf keyOf t
  big : 8 ≤ t.capacity
  load : (t.count + t.deleted) * 100 ≤ 3 * 2 ^ 62 + 100 * Nat.log 2 t.capacity
  sized : 0 < slotSize
  bytes : t.capacity * slotSize < 2 ^ 64

/-- If the load check asks for a larger table and the allocator grants it, the bytes of its slots are
a `size_t`. -/
def GrowthFits (slotSize : ℕ) (t : Table ε) (granted : Bool × Bool) : Prop :=
  Overloaded t → (granted.1 && granted.2) = true →
    t.capacity * hashGrowthFactor * slotSize < 2 ^ 64

theorem threshold_le {k : ℕ} (hk : k ≤ 63) : wrap (2 ^ k * hashLoadPercent) ≤ 3 * 2 ^ 62 := by
  interval_cases k <;> decide

theorem Light.not_overloaded (h : Light slotSize keyOf t) (hno : ¬Overloaded t) :
    t.count + t.deleted + 1 < t.capacity ∧ (t.count + t.deleted + 1) * 100 ≤ 3 * 2 ^ 62 + 100 := by
  obtain ⟨k, hk, hcap⟩ := h.wf.pow
  have hle := h.wf.capacity_le
  have hroom := h.wf.room
  have hload := h.load
  have hbig := h.big
  have hlog : Nat.log 2 t.capacity = k := by rw [hcap, Nat.log_pow (by norm_num)]
  have hthr := threshold_le hk
  rw [← hcap] at hthr
  have hmod : wrap (t.capacity * hashLoadPercent) ≤ t.capacity * hashLoadPercent := Nat.mod_le _ _
  unfold Overloaded at hno
  rw [wrap_of_lt (by omega : t.count + t.deleted < 2 ^ 64), wrap_of_lt (by omega)] at hno
  unfold hashLoadPercent at hmod hno hthr
  omega

theorem Light.ensureLoad_spec (h : Light slotSize keyOf t) (zero : ε) (granted : Bool × Bool)
    (hgrow : GrowthFits slotSize t granted) :
    (∃ t', ensureLoad keyOf slotSize zero granted t = some (.ok, t') ∧ Light slotSize keyOf t' ∧
      t'.count = t.count ∧ (∀ e, Stores t' e ↔ Stores t e) ∧
      t'.count + t'.deleted + 1 < t'.capacity ∧
      (t'.count + t'.deleted + 1) * 100 ≤ 3 * 2 ^ 62 + 100 * Nat.log 2 t'.capacity) ∨
    (ensureLoad keyOf slotSize zero granted t = some (.alloc, t) ∧
      (granted.1 && granted.2) = false) := by
  by_cases hover : Overloaded t
  · unfold ensureLoad
    rw [if_pos hover]
    cases hg : granted.1 && granted.2 with
    | false => exact .inr ⟨rehash_refused zero hg _, rfl⟩
    | true =>
      left
      obtain ⟨k, hk, hcap⟩ := h.wf.pow
      have hroom := h.wf.room
      have hload := h.load
      have hbig := h.big
      have hbytes := hgrow hover hg
      have hdouble : t.capacity * hashGrowthFactor = 2 ^ (k + 1) := by
        rw [hcap, hashGrowthFactor, pow_succ]
      rw [hdouble] at hbytes
      have hlt : 2 ^ (k + 1) < 2 ^ 64 := (Nat.le_mul_of_pos_right _ h.sized).trans_lt hbytes
      have hk' : k + 1 ≤ 63 := Nat.lt_succ_iff.mp ((Nat.pow_lt_pow_iff_right (by norm_num)).mp hlt)
      have hpow : t.capacity < 2 ^ (k + 1) := by
        rw [hcap]
        exact Nat.pow_lt_pow_right (by norm_num) (Nat.lt_succ_self k)
      obtain ⟨rfl⟩ : granted = (true, true) := by
        obtain ⟨g₁, g₂⟩ := granted
        rw [Bool.and_eq_true] at hg
        exact Prod.ext hg.1 hg.2
      obtain ⟨t', hrun, hwf, hcap', hcount, hdel, hst⟩ :=
        h.wf.rehash_spec zero hk' h.sized hbytes hpow
      have hlog : Nat.log 2 t.capacity = k := by rw [hcap, Nat.log_pow (by norm_num)]
      have hlog' : Nat.log 2 t'.capacity = k + 1 := by rw [hcap', Nat.log_pow (by norm_num)]
      have hload' : (t'.count + t'.deleted + 1) * 100 ≤ 3 * 2 ^ 62 + 100 * Nat.log 2 t'.capacity := by
        rw [hlog', hcount, hdel]
        omega
      refine ⟨t', by rw [hdouble, wrap_of_lt hlt, hrun], ⟨hwf, by omega, by omega, h.sized, ?_⟩,
        hcount, hst, by omega, hload'⟩
      rwa [hcap']
  · left
    obtain ⟨hfit, hbound⟩ := h.not_overloaded hover
    have hbig := h.big
    have hpos : 0 < Nat.log 2 t.capacity := Nat.log_pos (by norm_num) (by omega)
    refine ⟨t, by simp [ensureLoad, hover], h, rfl, fun e => Iff.rfl, hfit, ?_⟩
    omega

/-! ## Creation and clearing -/

theorem Light.clear_spec (h : Light slotSize keyOf t) :
    ∃ t', clear t = some t' ∧ Light slotSize keyOf t' ∧ t'.capacity = t.capacity ∧ t'.count = 0 ∧
      ∀ e, ¬Stores t' e := by
  obtain ⟨t', hrun, hwf, hcap, hcount, hdel, hst⟩ := h.wf.clear_spec
  exact ⟨t', hrun, ⟨hwf, hcap.symm ▸ h.big, by simp [hcount, hdel], h.sized, hcap.symm ▸ h.bytes⟩,
    hcap, hcount, hst⟩

theorem light_create {zero : ε} {granted : Bool × Bool × Bool} {capacity : ℕ}
    (hc : capacity ≤ sizeMax) (h8 : 8 ≤ roundPow2 capacity) (hsize : 0 < slotSize)
    (hbytes : roundPow2 capacity * slotSize < 2 ^ 64)
    (h : create slotSize zero granted capacity = some t) :
    Light slotSize keyOf t ∧ t.count = 0 ∧ ∀ e, ¬Stores t e := by
  unfold create at h
  split_ifs at h with h0 hg
  have hle : capacity ≤ 2 ^ 63 := by
    by_contra hgt
    rw [roundPow2_eq_zero (by omega) hc] at h8
    omega
  obtain rfl : fresh slotSize zero (roundPow2 capacity) = t := by simpa using h
  have hpow := roundPow2_eq (by omega : 1 ≤ capacity) hle
  have hexp : (capacity - 1).size ≤ 63 := Nat.size_le.mpr (by omega)
  refine ⟨⟨?_, h8, by simp [fresh], hsize, hbytes⟩, rfl, not_stores_fresh zero _⟩
  rw [hpow] at hbytes ⊢
  exact wf_fresh zero hexp hsize hbytes

end LibZenit.HashTable
