import LibZenit.HashTableModel
import LibZenit.LinearProbe

/-!
# The invariant of the open-addressing table

Keys are unique, probe paths are unbroken, the counters count the states, and at least one slot is
empty. Each internal step of the source is described by the entries it leaves in the table.
-/
namespace LibZenit.HashTable
open HashCommon LinearProbe Slots

variable {keySize : ℕ} {ε : Type}

/-- The entry of an occupied slot. -/
def entryAt (t : Table ε) (i : ℕ) : Option ε :=
  if t.states[i]? = some .occupied then t.slots[i]? else none

def keyAt (keyOf : ε → Bytes keySize) (t : Table ε) (i : ℕ) : Option (Bytes keySize) :=
  (entryAt t i).map keyOf

def InUse (t : Table ε) (i : ℕ) : Prop := t.states[i]? ≠ some .empty

/-- The entry is stored in some slot. -/
def Stores (t : Table ε) (e : ε) : Prop := ∃ i, entryAt t i = some e

structure Wf (keyOf : ε → Bytes keySize) (t : Table ε) : Prop where
  pow : ∃ k ≤ 63, t.capacity = 2 ^ k
  slotsLen : t.slots.length = t.capacity
  statesLen : t.states.length = t.capacity
  probed : Probed t.capacity (home t.capacity) (keyAt keyOf t) (InUse t)
  count : t.count = t.states.count .occupied
  deleted : t.deleted = t.states.count .deleted
  room : t.count + t.deleted < t.capacity

variable {keyOf : ε → Bytes keySize} {t t' : Table ε} {key : Bytes keySize} {slot : ε} {i : ℕ}

/-! ## Reading entries -/

theorem entryAt_eq_some {e : ε} :
    entryAt t i = some e ↔ t.states[i]? = some .occupied ∧ t.slots[i]? = some e := by
  unfold entryAt
  split_ifs with h
  · simp [h]
  · simp [h]

theorem keyAt_eq_some :
    keyAt keyOf t i = some key ↔
      ∃ e, t.states[i]? = some .occupied ∧ t.slots[i]? = some e ∧ keyOf e = key := by
  simp only [keyAt, Option.map_eq_some_iff, entryAt_eq_some, and_assoc]

theorem entryAt_lt (h : Wf keyOf t) {e : ε} (he : entryAt t i = some e) : i < t.capacity := by
  have hs := (entryAt_eq_some.mp he).2
  rw [← h.slotsLen]
  exact (List.getElem?_eq_some_iff.mp hs).1

/-- The three states partition the slots. -/
theorem count_states (states : List SlotState) :
    states.count .empty + states.count .occupied + states.count .deleted = states.length := by
  induction states with
  | nil => rfl
  | cons s states ih =>
    simp only [List.count_cons, List.length_cons]
    cases s <;> simp <;> omega

theorem exists_empty_state {states : List SlotState}
    (h : states.count .occupied + states.count .deleted < states.length) :
    ∃ i < states.length, states[i]? = some .empty := by
  have hsum := count_states states
  have hmem : SlotState.empty ∈ states := List.count_pos_iff.mp (by omega)
  obtain ⟨i, hi, he⟩ := List.mem_iff_getElem.mp hmem
  exact ⟨i, hi, by rw [List.getElem?_eq_getElem hi, he]⟩

theorem Wf.exists_empty (h : Wf keyOf t) : ∃ i < t.capacity, t.states[i]? = some .empty := by
  rw [← h.statesLen]
  apply exists_empty_state
  rw [← h.count, ← h.deleted, h.statesLen]
  exact h.room

/-! ## `probe_slot` -/

/-- What a probe for `key` may return. -/
def Answers (keyOf : ε → Bytes keySize) (t : Table ε) (key : Bytes keySize) :
    Option (SlotState × ℕ) → Prop
  | none => False
  | some (.occupied, i) => ∃ slot, entryAt t i = some slot ∧ keyOf slot = key
  | some (state, i) => t.states[i]? = some state ∧ i < t.capacity ∧
      Reachable t.capacity (home t.capacity) (InUse t) key i ∧ ∀ e, Stores t e → keyOf e ≠ key

/-- A probe that answers `OCCUPIED` has compared the key of that slot. -/
theorem probeSlotFrom_occupied {fuel index firstDeleted : ℕ} {foundDeleted : Bool}
    (h : probeSlotFrom keyOf t key fuel index firstDeleted foundDeleted = some (.occupied, i)) :
    ∃ slot, t.slots[i]? = some slot := by
  induction fuel generalizing index firstDeleted foundDeleted with
  | zero => cases h
  | succ fuel ih =>
    rw [probeSlotFrom] at h
    cases hstate : t.states[index]? with
    | none => simp [hstate] at h
    | some state =>
      cases state with
      | empty => cases foundDeleted <;> simp [hstate] at h
      | deleted =>
        simp only [hstate] at h
        exact ih h
      | occupied =>
        cases hslot : t.slots[index]? with
        | none => simp [hstate, hslot] at h
        | some slot =>
          simp only [hstate, hslot, Option.bind_eq_bind, Option.bind_some] at h
          split_ifs at h with hkey
          · cases h
            exact ⟨slot, hslot⟩
          · exact ih h

theorem probeSlotFrom_answers (h : Wf keyOf t) {k e : ℕ} (hk : k ≤ 63) (hcap : t.capacity = 2 ^ k)
    (hlt : e < 2 ^ k) (he : ¬InUse t ((home (2 ^ k) key + e) % 2 ^ k))
    (hmin : ∀ l < e, InUse t ((home (2 ^ k) key + l) % 2 ^ k)) (fuel first : ℕ)
    (found : Bool) {j : ℕ} (hj : j ≤ e) (hf : e < j + fuel)
    (hmiss : ∀ l < j, keyAt keyOf t ((home (2 ^ k) key + l) % 2 ^ k) ≠ some key)
    (hfirst : found = true → ∃ d < j, first = (home (2 ^ k) key + d) % 2 ^ k ∧
      t.states[first]? = some .deleted) :
    Answers keyOf t key
      (probeSlotFrom keyOf t key fuel ((home (2 ^ k) key + j) % 2 ^ k) first found) := by
  have hpos : 0 < 2 ^ k := by positivity
  have hprobed := h.probed
  rw [hcap] at hprobed
  have hreach : ∀ d ≤ e, Reachable (2 ^ k) (home (2 ^ k)) (InUse t) key
      ((home (2 ^ k) key + d) % 2 ^ k) := fun d hd =>
    ⟨d, by omega, rfl, fun l hl => hmin l (by omega)⟩
  induction fuel generalizing j first found with
  | zero => omega
  | succ fuel ih =>
    obtain ⟨idx, hidx⟩ : ∃ idx, idx = (home (2 ^ k) key + j) % 2 ^ k := ⟨_, rfl⟩
    have hidxlt : idx < t.states.length := by
      rw [hidx, h.statesLen, hcap]
      exact Nat.mod_lt _ hpos
    have hnext : (idx + 1) &&& mask t.capacity = (home (2 ^ k) key + (j + 1)) % 2 ^ k := by
      rw [hcap, mask_two_pow hk, hidx, mask_step]
    rw [← hidx, probeSlotFrom, List.getElem?_eq_getElem hidxlt]
    simp only [Option.bind_eq_bind, Option.bind_some]
    -- what continuing needs
    have hcont : t.states[idx]? ≠ some .empty → keyAt keyOf t idx ≠ some key →
        j + 1 ≤ e ∧ ∀ l < j + 1, keyAt keyOf t ((home (2 ^ k) key + l) % 2 ^ k) ≠ some key := by
      intro hne hkey
      have hje : j ≠ e := by
        rintro rfl
        exact he (hidx ▸ hne)
      refine ⟨by omega, fun l hl => ?_⟩
      by_cases hlj : l < j
      · exact hmiss l hlj
      · obtain rfl : l = j := by omega
        exact hidx ▸ hkey
    have hstate := List.getElem?_eq_getElem hidxlt
    cases hs : t.states[idx] with
    | empty =>
      rw [hs] at hstate
      -- the scan ends: nothing with this key is stored
      have habs : ∀ e, Stores t e → keyOf e ≠ key := by
        rintro d ⟨i, hi⟩ hkey
        have hi' : i < 2 ^ k := hcap ▸ entryAt_lt h hi
        have hunused : ¬InUse t ((home (2 ^ k) key + j) % 2 ^ k) := by
          rw [← hidx]
          exact not_not.mpr hstate
        exact hprobed.absent hunused hmiss i hi' (by simp [keyAt, hi, hkey])
      cases hfd : found with
      | false =>
        simp only [Bool.false_eq_true, if_false]
        refine ⟨hstate, h.statesLen ▸ hidxlt, ?_, habs⟩
        rw [hcap, hidx]
        exact hreach j hj
      | true =>
        obtain ⟨d, hd, hfst, hdel⟩ := hfirst hfd
        simp only [if_true]
        refine ⟨hdel, ?_, ?_, habs⟩
        · rw [hcap, hfst]
          exact Nat.mod_lt _ hpos
        · rw [hcap, hfst]
          exact hreach d (by omega)
    | deleted =>
      rw [hs] at hstate
      have hkey : keyAt keyOf t idx ≠ some key := by
        simp [keyAt, entryAt, hstate]
      obtain ⟨hj', hmiss'⟩ := hcont (by simp [hstate]) hkey
      simp only [hnext]
      refine ih _ _ hj' (by omega) hmiss' fun _ => ?_
      cases hfd : found with
      | false =>
        simp only [Bool.false_eq_true, if_false]
        exact ⟨j, by omega, hidx, hstate⟩
      | true =>
        obtain ⟨d, hd, hfst, hdel⟩ := hfirst hfd
        exact ⟨d, by omega, hfst, hdel⟩
    | occupied =>
      rw [hs] at hstate
      obtain ⟨slot, hslot⟩ : ∃ slot, t.slots[idx]? = some slot :=
        ⟨_, List.getElem?_eq_getElem (h.slotsLen.symm ▸ h.statesLen ▸ hidxlt)⟩
      have hentry : entryAt t idx = some slot := entryAt_eq_some.mpr ⟨hstate, hslot⟩
      simp only [hslot, Option.bind_some]
      by_cases heq : keyOf slot = key
      · rw [if_pos heq]
        exact ⟨slot, hentry, heq⟩
      · rw [if_neg heq, hnext]
        obtain ⟨hj', hmiss'⟩ := hcont (by simp [hstate]) (by simpa [keyAt, hentry] using heq)
        exact ih _ _ hj' (by omega) hmiss' fun hfd => by
          obtain ⟨d, hd, hfst, hdel⟩ := hfirst hfd
          exact ⟨d, by omega, hfst, hdel⟩

/-- Every probe of a well-formed table stops, and with the right answer. -/
theorem Wf.probeSlot_answers (h : Wf keyOf t) (key : Bytes keySize) :
    Answers keyOf t key (probeSlot keyOf t key) := by
  obtain ⟨k, hk, hcap⟩ := h.pow
  obtain ⟨i, hi, hempty⟩ := h.exists_empty
  rw [hcap] at hi
  have hunused : ¬InUse t i := not_not.mpr hempty
  obtain ⟨e, hlt, he, hmin⟩ := exists_first (home (2 ^ k) key) hi hunused
  have hans := probeSlotFrom_answers h hk hcap hlt he hmin (2 ^ k) t.capacity false
    (Nat.zero_le e) (by omega) (by simp) (by simp)
  rw [Nat.add_zero, Nat.mod_eq_of_lt (home_lt hk key), ← hcap] at hans
  exact hans

/-! ## Storing an entry -/

theorem getElem?_set_eq {α : Type} {xs : List α} {a : α} (hi : i < xs.length) (j : ℕ) :
    (xs.set i a)[j]? = if j = i then some a else xs[j]? := by
  by_cases hj : j = i
  · subst hj
    rw [if_pos rfl, List.getElem?_set_self hi]
  · rw [if_neg hj, List.getElem?_set_ne (fun he => hj he.symm)]

/-- The table with an entry written to a slot, and new counters. -/
def stored (t : Table ε) (i : ℕ) (slot : ε) (count deleted : ℕ) : Table ε where
  slots := t.slots.set i slot
  states := t.states.set i .occupied
  capacity := t.capacity
  count := count
  deleted := deleted

theorem entryAt_stored (hsl : i < t.slots.length) (hst : i < t.states.length) (c d : ℕ) (j : ℕ) :
    entryAt (stored t i slot c d) j = if j = i then some slot else entryAt t j := by
  simp only [entryAt, stored, getElem?_set_eq hsl, getElem?_set_eq hst]
  by_cases hj : j = i
  · simp [hj]
  · simp [hj]

theorem stores_stored (hsl : i < t.slots.length) (hst : i < t.states.length) (c d : ℕ)
    (hnone : entryAt t i = none) (e : ε) :
    Stores (stored t i slot c d) e ↔ e = slot ∨ Stores t e := by
  unfold Stores
  simp only [entryAt_stored hsl hst]
  constructor
  · rintro ⟨j, hj⟩
    split_ifs at hj with he
    · exact Or.inl (by simpa using hj.symm)
    · exact Or.inr ⟨j, hj⟩
  · rintro (rfl | ⟨j, hj⟩)
    · exact ⟨i, if_pos rfl⟩
    · refine ⟨j, ?_⟩
      rw [if_neg]
      · exact hj
      · rintro rfl
        simp [hnone] at hj

/-- Storing a new key in a reachable slot that is not occupied keeps lookups exact. -/
theorem probed_stored (hp : Probed t.capacity (home t.capacity) (keyAt keyOf t) (InUse t))
    (hsl : i < t.slots.length) (hst : i < t.states.length) (c d : ℕ)
    (habs : ∀ e, Stores t e → keyOf e ≠ keyOf slot)
    (hreach : Reachable t.capacity (home t.capacity) (InUse t) (keyOf slot) i) :
    Probed t.capacity (home t.capacity) (keyAt keyOf (stored t i slot c d))
      (InUse (stored t i slot c d)) := by
  refine hp.insert ?_ hreach (fun j _ => ?_) (fun j _ hu => ?_) ?_
  · intro j _ hk
    obtain ⟨e, hs, hsl', hke⟩ := keyAt_eq_some.mp hk
    exact habs e ⟨j, entryAt_eq_some.mpr ⟨hs, hsl'⟩⟩ hke
  · simp only [keyAt, entryAt_stored hsl hst]
    split_ifs <;> rfl
  · simp only [InUse, stored, getElem?_set_eq hst]
    split_ifs
    · simp
    · exact hu
  · simp [InUse, stored, getElem?_set_eq hst]

theorem count_set_state {states : List SlotState} {s : SlotState} (hi : i < states.length)
    (hs : states[i]? = some s) (a b : SlotState) :
    (states.set i a).count b + (if s = b then 1 else 0) =
      states.count b + (if a = b then 1 else 0) := by
  obtain ⟨_, hget⟩ := List.getElem?_eq_some_iff.mp hs
  rw [List.count_set hi, hget]
  have hpos : s = b → 0 < states.count b := fun h => by
    rw [List.count_pos_iff, ← h, ← hget]
    exact List.getElem_mem hi
  by_cases h1 : s = b
  · have := hpos h1
    simp [h1]
    omega
  · simp [h1]

/-- The outcome of `place` on the slot that a probe returned. -/
theorem Wf.place_spec (h : Wf keyOf t) (slot : ε) {state : SlotState} (hstate : state ≠ .occupied)
    (hans : Answers keyOf t (keyOf slot) (some (state, i)))
    (hroom : t.count + t.deleted + 1 < t.capacity) :
    ∃ t', place t state i slot = some t' ∧ Wf keyOf t' ∧ t'.capacity = t.capacity ∧
      t'.count = t.count + 1 ∧ t'.count + t'.deleted ≤ t.count + t.deleted + 1 ∧
      ∀ e, Stores t' e ↔ e = slot ∨ Stores t e := by
  obtain ⟨hst, hlt, hreach, habs⟩ : t.states[i]? = some state ∧ i < t.capacity ∧
      Reachable t.capacity (home t.capacity) (InUse t) (keyOf slot) i ∧
      ∀ e, Stores t e → keyOf e ≠ keyOf slot := by
    cases state with
    | occupied => exact absurd rfl hstate
    | empty => exact hans
    | deleted => exact hans
  have hsl : i < t.slots.length := h.slotsLen.symm ▸ hlt
  have hstl : i < t.states.length := h.statesLen.symm ▸ hlt
  have hcap : t.capacity ≤ 2 ^ 63 := by
    obtain ⟨k, hk, hc⟩ := h.pow
    rw [hc]
    exact Nat.pow_le_pow_right (by norm_num) hk
  have hocc := count_set_state hstl hst .occupied .occupied
  have hdel := count_set_state hstl hst .occupied .deleted
  rw [← h.count] at hocc
  rw [← h.deleted] at hdel
  simp only [if_neg hstate, if_true, reduceCtorEq, if_false] at hocc hdel
  have hcount : wrap (t.count + 1) = t.count + 1 := wrap_of_lt (by omega)
  have hdeleted : (if state = .deleted then wrap (t.deleted + sizeMax) else t.deleted) =
      (t.states.set i .occupied).count .deleted := by
    split_ifs at hdel ⊢ with hd
    · unfold wrap sizeMax
      omega
    · omega
  obtain ⟨d, hd⟩ : ∃ d, d = (t.states.set i .occupied).count .deleted := ⟨_, rfl⟩
  rw [← hd] at hdel hdeleted
  have hused : t.count + 1 + d ≤ t.count + t.deleted + 1 := by
    split_ifs at hdel <;> omega
  refine ⟨stored t i slot (t.count + 1) d, ?_, ⟨h.pow, by simpa [stored] using h.slotsLen,
    by simpa [stored] using h.statesLen, probed_stored h.probed hsl hstl _ _ habs hreach, ?_, hd,
    hused.trans_lt hroom⟩, rfl, rfl, hused, stores_stored hsl hstl _ _ ?_⟩
  · simp only [place, store_eq hsl, store_eq hstl, Option.bind_eq_bind, Option.bind_some, hcount,
      hdeleted]
    rfl
  · simp only [stored]
    omega
  · simp [entryAt, hst, hstate]

end LibZenit.HashTable
