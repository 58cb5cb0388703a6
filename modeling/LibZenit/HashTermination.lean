import LibZenit.MapRefinement

/-!
# Probes stop

Every state of a map or set created with at least five slots keeps an empty slot, so that the
unbounded loop of `probe_slot` stops for every key. Smaller tables fill up.
-/
namespace LibZenit.HashTable
open HashCommon LinearProbe Slots

variable {keySize valueSize : ℕ}

/-- States reached by steps that meet `cond` in the state they start from. -/
inductive Reached {σ ω : Type} (step : σ → ω → Option σ) (cond : σ → ω → Prop) (s : σ) : σ → Prop
  | refl : Reached step cond s s
  | step {t u : σ} {op : ω} (prior : Reached step cond s t) (met : cond t op)
      (done : step t op = some u) : Reached step cond s u

theorem Reached.invariant {σ ω : Type} {step : σ → ω → Option σ} {cond : σ → ω → Prop} {s t : σ}
    {P : σ → Prop} (h : Reached step cond s t) (h0 : P s)
    (hstep : ∀ t op u, P t → cond t op → step t op = some u → P u) : P t := by
  induction h with
  | refl => exact h0
  | step _ met done ih => exact hstep _ _ _ ih met done

inductive SetOp (keySize : ℕ) where
  | insert (key : Option (Bytes keySize)) (granted : Bool × Bool)
  | remove (key : Option (Bytes keySize))
  | clear

def stepSet (set : KeySet keySize) : SetOp keySize → Option (KeySet keySize)
  | .insert key granted => (zenitSetInsert granted set key).map Prod.snd
  | .remove key => (zenitSetRemove set key).map Prod.snd
  | .clear => zenitSetClear set

def stepMap (map : Map keySize valueSize) (op : MapOp keySize valueSize) :
    Option (Map keySize valueSize) :=
  (execMap map op).map Prod.snd

/-- The bytes of a table that an insertion grows into do not wrap. -/
def SetFits (set : KeySet keySize) : SetOp keySize → Prop
  | .insert (some _) granted => GrowthFits keySize set granted
  | _ => True

/-- An empty slot exists, and the probe for any key returns after at most one round. -/
def ProbesStop {ε : Type} (keyOf : ε → Bytes keySize) (t : Table ε) : Prop :=
  (∃ i < t.capacity, t.states[i]? = some .empty) ∧
    ∀ key, ∃ answer, probeSlotBounded keyOf t key t.capacity = some answer

theorem Light.probesStop {ε : Type} {slotSize : ℕ} {keyOf : ε → Bytes keySize} {t : Table ε}
    (h : Light slotSize keyOf t) : ProbesStop keyOf t := by
  refine ⟨h.wf.exists_empty, fun key => ?_⟩
  have hans := h.wf.probeSlot_answers key
  cases hp : probeSlot keyOf t key with
  | none =>
    rw [hp] at hans
    exact hans.elim
  | some answer => exact ⟨answer, hp⟩

/-! ## One step -/

theorem Light.stepMap {map : Map keySize valueSize} (h : Light (keySize + valueSize) Prod.fst map)
    (op : MapOp keySize valueSize) (hc : MapFits map op) :
    ∃ map', HashTable.stepMap map op = some map' ∧
      Light (keySize + valueSize) Prod.fst map' := by
  unfold HashTable.stepMap
  match op with
  | .insert (some key) (some value) granted =>
    rcases h.insert_spec hc key value with ⟨m, hrun, hl, -, -⟩ | ⟨hrun, -⟩
    · exact ⟨m, by simp [execMap, hrun], hl⟩
    · exact ⟨map, by simp [execMap, hrun], h⟩
  | .insert none _ _ => exact ⟨map, by simp [execMap, zenitMapInsert], h⟩
  | .insert (some _) none _ => exact ⟨map, by simp [execMap, zenitMapInsert], h⟩
  | .remove (some key) =>
    rcases h.remove_spec key with ⟨m, hrun, hl, -⟩ | ⟨hrun, -⟩
    · exact ⟨m, by simp [execMap, hrun], hl⟩
    · exact ⟨map, by simp [execMap, hrun], h⟩
  | .remove none => exact ⟨map, rfl, h⟩
  | .get (some key) true =>
    rcases h.get_spec key with ⟨v, -, hrun, -⟩ | ⟨-, hrun, -⟩
    · exact ⟨map, by simp [execMap, hrun], h⟩
    · exact ⟨map, by simp [execMap, hrun], h⟩
  | .get (some _) false => exact ⟨map, by simp [execMap, zenitMapGet], h⟩
  | .get none _ => exact ⟨map, by simp [execMap, zenitMapGet], h⟩
  | .contains (some key) =>
    rcases h.get_spec key with ⟨v, -, -, hrun⟩ | ⟨-, -, hrun⟩
    · exact ⟨map, by simp [execMap, hrun], h⟩
    · exact ⟨map, by simp [execMap, hrun], h⟩
  | .contains none => exact ⟨map, rfl, h⟩
  | .clear =>
    obtain ⟨m, hrun, hl, -⟩ := h.clear_spec
    exact ⟨m, by simp [execMap, zenitMapClear, hrun], hl⟩

/-- A new entry after the load check. -/
theorem Light.place {ε : Type} {slotSize i : ℕ} {keyOf : ε → Bytes keySize} {t : Table ε} {slot : ε}
    {state : SlotState} (h : Light slotSize keyOf t)
    (hbound : (t.count + t.deleted + 1) * 100 ≤ 3 * 2 ^ 62 + 100 * Nat.log 2 t.capacity)
    (hfit : t.count + t.deleted + 1 < t.capacity) (hstate : state ≠ .occupied)
    (hans : Answers keyOf t (keyOf slot) (some (state, i))) :
    ∃ t', HashTable.place t state i slot = some t' ∧ Light slotSize keyOf t' := by
  obtain ⟨t', hrun, hwf, hcap, -, hused, -⟩ := h.wf.place_spec slot hstate hans hfit
  refine ⟨t', hrun, hwf, hcap.symm ▸ h.big, ?_, h.sized, hcap.symm ▸ h.bytes⟩
  rw [hcap]
  exact (Nat.mul_le_mul_right 100 hused).trans hbound

theorem Light.stepSet {set : KeySet keySize} (h : Light keySize id set) (op : SetOp keySize)
    (hc : SetFits set op) :
    ∃ set', HashTable.stepSet set op = some set' ∧ Light keySize id set' := by
  match op with
  | .insert (some key) granted =>
    rcases h.ensureLoad_spec zeroKey granted hc with
        ⟨s, hload, hs, -, -, hfit, hbound⟩ | ⟨hload, -⟩
    · have hans := hs.wf.probeSlot_answers key
      match hp : probeSlot id s key with
      | none =>
        rw [hp] at hans
        exact hans.elim
      | some (.occupied, i) =>
        exact ⟨s, by simp [HashTable.stepSet, zenitSetInsert, hload, hp], hs⟩
      | some (.empty, i) =>
        rw [hp] at hans
        obtain ⟨s', hrun, hs'⟩ := hs.place hbound hfit (by simp) hans
        exact ⟨s', by simp [HashTable.stepSet, zenitSetInsert, hload, hp, hrun], hs'⟩
      | some (.deleted, i) =>
        rw [hp] at hans
        obtain ⟨s', hrun, hs'⟩ := hs.place hbound hfit (by simp) hans
        exact ⟨s', by simp [HashTable.stepSet, zenitSetInsert, hload, hp, hrun], hs'⟩
    · exact ⟨set, by simp [HashTable.stepSet, zenitSetInsert, hload], h⟩
  | .insert none _ => exact ⟨set, rfl, h⟩
  | .remove (some key) =>
    have hans := h.wf.probeSlot_answers key
    match hp : probeSlot id set key with
    | none =>
      rw [hp] at hans
      exact hans.elim
    | some (.occupied, i) =>
      rw [hp] at hans
      obtain ⟨slot, hentry, -⟩ := hans
      obtain ⟨states, s', hstore, hs', hwf, hcap, -, hused, -⟩ := h.wf.tombstone_spec hentry
      refine ⟨s', ?_, hwf, hcap.symm ▸ h.big, ?_, h.sized, hcap.symm ▸ h.bytes⟩
      · simp [HashTable.stepSet, zenitSetRemove, remove, hp, hstore, hs']
      · rw [hcap, hused]
        exact h.load
    | some (.empty, i) => exact ⟨set, by simp [HashTable.stepSet, zenitSetRemove, remove, hp], h⟩
    | some (.deleted, i) => exact ⟨set, by simp [HashTable.stepSet, zenitSetRemove, remove, hp], h⟩
  | .remove none => exact ⟨set, rfl, h⟩
  | .clear =>
    obtain ⟨s', hrun, hl, -⟩ := h.clear_spec
    exact ⟨s', hrun, hl⟩

/-! ## Runs -/

theorem roundPow2_ge_eight {capacity : ℕ} (h5 : 5 ≤ capacity) (hc : capacity ≤ 2 ^ 63) :
    8 ≤ roundPow2 capacity := by
  rw [roundPow2_eq (by omega) hc]
  have hsize : 3 ≤ (capacity - 1).size := Nat.lt_size.mpr (by omega)
  calc 8 = 2 ^ 3 := rfl
    _ ≤ 2 ^ (capacity - 1).size := Nat.pow_le_pow_right (by norm_num) hsize

theorem light_set_create {capacity : ℕ} {granted : Bool × Bool × Bool} {set : KeySet keySize}
    (hc : capacity ≤ sizeMax) (h8 : 8 ≤ roundPow2 capacity)
    (hbytes : roundPow2 capacity * keySize < 2 ^ 64)
    (hset : zenitSetCreateWithCapacityAndAllocator keySize granted capacity = some set) :
    Light keySize id set := by
  unfold zenitSetCreateWithCapacityAndAllocator at hset
  split_ifs at hset with hzero
  exact (light_create hc h8 (by omega) hbytes hset).1

theorem Light.reachedMap {map₀ map : Map keySize valueSize}
    (h : Light (keySize + valueSize) Prod.fst map₀) (hreach : Reached HashTable.stepMap MapFits map₀ map) :
    Light (keySize + valueSize) Prod.fst map := by
  refine hreach.invariant h fun t op u ht hcond hstep => ?_
  obtain ⟨u', hu', hl⟩ := ht.stepMap op hcond
  rwa [Option.some.inj (hstep.symm.trans hu')]

theorem Light.reachedSet {set₀ set : KeySet keySize} (h : Light keySize id set₀)
    (hreach : Reached HashTable.stepSet SetFits set₀ set) : Light keySize id set := by
  refine hreach.invariant h fun t op u ht hcond hstep => ?_
  obtain ⟨u', hu', hl⟩ := ht.stepSet op hcond
  rwa [Option.some.inj (hstep.symm.trans hu')]

/-- In every run of a map or a set created with 5 to `2 ^ 63` slots, no step gets stuck and every
state keeps an empty slot, as long as no array of slots has `2 ^ 64` bytes or more. -/
theorem probes_stop_in_every_run (keySize valueSize capacity : ℕ) (granted : Bool × Bool × Bool)
    (h5 : 5 ≤ capacity) (hc : capacity ≤ 2 ^ 63) :
    (∀ map₀ map : Map keySize valueSize,
      zenitMapCreateWithCapacityAndAllocator keySize valueSize granted capacity = some map₀ →
      roundPow2 capacity * (keySize + valueSize) < 2 ^ 64 →
      Reached stepMap MapFits map₀ map →
      ProbesStop Prod.fst map ∧ ∀ op, MapFits map op → ∃ map', stepMap map op = some map') ∧
    (∀ set₀ set : KeySet keySize,
      zenitSetCreateWithCapacityAndAllocator keySize granted capacity = some set₀ →
      roundPow2 capacity * keySize < 2 ^ 64 →
      Reached stepSet SetFits set₀ set →
      ProbesStop id set ∧ ∀ op, SetFits set op → ∃ set', stepSet set op = some set') := by
  have h8 := roundPow2_ge_eight h5 hc
  have hsize : capacity ≤ sizeMax := by
    unfold sizeMax
    omega
  constructor
  · intro map₀ map hcreate hbytes hreach
    have hl := (light_map_create hsize h8 hbytes hcreate).1.reachedMap hreach
    refine ⟨hl.probesStop, fun op hcond => ?_⟩
    obtain ⟨map', hrun, -⟩ := hl.stepMap op hcond
    exact ⟨map', hrun⟩
  · intro set₀ set hcreate hbytes hreach
    have hl := (light_set_create hsize h8 hbytes hcreate).reachedSet hreach
    refine ⟨hl.probesStop, fun op hcond => ?_⟩
    obtain ⟨set', hrun, -⟩ := hl.stepSet op hcond
    exact ⟨set', hrun⟩

theorem probes_stop_from_five :
    (∀ map₀ map : Map 1 1,
      zenitMapCreateWithCapacityAndAllocator 1 1 (true, true, true) 5 = some map₀ →
      roundPow2 5 * (1 + 1) < 2 ^ 64 →
      Reached stepMap MapFits map₀ map →
      ProbesStop Prod.fst map ∧ ∀ op, MapFits map op → ∃ map', stepMap map op = some map') ∧
    (∀ set₀ set : KeySet 1,
      zenitSetCreateWithCapacityAndAllocator 1 (true, true, true) 5 = some set₀ →
      roundPow2 5 * 1 < 2 ^ 64 →
      Reached stepSet SetFits set₀ set →
      ProbesStop id set ∧ ∀ op, SetFits set op → ∃ set', stepSet set op = some set') :=
  probes_stop_in_every_run 1 1 5 (true, true, true) (by norm_num) (by norm_num)

/-! ## A table of one slot -/

/-- The map of capacity one after one insertion. -/
def fullMap : Map 1 1 where
  slots := [(List.Vector.replicate 1 7, List.Vector.replicate 1 9)]
  states := [.occupied]
  capacity := 1
  count := 1
  deleted := 0

theorem fullMap_probe_loops (fuel : ℕ) :
    probeSlotFrom Prod.fst fullMap (List.Vector.replicate 1 8) fuel 0 1 false = none := by
  induction fuel with
  | zero => rfl
  | succ fuel ih =>
    rw [probeSlotFrom]
    exact ih

/-- A map created with capacity one accepts an insertion that leaves no empty slot; the lookup of
any other key then never stops. -/
theorem small_map_probe_diverges :
    zenitMapCreateWithCapacityAndAllocator 1 1 (true, true, true) 1 =
        some (fresh 2 (zeroPair : Bytes 1 × Bytes 1) 1) ∧
      Reached stepMap MapFits (fresh 2 (zeroPair : Bytes 1 × Bytes 1) 1) fullMap ∧
      (¬∃ i : ℕ, fullMap.states[i]? = some .empty) ∧
      ∀ fuel, probeSlotBounded Prod.fst fullMap (List.Vector.replicate 1 8) fuel = none := by
  have hfits : MapFits (fresh 2 (zeroPair : Bytes 1 × Bytes 1) 1)
      (.insert (some (List.Vector.replicate 1 7)) (some (List.Vector.replicate 1 9))
        (true, true)) := fun hover => absurd hover (by decide)
  have hinsert : stepMap (fresh 2 (zeroPair : Bytes 1 × Bytes 1) 1)
      (.insert (some (List.Vector.replicate 1 7)) (some (List.Vector.replicate 1 9)) (true, true)) =
      some fullMap := by decide
  refine ⟨by decide, ?_, ?_, fun fuel => ?_⟩
  · exact Reached.refl.step hfits hinsert
  · rintro ⟨i, hi⟩
    cases i with
    | zero => simp [fullMap] at hi
    | succ i => simp [fullMap] at hi
  · have hhome : home 1 (List.Vector.replicate 1 8 : Bytes 1) = 0 := by decide
    unfold probeSlotBounded
    rw [show fullMap.capacity = 1 from rfl, hhome]
    exact fullMap_probe_loops fuel

end LibZenit.HashTable
