import LibZenit.HashTermination

/-!
# The set and the map run in lockstep

Forgetting the values turns a map into a set with the same states, counters and keys, and every
function of `map.c` into the one of `set.c`.
-/
namespace LibZenit.HashTable
open Blocks HashCommon Slots

/-! ## Another kind of slot -/

section Project

variable {keySize slotSize slotSize' : ℕ} {ε ε' : Type} {keyOf : ε → Bytes keySize} {keyOf' : ε' → Bytes keySize}
  {g : ε → ε'} {zero : ε} {t : Table ε}

def Table.project (g : ε → ε') (t : Table ε) : Table ε' :=
  { slots := t.slots.map g
    states := t.states
    capacity := t.capacity
    count := t.count
    deleted := t.deleted }

theorem store_map (xs : List ε) (i : ℕ) (a : ε) :
    store (xs.map g) i (g a) = (store xs i a).map (List.map g) := by
  unfold store
  rw [List.length_map]
  split_ifs
  · rw [Option.map_some, List.map_set]
  · rfl

theorem probeSlotFrom_project (hg : ∀ slot, keyOf' (g slot) = keyOf slot) (key : Bytes keySize)
    (fuel index firstDeleted : ℕ) (foundDeleted : Bool) :
    probeSlotFrom keyOf' (t.project g) key fuel index firstDeleted foundDeleted =
      probeSlotFrom keyOf t key fuel index firstDeleted foundDeleted := by
  induction fuel generalizing index firstDeleted foundDeleted with
  | zero => rfl
  | succ fuel ih =>
    rw [probeSlotFrom, probeSlotFrom]
    cases hstate : t.states[index]? with
    | none => simp [Table.project, hstate]
    | some state =>
      cases state with
      | empty => simp [Table.project, hstate]
      | deleted =>
        simp only [Table.project, hstate]
        exact ih _ _ _
      | occupied =>
        cases hslot : t.slots[index]? with
        | none => simp [Table.project, hstate, hslot]
        | some slot =>
          have hread : (t.project g).slots[index]? = some (g slot) := by
            simp [Table.project, hslot]
          simp only [hread, show (t.project g).states[index]? = some .occupied from hstate,
            Option.bind_eq_bind, Option.bind_some, hg]
          split_ifs
          · rfl
          · exact ih _ _ _

theorem probeSlot_project (hg : ∀ slot, keyOf' (g slot) = keyOf slot) (key : Bytes keySize) :
    probeSlot keyOf' (t.project g) key = probeSlot keyOf t key :=
  probeSlotFrom_project hg key _ _ _ _

theorem reinsert_project (hg : ∀ slot, keyOf' (g slot) = keyOf slot) (slot : ε) :
    reinsert keyOf' (t.project g) (g slot) = (reinsert keyOf t slot).map (Table.project g) := by
  unfold reinsert
  simp only [Table.project, hg, store_map]
  cases probeFree t.states (mask t.capacity) t.capacity (home t.capacity (keyOf slot)) with
  | none => rfl
  | some index =>
    simp only [Option.bind_eq_bind, Option.bind_some]
    cases store t.slots index slot with
    | none => rfl
    | some slots =>
      cases store t.states index .occupied with
      | none => rfl
      | some states => rfl

theorem moveSlot_project (hg : ∀ slot, keyOf' (g slot) = keyOf slot) (new : Table ε) (i : ℕ) :
    moveSlot keyOf' (t.project g) (new.project g) i =
      (moveSlot keyOf t new i).map (Table.project g) := by
  unfold moveSlot
  cases hstate : t.states[i]? with
  | none => simp [Table.project, hstate]
  | some state =>
    by_cases hocc : state = .occupied
    · cases hslot : t.slots[i]? with
      | none => simp [Table.project, hstate, hslot, hocc]
      | some slot =>
        simp only [Table.project, hstate, hocc, List.getElem?_map, hslot]
        exact reinsert_project hg slot
    · simp [Table.project, hstate, hocc]

theorem moveSlots_project (hg : ∀ slot, keyOf' (g slot) = keyOf slot) (indices : List ℕ)
    (new : Table ε) :
    indices.foldlM (moveSlot keyOf' (t.project g)) (new.project g) =
      (indices.foldlM (moveSlot keyOf t) new).map (Table.project g) := by
  induction indices generalizing new with
  | nil => rfl
  | cons i indices ih =>
    rw [List.foldlM_cons, List.foldlM_cons, moveSlot_project hg]
    cases moveSlot keyOf t new i with
    | none => rfl
    | some new => exact ih new

theorem fresh_project {capacity : ℕ} (hslots : slotsOf slotSize' capacity = slotsOf slotSize capacity) :
    fresh slotSize' (g zero) capacity = (fresh slotSize zero capacity).project g := by
  simp [fresh, Table.project, hslots]

theorem rehash_project (hkey : ∀ slot, keyOf' (g slot) = keyOf slot) (granted : Bool × Bool)
    {newCapacity : ℕ} (hslots : (granted.1 && granted.2) = true →
      slotsOf slotSize' newCapacity = slotsOf slotSize newCapacity) :
    rehash keyOf' slotSize' (g zero) granted (t.project g) newCapacity =
      (rehash keyOf slotSize zero granted t newCapacity).map (Prod.map id (Table.project g)) := by
  cases hg : granted.1 && granted.2 with
  | false =>
    rw [rehash_refused (g zero) hg, rehash_refused zero hg]
    rfl
  | true =>
    obtain ⟨hg₁, hg₂⟩ := Bool.and_eq_true_iff.mp hg
    unfold rehash
    rw [hg₁, hg₂, fresh_project (hslots hg), show (t.project g).capacity = t.capacity from rfl, moveSlots_project hkey]
    cases (List.range t.capacity).foldlM (moveSlot keyOf t) (fresh slotSize zero newCapacity) with
    | none => rfl
    | some new => rfl

theorem ensureLoad_project (hg : ∀ slot, keyOf' (g slot) = keyOf slot) {granted : Bool × Bool}
    (hslots : Overloaded t → (granted.1 && granted.2) = true →
      slotsOf slotSize' (wrap (t.capacity * hashGrowthFactor)) =
        slotsOf slotSize (wrap (t.capacity * hashGrowthFactor))) :
    ensureLoad keyOf' slotSize' (g zero) granted (t.project g) =
      (ensureLoad keyOf slotSize zero granted t).map (Prod.map id (Table.project g)) := by
  unfold ensureLoad
  by_cases hload : Overloaded t
  · rw [if_pos hload, if_pos (show Overloaded (t.project g) from hload)]
    exact rehash_project hg granted (hslots hload)
  · rw [if_neg hload, if_neg (show ¬Overloaded (t.project g) from hload)]
    rfl

theorem place_project (state : SlotState) (index : ℕ) (slot : ε) :
    place (t.project g) state index (g slot) = (place t state index slot).map (Table.project g) := by
  unfold place
  simp only [Table.project, store_map]
  cases store t.slots index slot with
  | none => rfl
  | some slots =>
    cases store t.states index .occupied with
    | none => rfl
    | some states => rfl

theorem remove_project (hg : ∀ slot, keyOf' (g slot) = keyOf slot) (key : Option (Bytes keySize)) :
    remove keyOf' (t.project g) key =
      (remove keyOf t key).map (Prod.map id (Table.project g)) := by
  cases key with
  | none => rfl
  | some key =>
    simp only [remove, probeSlot_project hg]
    cases probeSlot keyOf t key with
    | none => rfl
    | some answer =>
      obtain ⟨state, index⟩ := answer
      simp only [Option.bind_eq_bind, Option.bind_some, Table.project]
      split_ifs
      · rfl
      · cases store t.states index .deleted with
        | none => rfl
        | some states => rfl

theorem contains_project (hg : ∀ slot, keyOf' (g slot) = keyOf slot)
    (key : Option (Bytes keySize)) :
    contains keyOf' (t.project g) key = contains keyOf t key := by
  cases key with
  | none => rfl
  | some key => simp only [contains, probeSlot_project hg]

theorem clear_project : clear (t.project g) = (clear t).map (Table.project g) := by
  unfold clear
  simp only [Table.project]
  cases storeAll (fun _ => SlotState.empty) t.capacity t.states with
  | none => rfl
  | some states => rfl

end Project

/-! ## The public functions -/

section Calls

variable {keySize valueSize : ℕ}

/-- The set of the keys of a map: states, counters and keys are those of the map. -/
def keysOf (map : Map keySize valueSize) : KeySet keySize := map.project Prod.fst

theorem fst_zeroPair (valueSize : ℕ) :
    Prod.fst (zeroPair : Bytes keySize × Bytes valueSize) = zeroKey := rfl

/-- Overwriting the value of an entry keeps its key. -/
theorem keysOf_overwrite {map : Map keySize valueSize} {i : ℕ}
    {old : Bytes keySize × Bytes valueSize} (hold : map.slots[i]? = some old)
    (value : Bytes valueSize) :
    keysOf { map with slots := map.slots.set i (old.1, value) } = keysOf map := by
  have hkeys : (map.slots.set i (old.1, value)).map Prod.fst = map.slots.map Prod.fst := by
    obtain ⟨hi, -⟩ := List.getElem?_eq_some_iff.mp hold
    refine List.ext_getElem? fun j => ?_
    by_cases hj : i = j
    · subst hj
      rw [List.getElem?_map, List.getElem?_map, List.getElem?_set_self hi, hold]
      rfl
    · rw [List.getElem?_map, List.getElem?_map, List.getElem?_set_ne hj]
  simp only [keysOf, Table.project, hkeys]

/-- A slot of the map takes more bytes than one of the set. -/
theorem slots_agree (hk : 0 < keySize) {capacity : ℕ}
    (hbytes : capacity * (keySize + valueSize) < 2 ^ 64) :
    slotsOf keySize capacity = slotsOf (keySize + valueSize) capacity := by
  have hle : capacity * keySize ≤ capacity * (keySize + valueSize) :=
    Nat.mul_le_mul_left _ (Nat.le_add_right _ _)
  rw [slotsOf_eq hk (hle.trans_lt hbytes), slotsOf_eq (by omega) hbytes]

theorem zenitSetInsert_keysOf (hk : 0 < keySize) {granted : Bool × Bool}
    {map : Map keySize valueSize} {key : Option (Bytes keySize)} {value : Bytes valueSize}
    (hfit : MapFits map (.insert key (some value) granted)) :
    zenitSetInsert granted (keysOf map) key =
      (zenitMapInsert granted map key (some value)).map (Prod.map id keysOf) := by
  cases key with
  | none => rfl
  | some key =>
    have hload : ensureLoad id keySize zeroKey granted (keysOf map) =
        (ensureLoad Prod.fst (keySize + valueSize) zeroPair granted map).map
          (Prod.map id keysOf) := by
      rw [← fst_zeroPair valueSize]
      refine ensureLoad_project (fun _ => rfl) fun hover hgrant => ?_
      have hbytes := hfit hover hgrant
      have hlt : map.capacity * hashGrowthFactor < 2 ^ 64 :=
        (Nat.le_mul_of_pos_right _ (by omega)).trans_lt hbytes
      rw [wrap_of_lt hlt]
      exact slots_agree hk hbytes
    simp only [zenitSetInsert, zenitMapInsert, hload]
    cases ensureLoad Prod.fst (keySize + valueSize) zeroPair granted map with
    | none => rfl
    | some loaded =>
      obtain ⟨lr, map⟩ := loaded
      simp only [Option.map_some, Prod.map_apply, id_eq, Option.bind_eq_bind, Option.bind_some]
      by_cases hlr : lr = .ok
      · rw [if_neg (by simpa using hlr), if_neg (by simpa using hlr)]
        have hprobe : probeSlot id (keysOf map) key = probeSlot Prod.fst map key :=
          probeSlot_project (fun _ => rfl) key
        rw [hprobe]
        cases hanswer : probeSlot Prod.fst map key with
        | none => rfl
        | some answer =>
          obtain ⟨state, index⟩ := answer
          simp only [Option.bind_some]
          by_cases hocc : state = .occupied
          · subst hocc
            obtain ⟨old, hold⟩ := probeSlotFrom_occupied hanswer
            rw [if_pos rfl, if_pos rfl, hold, Option.bind_some,
              store_eq (List.getElem?_eq_some_iff.mp hold).1, Option.bind_some, Option.map_some,
              Prod.map_apply, keysOf_overwrite hold, id_eq]
          · have hplace : place (keysOf map) state index key =
                (place map state index (key, value)).map keysOf :=
              place_project state index (key, value)
            rw [if_neg hocc, if_neg hocc, hplace]
            cases place map state index (key, value) with
            | none => rfl
            | some map => rfl
      · rw [if_pos (by simpa using hlr), if_pos (by simpa using hlr)]
        rfl

/-- The operations that both containers have; a set ignores the value. -/
inductive KeyOp (keySize valueSize : ℕ) where
  | insert (key : Option (Bytes keySize)) (value : Bytes valueSize) (granted : Bool × Bool)
  | remove (key : Option (Bytes keySize))
  | contains (key : Option (Bytes keySize))
  | clear

def KeyOp.mapOp : KeyOp keySize valueSize → MapOp keySize valueSize
  | .insert key value granted => .insert key (some value) granted
  | .remove key => .remove key
  | .contains key => .contains key
  | .clear => .clear

def mapStep (map : Map keySize valueSize) (op : KeyOp keySize valueSize) :
    Option (MapReply valueSize × Map keySize valueSize) := execMap map op.mapOp

/-- The bytes of a map that the operation grows do not wrap. Those of the set are fewer. -/
def KeyFits (map : Map keySize valueSize) (op : KeyOp keySize valueSize) : Prop :=
  MapFits map op.mapOp

def setStep (set : KeySet keySize) : KeyOp keySize valueSize →
    Option (MapReply valueSize × KeySet keySize)
  | .insert key _ granted => do
    let (code, set) ← zenitSetInsert granted set key
    some (.status code none, set)
  | .remove key => do
    let (code, set) ← zenitSetRemove set key
    some (.status code none, set)
  | .contains key => do
    let found ← zenitSetContains set key
    some (.flag found, set)
  | .clear => do
    let set ← zenitSetClear set
    some (.nothing, set)

theorem setStep_keysOf (hk : 0 < keySize) (map : Map keySize valueSize)
    (op : KeyOp keySize valueSize) (hfit : KeyFits map op) :
    setStep (keysOf map) op = (mapStep map op).map (Prod.map id keysOf) := by
  cases op with
  | insert key value granted =>
    simp only [setStep, mapStep, KeyOp.mapOp, execMap, zenitSetInsert_keysOf hk hfit]
    cases zenitMapInsert granted map key (some value) with
    | none => rfl
    | some r => rfl
  | remove key =>
    have hremove : zenitSetRemove (keysOf map) key =
        (zenitMapRemove map key).map (Prod.map id keysOf) := remove_project (fun _ => rfl) key
    simp only [setStep, mapStep, KeyOp.mapOp, execMap, hremove]
    cases zenitMapRemove map key with
    | none => rfl
    | some r => rfl
  | contains key =>
    have hcontains : zenitSetContains (keysOf map) key = zenitMapContains map key :=
      contains_project (fun _ => rfl) key
    simp only [setStep, mapStep, KeyOp.mapOp, execMap, hcontains]
    cases zenitMapContains map key with
    | none => rfl
    | some found => rfl
  | clear =>
    have hclear : zenitSetClear (keysOf map) = (zenitMapClear map).map keysOf := clear_project
    simp only [setStep, mapStep, KeyOp.mapOp, execMap, hclear]
    cases zenitMapClear map with
    | none => rfl
    | some map => rfl

/-- One operation on both. -/
theorem Light.lockstep {map : Map keySize valueSize} (hk : 0 < keySize)
    (h : Light (keySize + valueSize) Prod.fst map) (op : KeyOp keySize valueSize)
    (hfit : KeyFits map op) :
    ∃ r, mapStep map op = some r ∧ Light (keySize + valueSize) Prod.fst r.2 ∧
      setStep (keysOf map) op = some (r.1, keysOf r.2) := by
  obtain ⟨map', hstep, hlight⟩ := h.stepMap op.mapOp hfit
  obtain ⟨r, hr, rfl⟩ := Option.map_eq_some_iff.mp hstep
  refine ⟨r, hr, hlight, ?_⟩
  rw [setStep_keysOf hk map op hfit, mapStep, hr]
  rfl

end Calls

/-! ## Runs -/

section Traces

variable {σ σ' ω α : Type} {step : σ → ω → Option (α × σ)} {step' : σ' → ω → Option (α × σ')}

/-- The answers of a run, each with the state behind it. -/
def trace (step : σ → ω → Option (α × σ)) : σ → List ω → Option (List (α × σ))
  | _, [] => some []
  | s, op :: ops => (step s op).bind fun r => (trace step r.2 ops).map (r :: ·)

/-- Every operation of the run meets the condition in the state it finds. -/
def Meets (step : σ → ω → Option (α × σ)) (cond : σ → ω → Prop) : σ → List ω → Prop
  | _, [] => True
  | s, op :: ops => cond s op ∧ ∀ r, step s op = some r → Meets step cond r.2 ops

/-- Steps that agree under a condition make runs that agree under it. -/
theorem trace_agrees {f : σ → σ'} {cond : σ → ω → Prop} {P : σ → Prop}
    (hstep : ∀ s op, P s → cond s op →
      ∃ r, step s op = some r ∧ P r.2 ∧ step' (f s) op = some (r.1, f r.2))
    {s : σ} (hs : P s) {ops : List ω} (hmeets : Meets step cond s ops) :
    ∃ rs, trace step s ops = some rs ∧ trace step' (f s) ops = some (rs.map (Prod.map id f)) := by
  induction ops generalizing s with
  | nil => exact ⟨[], rfl, rfl⟩
  | cons op ops ih =>
    obtain ⟨r, hr, hP, hr'⟩ := hstep s op hs hmeets.1
    obtain ⟨rs, hrs, hrs'⟩ := ih hP (hmeets.2 r hr)
    refine ⟨r :: rs, ?_, ?_⟩
    · rw [trace, hr, Option.bind_some, hrs]
      rfl
    · rw [trace, hr', Option.bind_some, hrs']
      rfl

end Traces

/-- A set and a map that are created alike and run the same operations give the same answers, and
behind each of them the set is the map without its values, as long as no array of the map has
`2 ^ 64` bytes or more. -/
theorem set_and_map_agree {keySize valueSize capacity : ℕ} {granted : Bool × Bool × Bool}
    {set₀ : KeySet keySize} {map₀ : Map keySize valueSize} (hc : capacity ≤ sizeMax)
    (h8 : 8 ≤ roundPow2 capacity) (hbytes : roundPow2 capacity * (keySize + valueSize) < 2 ^ 64)
    (hset : zenitSetCreateWithCapacityAndAllocator keySize granted capacity = some set₀)
    (hmap : zenitMapCreateWithCapacityAndAllocator keySize valueSize granted capacity = some map₀)
    (ops : List (KeyOp keySize valueSize)) (hfit : Meets mapStep KeyFits map₀ ops) :
    ∃ answers, trace mapStep map₀ ops = some answers ∧
      trace setStep set₀ ops = some (answers.map (Prod.map id keysOf)) := by
  have hlight := (light_map_create hc h8 hbytes hmap).1
  unfold zenitMapCreateWithCapacityAndAllocator at hmap
  unfold zenitSetCreateWithCapacityAndAllocator at hset
  split_ifs at hmap hset with hzero
  have hk : 0 < keySize := by omega
  have hkeys : set₀ = keysOf map₀ := by
    unfold create at hmap hset
    split_ifs at hmap hset
    cases hmap
    cases hset
    rw [← fst_zeroPair valueSize]
    exact fresh_project (slots_agree hk hbytes)
  rw [hkeys]
  exact trace_agrees (fun map op h hfits => h.lockstep hk op hfits) hlight hfit

/-- An insertion, a query, a removal and a query. -/
theorem set_and_map_agree_on_key :
    ∃ (ops : List (KeyOp 1 1)) (answers : List (MapReply 1 × Map 1 1)), ops.length = 4 ∧
      trace mapStep (fresh 2 (zeroPair : Bytes 1 × Bytes 1) 8) ops = some answers ∧
      trace setStep (fresh 1 (zeroKey : Bytes 1) 8) ops =
        some (answers.map (Prod.map id keysOf)) := by
  let key : Bytes 1 := List.Vector.replicate 1 7
  let value : Bytes 1 := List.Vector.replicate 1 9
  have hset : zenitSetCreateWithCapacityAndAllocator 1 (true, true, true) 8 =
      some (fresh 1 (zeroKey : Bytes 1) 8) := by decide
  have hmap : zenitMapCreateWithCapacityAndAllocator 1 1 (true, true, true) 8 =
      some (fresh 2 (zeroPair : Bytes 1 × Bytes 1) 8) := by decide
  have hmeets : Meets mapStep KeyFits (fresh 2 (zeroPair : Bytes 1 × Bytes 1) 8)
      [.insert (some key) value (true, true), .contains (some key), .remove (some key),
        .contains (some key)] :=
    ⟨fun hover => absurd hover (by decide), fun _ _ => ⟨trivial, fun _ _ =>
      ⟨trivial, fun _ _ => ⟨trivial, fun _ _ => trivial⟩⟩⟩⟩
  obtain ⟨answers, hruns⟩ := set_and_map_agree (by decide) (by decide) (by decide) hset hmap _ hmeets
  exact ⟨_, answers, rfl, hruns⟩

/-- The map's slots would take `2 ^ 64` bytes, and it gets a block of none; the set's take
`2 ^ 33`. -/
theorem wrapped_map_leaves_set : ∃ (set₀ : KeySet 8) (map₀ : Map 8 (2 ^ 34 - 8)),
    8 ≤ roundPow2 (2 ^ 30) ∧
    zenitSetCreateWithCapacityAndAllocator 8 (true, true, true) (2 ^ 30) = some set₀ ∧
    zenitMapCreateWithCapacityAndAllocator 8 (2 ^ 34 - 8) (true, true, true) (2 ^ 30) = some map₀ ∧
    ∀ key value granted,
      trace mapStep map₀ [.insert (some key) value granted] = none ∧
      ∃ answers, trace setStep set₀ [KeyOp.insert (some key) value granted] = some answers := by
  have hround : roundPow2 (2 ^ 30) = 2 ^ 30 := by decide
  have hset : zenitSetCreateWithCapacityAndAllocator 8 (true, true, true) (2 ^ 30) =
      some (fresh 8 zeroKey (2 ^ 30)) := by
    rw [← hround]
    rfl
  refine ⟨fresh 8 zeroKey (2 ^ 30), fresh (2 ^ 34) zeroPair (2 ^ 30), by decide, hset,
    wrapped_create, fun key value granted => ⟨?_, ?_⟩⟩
  · rw [trace, mapStep, KeyOp.mapOp, execMap, wrapped_insert]
    rfl
  · have hl := light_set_create (by decide) (by decide) (by decide) hset
    obtain ⟨set', hstep, -⟩ := hl.stepSet (.insert (some key) granted)
      fun hover => absurd hover (by decide)
    obtain ⟨r, hr, -⟩ := Option.map_eq_some_iff.mp hstep
    exact ⟨_, by rw [trace, setStep, hr]; rfl⟩

end LibZenit.HashTable
