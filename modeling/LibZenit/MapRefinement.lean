import LibZenit.HashTableSteps
import LibZenit.FiniteMaps

/-!
# The hash map denotes a finite function

A run applies operations with any pattern of allocation failures. It is compared with a function
from keys to values: `Conforms` says which replies and which functions a run may show.
-/
namespace LibZenit.HashTable
open Blocks HashCommon LinearProbe Slots

variable {keySize valueSize : ℕ} {map map' : Map keySize valueSize} {key : Bytes keySize}

/-! ## Insertion, removal and lookup -/

theorem Light.probe (h : Light (keySize + valueSize) Prod.fst map) (key : Bytes keySize) :
    (∃ i value, probeSlot Prod.fst map key = some (.occupied, i) ∧
      entryAt map i = some (key, value)) ∨
    (∃ state i, probeSlot Prod.fst map key = some (state, i) ∧ state ≠ .occupied ∧
      (∀ value, ¬Stores map (key, value)) ∧ Answers Prod.fst map key (some (state, i))) := by
  have hans := h.wf.probeSlot_answers key
  match hp : probeSlot Prod.fst map key with
  | none =>
    rw [hp] at hans
    exact hans.elim
  | some (.occupied, i) =>
    rw [hp] at hans
    obtain ⟨⟨k, v⟩, he, rfl⟩ := hans
    exact Or.inl ⟨i, v, rfl, he⟩
  | some (.empty, i) =>
    rw [hp] at hans
    exact Or.inr ⟨.empty, i, rfl, by simp, fun v hs => hans.2.2.2 _ hs rfl, hans⟩
  | some (.deleted, i) =>
    rw [hp] at hans
    exact Or.inr ⟨.deleted, i, rfl, by simp, fun v hs => hans.2.2.2 _ hs rfl, hans⟩

/-- Writing the value portion of an occupied slot. -/
theorem Light.overwrite (h : Light (keySize + valueSize) Prod.fst map) {i : ℕ} {old : Bytes valueSize}
    (hentry : entryAt map i = some (key, old)) (value : Bytes valueSize) :
    ∃ slots map', map.slots[i]? = some (key, old) ∧
      store map.slots i (key, value) = some slots ∧ map' = { map with slots := slots } ∧
      Light (keySize + valueSize) Prod.fst map' ∧ map'.count = map.count ∧
      ∀ e, Stores map' e ↔ e = (key, value) ∨ (Stores map e ∧ e.1 ≠ key) := by
  obtain ⟨hst, hsl⟩ := entryAt_eq_some.mp hentry
  have hlt : i < map.slots.length := (List.getElem?_eq_some_iff.mp hsl).1
  obtain ⟨map', hm⟩ : ∃ m : Map keySize valueSize,
      m = { map with slots := map.slots.set i (key, value) } := ⟨_, rfl⟩
  have hent : ∀ j, entryAt map' j = if j = i then some (key, value) else entryAt map j := fun j => by
    subst hm
    simp only [entryAt, getElem?_set_eq hlt]
    by_cases hj : j = i
    · simp [hj, hst]
    · simp [hj]
  have hkeys : ∀ j, keyAt Prod.fst map' j = keyAt Prod.fst map j := fun j => by
    simp only [keyAt, hent]
    split_ifs with hj
    · simp [hj, hentry]
    · rfl
  have hw := h.wf
  refine ⟨_, map', hsl, store_eq hlt _, hm, ⟨⟨?_, ?_, ?_, ?_, ?_, ?_, ?_⟩, ?_, ?_, h.sized, ?_⟩,
    by rw [hm], fun e => ?_⟩
  · simpa [hm] using hw.pow
  · simpa [hm] using hw.slotsLen
  · simpa [hm] using hw.statesLen
  · have hcap : map'.capacity = map.capacity := by rw [hm]
    rw [hcap]
    refine hw.probed.mono (fun j _ k hk => hkeys j ▸ hk) fun j _ hu => ?_
    simpa [InUse, hm] using hu
  · simpa [hm] using hw.count
  · simpa [hm] using hw.deleted
  · simpa [hm] using hw.room
  · simpa [hm] using h.big
  · simpa [hm] using h.load
  · simpa [hm] using h.bytes
  · constructor
    · rintro ⟨j, hj⟩
      rw [hent] at hj
      split_ifs at hj with hji
      · exact Or.inl (Option.some.inj hj).symm
      · refine Or.inr ⟨⟨j, hj⟩, fun hk => hji ?_⟩
        exact hw.probed.unique j (entryAt_lt hw hj) i (entryAt_lt hw hentry) key
          (by simp [keyAt, hj, hk]) (by simp [keyAt, hentry])
    · rintro (rfl | ⟨⟨j, hj⟩, hk⟩)
      · exact ⟨i, by simp [hent]⟩
      · refine ⟨j, ?_⟩
        rw [hent, if_neg]
        · exact hj
        · rintro rfl
          exact hk (by rw [Option.some.inj (hj.symm.trans hentry)])

/-- An insertion adds or overwrites one pair, or reports a failed allocation and changes nothing. -/
theorem Light.insert_spec (h : Light (keySize + valueSize) Prod.fst map)
    {granted : Bool × Bool} (hgrow : GrowthFits (keySize + valueSize) map granted)
    (key : Bytes keySize) (value : Bytes valueSize) :
    (∃ map', zenitMapInsert granted map (some key) (some value) = some (.ok, map') ∧
      Light (keySize + valueSize) Prod.fst map' ∧
      (∀ e, Stores map' e ↔ e = (key, value) ∨ (Stores map e ∧ e.1 ≠ key)) ∧
      ((∃ v, Stores map (key, v)) ∧ map'.count = map.count ∨
        (∀ v, ¬Stores map (key, v)) ∧ map'.count = map.count + 1)) ∨
    (zenitMapInsert granted map (some key) (some value) = some (.alloc, map) ∧
      (granted.1 && granted.2) = false) := by
  rcases h.ensureLoad_spec zeroPair granted hgrow with
      ⟨m, hload, hm, hcount, hst, hfit, hbound⟩ | ⟨hload, hg⟩
  · left
    rcases hm.probe key with ⟨i, old, hprobe, hentry⟩ | ⟨state, i, hprobe, hne, habs, hans⟩
    · obtain ⟨slots, m', hread, hwrite, hm', hl, hc, hs⟩ := hm.overwrite hentry value
      refine ⟨m', ?_, hl, fun e => by rw [hs, hst], Or.inl ⟨⟨old, ?_⟩, hc.trans hcount⟩⟩
      · simp [zenitMapInsert, hload, hprobe, hread, hwrite, hm']
      · rw [← hst]
        exact ⟨i, hentry⟩
    · obtain ⟨m', hrun, hwf, hcap, hc, hused, hs⟩ :=
        hm.wf.place_spec (key, value) hne hans hfit
      refine ⟨m', ?_, ⟨hwf, hcap.symm ▸ hm.big, ?_, hm.sized, hcap.symm ▸ hm.bytes⟩, fun e => ?_,
        Or.inr ⟨fun v => ?_, ?_⟩⟩
      · simp [zenitMapInsert, hload, hprobe, hne, hrun]
      · rw [hcap]
        exact (Nat.mul_le_mul_right 100 hused).trans hbound
      · rw [hs, ← hst]
        constructor
        · rintro (he | he)
          · exact Or.inl he
          · exact Or.inr ⟨he, fun hk => habs e.2 (hk ▸ he)⟩
        · rintro (he | ⟨he, -⟩)
          · exact Or.inl he
          · exact Or.inr he
      · rw [← hst]
        exact habs v
      · rw [hc, hcount]
  · exact Or.inr ⟨by simp [zenitMapInsert, hload], hg⟩

theorem Light.remove_spec (h : Light (keySize + valueSize) Prod.fst map) (key : Bytes keySize) :
    (∃ map', zenitMapRemove map (some key) = some (.ok, map') ∧
      Light (keySize + valueSize) Prod.fst map' ∧ (∃ v, Stores map (key, v)) ∧
      map'.count + 1 = map.count ∧
      ∀ e, Stores map' e ↔ Stores map e ∧ e.1 ≠ key) ∨
    (zenitMapRemove map (some key) = some (.notFound, map) ∧ ∀ v, ¬Stores map (key, v)) := by
  rcases h.probe key with ⟨i, v, hprobe, hentry⟩ | ⟨state, i, hprobe, hne, habs, -⟩
  · left
    obtain ⟨states, m', hstore, hm', hwf, hcap, hcount, hused, hst⟩ := h.wf.tombstone_spec hentry
    refine ⟨m', ?_, ⟨hwf, hcap.symm ▸ h.big, ?_, h.sized, hcap.symm ▸ h.bytes⟩, ⟨v, i, hentry⟩,
      hcount, hst⟩
    · simp [zenitMapRemove, remove, hprobe, hstore, hm']
    · rw [hcap, hused]
      exact h.load
  · exact Or.inr ⟨by simp [zenitMapRemove, remove, hprobe, hne], habs⟩

theorem Light.get_spec (h : Light (keySize + valueSize) Prod.fst map) (key : Bytes keySize) :
    (∃ v, Stores map (key, v) ∧ zenitMapGet map (some key) true = some (.ok, some v) ∧
      zenitMapContains map (some key) = some true) ∨
    ((∀ v, ¬Stores map (key, v)) ∧ zenitMapGet map (some key) true = some (.notFound, none) ∧
      zenitMapContains map (some key) = some false) := by
  rcases h.probe key with ⟨i, v, hprobe, hentry⟩ | ⟨state, i, hprobe, hne, habs, -⟩
  · left
    have hslot := (entryAt_eq_some.mp hentry).2
    refine ⟨v, ⟨i, hentry⟩, ?_, ?_⟩
    · simp [zenitMapGet, hprobe, hslot]
    · simp [zenitMapContains, contains, hprobe]
  · right
    refine ⟨habs, ?_, ?_⟩
    · simp [zenitMapGet, hprobe, hne]
    · simp [zenitMapContains, contains, hprobe, hne]

/-! ## Runs -/

inductive MapOp (keySize valueSize : ℕ) where
  | insert (key : Option (Bytes keySize)) (value : Option (Bytes valueSize))
      (granted : Bool × Bool)
  | remove (key : Option (Bytes keySize))
  | get (key : Option (Bytes keySize)) (wanted : Bool)
  | contains (key : Option (Bytes keySize))
  | clear

inductive MapReply (valueSize : ℕ) where
  | status (code : ZenitError) (value : Option (Bytes valueSize))
  | flag (found : Bool)
  | nothing

structure MapOutput (valueSize : ℕ) where
  reply : MapReply valueSize
  count : ℕ
  capacity : ℕ

def execMap (map : Map keySize valueSize) : MapOp keySize valueSize →
    Option (MapReply valueSize × Map keySize valueSize)
  | .insert key value granted => do
    let (code, map) ← zenitMapInsert granted map key value
    some (.status code none, map)
  | .remove key => do
    let (code, map) ← zenitMapRemove map key
    some (.status code none, map)
  | .get key wanted => do
    let (code, value) ← zenitMapGet map key wanted
    some (.status code value, map)
  | .contains key => do
    let found ← zenitMapContains map key
    some (.flag found, map)
  | .clear => do
    let map ← zenitMapClear map
    some (.nothing, map)

/-- The observations of a run and the map behind it. -/
def runMap (map : Map keySize valueSize) : List (MapOp keySize valueSize) →
    Option (List (MapOutput valueSize) × Map keySize valueSize)
  | [] => some ([], map)
  | op :: ops => do
    let (reply, map) ← execMap map op
    let (outs, last) ← runMap map ops
    some (⟨reply, zenitMapCount map, zenitMapCapacity map⟩ :: outs, last)

/-- The products of the load check do not wrap. -/
def SizesFit (map : Map keySize valueSize) : Prop :=
  (map.count + map.deleted) * 100 < 2 ^ 64 ∧ map.capacity * hashLoadPercent < 2 ^ 64

/-- The bytes of a table that an insertion grows into do not wrap. -/
def MapFits (map : Map keySize valueSize) : MapOp keySize valueSize → Prop
  | .insert (some _) (some _) granted => GrowthFits (keySize + valueSize) map granted
  | _ => True

/-- `MapFits` at every step that the run takes. -/
def RunFits (map : Map keySize valueSize) : List (MapOp keySize valueSize) → Prop
  | [] => True
  | op :: ops => MapFits map op ∧
      ∀ reply map', execMap map op = some (reply, map') → RunFits map' ops

/-! ## The abstract map -/

abbrev Fun (keySize valueSize : ℕ) := Bytes keySize → Option (Bytes valueSize)

def domain (f : Fun keySize valueSize) : Set (Bytes keySize) := { k | (f k).isSome }

/-- The replies that a finite function may give to an operation, and the function afterwards. The
capacity matters only to a failed insertion, which must not change it. -/
def Allows (f : Fun keySize valueSize) (capacity : ℕ) (reply : MapReply valueSize)
    (f' : Fun keySize valueSize) (capacity' : ℕ) : MapOp keySize valueSize → Prop
  | .insert (some key) (some value) granted =>
    (reply = .status .ok none ∧ f' = Function.update f key (some value)) ∨
    (reply = .status .alloc none ∧ f' = f ∧ capacity' = capacity ∧
      (granted.1 && granted.2) = false)
  | .insert _ _ _ => reply = .status .null none ∧ f' = f
  | .remove (some key) =>
    reply = .status (if (f key).isSome then .ok else .notFound) none ∧
      f' = Function.update f key none
  | .remove none => reply = .status .null none ∧ f' = f
  | .get (some key) true =>
    reply = .status (if (f key).isSome then .ok else .notFound) (f key) ∧ f' = f
  | .get _ _ => reply = .status .null none ∧ f' = f
  | .contains (some key) => reply = .flag (f key).isSome ∧ f' = f
  | .contains none => reply = .flag false ∧ f' = f
  | .clear => reply = .nothing ∧ f' = fun _ => none

/-- A sequence of observations that some sequence of finite functions explains. -/
def Conforms (f : Fun keySize valueSize) (capacity : ℕ) :
    List (MapOp keySize valueSize) → List (MapOutput valueSize) → Prop
  | [], [] => True
  | op :: ops, out :: outs => ∃ f', Allows f capacity out.reply f' out.capacity op ∧
      (domain f').Finite ∧ out.count = (domain f').ncard ∧ Conforms f' out.capacity ops outs
  | _, _ => False

/-- The function that the map stores. -/
structure Denotes (map : Map keySize valueSize) (f : Fun keySize valueSize) : Prop where
  light : Light (keySize + valueSize) Prod.fst map
  pairs : ∀ k v, f k = some v ↔ Stores map (k, v)
  finite : (domain f).Finite
  count : map.count = (domain f).ncard

variable {f : Fun keySize valueSize}

theorem Denotes.mem_domain (h : Denotes map f) (key : Bytes keySize) :
    key ∈ domain f ↔ ∃ v, Stores map (key, v) := by
  change (f key).isSome = true ↔ _
  rw [Option.isSome_iff_exists]
  exact exists_congr fun v => h.pairs key v

theorem Denotes.eq_none (h : Denotes map f) (habs : ∀ v, ¬Stores map (key, v)) : f key = none := by
  rw [Option.eq_none_iff_forall_ne_some]
  exact fun v hv => habs v ((h.pairs key v).mp hv)

theorem domain_update_some (f : Fun keySize valueSize) (key : Bytes keySize)
    (value : Bytes valueSize) : domain (Function.update f key (some value)) = insert key (domain f) :=
  FiniteMaps.domain_update_some f key value

theorem domain_update_none (f : Fun keySize valueSize) (key : Bytes keySize) :
    domain (Function.update f key none) = domain f \ {key} :=
  FiniteMaps.domain_update_none f key

/-- Two descriptions of the pairs after an overwrite. -/
theorem pairs_update (h : Denotes map f) {value : Bytes valueSize}
    (hst : ∀ e, Stores map' e ↔ e = (key, value) ∨ (Stores map e ∧ e.1 ≠ key)) (k : Bytes keySize)
    (v : Bytes valueSize) :
    Function.update f key (some value) k = some v ↔ Stores map' (k, v) := by
  rw [hst]
  by_cases hk : k = key
  · subst hk
    simp [eq_comm]
  · simp [hk, h.pairs]

theorem Denotes.insert (h : Denotes map f) {value : Bytes valueSize}
    (hl : Light (keySize + valueSize) Prod.fst map')
    (hst : ∀ e, Stores map' e ↔ e = (key, value) ∨ (Stores map e ∧ e.1 ≠ key))
    (hcount : (∃ v, Stores map (key, v)) ∧ map'.count = map.count ∨
      (∀ v, ¬Stores map (key, v)) ∧ map'.count = map.count + 1) :
    Denotes map' (Function.update f key (some value)) := by
  refine ⟨hl, pairs_update h hst, ?_, ?_⟩
  · rw [domain_update_some]
    exact h.finite.insert key
  · rw [domain_update_some]
    rcases hcount with ⟨hin, hc⟩ | ⟨habs, hc⟩
    · rw [hc, h.count, Set.insert_eq_of_mem ((h.mem_domain key).mpr hin)]
    · rw [hc, h.count, Set.ncard_insert_of_notMem _ h.finite]
      intro hmem
      obtain ⟨v, hv⟩ := (h.mem_domain key).mp hmem
      exact habs v hv

theorem Denotes.remove (h : Denotes map f) (hl : Light (keySize + valueSize) Prod.fst map')
    (hin : ∃ v, Stores map (key, v)) (hcount : map'.count + 1 = map.count)
    (hst : ∀ e, Stores map' e ↔ Stores map e ∧ e.1 ≠ key) :
    Denotes map' (Function.update f key none) := by
  refine ⟨hl, fun k v => ?_, ?_, ?_⟩
  · rw [hst]
    by_cases hk : k = key
    · subst hk
      simp
    · simp [hk, h.pairs]
  · rw [domain_update_none]
    exact h.finite.sdiff
  · rw [domain_update_none]
    have hone := Set.ncard_sdiff_singleton_add_one ((h.mem_domain key).mpr hin) h.finite
    have := h.count
    omega

/-- Step lemma of the simulation. -/
theorem Denotes.exec (h : Denotes map f) (op : MapOp keySize valueSize) (hfit : MapFits map op) :
    ∃ reply map' f', execMap map op = some (reply, map') ∧ Denotes map' f' ∧
      Allows f map.capacity reply f' map'.capacity op := by
  match op with
  | .insert (some key) (some value) granted =>
    rcases h.light.insert_spec hfit key value with ⟨m, hrun, hl, hst, hc⟩ | ⟨hrun, hg⟩
    · exact ⟨.status .ok none, m, _, by simp [execMap, hrun], h.insert hl hst hc,
        Or.inl ⟨rfl, rfl⟩⟩
    · exact ⟨.status .alloc none, map, f, by simp [execMap, hrun], h, Or.inr ⟨rfl, rfl, rfl, hg⟩⟩
  | .insert none _ _ =>
    exact ⟨.status .null none, map, f, by simp [execMap, zenitMapInsert], h, rfl, rfl⟩
  | .insert (some _) none _ =>
    exact ⟨.status .null none, map, f, by simp [execMap, zenitMapInsert], h, rfl, rfl⟩
  | .remove (some key) =>
    rcases h.light.remove_spec key with ⟨m, hrun, hl, hin, hc, hst⟩ | ⟨hrun, habs⟩
    · have hsome : (f key).isSome := (h.mem_domain key).mpr hin
      exact ⟨.status .ok none, m, _, by simp [execMap, hrun], h.remove hl hin hc hst,
        by rw [if_pos hsome], rfl⟩
    · have hnone := h.eq_none habs
      exact ⟨.status .notFound none, map, f, by simp [execMap, hrun], h, by simp [hnone],
        by rw [← hnone, Function.update_eq_self]⟩
  | .remove none =>
    exact ⟨.status .null none, map, f, rfl, h, rfl, rfl⟩
  | .get (some key) true =>
    rcases h.light.get_spec key with ⟨v, hv, hrun, -⟩ | ⟨habs, hrun, -⟩
    · exact ⟨.status .ok (some v), map, f, by simp [execMap, hrun], h,
        by simp [(h.pairs key v).mpr hv], rfl⟩
    · exact ⟨.status .notFound none, map, f, by simp [execMap, hrun], h,
        by simp [h.eq_none habs], rfl⟩
  | .get (some _) false =>
    exact ⟨.status .null none, map, f, by simp [execMap, zenitMapGet], h, rfl, rfl⟩
  | .get none _ => exact ⟨.status .null none, map, f, by simp [execMap, zenitMapGet], h, rfl, rfl⟩
  | .contains (some key) =>
    rcases h.light.get_spec key with ⟨v, hv, -, hrun⟩ | ⟨habs, -, hrun⟩
    · exact ⟨.flag true, map, f, by simp [execMap, hrun], h, by simp [(h.pairs key v).mpr hv], rfl⟩
    · exact ⟨.flag false, map, f, by simp [execMap, hrun], h, by simp [h.eq_none habs], rfl⟩
  | .contains none => exact ⟨.flag false, map, f, rfl, h, rfl, rfl⟩
  | .clear =>
    obtain ⟨m, hrun, hl, -, hc, hst⟩ := h.light.clear_spec
    refine ⟨.nothing, m, fun _ => none, by simp [execMap, zenitMapClear, hrun], ⟨hl, ?_, ?_, ?_⟩,
      rfl, rfl⟩
    · simp [hst]
    · simp [domain]
    · simp [domain, hc]

theorem light_map_create {capacity : ℕ} {granted : Bool × Bool × Bool} (hc : capacity ≤ sizeMax)
    (h8 : 8 ≤ roundPow2 capacity) (hbytes : roundPow2 capacity * (keySize + valueSize) < 2 ^ 64)
    (hmap : zenitMapCreateWithCapacityAndAllocator keySize valueSize granted capacity = some map) :
    Light (keySize + valueSize) Prod.fst map ∧ map.count = 0 ∧ ∀ e, ¬Stores map e := by
  unfold zenitMapCreateWithCapacityAndAllocator at hmap
  split_ifs at hmap with hzero
  exact light_create hc h8 (by omega) hbytes hmap

theorem Denotes.run (h : Denotes map f) (ops : List (MapOp keySize valueSize))
    (hfit : RunFits map ops) :
    ∃ outs map', runMap map ops = some (outs, map') ∧ Conforms f map.capacity ops outs := by
  induction ops generalizing map f with
  | nil => exact ⟨[], map, rfl, trivial⟩
  | cons op ops ih =>
    obtain ⟨hbytes, hrest⟩ := hfit
    obtain ⟨reply, m, f', hstep, hm, hallow⟩ := h.exec op hbytes
    obtain ⟨outs, last, hrun, hconf⟩ := ih hm (hrest reply m hstep)
    refine ⟨⟨reply, m.count, m.capacity⟩ :: outs, last, ?_, f', hallow, hm.finite, hm.count, hconf⟩
    simp [runMap, hstep, hrun, zenitMapCount, zenitMapCapacity]

/-- Every run of a created map returns, and its observations are those of a finite function, as long
as no array of slots has `2 ^ 64` bytes or more. -/
theorem map_refines_finite_function (keySize valueSize capacity : ℕ)
    (granted : Bool × Bool × Bool) (map : Map keySize valueSize) (hc : capacity ≤ sizeMax)
    (h8 : 8 ≤ roundPow2 capacity) (hbytes : roundPow2 capacity * (keySize + valueSize) < 2 ^ 64)
    (hmap : zenitMapCreateWithCapacityAndAllocator keySize valueSize granted capacity = some map)
    (ops : List (MapOp keySize valueSize)) (hfit : RunFits map ops) :
    ∃ outs map', runMap map ops = some (outs, map') ∧
      Conforms (fun _ => none) map.capacity ops outs := by
  obtain ⟨hl, hcount, hst⟩ := light_map_create hc h8 hbytes hmap
  have hden : Denotes map (fun _ => none) := by
    refine ⟨hl, fun k v => ?_, ?_, ?_⟩
    · simp [hst]
    · simp [domain]
    · simp [domain, hcount]
  exact hden.run ops hfit

theorem default_map_refines_finite_function :
    ∃ outs map', runMap (fresh 2 (zeroPair : Bytes 1 × Bytes 1) 16)
        [.insert (some (List.Vector.replicate 1 7)) (some (List.Vector.replicate 1 9))
          (true, true)] = some (outs, map') ∧
      Conforms (fun _ => none) 16 [.insert (some (List.Vector.replicate 1 7))
        (some (List.Vector.replicate 1 9)) (true, true)] outs :=
  map_refines_finite_function 1 1 hashDefaultCapacity (true, true, true) (fresh 2 zeroPair 16)
    (by decide) (by decide) (by decide) (by decide) _
    ⟨fun hover => absurd hover (by decide), fun _ _ _ => trivial⟩

/-! ## A block of no bytes -/

/-- Where the bytes of the slots wrap to less than a slot, the first insertion writes outside. -/
theorem insert_without_slots {capacity : ℕ} (hslots : slotsOf (keySize + valueSize) capacity = 0)
    (granted : Bool × Bool) (key : Bytes keySize) (value : Bytes valueSize) :
    zenitMapInsert granted (fresh (keySize + valueSize) zeroPair capacity) (some key) (some value) =
      none := by
  obtain ⟨t, ht⟩ : ∃ t : Map keySize valueSize,
      t = fresh (keySize + valueSize) zeroPair capacity := ⟨_, rfl⟩
  have hempty : t.slots = [] := by rw [ht, fresh, hslots, List.replicate_zero]
  have hload : ensureLoad Prod.fst (keySize + valueSize) zeroPair granted t = some (.ok, t) := by
    rw [ht, ensureLoad, if_neg (by simp [Overloaded, fresh, wrap])]
  have hplace : ∀ state index, place t state index (key, value) = none := fun state index => by
    simp [place, hempty, store]
  have hprobe : ∀ index, probeSlot Prod.fst t key ≠ some (.occupied, index) := by
    intro index hocc
    obtain ⟨slot, hslot⟩ := probeSlotFrom_occupied hocc
    simp [hempty] at hslot
  rw [← ht, zenitMapInsert, hload]
  cases hp : probeSlot Prod.fst t key with
  | none => simp [hp]
  | some answer =>
    obtain ⟨state, index⟩ := answer
    have hne : state ≠ .occupied := by
      rintro rfl
      exact hprobe index hp
    simp [hp, hne, hplace]

/-- `2 ^ 30` slots of `2 ^ 34` bytes: a key of 8 bytes and a value of `2 ^ 34 - 8`. -/
theorem wrapped_create :
    zenitMapCreateWithCapacityAndAllocator 8 (2 ^ 34 - 8) (true, true, true) (2 ^ 30) =
      some (fresh (2 ^ 34) zeroPair (2 ^ 30)) := by
  have hround : roundPow2 (2 ^ 30) = 2 ^ 30 := by decide
  rw [zenitMapCreateWithCapacityAndAllocator, if_neg (by decide), create, if_neg (by decide),
    hround]
  rfl

theorem wrapped_insert (granted : Bool × Bool) (key : Bytes 8) (value : Bytes (2 ^ 34 - 8)) :
    zenitMapInsert granted (fresh (2 ^ 34) zeroPair (2 ^ 30)) (some key) (some value) = none :=
  insert_without_slots (by decide) granted key value

/-- The products of the load check are small, the product of capacity and slot size wraps to zero,
and no insertion gets through. -/
theorem wrapped_map_loses_insertion : ∃ map : Map 8 (2 ^ 34 - 8),
    zenitMapCreateWithCapacityAndAllocator 8 (2 ^ 34 - 8) (true, true, true) (2 ^ 30) = some map ∧
    8 ≤ roundPow2 (2 ^ 30) ∧ SizesFit map ∧
    ∀ key value granted, runMap map [.insert (some key) (some value) granted] = none := by
  refine ⟨fresh (2 ^ 34) zeroPair (2 ^ 30), wrapped_create, by decide,
    ⟨by decide, by decide⟩, fun key value granted => ?_⟩
  rw [runMap, execMap, wrapped_insert]
  rfl

end LibZenit.HashTable
