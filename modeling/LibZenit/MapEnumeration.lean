import LibZenit.HashTermination

/-!
# Enumerating the map

`zenit_map_foreach`, the iterator, `zenit_map_keys` and `zenit_map_values` walk the slots, each on
its own. All of them meet the stored entries in the order of the slots.
-/
namespace LibZenit.HashTable
open HashCommon LinearProbe Slots

variable {keySize valueSize : ℕ} {ε σ α : Type}

/-! ## The walks -/

/-- One round of a walk: the visitor gets what is in an occupied slot. -/
def visitSlot (t : Table ε) (visit : σ → ε → Option σ) (s : σ) (i : ℕ) : Option σ := do
  let state ← t.states[i]?
  if state = .occupied then
    let slot ← t.slots[i]?
    visit s slot
  else some s

/-- `for (i = 0; i < capacity; i++) if (states[i] == HASH_SLOT_OCCUPIED) …` -/
def walkSlots (t : Table ε) (visit : σ → ε → Option σ) (s : σ) : Option σ :=
  (List.range t.capacity).foldlM (visitSlot t visit) s

/-- `ctx` is what the callback works on. -/
def zenitMapForeach (map : Map keySize valueSize)
    (visit : Option (Bytes keySize → Bytes valueSize → σ → σ)) (ctx : σ) : Option σ :=
  match visit with
  | none => some ctx
  | some visit => walkSlots map (fun ctx slot => some (visit slot.1 slot.2 ctx)) ctx

/-- `zenit_iter_t` -/
structure Iter (keySize valueSize : ℕ) where
  container : Option (Map keySize valueSize)
  index : ℕ
  count : ℕ
  isValid : Bool

def zenitMapIter (map : Option (Map keySize valueSize)) : Iter keySize valueSize where
  container := map
  index := 0
  count := (map.map Table.count).getD 0
  isValid := map.isSome

/-- The loop of `zenit_map_iter_next` for the rest of the slots: the new index, and the slot that
it points to. -/
def iterScan (t : Table ε) : ℕ → ℕ → Option (ℕ × Option ε)
  | 0, index => some (index, none)
  | left + 1, index => do
    let state ← t.states[index]?
    if state = .occupied then
      let slot ← t.slots[index]?
      some (index + 1, some slot)
    else iterScan t left (index + 1)

def zenitMapIterNext (iter : Iter keySize valueSize) :
    Option (Iter keySize valueSize × Option (Bytes keySize × Bytes valueSize)) :=
  match iter.container with
  | none => some (iter, none)
  | some map =>
    if !iter.isValid then some (iter, none)
    else do
      let (index, slot) ← iterScan map (map.capacity - iter.index) iter.index
      some ({ iter with index := index }, slot)

/-- What the calls of `zenit_map_iter_next` return before the first `NULL`. -/
def iterAll : ℕ → Iter keySize valueSize → Option (List (Bytes keySize × Bytes valueSize))
  | 0, _ => none
  | fuel + 1, iter => do
    let (iter, slot) ← zenitMapIterNext iter
    match slot with
    | none => some []
    | some slot => do
      let slots ← iterAll fuel iter
      some (slot :: slots)

/-- The body of the loop of `zenit_map_keys` and `zenit_map_values`: `pos` is the next place of the
buffer. -/
def copySlot (f : ε → α) (s : List (Option α) × ℕ) (slot : ε) : Option (List (Option α) × ℕ) := do
  let (out, pos) := s
  let out ← store out pos (some (f slot))
  some (out, pos + 1)

/-- The buffer has `count` places, which hold nothing at first. -/
def copyOut (f : ε → α) (t : Table ε) : Option (List (Option α) × ℕ) :=
  walkSlots t (copySlot f) (List.replicate t.count none, 0)

/-- What is written to `out_keys` or `out_values` and to `out_count`. -/
abbrev Listing (α : Type) := Option (List (Option α)) × ℕ

/-- `outs` tells which of the two pointers to outputs the caller passed. -/
def listing (f : ε → α) (granted : Bool) (outs : Bool × Bool) (t : Table ε) :
    Option (ZenitError × Option (Listing α)) :=
  if !outs.1 || !outs.2 then some (.null, none)
  else if t.count = 0 then some (.ok, some (none, 0))
  else if !granted then some (.alloc, some (none, 0))
  else do
    let (buffer, pos) ← copyOut f t
    some (.ok, some (some buffer, pos))

def zenitMapKeys (granted : Bool) (outs : Bool × Bool) (map : Map keySize valueSize) :
    Option (ZenitError × Option (Listing (Bytes keySize))) := listing Prod.fst granted outs map

def zenitMapValues (granted : Bool) (outs : Bool × Bool) (map : Map keySize valueSize) :
    Option (ZenitError × Option (Listing (Bytes valueSize))) := listing Prod.snd granted outs map

/-! ## The entries -/

/-- The entries in the order of their slots. -/
def entries (t : Table ε) : List ε := (List.range t.capacity).filterMap (entryAt t)

variable {keyOf : ε → Bytes keySize} {t : Table ε}

theorem Wf.state_some (h : Wf keyOf t) {i : ℕ} (hi : i < t.capacity) :
    ∃ state slot, t.states[i]? = some state ∧ t.slots[i]? = some slot :=
  ⟨_, _, List.getElem?_eq_getElem (h.statesLen ▸ hi), List.getElem?_eq_getElem (h.slotsLen ▸ hi)⟩

theorem Wf.mem_entries (h : Wf keyOf t) (e : ε) : e ∈ entries t ↔ Stores t e := by
  unfold entries Stores
  simp only [List.mem_filterMap, List.mem_range]
  constructor
  · rintro ⟨i, -, hi⟩
    exact ⟨i, hi⟩
  · rintro ⟨i, hi⟩
    exact ⟨i, entryAt_lt h hi, hi⟩

theorem Wf.keyAt_lt (h : Wf keyOf t) {i : ℕ} {key : Bytes keySize}
    (hi : keyAt keyOf t i = some key) : i < t.capacity := by
  obtain ⟨e, he, -⟩ := Option.map_eq_some_iff.mp hi
  exact entryAt_lt h he

theorem Wf.keys_nodup (h : Wf keyOf t) : ((entries t).map keyOf).Nodup := by
  have hkeys : (entries t).map keyOf = (List.range t.capacity).filterMap (keyAt keyOf t) := by
    rw [entries, List.map_filterMap]
    rfl
  rw [hkeys]
  refine List.nodup_range.filterMap fun i j key hi hj => ?_
  exact h.probed.unique i (h.keyAt_lt hi) j (h.keyAt_lt hj) key hi hj

theorem Wf.length_below (h : Wf keyOf t) {n : ℕ} (hn : n ≤ t.capacity) :
    ((List.range n).filterMap (entryAt t)).length = (t.states.take n).count .occupied := by
  induction n with
  | zero => simp
  | succ n ih =>
    obtain ⟨state, slot, hstate, hslot⟩ := h.state_some (Nat.lt_of_succ_le hn)
    rw [List.range_succ, List.filterMap_append, List.length_append, ih (by omega),
      List.take_add_one, hstate, List.count_append]
    cases state <;> simp [entryAt, hstate, hslot]

theorem Wf.length_entries (h : Wf keyOf t) : (entries t).length = t.count := by
  rw [entries, h.length_below le_rfl, ← h.statesLen, List.take_length, h.count]

theorem Wf.stores_unique (h : Wf keyOf t) {e e' : ε} (he : Stores t e) (he' : Stores t e')
    (hkey : keyOf e = keyOf e') : e = e' := by
  obtain ⟨i, hi⟩ := he
  obtain ⟨j, hj⟩ := he'
  have hkeyi : keyAt keyOf t i = some (keyOf e') := by rw [keyAt, hi, ← hkey]; rfl
  have hkeyj : keyAt keyOf t j = some (keyOf e') := by rw [keyAt, hj]; rfl
  obtain rfl := h.probed.unique i (entryAt_lt h hi) j (entryAt_lt h hj) _ hkeyi hkeyj
  exact Option.some.inj (hi.symm.trans hj)

/-- What is enumerated is what lookups find. -/
theorem Light.mem_entries_iff {map : Map keySize valueSize}
    (h : Light (keySize + valueSize) Prod.fst map)
    (key : Bytes keySize) (value : Bytes valueSize) :
    (key, value) ∈ entries map ↔ zenitMapGet map (some key) true = some (.ok, some value) := by
  rw [h.wf.mem_entries]
  rcases h.get_spec key with ⟨v, hv, hget, -⟩ | ⟨habs, hget, -⟩
  · rw [hget]
    constructor
    · intro hst
      cases h.wf.stores_unique hst hv rfl
      rfl
    · intro hsome
      cases hsome
      exact hv
  · rw [hget]
    exact ⟨fun hst => absurd hst (habs value), fun hsome => by cases hsome⟩

/-! ## Every walk meets the entries -/

theorem Wf.visitSlot_eq (h : Wf keyOf t) (visit : σ → ε → Option σ) (s : σ) {i : ℕ}
    (hi : i < t.capacity) : visitSlot t visit s i = (entryAt t i).elim (some s) (visit s) := by
  obtain ⟨state, slot, hstate, hslot⟩ := h.state_some hi
  cases state <;> simp [visitSlot, entryAt, hstate, hslot]

theorem Wf.walkSlots_eq (h : Wf keyOf t) (visit : σ → ε → Option σ) (s : σ) :
    walkSlots t visit s = (entries t).foldlM visit s := by
  have key : ∀ (is : List ℕ) (s : σ), (∀ i ∈ is, i < t.capacity) →
      is.foldlM (visitSlot t visit) s = (is.filterMap (entryAt t)).foldlM visit s := by
    intro is
    induction is with
    | nil => exact fun _ _ => rfl
    | cons i is ih =>
      intro s his
      obtain ⟨hi, his⟩ := List.forall_mem_cons.mp his
      rw [List.foldlM_cons, h.visitSlot_eq visit s hi]
      cases hentry : entryAt t i with
      | none =>
        rw [List.filterMap_cons_none hentry]
        exact ih s his
      | some e =>
        rw [List.filterMap_cons_some hentry, List.foldlM_cons]
        exact bind_congr fun s => ih s his
  exact key _ s fun i hi => List.mem_range.mp hi

theorem Wf.foreach_eq {map : Map keySize valueSize} (h : Wf Prod.fst map)
    (visit : Bytes keySize → Bytes valueSize → σ → σ) (ctx : σ) :
    zenitMapForeach map (some visit) ctx =
      some ((entries map).foldl (fun ctx e => visit e.1 e.2 ctx) ctx) := by
  rw [zenitMapForeach, h.walkSlots_eq]
  exact List.foldlM_pure ..

/-- What is left of the entries from a slot on. -/
def entriesFrom (t : Table ε) (index left : ℕ) : List ε :=
  (List.range' index left).filterMap (entryAt t)

/-- The iterator stops behind the next entry, or at the end if there is none. -/
theorem Wf.iterScan_spec (h : Wf keyOf t) {index left : ℕ} (hleft : index + left = t.capacity) :
    (iterScan t left index = some (t.capacity, none) ∧ entriesFrom t index left = []) ∨
    ∃ j left' e, j + left' = t.capacity ∧ iterScan t left index = some (j, some e) ∧
      entriesFrom t index left = e :: entriesFrom t j left' := by
  induction left generalizing index with
  | zero =>
    obtain rfl : index = t.capacity := hleft
    exact .inl ⟨rfl, rfl⟩
  | succ left ih =>
    obtain ⟨state, slot, hstate, hslot⟩ := h.state_some (by omega : index < t.capacity)
    by_cases hocc : state = .occupied
    · subst hocc
      have hentry : entryAt t index = some slot := entryAt_eq_some.mpr ⟨hstate, hslot⟩
      refine .inr ⟨index + 1, left, slot, by omega, by simp [iterScan, hstate, hslot], ?_⟩
      rw [entriesFrom, List.range'_succ, List.filterMap_cons_some hentry]
      rfl
    · have hentry : entryAt t index = none := by simp [entryAt, hstate, hocc]
      have hscan : iterScan t (left + 1) index = iterScan t left (index + 1) := by
        simp [iterScan, hstate, hocc]
      rw [hscan, entriesFrom, List.range'_succ, List.filterMap_cons_none hentry]
      exact ih (by omega)

theorem Wf.iterAll_eq {map : Map keySize valueSize} (h : Wf Prod.fst map) {count index left fuel : ℕ}
    (hleft : index + left = map.capacity) (hfuel : (entriesFrom map index left).length < fuel) :
    iterAll fuel ⟨some map, index, count, true⟩ = some (entriesFrom map index left) := by
  induction fuel generalizing index left with
  | zero => omega
  | succ fuel ih =>
    have hcap : map.capacity - index = left := by omega
    rcases h.iterScan_spec hleft with ⟨hscan, hnone⟩ | ⟨j, left', e, hj, hscan, hsome⟩
    · simp [iterAll, zenitMapIterNext, hcap, hscan, hnone]
    · rw [hsome, List.length_cons] at hfuel
      simp [iterAll, zenitMapIterNext, hcap, hscan, hsome, ih hj (by omega)]

/-- Every entry fills the next place. -/
theorem foldlM_copySlot (f : ε → α) (es : List ε) (done : List (Option α)) :
    es.foldlM (copySlot f) (done ++ List.replicate es.length none, done.length) =
      some (done ++ es.map (fun e => some (f e)), done.length + es.length) := by
  induction es generalizing done with
  | nil => simp
  | cons e es ih =>
    have hstore : store (done ++ List.replicate (e :: es).length none) done.length (some (f e)) =
        some (done ++ [some (f e)] ++ List.replicate es.length none) := by
      rw [store_eq (by simp), List.length_cons, List.replicate_succ,
        List.set_append_right _ _ le_rfl, Nat.sub_self, List.set_cons_zero, List.append_assoc]
      rfl
    have hcopy : copySlot f (done ++ List.replicate (e :: es).length none, done.length) e =
        some (done ++ [some (f e)] ++ List.replicate es.length none,
          (done ++ [some (f e)]).length) := by
      simp only [copySlot, hstore, Option.bind_eq_bind, Option.bind_some, List.length_append,
        List.length_singleton]
    have htail := ih (done ++ [some (f e)])
    rw [List.foldlM_cons, hcopy]
    refine htail.trans ?_
    rw [List.length_append, List.length_singleton, List.length_cons, List.map_cons,
      List.append_assoc, Nat.add_assoc, Nat.add_comm 1]
    rfl

theorem Wf.copyOut_eq (h : Wf keyOf t) (f : ε → α) :
    copyOut f t = some ((entries t).map fun e => some (f e), t.count) := by
  have hcopy := foldlM_copySlot f (entries t) []
  rw [h.length_entries] at hcopy
  rw [copyOut, h.walkSlots_eq]
  simpa using hcopy

theorem Wf.listing_eq (h : Wf keyOf t) (f : ε → α) :
    listing f true (true, true) t = some (.ok, some
      (if t.count = 0 then none else some ((entries t).map fun e => some (f e)), t.count)) := by
  unfold listing
  rw [if_neg (by simp)]
  by_cases hzero : t.count = 0
  · rw [if_pos hzero, if_pos hzero, hzero]
  · rw [if_neg hzero, if_neg hzero, if_neg (by simp), h.copyOut_eq]
    rfl

/-- The buffers take fewer bytes than the slots. -/
theorem Light.buffer_fits {slotSize elemSize : ℕ} (h : Light slotSize keyOf t)
    (hle : elemSize ≤ slotSize) : wrap (t.count * elemSize) = t.count * elemSize := by
  have hroom := h.wf.room
  refine wrap_of_lt (lt_of_le_of_lt ?_ h.bytes)
  exact Nat.mul_le_mul (by omega) hle

/-- In every reachable map there is one list of entries, a key at most once in it, that lookups
find, that is as long as the map counts, and that the four walks return; the buffers have the bytes
of `count` elements. Reachable means that no array of slots has had `2 ^ 64` bytes or more; as long
as none has, the next operation returns. -/
theorem enumerations_agree {granted : Bool × Bool × Bool} {capacity : ℕ}
    {map₀ map : Map keySize valueSize} (hc : capacity ≤ sizeMax) (h8 : 8 ≤ roundPow2 capacity)
    (hbytes : roundPow2 capacity * (keySize + valueSize) < 2 ^ 64)
    (hmap : zenitMapCreateWithCapacityAndAllocator keySize valueSize granted capacity = some map₀)
    (hreach : Reached stepMap MapFits map₀ map) :
    (∃ es : List (Bytes keySize × Bytes valueSize),
      (es.map Prod.fst).Nodup ∧ es.length = zenitMapCount map ∧
      (∀ key value, (key, value) ∈ es ↔
        zenitMapGet map (some key) true = some (.ok, some value)) ∧
      (∀ (σ : Type) (visit : Bytes keySize → Bytes valueSize → σ → σ) (ctx : σ),
        zenitMapForeach map (some visit) ctx =
          some (es.foldl (fun ctx e => visit e.1 e.2 ctx) ctx)) ∧
      (∀ fuel, es.length < fuel → iterAll fuel (zenitMapIter (some map)) = some es) ∧
      zenitMapKeys true (true, true) map = some (.ok, some
        (if es.length = 0 then none else some (es.map fun e => some e.1), es.length)) ∧
      zenitMapValues true (true, true) map = some (.ok, some
        (if es.length = 0 then none else some (es.map fun e => some e.2), es.length)) ∧
      wrap (es.length * keySize) = es.length * keySize ∧
      wrap (es.length * valueSize) = es.length * valueSize) ∧
    ∀ op, MapFits map op → ∃ map', stepMap map op = some map' := by
  have h := (light_map_create hc h8 hbytes hmap).1.reachedMap hreach
  have hlen := h.wf.length_entries
  refine ⟨⟨entries map, h.wf.keys_nodup, hlen, h.mem_entries_iff,
    fun σ visit ctx => h.wf.foreach_eq visit ctx, fun fuel hfuel => ?_, ?_, ?_, ?_, ?_⟩,
    fun op hop => ?_⟩
  · have hfrom : entriesFrom map 0 map.capacity = entries map := by
      rw [entriesFrom, ← List.range_eq_range']
      rfl
    have hall : iterAll fuel ⟨some map, 0, map.count, true⟩ =
        some (entriesFrom map 0 map.capacity) := h.wf.iterAll_eq (Nat.zero_add _) (hfrom ▸ hfuel)
    rw [hfrom] at hall
    exact hall
  · rw [hlen]
    exact h.wf.listing_eq Prod.fst
  · rw [hlen]
    exact h.wf.listing_eq Prod.snd
  · rw [hlen]
    exact h.buffer_fits (Nat.le_add_right _ _)
  · rw [hlen]
    exact h.buffer_fits (Nat.le_add_left _ _)
  · obtain ⟨map', hrun, -⟩ := h.stepMap op hop
    exact ⟨map', hrun⟩

theorem enumerations_agree_one : ∃ (map : Map 1 1) (es : List (Bytes 1 × Bytes 1)),
    stepMap (fresh 2 zeroPair 16) (.insert (some (List.Vector.replicate 1 7))
      (some (List.Vector.replicate 1 9)) (true, true)) = some map ∧ es.length = 1 ∧
    zenitMapKeys true (true, true) map = some (.ok, some (some (es.map fun e => some e.1), 1)) := by
  obtain ⟨map, hstep⟩ : ∃ map, stepMap (fresh 2 (zeroPair : Bytes 1 × Bytes 1) 16)
      (.insert (some (List.Vector.replicate 1 7)) (some (List.Vector.replicate 1 9))
        (true, true)) = some map := ⟨_, rfl⟩
  have hcount : zenitMapCount map = 1 := by
    cases hstep
    rfl
  have hfits : MapFits (fresh 2 (zeroPair : Bytes 1 × Bytes 1) 16)
      (.insert (some (List.Vector.replicate 1 7)) (some (List.Vector.replicate 1 9))
        (true, true)) := fun hover => absurd hover (by decide)
  obtain ⟨⟨es, -, hlen, -, -, -, hkeys, -⟩, -⟩ := @enumerations_agree 1 1 (true, true, true) 16
    (fresh 2 zeroPair 16) map (by decide) (by decide) (by decide) rfl (.step .refl hfits hstep)
  rw [hcount] at hlen
  rw [hlen] at hkeys
  exact ⟨map, es, hstep, hlen, hkeys⟩

/-- Where the bytes of the slots wrap to zero, an insertion returns no map that could be enumerated:
it writes outside the block. -/
theorem wrapped_map_enumerates_nothing : ∃ map : Map 8 (2 ^ 34 - 8),
    zenitMapCreateWithCapacityAndAllocator 8 (2 ^ 34 - 8) (true, true, true) (2 ^ 30) = some map ∧
    8 ≤ roundPow2 (2 ^ 30) ∧
    ∀ key value granted, stepMap map (.insert (some key) (some value) granted) = none := by
  refine ⟨fresh (2 ^ 34) zeroPair (2 ^ 30), wrapped_create, by decide, fun key value granted => ?_⟩
  rw [stepMap, execMap, wrapped_insert]
  rfl

end LibZenit.HashTable
