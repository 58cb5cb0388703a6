import Mathlib.Data.List.TakeWhile
import LibZenit.JsonBounds

/-!
# Object operations of `json.c`

An object has two parallel arrays of keys and values, here one array of pairs. Keys are compared
with `strcmp`, so a stored key counts up to its first zero byte. Values are pointers and are never
looked into: they are drawn from an arbitrary type.
-/
namespace LibZenit.Json

section Operations

variable {V : Type}

/-- The loop of `zenit_json_object_get`. -/
def findValue (key : List UInt8) : List (List UInt8 × V) → Option V
  | [] => none
  | (k, v) :: ms => if cstr k = cstr key then some v else findValue key ms

/-- The loop of `zenit_json_object_set` over the stored keys. -/
def overwrite (key : List UInt8) (val : V) :
    List (List UInt8 × V) → Option (List (List UInt8 × V))
  | [] => none
  | (k, v) :: ms =>
    if cstr k = cstr key then some ((k, val) :: ms) else (overwrite key val ms).map ((k, v) :: ·)

/-- The loops of `zenit_json_object_remove`: find the key, then shift what is behind it. -/
def shiftOut (key : List UInt8) : List (List UInt8 × V) → Option (List (List UInt8 × V))
  | [] => none
  | (k, v) :: ms => if cstr k = cstr key then some ms else (shiftOut key ms).map ((k, v) :: ·)

/-- Which of the allocations of one call succeed: the two new arrays and the copy of the key. -/
structure Allocs where
  keys : Bool
  values : Bool
  copy : Bool

def objectGrow (allocs : Allocs) (obj : Growable (List UInt8 × V)) :
    Option (Growable (List UInt8 × V)) :=
  if !allocs.keys then none
  else if !allocs.values then none
  else some { obj with capacity := growCapacity obj.capacity }

def zenitJsonValueObject : Growable (List UInt8 × V) := ⟨[], 0⟩

def zenitJsonObjectGet (obj : Growable (List UInt8 × V)) (key : List UInt8) : Option V :=
  findValue key obj.items

/-- The copy of a new key stops at its first zero byte. A store past the end of the arrays has no
result. -/
def zenitJsonObjectSet (allocs : Allocs) (obj : Growable (List UInt8 × V)) (key : List UInt8)
    (val : V) : Option (ZenitError × Growable (List UInt8 × V)) :=
  match overwrite key val obj.items with
  | some items => some (.ok, { obj with items := items })
  | none =>
    let grown := if obj.items.length ≥ obj.capacity then objectGrow allocs obj else some obj
    match grown with
    | none => some (.alloc, obj)
    | some obj =>
      if !allocs.copy then some (.alloc, obj)
      else if obj.items.length < obj.capacity then
        some (.ok, { obj with items := obj.items ++ [(cstr key, val)] })
      else none

def zenitJsonObjectRemove (obj : Growable (List UInt8 × V)) (key : List UInt8) :
    ZenitError × Growable (List UInt8 × V) :=
  match shiftOut key obj.items with
  | some items => (.ok, { obj with items := items })
  | none => (.notFound, obj)

/-- What a client does to an object; every call meets its own allocation failures. -/
inductive ObjectOp (V : Type) where
  | set (allocs : Allocs) (key : List UInt8) (val : V)
  | remove (key : List UInt8)

def ObjectOp.exec (obj : Growable (List UInt8 × V)) :
    ObjectOp V → Option (ZenitError × Growable (List UInt8 × V))
  | .set allocs key val => zenitJsonObjectSet allocs obj key val
  | .remove key => some (zenitJsonObjectRemove obj key)

/-- A run of calls, whatever they return. -/
inductive ObjectRun (obj : Growable (List UInt8 × V)) : Growable (List UInt8 × V) → Prop
  | refl : ObjectRun obj obj
  | step {obj₁ obj₂ : Growable (List UInt8 × V)} {op : ObjectOp V} {err : ZenitError}
      (run : ObjectRun obj obj₁) (call : op.exec obj₁ = some (err, obj₂)) : ObjectRun obj obj₂

end Operations

/-! ## Names and lookups -/

variable {V : Type} {key k' : List UInt8} {val : V} {ms ms' : List (List UInt8 × V)}

@[simp]
theorem cstr_cstr (s : List UInt8) : cstr (cstr s) = cstr s := List.takeWhile_idem

/-- The stored keys as C strings. -/
def names (ms : List (List UInt8 × V)) : List (List UInt8) := ms.map fun m => cstr m.1

theorem findValue_eq_none : findValue key ms = none ↔ cstr key ∉ names ms := by
  induction ms with
  | nil => simp [findValue, names]
  | cons m ms ih =>
    obtain ⟨k, v⟩ := m
    rw [findValue]
    unfold names at ih ⊢
    by_cases hk : cstr k = cstr key
    · simp [hk]
    · simp [hk, ih, Ne.symm hk]

theorem overwrite_eq_none : overwrite key val ms = none ↔ cstr key ∉ names ms := by
  induction ms with
  | nil => simp [overwrite, names]
  | cons m ms ih =>
    obtain ⟨k, v⟩ := m
    rw [overwrite]
    unfold names at ih ⊢
    by_cases hk : cstr k = cstr key
    · simp [hk]
    · simp [hk, ih, Ne.symm hk]

/-- What overwriting does to the names and to every lookup. -/
theorem overwrite_spec (h : overwrite key val ms = some ms') : names ms' = names ms ∧
    findValue key ms' = some val ∧
    ∀ k', cstr k' ≠ cstr key → findValue k' ms' = findValue k' ms := by
  induction ms generalizing ms' with
  | nil => simp [overwrite] at h
  | cons m ms ih =>
    obtain ⟨k, v⟩ := m
    rw [overwrite] at h
    split_ifs at h with hk
    · obtain rfl := Option.some.inj h
      refine ⟨rfl, by simp [findValue, hk], fun k' hne => ?_⟩
      simp only [findValue, hk, if_neg (Ne.symm hne)]
    · obtain ⟨rest, hrest, rfl⟩ := Option.map_eq_some_iff.mp h
      obtain ⟨hnames, hval, hother⟩ := ih hrest
      refine ⟨by simpa [names] using hnames, by simp [findValue, hk, hval], fun k' hne => ?_⟩
      simp only [findValue, hother k' hne]

theorem findValue_append_of_fresh (h : cstr key ∉ names ms) :
    findValue key (ms ++ [(cstr key, val)]) = some val := by
  induction ms with
  | nil => simp [findValue]
  | cons m ms ih =>
    obtain ⟨k, v⟩ := m
    unfold names at h ih
    simp only [List.map_cons, List.mem_cons, not_or] at h
    simp only [List.cons_append, findValue, if_neg (Ne.symm h.1)]
    exact ih h.2

theorem findValue_append_of_ne (hne : cstr k' ≠ cstr key) :
    findValue k' (ms ++ [(cstr key, val)]) = findValue k' ms := by
  induction ms with
  | nil => simp [findValue, Ne.symm hne]
  | cons m ms ih =>
    obtain ⟨k, v⟩ := m
    simp only [List.cons_append, findValue, ih]

theorem names_shiftOut (h : shiftOut key ms = some ms') :
    (names ms').Sublist (names ms) ∧ ((names ms).Nodup → cstr key ∉ names ms') ∧
      ∀ k', cstr k' ≠ cstr key → findValue k' ms' = findValue k' ms := by
  induction ms generalizing ms' with
  | nil => simp [shiftOut] at h
  | cons m ms ih =>
    obtain ⟨k, v⟩ := m
    rw [shiftOut] at h
    split_ifs at h with hk
    · obtain rfl := Option.some.inj h
      refine ⟨List.sublist_cons_self _ _, fun hnd => ?_, fun k' hne => ?_⟩
      · rw [← hk]
        exact (List.nodup_cons.mp hnd).1
      · simp only [findValue, hk, if_neg (Ne.symm hne)]
    · obtain ⟨rest, hrest, rfl⟩ := Option.map_eq_some_iff.mp h
      obtain ⟨hsub, hgone, hother⟩ := ih hrest
      refine ⟨by simpa [names] using hsub, fun hnd => ?_, fun k' hne => ?_⟩
      · have hrest' := hgone (List.nodup_cons.mp hnd).2
        unfold names at hrest' ⊢
        simp only [List.map_cons, List.mem_cons, not_or]
        exact ⟨Ne.symm hk, hrest'⟩
      · simp only [findValue, hother k' hne]

/-! ## One call -/

variable {obj obj' : Growable (List UInt8 × V)} {allocs : Allocs} {err : ZenitError}

theorem objectGrow_eq_some (h : objectGrow allocs obj = some obj') :
    obj' = { obj with capacity := growCapacity obj.capacity } := by
  unfold objectGrow at h
  split_ifs at h
  exact (Option.some.inj h).symm

/-- Everything that `zenit_json_object_set` can do to the members. -/
theorem set_cases (h : zenitJsonObjectSet allocs obj key val = some (err, obj')) :
    (∃ items, overwrite key val obj.items = some items ∧ err = .ok ∧ obj'.items = items) ∨
    (cstr key ∉ names obj.items ∧ err = .alloc ∧ obj'.items = obj.items) ∨
    (cstr key ∉ names obj.items ∧ err = .ok ∧ obj'.items = obj.items ++ [(cstr key, val)]) := by
  unfold zenitJsonObjectSet at h
  cases ho : overwrite key val obj.items with
  | some items =>
    simp only [ho, Option.some.injEq, Prod.mk.injEq] at h
    exact Or.inl ⟨items, rfl, h.1.symm, by rw [← h.2]⟩
  | none =>
    have hfresh := overwrite_eq_none.mp ho
    rw [ho] at h
    cases hg : (if obj.items.length ≥ obj.capacity then objectGrow allocs obj else some obj) with
    | none =>
      simp only [hg, Option.some.injEq, Prod.mk.injEq] at h
      exact Or.inr (Or.inl ⟨hfresh, h.1.symm, by rw [← h.2]⟩)
    | some grown =>
      have hitems : grown.items = obj.items := by
        split_ifs at hg
        · rw [objectGrow_eq_some hg]
        · rw [Option.some.inj hg]
      simp only [hg] at h
      split_ifs at h with hcopy hroom
      · simp only [Option.some.injEq, Prod.mk.injEq] at h
        exact Or.inr (Or.inl ⟨hfresh, h.1.symm, by rw [← h.2, hitems]⟩)
      · simp only [Option.some.injEq, Prod.mk.injEq] at h
        exact Or.inr (Or.inr ⟨hfresh, h.1.symm, by rw [← h.2, hitems]⟩)

theorem remove_cases (h : zenitJsonObjectRemove obj key = (err, obj')) :
    shiftOut key obj.items = some obj'.items ∧ err = .ok ∨ obj'.items = obj.items ∧ err ≠ .ok := by
  unfold zenitJsonObjectRemove at h
  cases hs : shiftOut key obj.items with
  | none =>
    simp only [hs, Prod.mk.injEq] at h
    exact Or.inr ⟨by rw [h.2], by rw [← h.1]; decide⟩
  | some items =>
    simp only [hs, Prod.mk.injEq] at h
    exact Or.inl ⟨by rw [← h.2], h.1.symm⟩

theorem nodup_names_append (hnd : (names ms).Nodup) (h : cstr key ∉ names ms) :
    (names (ms ++ [(cstr key, val)])).Nodup := by
  unfold names at hnd h ⊢
  rw [List.map_append, List.map_singleton, cstr_cstr]
  refine List.nodup_append.mpr ⟨hnd, List.nodup_singleton _, ?_⟩
  rintro a ha b hb rfl
  exact h (List.mem_singleton.mp hb ▸ ha)

/-- No call stores a name twice. -/
theorem exec_nodup {op : ObjectOp V} (hnd : (names obj.items).Nodup)
    (h : op.exec obj = some (err, obj')) : (names obj'.items).Nodup := by
  cases op with
  | set allocs key val =>
    rcases set_cases h with ⟨items, ho, -, rfl⟩ | ⟨-, -, heq⟩ | ⟨hfresh, -, heq⟩
    · rw [(overwrite_spec ho).1]
      exact hnd
    · rw [heq]
      exact hnd
    · rw [heq]
      exact nodup_names_append hnd hfresh
  | remove key =>
    rcases remove_cases (Option.some.inj h) with ⟨hs, -⟩ | ⟨heq, -⟩
    · exact hnd.sublist (names_shiftOut hs).1
    · rw [heq]
      exact hnd

theorem length_shiftOut (h : shiftOut key ms = some ms') : ms'.length ≤ ms.length := by
  have hlen := (names_shiftOut h).1.length_le
  simpa [names] using hlen

theorem length_overwrite (h : overwrite key val ms = some ms') : ms'.length = ms.length := by
  have hlen := congrArg List.length (overwrite_spec h).1
  simpa [names] using hlen

/-- Every call returns and leaves room for the next growth. -/
theorem exec_ready (hready : obj.Ready) (op : ObjectOp V) :
    ∃ err obj', op.exec obj = some (err, obj') ∧ obj'.Ready := by
  have hfits := hready.fits
  have hcap := hready.capacity
  cases op with
  | set allocs key val =>
    simp only [ObjectOp.exec, zenitJsonObjectSet]
    cases ho : overwrite key val obj.items with
    | some items =>
      refine ⟨_, _, rfl, ?_, hcap⟩
      rw [length_overwrite ho]
      exact hfits
    | none =>
      cases hg : (if obj.items.length ≥ obj.capacity then objectGrow allocs obj else some obj) with
      | none => exact ⟨_, _, rfl, hready⟩
      | some grown =>
        have hroom : grown.items.length < grown.capacity ∧ 8 ≤ grown.capacity := by
          split_ifs at hg with hfull
          · rw [objectGrow_eq_some hg]
            unfold growCapacity
            dsimp only
            split_ifs <;> omega
          · rw [← Option.some.inj hg]
            omega
        cases hcopy : allocs.copy with
        | false => exact ⟨.alloc, grown, by simp, hroom.1.le, Or.inr hroom.2⟩
        | true =>
          refine ⟨.ok, ⟨grown.items ++ [(cstr key, val)], grown.capacity⟩, ?_, ?_, Or.inr hroom.2⟩
          · simp [hroom.1]
          · rw [List.length_append]
            exact hroom.1
  | remove key =>
    simp only [ObjectOp.exec, zenitJsonObjectRemove]
    cases hs : shiftOut key obj.items with
    | none => exact ⟨_, _, rfl, hready⟩
    | some items => exact ⟨_, _, rfl, (length_shiftOut hs).trans hfits, hcap⟩

/-! ## Objects as maps -/

/-- Distinct keys, calls that return, and the postconditions of `remove` and `set`. -/
structure IsMap (obj : Growable (List UInt8 × V)) : Prop where
  distinct : (names obj.items).Nodup
  returns : ∀ op : ObjectOp V, (op.exec obj).isSome
  remove_get : ∀ {key obj'}, zenitJsonObjectRemove obj key = (.ok, obj') →
    zenitJsonObjectGet obj' key = none
  set_get : ∀ {allocs key val obj'}, zenitJsonObjectSet allocs obj key val = some (.ok, obj') →
    zenitJsonObjectGet obj' key = some val ∧
      ∀ k', cstr k' ≠ cstr key → zenitJsonObjectGet obj' k' = zenitJsonObjectGet obj k'

theorem set_get (h : zenitJsonObjectSet allocs obj key val = some (.ok, obj')) :
    zenitJsonObjectGet obj' key = some val ∧
      ∀ k', cstr k' ≠ cstr key → zenitJsonObjectGet obj' k' = zenitJsonObjectGet obj k' := by
  unfold zenitJsonObjectGet
  rcases set_cases h with ⟨items, ho, -, rfl⟩ | ⟨-, herr, -⟩ | ⟨hfresh, -, heq⟩
  · exact (overwrite_spec ho).2
  · simp at herr
  · rw [heq]
    exact ⟨findValue_append_of_fresh hfresh, fun k' hne => findValue_append_of_ne hne⟩

theorem isMap_of_nodup (hready : obj.Ready) (hnd : (names obj.items).Nodup) : IsMap obj where
  distinct := hnd
  returns op := by
    obtain ⟨err, obj', h, -⟩ := exec_ready hready op
    simp [h]
  remove_get h := by
    rcases remove_cases h with ⟨hs, -⟩ | ⟨-, herr⟩
    · exact findValue_eq_none.mpr ((names_shiftOut hs).2.1 hnd)
    · exact absurd rfl herr
  set_get := set_get

theorem ObjectRun.keeps (h : ObjectRun obj obj') (hready : obj.Ready)
    (hnd : (names obj.items).Nodup) : obj'.Ready ∧ (names obj'.items).Nodup := by
  induction h with
  | refl => exact ⟨hready, hnd⟩
  | step run call ih =>
    obtain ⟨err', obj₂', hexec, hready'⟩ := exec_ready ih.1 _
    obtain ⟨-, rfl⟩ := Prod.mk.inj (Option.some.inj (call.symm.trans hexec))
    exact ⟨hready', exec_nodup ih.2 call⟩

/-- An object with these members, whatever the size of its arrays, is a map in every run. -/
def StaysMap (ms : List (List UInt8 × V)) : Prop :=
  ∀ obj obj' : Growable (List UInt8 × V), obj.Ready → obj.items = ms → ObjectRun obj obj' →
    IsMap obj'

theorem staysMap_iff : StaysMap ms ↔ (names ms).Nodup := by
  constructor
  · intro h
    have hready : Growable.Ready (⟨ms, max 8 ms.length⟩ : Growable (List UInt8 × V)) :=
      ⟨Nat.le_max_right _ _, Or.inr (Nat.le_max_left _ _)⟩
    exact (h _ _ hready rfl .refl).distinct
  · rintro hnd obj obj' hready rfl hrun
    obtain ⟨hready', hnd'⟩ := hrun.keeps hready hnd
    exact isMap_of_nodup hready' hnd'

/-! ## Objects of a parsed text -/

mutual

/-- The members of every object in a tree. -/
def Value.objects {D : Type} : Value D → List (List (List UInt8 × Value D))
  | .arr items => itemObjects items
  | .obj members => members :: memberObjects members
  | _ => []

def itemObjects {D : Type} : List (Value D) → List (List (List UInt8 × Value D))
  | [] => []
  | v :: vs => v.objects ++ itemObjects vs

def memberObjects {D : Type} :
    List (List UInt8 × Value D) → List (List (List UInt8 × Value D))
  | [] => []
  | (_, v) :: ms => v.objects ++ memberObjects ms

end

/-- No object of the text has two members of one name. -/
def DistinctNames {D : Type} (toDouble : List UInt8 → D) (mem : List UInt8) (len : ℕ) : Prop :=
  ∀ v, Accepts toDouble mem len v → ∀ ms ∈ v.objects, (names ms).Nodup

/-- A new object is a map in every run; the objects of an accepted text are exactly when the text
repeats no name. -/
theorem objects_stay_maps_iff {D : Type} (toDouble : List UInt8 → D) (mem : List UInt8) (len : ℕ) :
    (∀ obj : Growable (List UInt8 × Value D), ObjectRun zenitJsonValueObject obj → IsMap obj) ∧
      ((∀ fuel v, 3 * len + 1 ≤ fuel → zenitJsonParseWithLength toDouble mem len fuel = .ok v →
        ∀ ms ∈ v.objects, StaysMap ms) ↔ DistinctNames toDouble mem len) := by
  refine ⟨fun obj hrun => ?_, fun h v hv ms hms => ?_, fun h fuel v hf hv ms hms => ?_⟩
  · have hempty : StaysMap ([] : List (List UInt8 × Value D)) := staysMap_iff.mpr List.nodup_nil
    exact hempty _ _ Growable.Ready.empty rfl hrun
  · have hok := (zenitJsonParseWithLength_eq_ok le_rfl).mpr hv
    exact staysMap_iff.mp (h _ v le_rfl hok ms hms)
  · exact staysMap_iff.mpr (h v ((zenitJsonParseWithLength_eq_ok hf).mp hv) ms hms)

/-- The text `{"a":1,"a":2}`. -/
def twiceNamed : List UInt8 := [123, 34, 97, 34, 58, 49, 44, 34, 97, 34, 58, 50, 125]

/-- After `remove` of the name that the text repeats, `get` still finds the second member. -/
theorem parser_repeats_names :
    ¬∀ (mem : List UInt8) (len fuel : ℕ) (v : Value (List UInt8)), 3 * len + 1 ≤ fuel →
      zenitJsonParseWithLength id mem len fuel = .ok v → ∀ ms ∈ v.objects, StaysMap ms := by
  intro h
  have hparse : zenitJsonParseWithLength id twiceNamed 13 40 =
      .ok (.obj [([97], .num [49]), ([97], .num [50])]) := rfl
  have hmap := h twiceNamed 13 40 _ (by decide) hparse _ (List.mem_cons_self ..)
    ⟨[([97], .num [49]), ([97], .num [50])], 8⟩ _ ⟨by decide, Or.inr le_rfl⟩ rfl .refl
  have hget := hmap.remove_get (show zenitJsonObjectRemove _ [97] =
    (.ok, ⟨[([97], .num [50])], 8⟩) from rfl)
  exact absurd hget (by simp [zenitJsonObjectGet, findValue])

end LibZenit.Json
