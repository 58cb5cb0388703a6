import LibZenit.JsonDomDoc

/-!
# Reading a document

Under the ownership invariant every reader of the API looks only at blocks of the document, leaves
the records as they are and answers as the abstract document does.
-/
namespace LibZenit.JsonHeap
open Json BlockLedger

variable {D : Type} {h : Heap D} {xs : List ℕ} {m : Multiset ℕ} {d : Doc D} {x : ℕ}

/-! ## Looking into a value -/

theorem Represents.items_of_arr {r : ArrayRec} (h₀ : Represents h xs m d) (hx : x ∈ xs)
    (hr : (h.nodes x).payload = .arr r) : d.items (some x) = some r.items.items := by
  simp [Doc.items, h₀.value x hx, hr, Payload.content]

theorem Represents.items_of_ne (h₀ : Represents h xs m d) (hx : x ∈ xs)
    (hr : ∀ r, (h.nodes x).payload ≠ .arr r) : d.items (some x) = none := by
  cases hp : (h.nodes x).payload with
  | arr r => exact absurd hp (hr r)
  | _ => simp [Doc.items, h₀.value x hx, hp, Payload.content]

theorem Represents.members_of_obj {r : ObjectRec} (h₀ : Represents h xs m d) (hx : x ∈ xs)
    (hr : (h.nodes x).payload = .obj r) :
    d.members (some x) = some (memberTexts r.members.items) := by
  simp [Doc.members, h₀.value x hx, hr, Payload.content]

theorem Represents.members_of_ne (h₀ : Represents h xs m d) (hx : x ∈ xs)
    (hr : ∀ r, (h.nodes x).payload ≠ .obj r) : d.members (some x) = none := by
  cases hp : (h.nodes x).payload with
  | obj r => exact absurd hp (hr r)
  | _ => simp [Doc.members, h₀.value x hx, hp, Payload.content]

theorem Represents.ready_of_arr {r : ArrayRec} (h₀ : Represents h xs m d) (hx : x ∈ xs)
    (hr : (h.nodes x).payload = .arr r) : r.items.Ready := by
  have hready := h₀.ready x hx
  rwa [hr] at hready

theorem Represents.ready_of_obj {r : ObjectRec} (h₀ : Represents h xs m d) (hx : x ∈ xs)
    (hr : (h.nodes x).payload = .obj r) : r.members.Ready := by
  have hready := h₀.ready x hx
  rwa [hr] at hready

/-- An array with room has a block, and the record owns it. -/
theorem Holds.use_array {r : ArrayRec} (hh : Holds h xs m) (hx : x ∈ xs)
    (hr : (h.nodes x).payload = .arr r) (hcap : r.items.capacity ≠ 0) : h.usePtr r.block = h := by
  have hwf := hh.wf x hx
  rw [hr] at hwf
  cases hb : r.block with
  | none => exact absurd (hwf hb) hcap
  | some b =>
    apply hh.use
    rw [total_eq_erase hx, hr]
    simp [Payload.blocks, hb, ptrBlocks]

theorem Holds.use_keys {r : ObjectRec} (hh : Holds h xs m) (hx : x ∈ xs)
    (hr : (h.nodes x).payload = .obj r) (hcap : r.members.capacity ≠ 0) :
    h.usePtr r.keys = h := by
  have hwf := hh.wf x hx
  rw [hr] at hwf
  cases hb : r.keys with
  | none => exact absurd (hwf.1 hb).1 hcap
  | some b =>
    apply hh.use
    rw [total_eq_erase hx, hr]
    simp [Payload.blocks, hb, ptrBlocks]

theorem Holds.use_values {r : ObjectRec} (hh : Holds h xs m) (hx : x ∈ xs)
    (hr : (h.nodes x).payload = .obj r) (hcap : r.members.capacity ≠ 0) :
    h.usePtr r.values = h := by
  have hwf := hh.wf x hx
  rw [hr] at hwf
  cases hb : r.values with
  | none => exact absurd (hwf.2 hb) hcap
  | some b =>
    apply hh.use
    rw [total_eq_erase hx, hr]
    simp [Payload.blocks, hb, ptrBlocks]

theorem Holds.use_key {r : ObjectRec} {k : CString} {v : ℕ} (hh : Holds h xs m) (hx : x ∈ xs)
    (hr : (h.nodes x).payload = .obj r) (hk : (k, v) ∈ r.members.items) : h.use k.block = h := by
  apply hh.use
  have hmem : k.block ∈ keyBlocks r.members.items :=
    Multiset.mem_coe.mpr (List.mem_map.mpr ⟨_, hk, rfl⟩)
  rw [total_eq_erase hx, hr]
  simp [Payload.blocks, hmem]

/-! ## Looking for a key -/

/-- The index of the first stored key equal to `key`. -/
def keyIndex (key : List UInt8) (ms : List (CString × ℕ)) : Option ℕ :=
  ms.findIdx? fun m => decide (cstr m.1.text = cstr key)

variable {key : List UInt8} {val i : ℕ} {ms : List (CString × ℕ)}

theorem keyIndex_cons (m : CString × ℕ) : keyIndex key (m :: ms) =
    if cstr m.1.text = cstr key then some 0 else (keyIndex key ms).map (· + 1) := by
  simp [keyIndex, List.findIdx?_cons]

/-- The loop reads only blocks that the record owns, and it changes nothing. -/
theorem Holds.scanKeys {r : ObjectRec} (hh : Holds h xs m) (hx : x ∈ xs)
    (hr : (h.nodes x).payload = .obj r) (hcap : ms ≠ [] → r.members.capacity ≠ 0)
    (hms : ms ⊆ r.members.items) :
    JsonHeap.scanKeys r.keys key ms h = (keyIndex key ms, h) := by
  induction ms with
  | nil => rfl
  | cons m ms ih =>
    obtain ⟨k, v⟩ := m
    have hkeys := hh.use_keys hx hr (hcap (List.cons_ne_nil _ _))
    have hkey := hh.use_key hx hr (hms List.mem_cons_self)
    have hrest := ih (fun _ => hcap (List.cons_ne_nil _ _)) fun y hy =>
      hms (List.mem_cons_of_mem _ hy)
    rw [JsonHeap.scanKeys, keyIndex_cons]
    simp only [hkeys, hkey, hrest]
    split_ifs <;> rfl

theorem overwrite_memberTexts : overwrite key val (memberTexts ms) =
    (keyIndex key ms).map fun i => memberTexts (setValue i val ms) := by
  induction ms with
  | nil => rfl
  | cons m ms ih =>
    rw [keyIndex_cons]
    simp only [memberTexts, setValue, List.map_cons, overwrite] at ih ⊢
    split_ifs
    · rfl
    · rw [ih]
      cases keyIndex key ms <;> rfl

theorem shiftOut_memberTexts : shiftOut key (memberTexts ms) =
    (keyIndex key ms).map fun i => memberTexts (ms.eraseIdx i) := by
  induction ms with
  | nil => rfl
  | cons m ms ih =>
    rw [keyIndex_cons]
    simp only [memberTexts, List.map_cons, shiftOut] at ih ⊢
    split_ifs
    · rfl
    · rw [ih]
      cases keyIndex key ms <;> rfl

theorem findValue_memberTexts : findValue key (memberTexts ms) =
    (keyIndex key ms).bind fun i => ms[i]?.map Prod.snd := by
  induction ms with
  | nil => rfl
  | cons m ms ih =>
    rw [keyIndex_cons]
    simp only [memberTexts, List.map_cons, findValue] at ih ⊢
    split_ifs
    · rfl
    · rw [ih]
      cases keyIndex key ms <;> rfl

theorem keyIndex_lt (hi : keyIndex key ms = some i) : i < ms.length :=
  (List.findIdx?_eq_some_iff_getElem.mp hi).1

/-! ## Readers

They read only what the document owns and leave it as it is. -/

section Readers

variable {v : Option ℕ} {index : ℕ}

theorem Represents.arrayCount (h₀ : Represents h xs m d) (hv : ∀ x ∈ v, x ∈ xs) :
    zenitJsonArrayCount v h = (.count ((d.items v).getD []).length, h) := by
  cases v with
  | none => rfl
  | some x =>
    have hx := hv x rfl
    simp only [zenitJsonArrayCount, h₀.holds.use_node hx]
    split
    · rename_i r hr
      rw [h₀.items_of_arr hx hr, Option.getD_some]
    · rename_i hr
      rw [h₀.items_of_ne hx hr]
      rfl

theorem Represents.arrayGet (h₀ : Represents h xs m d) (hv : ∀ x ∈ v, x ∈ xs) :
    zenitJsonArrayGet v index h = (.pointer ((d.items v).getD [])[index]?, h) := by
  cases v with
  | none => rfl
  | some x =>
    have hx := hv x rfl
    simp only [zenitJsonArrayGet, h₀.holds.use_node hx]
    split
    · rename_i r hr
      have hfits := (h₀.ready_of_arr hx hr).fits
      rw [h₀.items_of_arr hx hr, Option.getD_some]
      split_ifs with hindex
      · rw [List.getElem?_eq_none hindex]
      · rw [h₀.holds.use_array hx hr (by omega)]
    · rename_i hr
      rw [h₀.items_of_ne hx hr]
      rfl

theorem Represents.objectCount (h₀ : Represents h xs m d) (hv : ∀ x ∈ v, x ∈ xs) :
    zenitJsonObjectCount v h = (.count ((d.members v).getD []).length, h) := by
  cases v with
  | none => rfl
  | some x =>
    have hx := hv x rfl
    simp only [zenitJsonObjectCount, h₀.holds.use_node hx]
    split
    · rename_i r hr
      rw [h₀.members_of_obj hx hr, Option.getD_some, memberTexts, List.length_map]
    · rename_i hr
      rw [h₀.members_of_ne hx hr]
      rfl

theorem Represents.objectKey (h₀ : Represents h xs m d) (hv : ∀ x ∈ v, x ∈ xs) :
    zenitJsonObjectKey v index h =
      (.text (((d.members v).getD [])[index]?.map Prod.fst), h) := by
  cases v with
  | none => rfl
  | some x =>
    have hx := hv x rfl
    simp only [zenitJsonObjectKey, h₀.holds.use_node hx]
    split
    · rename_i r hr
      have hfits := (h₀.ready_of_obj hx hr).fits
      rw [h₀.members_of_obj hx hr, Option.getD_some, memberTexts, List.getElem?_map]
      split_ifs with hindex
      · rw [List.getElem?_eq_none hindex]
        rfl
      · rw [h₀.holds.use_keys hx hr (by omega), Option.map_map]
        rfl
    · rename_i hr
      rw [h₀.members_of_ne hx hr]
      rfl

theorem Represents.objectValueAt (h₀ : Represents h xs m d) (hv : ∀ x ∈ v, x ∈ xs) :
    zenitJsonObjectValueAt v index h =
      (.pointer (((d.members v).getD [])[index]?.map Prod.snd), h) := by
  cases v with
  | none => rfl
  | some x =>
    have hx := hv x rfl
    simp only [zenitJsonObjectValueAt, h₀.holds.use_node hx]
    split
    · rename_i r hr
      have hfits := (h₀.ready_of_obj hx hr).fits
      rw [h₀.members_of_obj hx hr, Option.getD_some, memberTexts, List.getElem?_map]
      split_ifs with hindex
      · rw [List.getElem?_eq_none hindex]
        rfl
      · rw [h₀.holds.use_values hx hr (by omega), Option.map_map]
        rfl
    · rename_i hr
      rw [h₀.members_of_ne hx hr]
      rfl

/-- The search over all stored keys of the object. -/
theorem Represents.scanKeys {r : ObjectRec} (h₀ : Represents h xs m d) (hx : x ∈ xs)
    (hr : (h.nodes x).payload = .obj r) :
    JsonHeap.scanKeys r.keys key r.members.items h = (keyIndex key r.members.items, h) := by
  refine h₀.holds.scanKeys hx hr (fun hne => ?_) (List.Subset.refl _)
  have hfits := (h₀.ready_of_obj hx hr).fits
  have hpos := List.length_pos_of_ne_nil hne
  omega

theorem Represents.objectGet (h₀ : Represents h xs m d) (hv : ∀ x ∈ v, x ∈ xs)
    (key : List UInt8) : zenitJsonObjectGet v (some key) h =
      (.pointer (findValue key ((d.members v).getD [])), h) := by
  cases v with
  | none => rfl
  | some x =>
    have hx := hv x rfl
    simp only [zenitJsonObjectGet, h₀.holds.use_node hx]
    cases hr : (h.nodes x).payload with
    | obj r =>
      have hfits := (h₀.ready_of_obj hx hr).fits
      simp only
      rw [h₀.members_of_obj hx hr, Option.getD_some, findValue_memberTexts, h₀.scanKeys hx hr]
      cases hi : keyIndex key r.members.items with
      | none => rfl
      | some i =>
        have hlt := keyIndex_lt hi
        simp only [h₀.holds.use_values hx hr (by omega), Option.bind_some]
    | _ =>
      rw [h₀.members_of_ne hx (by simp [hr])]
      rfl

theorem Represents.objectGet_null (h₀ : Represents h xs m d) (hv : ∀ x ∈ v, x ∈ xs) :
    zenitJsonObjectGet v none h = (.pointer none, h) := by
  cases v with
  | none => rfl
  | some x =>
    simp only [zenitJsonObjectGet, h₀.holds.use_node (hv x rfl)]
    split
    · rename_i hkey
      cases hkey
    · rfl

theorem Represents.getString (h₀ : Represents h xs m d) (hv : ∀ x ∈ v, x ∈ xs) :
    zenitJsonValueGetString v h = ((d.answer (.getString v)).1, h) := by
  cases v with
  | none => rfl
  | some x =>
    have hx := hv x rfl
    simp only [zenitJsonValueGetString, h₀.holds.use_node hx, Doc.answer, Option.bind_some,
      h₀.value x hx]
    cases (h.nodes x).payload <;> rfl

/-- What the record of a value says about its type. -/
theorem Represents.type (h₀ : Represents h xs m d) (hx : x ∈ xs) :
    d.type (some x) = (h.nodes x).payload.type := by
  simp [Doc.type, h₀.value x hx, Payload.type_content]

theorem Represents.valueType (h₀ : Represents h xs m d) (hv : ∀ x ∈ v, x ∈ xs) :
    zenitJsonValueType v h = (.kind (d.type v), h) := by
  cases v with
  | none => rfl
  | some x =>
    have hx := hv x rfl
    rw [zenitJsonValueType, h₀.type hx, h₀.holds.use_node hx]

theorem Represents.isNull (h₀ : Represents h xs m d) (hv : ∀ x ∈ v, x ∈ xs) :
    zenitJsonValueIsNull v h = (.flag (d.type v = .null), h) := by
  cases v with
  | none => rfl
  | some x =>
    have hx := hv x rfl
    rw [zenitJsonValueIsNull, h₀.type hx, h₀.holds.use_node hx]

theorem Represents.getBool (h₀ : Represents h xs m d) (hv : ∀ x ∈ v, x ∈ xs) :
    zenitJsonValueGetBool v h = ((d.answer (.getBool v)).1, h) := by
  cases v with
  | none => rfl
  | some x =>
    have hx := hv x rfl
    simp only [zenitJsonValueGetBool, h₀.holds.use_node hx, Doc.answer, Option.bind_some,
      h₀.value x hx]
    cases (h.nodes x).payload <;> rfl

theorem Represents.getNumber (h₀ : Represents h xs m d) (hv : ∀ x ∈ v, x ∈ xs) :
    zenitJsonValueGetNumber v h = ((d.answer (.getNumber v)).1, h) := by
  cases v with
  | none => rfl
  | some x =>
    have hx := hv x rfl
    simp only [zenitJsonValueGetNumber, h₀.holds.use_node hx, Doc.answer, Option.bind_some,
      h₀.value x hx]
    cases (h.nodes x).payload <;> rfl

end Readers

end LibZenit.JsonHeap
