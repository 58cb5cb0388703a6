import LibZenit.JsonDomReaders

/-!
# Editing a document

An edit touches one record. It answers as the abstract document does, or a request was refused and
a client sees no change.
-/
namespace LibZenit.JsonHeap
open Json BlockLedger ArrayShifts

variable {D : Type} {h h' : Heap D} {xs : List ℕ} {m m' : Multiset ℕ} {d : Doc D} {a : Allocator}
  {x val i : ℕ} {payload : Payload D} {key : List UInt8} {ms : List (CString × ℕ)}

/-! ## Editing an array -/

theorem put_put {c c' : Content D} : (d.put x c).put x c' = d.put x c' := by
  simp [Doc.put, Function.update_idem]

theorem ready_grow {α : Type} {g : Growable α} (hg : g.Ready) :
    Growable.Ready { g with capacity := growCapacity g.capacity } ∧
      g.items.length < growCapacity g.capacity := by
  have hfits := hg.fits
  have hcap := hg.capacity
  unfold growCapacity
  refine ⟨⟨?_, ?_⟩, ?_⟩
  · dsimp only
    split_ifs <;> omega
  · dsimp only
    split_ifs <;> omega
  · split_ifs <;> omega

/-- Other items in the same array. -/
theorem Represents.storeItems {r : ArrayRec} {items : List ℕ} (h₀ : Represents h xs m d)
    (hx : x ∈ xs) (hr : (h.nodes x).payload = .arr r) (hlen : items.length ≤ r.items.capacity) :
    Represents (h.setPayload x (.arr { r with items := { r.items with items := items } })) xs m
      (d.put x (.arr items)) := by
  have hwf := h₀.holds.wf x hx
  rw [hr] at hwf
  have hready : (⟨items, r.items.capacity⟩ : Growable ℕ).Ready :=
    ⟨hlen, (h₀.ready_of_arr hx hr).capacity⟩
  have hh : Holds (h.setPayload x (.arr ⟨r.block, ⟨items, r.items.capacity⟩⟩)) xs m :=
    h₀.holds.setPayload hx hwf (by rw [hr]; rfl)
  exact h₀.update hx hh (fun y hy => payload_setPayload_of_ne hy) payload_setPayload_same hready rfl

/-- `array_grow_or_error` is refused, or there is room for one more item. -/
theorem Represents.arrayRoom {r : ArrayRec} (h₀ : Represents h xs m d) (hx : x ∈ xs)
    (hr : (h.nodes x).payload = .arr r) (a : Allocator) :
    (∃ h', JsonHeap.arrayRoom a x r h = (none, h') ∧ Represents h' xs m d ∧ Refuses a) ∨
      ∃ r' h', JsonHeap.arrayRoom a x r h = (some r', h') ∧ Represents h' xs m d ∧
        (h'.nodes x).payload = .arr r' ∧ r'.items.items = r.items.items ∧
        r'.items.items.length < r'.items.capacity := by
  have hready := h₀.ready_of_arr hx hr
  have hroot := arrayGrow_root (h := h) (a := a) x r
  unfold JsonHeap.arrayRoom
  by_cases hfull : r.items.items.length ≥ r.items.capacity
  · rw [if_pos hfull]
    rcases h₀.holds.arrayGrow hx hr a with
      ⟨h₁, heq, hh₁, hnodes, hn⟩ | ⟨b, h₁, heq, hh₁, hkeep, hr₁⟩
    · rw [heq] at hroot ⊢
      exact Or.inl ⟨h₁, rfl, h₀.same hh₁ (.of_nodes hnodes) hroot, hn⟩
    · rw [heq] at hroot ⊢
      obtain ⟨hgrown, hroom⟩ := ready_grow hready
      refine Or.inr ⟨_, h₁, rfl, h₀.keep hx hh₁ hkeep ?_ ?_ hroot, hr₁, rfl, hroom⟩
      · rw [hr₁]
        exact hgrown
      · rw [hr₁, hr]
        rfl
  · rw [if_neg hfull]
    exact Or.inr ⟨r, h, rfl, h₀, hr, rfl, by omega⟩

/-- A call on the records of `xs` answers as the abstract document does. -/
def Answers (xs : List ℕ) (m : Multiset ℕ) (res : Reply D × Heap D) (answer : Reply D × Doc D) : Prop :=
  Represents res.2 xs m answer.2 ∧ res.1 = answer.1

/-- What a call that may need memory does: answer, or be refused without a change. -/
def Edits (a : Allocator) (xs : List ℕ) (m : Multiset ℕ) (d : Doc D) (res : Reply D × Heap D)
    (answer : Reply D × Doc D) : Prop :=
  Answers xs m res answer ∨ (Represents res.2 xs m d ∧ res.1 = .code .alloc ∧ Refuses a)

theorem Represents.arrayAppend (h₀ : Represents h xs m d) (hx : x ∈ xs) (a : Allocator)
    (item : ℕ) :
    Edits a xs m d (zenitJsonArrayAppend a (some x) (some item) h) (d.append x item) := by
  unfold zenitJsonArrayAppend
  simp only [h₀.holds.use_node hx]
  split
  · rename_i r hr
    have hroom_eq : (if r.items.items.length ≥ r.items.capacity then JsonHeap.arrayGrow a x r h
        else (some r, h)) = JsonHeap.arrayRoom a x r h := rfl
    simp only [JsonHeap.arrayAppend, hroom_eq]
    rw [Doc.append, h₀.items_of_arr hx hr]
    rcases h₀.arrayRoom hx hr a with ⟨h₁, heq, h₁', hn⟩ | ⟨r', h₁, heq, h₁', hr', hitems, hroom⟩
    · rw [heq]
      exact Or.inr ⟨h₁', rfl, hn⟩
    · rw [heq]
      simp only [if_pos hroom, h₁'.holds.use_array hx hr' (by omega)]
      refine Or.inl ⟨?_, rfl⟩
      rw [← hitems]
      exact h₁'.storeItems hx hr' (by simpa using hroom)
  · rename_i hr
    rw [Doc.append, h₀.items_of_ne hx hr]
    exact Or.inl ⟨h₀, rfl⟩

theorem Represents.arrayRemove (h₀ : Represents h xs m d) (hx : x ∈ xs) (index : ℕ) :
    Answers xs m (zenitJsonArrayRemove (some x) index h) (d.removeAt x index) := by
  unfold zenitJsonArrayRemove
  simp only [h₀.holds.use_node hx]
  split
  · rename_i r hr
    have hfits := (h₀.ready_of_arr hx hr).fits
    rw [Doc.removeAt, h₀.items_of_arr hx hr]
    by_cases hindex : index ≥ r.items.items.length
    · rw [if_pos hindex]
      simp only [if_neg (Nat.not_lt.mpr hindex)]
      exact ⟨h₀, rfl⟩
    · have hlt := Nat.lt_of_not_ge hindex
      rw [if_neg hindex]
      simp only [if_pos hlt, h₀.holds.use_array hx hr (by omega), ite_self,
        shiftDown_eraseIdx hlt]
      refine ⟨h₀.storeItems hx hr ?_, rfl⟩
      exact (List.length_eraseIdx_le _ _).trans hfits
  · rename_i hr
    rw [Doc.removeAt, h₀.items_of_ne hx hr]
    exact ⟨h₀, rfl⟩

theorem Represents.arrayInsert (h₀ : Represents h xs m d) (hx : x ∈ xs) (a : Allocator)
    (index item : ℕ) :
    Edits a xs m d (zenitJsonArrayInsert a (some x) index (some item) h)
      (d.insertAt x index item) := by
  unfold zenitJsonArrayInsert
  simp only [h₀.holds.use_node hx]
  split
  · rename_i r hr
    rw [Doc.insertAt, h₀.items_of_arr hx hr]
    by_cases hindex : index > r.items.items.length
    · rw [if_pos hindex]
      simp only [if_neg (Nat.not_le.mpr hindex)]
      exact Or.inl ⟨h₀, rfl⟩
    · have hle := Nat.le_of_not_gt hindex
      rw [if_neg hindex]
      simp only [if_pos hle]
      rcases h₀.arrayRoom hx hr a with ⟨h₁, heq, h₁', hn⟩ | ⟨r', h₁, heq, h₁', hr', hitems, hroom⟩
      · rw [heq]
        exact Or.inr ⟨h₁', rfl, hn⟩
      · rw [heq]
        rw [← hitems] at hle ⊢
        simp only [if_pos hroom, h₁'.holds.use_array hx hr' (by omega), shiftUp_insertIdx hle]
        refine Or.inl ⟨h₁'.storeItems hx hr' ?_, rfl⟩
        rw [List.length_insertIdx_of_le_length hle]
        exact hroom
  · rename_i hr
    rw [Doc.insertAt, h₀.items_of_ne hx hr]
    exact Or.inl ⟨h₀, rfl⟩

/-! ## Editing an object -/

/-- Other members in the same arrays. -/
theorem Represents.storeMembers {r : ObjectRec} (h₀ : Represents h xs m d) (hx : x ∈ xs)
    (hr : (h.nodes x).payload = .obj r) (hlen : ms.length ≤ r.members.capacity)
    (hblocks : keyBlocks r.members.items + m = keyBlocks ms + m') :
    Represents (h.setPayload x (.obj { r with members := { r.members with items := ms } })) xs m'
      (d.put x (.obj (memberTexts ms))) := by
  have hwf := h₀.holds.wf x hx
  rw [hr] at hwf
  have hready : (⟨ms, r.members.capacity⟩ : Growable (CString × ℕ)).Ready :=
    ⟨hlen, (h₀.ready_of_obj hx hr).capacity⟩
  have hh : Holds (h.setPayload x
      (.obj { r with members := { r.members with items := ms } })) xs m' := by
    refine h₀.holds.setPayload hx ⟨fun hkeys => ?_, hwf.2⟩ ?_
    · have hcap := (hwf.1 hkeys).1
      rw [hcap] at hlen
      exact ⟨hcap, List.length_eq_zero_iff.mp (Nat.le_zero.mp hlen)⟩
    · rw [hr]
      simp only [Payload.blocks]
      rw [add_assoc, hblocks, ← add_assoc]
  exact h₀.update hx hh (fun y hy => payload_setPayload_of_ne hy) payload_setPayload_same hready rfl

/-- Growing the arrays of an object is refused, or there is room for one more member. -/
theorem Represents.objectRoom {r : ObjectRec} (h₀ : Represents h xs m d) (hx : x ∈ xs)
    (hr : (h.nodes x).payload = .obj r) (a : Allocator) :
    (∃ h', (if r.members.items.length ≥ r.members.capacity then objectGrow a x r h
        else (some r, h)) = (none, h') ∧ Represents h' xs m d ∧ Refuses a) ∨
      ∃ r' h', (if r.members.items.length ≥ r.members.capacity then objectGrow a x r h
          else (some r, h)) = (some r', h') ∧ Represents h' xs m d ∧
        (h'.nodes x).payload = .obj r' ∧ r'.members.items = r.members.items ∧
        r'.members.items.length < r'.members.capacity := by
  have hready := h₀.ready_of_obj hx hr
  have hroot := objectGrow_root (h := h) (a := a) x r
  by_cases hfull : r.members.items.length ≥ r.members.capacity
  · rw [if_pos hfull]
    rcases h₀.holds.objectGrow hx hr a with
      ⟨h₁, heq, hh₁, hnodes, hn⟩ | ⟨k, v, h₁, heq, hh₁, hkeep, hr₁⟩
    · rw [heq] at hroot ⊢
      exact Or.inl ⟨h₁, rfl, h₀.same hh₁ (.of_nodes hnodes) hroot, hn⟩
    · rw [heq] at hroot ⊢
      obtain ⟨hgrown, hroom⟩ := ready_grow hready
      refine Or.inr ⟨_, h₁, rfl, h₀.keep hx hh₁ hkeep ?_ ?_ hroot, hr₁, rfl, hroom⟩
      · rw [hr₁]
        exact hgrown
      · rw [hr₁, hr]
        rfl
  · rw [if_neg hfull]
    exact Or.inr ⟨r, h, rfl, h₀, hr, rfl, by omega⟩

/-- `str_dup` is refused, or the caller holds a copy that ends at the first zero byte. -/
theorem Represents.strDup (h₀ : Represents h xs m d) (a : Allocator) (s : List UInt8) :
    (∃ h', JsonHeap.strDup a s h = (none, h') ∧ Represents h' xs m d ∧ h'.nodes = h.nodes ∧
        Refuses a) ∨
      ∃ b h', JsonHeap.strDup a s h = (some ⟨b, cstr s⟩, h') ∧
        Represents h' xs ({b} + m) d ∧ h'.nodes = h.nodes := by
  have hroot := strDup_root (h := h) (a := a) s
  unfold JsonHeap.strDup at hroot ⊢
  rcases h₀.holds.alloc a with ⟨h₁, heq, hh₁, hnodes, hn⟩ | ⟨b, h₁, heq, hh₁, hnodes, -⟩
  · rw [heq] at hroot ⊢
    exact Or.inl ⟨h₁, rfl, h₀.same hh₁ (.of_nodes hnodes) hroot, hnodes, hn⟩
  · rw [heq] at hroot ⊢
    dsimp only at hroot ⊢
    rw [hh₁.use_other (by simp)] at hroot ⊢
    exact Or.inr ⟨b, h₁, rfl, h₀.same hh₁ (.of_nodes hnodes) hroot, hnodes⟩

theorem keyBlocks_setValue : keyBlocks (setValue i val ms) = keyBlocks ms := by
  induction ms generalizing i with
  | nil => simp [setValue]
  | cons m ms ih =>
    cases i with
    | zero => rfl
    | succ i =>
      have hrest := ih (i := i)
      simp only [keyBlocks, setValue, List.modify_succ_cons, List.map_cons,
        ← Multiset.cons_coe] at hrest ⊢
      rw [hrest]

theorem length_setValue : (setValue i val ms).length = ms.length := by simp [setValue]

theorem keyBlocks_eraseIdx {k : CString} {v : ℕ} (hi : ms[i]? = some (k, v)) :
    keyBlocks ms = {k.block} + keyBlocks (ms.eraseIdx i) := by
  obtain ⟨hlt, hget⟩ := List.getElem?_eq_some_iff.mp hi
  have hperm := (List.getElem_cons_eraseIdx_perm hlt).symm.map fun m => m.1.block
  rw [hget] at hperm
  exact Multiset.coe_eq_coe.mpr hperm

theorem Represents.objectSet (h₀ : Represents h xs m d) (hx : x ∈ xs) (a : Allocator)
    (key : List UInt8) (val : ℕ) :
    Edits a xs m d (zenitJsonObjectSet a (some x) (some key) (some val) h) (d.set x key val) := by
  unfold zenitJsonObjectSet
  simp only [h₀.holds.use_node hx]
  split
  · rename_i r hr
    have hfits := (h₀.ready_of_obj hx hr).fits
    rw [Doc.set, h₀.members_of_obj hx hr, h₀.scanKeys hx hr]
    simp only [overwrite_memberTexts]
    cases hi : keyIndex key r.members.items with
    | some i =>
      have hlt := keyIndex_lt hi
      simp only [h₀.holds.use_values hx hr (by omega), Option.map_some, Option.getD_some]
      refine Or.inl ⟨h₀.storeMembers hx hr ?_ ?_, rfl⟩
      · rw [length_setValue]
        exact hfits
      · rw [keyBlocks_setValue]
    | none =>
      simp only [Option.map_none, Option.getD_none]
      rcases h₀.objectRoom hx hr a with
        ⟨h₁, heq, h₁', hn⟩ | ⟨r', h₁, heq, h₁', hr', hitems, hroom⟩
      · rw [heq]
        exact Or.inr ⟨h₁', rfl, hn⟩
      · rw [heq]
        dsimp only
        -- the copy of the key is in the hands of the call until it is stored
        rcases h₁'.strDup a key with ⟨h₂, heq₂, h₂', -, hn⟩ | ⟨b, h₂, heq₂, h₂', hnodes₂⟩
        · rw [heq₂]
          exact Or.inr ⟨h₂', rfl, hn⟩
        · rw [heq₂]
          have hr₂ : (h₂.nodes x).payload = .obj r' := by rw [hnodes₂, hr']
          simp only [if_pos hroom, h₂'.holds.use_keys hx hr₂ (by omega),
            h₂'.holds.use_values hx hr₂ (by omega)]
          have hblocks : keyBlocks r'.members.items + ({b} + m) =
              keyBlocks (r'.members.items ++ [(⟨b, cstr key⟩, val)]) + m := by
            simp only [keyBlocks, List.map_append, List.map_cons, List.map_nil,
              ← Multiset.coe_add, Multiset.coe_singleton]
            abel
          have hstore := h₂'.storeMembers hx hr₂ (by simpa using hroom) hblocks
          rw [← hitems]
          refine Or.inl ⟨?_, rfl⟩
          simpa [memberTexts] using hstore
  · rename_i hr
    rw [Doc.set, h₀.members_of_ne hx hr]
    exact Or.inl ⟨h₀, rfl⟩

/-- After the release of a block the others are still there. -/
theorem use_free {b c : ℕ} {rest : Multiset ℕ} (hl : Owns h.ledger ({b} + rest)) (hc : c ∈ rest) :
    (h.free b).use c = h.free b := by
  unfold Heap.use Heap.free
  rw [hl.free.use hc]

theorem setPayload_free {b : ℕ} (hh : Holds h xs m) (hx : x ∈ xs)
    (huse : (h.free b).use x = h.free b) :
    (h.free b).setPayload x payload = (h.setPayload x payload).free b := by
  unfold Heap.setPayload
  rw [huse, hh.use_node hx]
  rfl

/-- The release of a stored key, with the arrays and the record still readable. -/
theorem Holds.free_key {r : ObjectRec} {k : CString} {v : ℕ} (hh : Holds h xs m) (hx : x ∈ xs)
    (hr : (h.nodes x).payload = .obj r) (hi : r.members.items[i]? = some (k, v))
    (hcap : r.members.capacity ≠ 0) :
    (h.free k.block).use x = h.free k.block ∧
      ((h.free k.block).usePtr r.keys).usePtr r.values = h.free k.block := by
  have hl : Owns h.ledger ({k.block} + ({x} + ptrBlocks r.keys + ptrBlocks r.values +
      ({h.doc} + keyBlocks (r.members.items.eraseIdx i) + total h.nodes (xs.erase x) + m))) := by
    refine hh.owns.congr ?_
    rw [total_eq_erase hx, hr]
    simp only [Payload.blocks, keyBlocks_eraseIdx hi]
    abel
  have hwf := hh.wf x hx
  rw [hr] at hwf
  refine ⟨use_free hl (by simp), ?_⟩
  cases hk : r.keys with
  | none => exact absurd (hwf.1 hk).1 hcap
  | some keys =>
    cases hv : r.values with
    | none => exact absurd (hwf.2 hv) hcap
    | some values =>
      have hkeys : (h.free k.block).use keys = h.free k.block :=
        use_free hl (by simp [hk, ptrBlocks])
      have hvalues : (h.free k.block).use values = h.free k.block :=
        use_free hl (by simp [hv, ptrBlocks])
      simp only [Heap.usePtr, hkeys, hvalues]

theorem Represents.objectRemove (h₀ : Represents h xs m d) (hx : x ∈ xs)
    (key : List UInt8) :
    Answers xs m (zenitJsonObjectRemove (some x) (some key) h) (d.remove x key) := by
  unfold zenitJsonObjectRemove
  simp only [h₀.holds.use_node hx]
  split
  · rename_i r hr
    have hfits := (h₀.ready_of_obj hx hr).fits
    rw [Doc.remove, h₀.members_of_obj hx hr, h₀.scanKeys hx hr]
    simp only [shiftOut_memberTexts]
    cases hi : keyIndex key r.members.items with
    | none => exact ⟨h₀, rfl⟩
    | some i =>
      have hlt := keyIndex_lt hi
      obtain ⟨k, v, hget⟩ : ∃ k v, r.members.items[i]? = some (k, v) :=
        ⟨_, _, List.getElem?_eq_getElem hlt⟩
      obtain ⟨huse, harrays⟩ := h₀.holds.free_key hx hr hget (by omega)
      simp only [hget, Option.map_some, h₀.holds.use_keys hx hr (by omega), harrays, ite_self,
        shiftDown_eraseIdx hlt, setPayload_free h₀.holds hx huse]
      have hblocks : keyBlocks r.members.items + m =
          keyBlocks (r.members.items.eraseIdx i) + ({k.block} + m) := by
        rw [keyBlocks_eraseIdx hget]
        abel
      have hstore := h₀.storeMembers hx hr ((List.length_eraseIdx_le _ _).trans hfits) hblocks
      exact ⟨hstore.same hstore.holds.free .refl rfl, rfl⟩
  · rename_i hr
    rw [Doc.remove, h₀.members_of_ne hx hr]
    exact ⟨h₀, rfl⟩

/-! ## Constructors -/

/-- A cleared record is chained, or the request is refused. -/
theorem Represents.valueAlloc (h₀ : Represents h xs m d) (a : Allocator) :
    (∃ h', JsonHeap.valueAlloc a h = (none, h') ∧ Represents h' xs m d ∧ Refuses a) ∨
      ∃ b h', JsonHeap.valueAlloc a h = (some b, h') ∧ d.values b = none ∧
        Represents h' (xs ++ [b]) m (d.put b .null) ∧ (h'.nodes b).payload = .null := by
  have hroot := valueAlloc_root (h := h) (a := a)
  rcases h₀.holds.valueAlloc a with ⟨h₁, heq, hh₁, hkeep, hn⟩ | ⟨b, h₁, heq, hh₁, hkeep, hnull⟩
  · rw [heq] at hroot
    exact Or.inl ⟨h₁, heq, h₀.same hh₁ hkeep hroot, hn⟩
  · rw [heq] at hroot
    have hb : b ∉ xs := fun hb => (List.nodup_append.mp hh₁.nodup).2.2 b hb b (by simp) rfl
    exact Or.inr ⟨b, h₁, heq, h₀.other b hb, h₀.extend hb hh₁ hkeep hnull trivial hroot, hnull⟩

/-- A new record with its first payload. -/
theorem Represents.fill {b : ℕ} (h₀ : Represents h (xs ++ [b]) m (d.put b .null))
    (hnull : (h.nodes b).payload = .null) (hwf : payload.Wf) (hready : payload.Ready)
    (hblocks : m = payload.blocks + m') :
    Represents (h.setPayload b payload) (xs ++ [b]) m' (d.put b payload.content) := by
  have hb : b ∈ xs ++ [b] := by simp
  have hh : Holds (h.setPayload b payload) (xs ++ [b]) m' := by
    refine h₀.holds.setPayload hb hwf ?_
    rw [hnull, hblocks]
    simp [Payload.blocks]
  rw [← put_put (c := .null)]
  exact h₀.update hb hh (fun y hy => payload_setPayload_of_ne hy) payload_setPayload_same hready rfl

theorem Represents.valueOf (h₀ : Represents h xs m d) (a : Allocator) (hwf : payload.Wf)
    (hready : payload.Ready) (hblocks : payload.blocks = 0) :
    (∃ h', JsonHeap.valueOf a payload h = (none, h') ∧ Represents h' xs m d ∧ Refuses a) ∨
      ∃ b h', JsonHeap.valueOf a payload h = (some b, h') ∧ d.values b = none ∧
        Represents h' (xs ++ [b]) m (d.put b payload.content) := by
  unfold JsonHeap.valueOf
  rcases h₀.valueAlloc a with ⟨h₁, heq, h₁', hn⟩ | ⟨b, h₁, heq, hfresh, h₁', hnull⟩
  · rw [heq]
    exact Or.inl ⟨h₁, rfl, h₁', hn⟩
  · rw [heq]
    exact Or.inr ⟨b, _, rfl, hfresh, h₁'.fill hnull hwf hready (by simp [hblocks])⟩

/-- When the copy is refused, a string without bytes stays behind. -/
theorem Represents.valueString (h₀ : Represents h xs m d) (a : Allocator)
    (s : Option (List UInt8)) :
    (∃ h', zenitJsonValueString a s h = (none, h') ∧ Represents h' xs m d ∧ Refuses a) ∨
      (∃ b h', zenitJsonValueString a s h = (none, h') ∧ d.values b = none ∧
        Represents h' (xs ++ [b]) m (d.put b (.str none)) ∧ Refuses a) ∨
      ∃ b h', zenitJsonValueString a s h = (some b, h') ∧ d.values b = none ∧
        Represents h' (xs ++ [b]) m (d.put b (.str (some (cstr (s.getD []))))) := by
  unfold zenitJsonValueString
  rcases h₀.valueAlloc a with ⟨h₁, heq, h₁', hn⟩ | ⟨b, h₁, heq, hfresh, h₁', hnull⟩
  · rw [heq]
    exact Or.inl ⟨h₁, rfl, h₁', hn⟩
  · rw [heq]
    dsimp only
    have hwf : (Payload.str none : Payload D).Wf := trivial
    have hempty : Represents (h₁.setPayload b (.str none)) (xs ++ [b]) m (d.put b (.str none)) :=
      h₁'.fill hnull hwf trivial (by simp [Payload.blocks, ptrBlocks])
    rcases hempty.strDup a (s.getD []) with ⟨h₂, heq₂, h₂', -, hn⟩ | ⟨c, h₂, heq₂, h₂', hnodes⟩
    · rw [heq₂]
      exact Or.inr (Or.inl ⟨b, h₂, rfl, hfresh, h₂', hn⟩)
    · rw [heq₂]
      have hb : b ∈ xs ++ [b] := by simp
      have hpayload : (h₂.nodes b).payload = .str none := by
        rw [hnodes, payload_setPayload_same]
      have hh : Holds (h₂.setPayload b (.str (some ⟨c, cstr (s.getD [])⟩))) (xs ++ [b]) m := by
        refine h₂'.holds.setPayload hb trivial ?_
        simp [hpayload, Payload.blocks, ptrBlocks]
      have hstep := h₂'.update hb hh (fun y hy => payload_setPayload_of_ne hy)
        payload_setPayload_same trivial rfl
      rw [put_put] at hstep
      exact Or.inr (Or.inr ⟨b, _, rfl, hfresh, hstep⟩)

end LibZenit.JsonHeap
