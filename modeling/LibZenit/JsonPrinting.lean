import LibZenit.JsonDomRuns
import LibZenit.JsonPrinter
import LibZenit.JsonRoundTrip

/-!
# Documents built through the API and printed

A client that stores only values it got from the constructors builds a document whose values refer
to each other. Printing it comes to an end exactly when the root unfolds to a finite tree, it
changes nothing, and what it prints is read back as that tree.
-/
namespace LibZenit.JsonHeap
open Json BlockLedger

variable {D : Type}

/-! ## Reading the records -/

variable {numbers : Prop} {known : List ℕ} {d : Doc D} {x : ℕ} {h : Heap D} {xs : List ℕ}
  {m : Multiset ℕ}

/-- An array that has items, or an object that has members, has been allocated. -/
theorem Represents.use_items {r : ArrayRec} (h₀ : Represents h xs m d) (hx : x ∈ xs)
    (hr : (h.nodes x).payload = .arr r) (hne : r.items.items ≠ []) : h.usePtr r.block = h := by
  have hfits := (h₀.ready_of_arr hx hr).fits
  have hpos := List.length_pos_of_ne_nil hne
  exact h₀.holds.use_array hx hr (by omega)

theorem Represents.use_members {r : ObjectRec} (h₀ : Represents h xs m d) (hx : x ∈ xs)
    (hr : (h.nodes x).payload = .obj r) (hne : r.members.items ≠ []) :
    h.usePtr r.keys = h ∧ h.usePtr r.values = h := by
  have hfits := (h₀.ready_of_obj hx hr).fits
  have hpos := List.length_pos_of_ne_nil hne
  exact ⟨h₀.holds.use_keys hx hr (by omega), h₀.holds.use_values hx hr (by omega)⟩

/-! ## Reading while printing -/

section Parts

variable {doc : Heap D} {st : Printing D}

/-- What the records say does not depend on the ledger. -/
theorem Filling.rep (hst : Filling doc xs m st) (h₀ : Represents doc xs m d) :
    Represents st.heap xs (st.out.blocks + m) d := by
  rw [hst.heap]
  exact ⟨⟨hst.owns, h₀.holds.chain, h₀.holds.tail, h₀.holds.wf⟩, h₀.ready, h₀.value, h₀.other,
    h₀.root⟩

theorem Filling.nodes (hst : Filling doc xs m st) : st.heap.nodes = doc.nodes := by
  rw [hst.heap]

theorem Filling.use_node (hst : Filling doc xs m st) {x : ℕ} (hx : x ∈ xs) : st.use x = st := by
  refine hst.use ?_
  rw [total_eq_erase hx]
  simp

theorem Filling.use_items (hst : Filling doc xs m st) (h₀ : Represents doc xs m d) {r : ArrayRec}
    (hx : x ∈ xs) (hr : (doc.nodes x).payload = .arr r) (hne : r.items.items ≠ []) :
    st.usePtr r.block = st := by
  have hr' : (st.heap.nodes x).payload = .arr r := by rw [hst.nodes, hr]
  unfold Printing.usePtr
  rw [(hst.rep h₀).use_items hx hr' hne]

theorem Filling.use_members (hst : Filling doc xs m st) (h₀ : Represents doc xs m d)
    {r : ObjectRec} (hx : x ∈ xs) (hr : (doc.nodes x).payload = .obj r)
    (hne : r.members.items ≠ []) : st.usePtr r.keys = st ∧ st.usePtr r.values = st := by
  have hr' : (st.heap.nodes x).payload = .obj r := by rw [hst.nodes, hr]
  obtain ⟨hkeys, hvalues⟩ := (hst.rep h₀).use_members hx hr' hne
  unfold Printing.usePtr
  rw [hkeys, hvalues]
  exact ⟨rfl, rfl⟩

theorem string_mem_total {nodes : ℕ → Node D} {s : CString} (hx : x ∈ xs)
    (hs : (nodes x).payload = .str (some s)) : s.block ∈ total nodes xs := by
  rw [total_eq_erase hx, hs]
  simp [Payload.blocks, ptrBlocks]

theorem key_mem_total {nodes : ℕ → Node D} {r : ObjectRec} {kv : CString × ℕ} (hx : x ∈ xs)
    (hr : (nodes x).payload = .obj r) (hkv : kv ∈ r.members.items) :
    kv.1.block ∈ total nodes xs := by
  have hmem : kv.1.block ∈ keyBlocks r.members.items :=
    Multiset.mem_coe.mpr (List.mem_map.mpr ⟨_, hkv, rfl⟩)
  rw [total_eq_erase hx, hr]
  simp [Payload.blocks, hmem]

end Parts

/-! ## Printing a tree -/

section Trees

variable {doc : Heap D} {st : Printing D} (a : Allocator) (formatNumber : D → List UInt8)

/-- A printer that appends the text of the tree, unless it is refused or the text does not fit. -/
def Prints (doc : Heap D) (xs : List ℕ) (m : Multiset ℕ) (value : Printer D) (b : ℕ)
    (v : Value D) : Prop :=
  ∀ st, Filling doc xs m st → Outcomes a doc xs m st (value (some b) st)
    (· = Json.valueSerializeInto formatNumber v st.out.text)
    (¬ Fits (Json.valueSerializeInto formatNumber v st.out.text))

theorem prefix_value (v : Value D) (out : List UInt8) :
    out <+: Json.valueSerializeInto formatNumber v out := by
  rw [valueSerializeInto_eq]
  exact List.prefix_append _ _

theorem prefix_items (vs : List (Value D)) (i : ℕ) (out : List UInt8) :
    out <+: Json.serializeItems formatNumber vs i out := by
  rw [Json.serializeItems_eq]
  exact List.prefix_append _ _

theorem prefix_members (ms : List (List UInt8 × Value D)) (i : ℕ) (out : List UInt8) :
    out <+: Json.serializeMembers formatNumber ms i out := by
  rw [Json.serializeMembers_eq]
  exact List.prefix_append _ _

theorem prints_items {value : Printer D} {block : Option ℕ} {vs : List (Value D)} {bs : List ℕ}
    (hblock : bs ≠ [] → ∀ st, Filling doc xs m st → st.usePtr block = st)
    (hall : List.Forall₂ (Prints a formatNumber doc xs m value) bs vs) (i : ℕ)
    (hst : Filling doc xs m st) :
    Outcomes a doc xs m st (serializeItems a value block bs i st)
      (· = Json.serializeItems formatNumber vs i st.out.text)
      (¬ Fits (Json.serializeItems formatNumber vs i st.out.text)) := by
  induction hall generalizing i st with
  | nil => exact .done hst rfl
  | @cons b v bs vs hb _ ih =>
    have huse := hblock (List.cons_ne_nil _ _)
    rw [serializeItems, Json.serializeItems]
    have hrest := prefix_items formatNumber vs (i + 1) (Json.valueSerializeInto formatNumber v
      (if i > 0 then st.out.text ++ [chComma] else st.out.text))
    refine (hst.separate a i).andThen
      (fun hno hfits => hno (hfits.of_prefix ((prefix_value formatNumber v _).trans hrest)))
      fun st₁ hst₁ htext₁ => ?_
    rw [huse st₁ hst₁]
    rw [← htext₁] at hrest ⊢
    refine (hb st₁ hst₁).andThen (fun hno hfits => hno (hfits.of_prefix hrest))
      fun st₂ hst₂ htext₂ => ?_
    rw [← htext₂]
    exact ih (fun _ => huse) (i + 1) hst₂

theorem prints_array {value : Printer D} {r : ArrayRec} {vs : List (Value D)}
    (hblock : r.items.items ≠ [] → ∀ st, Filling doc xs m st → st.usePtr r.block = st)
    (hall : List.Forall₂ (Prints a formatNumber doc xs m value) r.items.items vs)
    (hst : Filling doc xs m st) :
    Outcomes a doc xs m st (serializeArray a value r st)
      (· = Json.valueSerializeInto formatNumber (.arr vs) st.out.text)
      (¬ Fits (Json.valueSerializeInto formatNumber (.arr vs) st.out.text)) := by
  have hitems := prefix_items formatNumber vs 0 (st.out.text ++ [chLBracket])
  have hlast : Json.serializeItems formatNumber vs 0 (st.out.text ++ [chLBracket]) <+:
      Json.valueSerializeInto formatNumber (.arr vs) st.out.text := List.prefix_append _ _
  unfold serializeArray
  refine (hst.append a _).andThen (fun hno hfits => hno (hfits.of_prefix (hitems.trans hlast)))
    fun st₁ hst₁ htext₁ => ?_
  rw [← htext₁] at hlast
  refine (prints_items a formatNumber hblock hall 0 hst₁).andThen
    (fun hno hfits => hno (hfits.of_prefix hlast)) fun st₂ hst₂ htext₂ => ?_
  have hend := hst₂.append a [chRBracket]
  rwa [htext₂, htext₁] at hend

theorem prints_members {value : Printer D} {keys values : Option ℕ}
    {ms : List (List UInt8 × Value D)} {bs : List (CString × ℕ)}
    (hptrs : bs ≠ [] → ∀ st, Filling doc xs m st → st.usePtr keys = st ∧ st.usePtr values = st)
    (hkeys : ∀ kb ∈ bs, kb.1.block ∈ total doc.nodes xs)
    (hall : List.Forall₂ (fun kb kv => kb.1.text = kv.1 ∧
      Prints a formatNumber doc xs m value kb.2 kv.2) bs ms) (i : ℕ)
    (hst : Filling doc xs m st) :
    Outcomes a doc xs m st (serializeMembers a value keys values bs i st)
      (· = Json.serializeMembers formatNumber ms i st.out.text)
      (¬ Fits (Json.serializeMembers formatNumber ms i st.out.text)) := by
  induction hall generalizing i st with
  | nil => exact .done hst rfl
  | @cons kb kv bs ms hb _ ih =>
    obtain ⟨k, b⟩ := kb
    obtain ⟨_, v⟩ := kv
    obtain ⟨rfl, hb⟩ := hb
    have hptr := hptrs (List.cons_ne_nil _ _)
    rw [serializeMembers, Json.serializeMembers]
    have hescape : (if i > 0 then st.out.text ++ [chComma] else st.out.text) <+:
        Json.stringEscapeInto k.text
          (if i > 0 then st.out.text ++ [chComma] else st.out.text) := by
      rw [stringEscapeInto_eq]
      exact List.prefix_append _ _
    have hcolon := List.prefix_append (Json.stringEscapeInto k.text
      (if i > 0 then st.out.text ++ [chComma] else st.out.text)) [chColon]
    have hvalue := prefix_value formatNumber v (Json.stringEscapeInto k.text
      (if i > 0 then st.out.text ++ [chComma] else st.out.text) ++ [chColon])
    have hrest := prefix_members formatNumber ms (i + 1) (Json.valueSerializeInto formatNumber v
      (Json.stringEscapeInto k.text
        (if i > 0 then st.out.text ++ [chComma] else st.out.text) ++ [chColon]))
    refine (hst.separate a i).andThen (fun hno hfits => hno (hfits.of_prefix
      (hescape.trans (hcolon.trans (hvalue.trans hrest))))) fun st₁ hst₁ htext₁ => ?_
    rw [(hptr st₁ hst₁).1]
    rw [← htext₁] at hcolon hvalue hrest ⊢
    refine (hst₁.stringEscapeInto a (hkeys _ List.mem_cons_self)).andThen (fun hno hfits =>
      hno (hfits.of_prefix (hcolon.trans (hvalue.trans hrest)))) fun st₂ hst₂ htext₂ => ?_
    rw [← htext₂] at hvalue hrest ⊢
    refine (hst₂.append a _).andThen (fun hno hfits =>
      hno (hfits.of_prefix (hvalue.trans hrest))) fun st₃ hst₃ htext₃ => ?_
    rw [(hptr st₃ hst₃).2]
    rw [← htext₃] at hrest ⊢
    refine (hb st₃ hst₃).andThen (fun hno hfits => hno (hfits.of_prefix hrest))
      fun st₄ hst₄ htext₄ => ?_
    rw [← htext₄]
    exact ih (fun _ => hptr) (fun kv hkv => hkeys kv (List.mem_cons_of_mem _ hkv)) (i + 1) hst₄

theorem prints_object {value : Printer D} {r : ObjectRec} {ms : List (List UInt8 × Value D)}
    (hptrs : r.members.items ≠ [] → ∀ st, Filling doc xs m st →
      st.usePtr r.keys = st ∧ st.usePtr r.values = st)
    (hkeys : ∀ kb ∈ r.members.items, kb.1.block ∈ total doc.nodes xs)
    (hall : List.Forall₂ (fun kb kv => kb.1.text = kv.1 ∧
      Prints a formatNumber doc xs m value kb.2 kv.2) r.members.items ms)
    (hst : Filling doc xs m st) :
    Outcomes a doc xs m st (serializeObject a value r st)
      (· = Json.valueSerializeInto formatNumber (.obj ms) st.out.text)
      (¬ Fits (Json.valueSerializeInto formatNumber (.obj ms) st.out.text)) := by
  have hmembers := prefix_members formatNumber ms 0 (st.out.text ++ [chLBrace])
  have hlast : Json.serializeMembers formatNumber ms 0 (st.out.text ++ [chLBrace]) <+:
      Json.valueSerializeInto formatNumber (.obj ms) st.out.text := List.prefix_append _ _
  unfold serializeObject
  refine (hst.append a _).andThen (fun hno hfits => hno (hfits.of_prefix (hmembers.trans hlast)))
    fun st₁ hst₁ htext₁ => ?_
  rw [← htext₁] at hlast
  refine (prints_members a formatNumber hptrs hkeys hall 0 hst₁).andThen
    (fun hno hfits => hno (hfits.of_prefix hlast)) fun st₂ hst₂ htext₂ => ?_
  have hend := hst₂.append a [chRBrace]
  rwa [htext₂, htext₁] at hend

mutual

/-- With fuel for the height of the tree its text is printed. -/
theorem Represents.prints (h₀ : Represents doc xs m d) (v : Value D) (b : ℕ)
    (hd : Denotes doc.nodes xs b v) : ∃ fuel₀, ∀ fuel ≥ fuel₀,
      Prints a formatNumber doc xs m (valueSerializeInto a formatNumber fuel) b v := by
  match v with
  | .null =>
    obtain ⟨hb, hp⟩ := hd
    refine ⟨1, fun fuel hge st hst => ?_⟩
    obtain ⟨fuel, rfl⟩ := Nat.exists_eq_add_of_le' hge
    simp only [valueSerializeInto, hst.use_node hb, hst.nodes, hp]
    exact hst.append a _
  | .bool v =>
    obtain ⟨hb, hp⟩ := hd
    refine ⟨1, fun fuel hge st hst => ?_⟩
    obtain ⟨fuel, rfl⟩ := Nat.exists_eq_add_of_le' hge
    simp only [valueSerializeInto, hst.use_node hb, hst.nodes, hp]
    cases v <;> exact hst.append a _
  | .num v =>
    obtain ⟨hb, hp⟩ := hd
    refine ⟨1, fun fuel hge st hst => ?_⟩
    obtain ⟨fuel, rfl⟩ := Nat.exists_eq_add_of_le' hge
    simp only [valueSerializeInto, hst.use_node hb, hst.nodes, hp]
    exact hst.append a _
  | .str t =>
    obtain ⟨hb, s, hp, rfl⟩ := hd
    refine ⟨1, fun fuel hge st hst => ?_⟩
    obtain ⟨fuel, rfl⟩ := Nat.exists_eq_add_of_le' hge
    simp only [valueSerializeInto, hst.use_node hb, hst.nodes, hp]
    exact hst.stringEscapeInto a (string_mem_total hb hp)
  | .arr vs =>
    obtain ⟨hb, r, hp, hitems⟩ := hd
    obtain ⟨fuel₀, hall⟩ := h₀.prints_items vs r.items.items hitems
    refine ⟨fuel₀ + 1, fun fuel hge st hst => ?_⟩
    obtain ⟨fuel, rfl⟩ := Nat.exists_eq_add_of_le' (Nat.le_of_add_left_le hge)
    simp only [valueSerializeInto, hst.use_node hb, hst.nodes, hp]
    exact prints_array a formatNumber (fun hne st hst => hst.use_items h₀ hb hp hne)
      (hall fuel (by omega)) hst
  | .obj ms =>
    obtain ⟨hb, r, hp, hmembers⟩ := hd
    obtain ⟨fuel₀, hall⟩ := h₀.prints_members ms r.members.items hmembers
    refine ⟨fuel₀ + 1, fun fuel hge st hst => ?_⟩
    obtain ⟨fuel, rfl⟩ := Nat.exists_eq_add_of_le' (Nat.le_of_add_left_le hge)
    simp only [valueSerializeInto, hst.use_node hb, hst.nodes, hp]
    exact prints_object a formatNumber (fun hne st hst => hst.use_members h₀ hb hp hne)
      (fun kv hkv => key_mem_total hb hp hkv) (hall fuel (by omega)) hst

theorem Represents.prints_items (h₀ : Represents doc xs m d) (vs : List (Value D)) (bs : List ℕ)
    (hd : DenotesItems doc.nodes xs bs vs) : ∃ fuel₀, ∀ fuel ≥ fuel₀, List.Forall₂
      (Prints a formatNumber doc xs m (valueSerializeInto a formatNumber fuel)) bs vs := by
  match bs, vs with
  | [], [] => exact ⟨0, fun _ _ => .nil⟩
  | b :: bs, v :: vs =>
    obtain ⟨fuel₁, hv⟩ := h₀.prints v b hd.1
    obtain ⟨fuel₂, hvs⟩ := h₀.prints_items vs bs hd.2
    exact ⟨max fuel₁ fuel₂, fun fuel hge =>
      .cons (hv fuel (le_of_max_le_left hge)) (hvs fuel (le_of_max_le_right hge))⟩

theorem Represents.prints_members (h₀ : Represents doc xs m d)
    (ms : List (List UInt8 × Value D)) (bs : List (CString × ℕ))
    (hd : DenotesMembers doc.nodes xs bs ms) : ∃ fuel₀, ∀ fuel ≥ fuel₀,
      List.Forall₂ (fun kb kv => kb.1.text = kv.1 ∧ Prints a formatNumber doc xs m
        (valueSerializeInto a formatNumber fuel) kb.2 kv.2) bs ms := by
  match bs, ms with
  | [], [] => exact ⟨0, fun _ _ => .nil⟩
  | (_, b) :: bs, (_, v) :: ms =>
    obtain ⟨fuel₁, hv⟩ := h₀.prints v b hd.2.1
    obtain ⟨fuel₂, hvs⟩ := h₀.prints_members ms bs hd.2.2
    exact ⟨max fuel₁ fuel₂, fun fuel hge =>
      .cons ⟨hd.1, hv fuel (le_of_max_le_left hge)⟩ (hvs fuel (le_of_max_le_right hge))⟩

end

end Trees

/-! ## Printing that comes to an end -/

section Ends

variable {doc : Heap D} {st : Printing D} (a : Allocator) (formatNumber : D → List UInt8)

/-- What the printer prints is the text of a tree. -/
def Judges (doc : Heap D) (xs : List ℕ) (m : Multiset ℕ) (value : Printer D) (b : ℕ) : Prop :=
  ∀ st, Filling doc xs m st → Outcomes a doc xs m st (value (some b) st)
    (fun t => ∃ v, Denotes doc.nodes xs b v ∧
      t = Json.valueSerializeInto formatNumber v st.out.text) True

theorem judges_items {value : Printer D} {block : Option ℕ} {bs : List ℕ}
    (hblock : bs ≠ [] → ∀ st, Filling doc xs m st → st.usePtr block = st)
    (hall : ∀ b ∈ bs, Judges a formatNumber doc xs m value b) (i : ℕ)
    (hst : Filling doc xs m st) :
    Outcomes a doc xs m st (serializeItems a value block bs i st)
      (fun t => ∃ vs, DenotesItems doc.nodes xs bs vs ∧
        t = Json.serializeItems formatNumber vs i st.out.text) True := by
  induction bs generalizing i st with
  | nil => exact .done hst ⟨[], trivial, rfl⟩
  | cons b bs ih =>
    have huse := hblock (List.cons_ne_nil _ _)
    refine (hst.separate a i).andThen (fun _ => trivial) fun st₁ hst₁ htext₁ => ?_
    rw [huse st₁ hst₁]
    refine (hall b List.mem_cons_self st₁ hst₁).andThen (fun _ => trivial)
      fun st₂ hst₂ ⟨v, hv, htext₂⟩ => ?_
    have hrest := ih (fun _ => huse) (fun c hc => hall c (List.mem_cons_of_mem _ hc)) (i + 1) hst₂
    refine hrest.imp (fun t ⟨vs, hvs, ht⟩ => ⟨v :: vs, ⟨hv, hvs⟩, ?_⟩) id
    rw [ht, htext₂, htext₁]
    rfl

theorem judges_members {value : Printer D} {keys values : Option ℕ} {bs : List (CString × ℕ)}
    (hptrs : bs ≠ [] → ∀ st, Filling doc xs m st → st.usePtr keys = st ∧ st.usePtr values = st)
    (hkeys : ∀ kb ∈ bs, kb.1.block ∈ total doc.nodes xs)
    (hall : ∀ kb ∈ bs, Judges a formatNumber doc xs m value kb.2) (i : ℕ)
    (hst : Filling doc xs m st) :
    Outcomes a doc xs m st (serializeMembers a value keys values bs i st)
      (fun t => ∃ ms, DenotesMembers doc.nodes xs bs ms ∧
        t = Json.serializeMembers formatNumber ms i st.out.text) True := by
  induction bs generalizing i st with
  | nil => exact .done hst ⟨[], trivial, rfl⟩
  | cons kb bs ih =>
    obtain ⟨k, b⟩ := kb
    have hptr := hptrs (List.cons_ne_nil _ _)
    refine (hst.separate a i).andThen (fun _ => trivial) fun st₁ hst₁ htext₁ => ?_
    rw [(hptr st₁ hst₁).1]
    refine (hst₁.stringEscapeInto a (hkeys _ List.mem_cons_self)).andThen (fun _ => trivial)
      fun st₂ hst₂ htext₂ => ?_
    refine (hst₂.append a _).andThen (fun _ => trivial) fun st₃ hst₃ htext₃ => ?_
    rw [(hptr st₃ hst₃).2]
    refine (hall _ List.mem_cons_self st₃ hst₃).andThen (fun _ => trivial)
      fun st₄ hst₄ ⟨v, hv, htext₄⟩ => ?_
    have hrest := ih (fun _ => hptr) (fun kv hkv => hkeys kv (List.mem_cons_of_mem _ hkv))
      (fun kv hkv => hall kv (List.mem_cons_of_mem _ hkv)) (i + 1) hst₄
    refine hrest.imp (fun t ⟨ms, hms, ht⟩ => ⟨(k.text, v) :: ms, ⟨rfl, hv, hms⟩, ?_⟩) id
    rw [ht, htext₄, htext₃, htext₂, htext₁]
    rfl

/-- Among known values, whatever the fuel. -/
theorem Represents.judges (h₀ : Represents doc xs m d) (ht : d.Tidy numbers known)
    (hsub : known ⊆ xs) (fuel : ℕ) {b : ℕ} (hb : b ∈ known) :
    Judges a formatNumber doc xs m (valueSerializeInto a formatNumber fuel) b := by
  induction fuel generalizing b with
  | zero => exact fun st hst => .stop hst trivial
  | succ fuel ih =>
    intro st hst
    have hbx := hsub hb
    obtain ⟨c, hval, hsound⟩ := ht.value b hb
    obtain rfl : (doc.nodes b).payload.content = c := by
      rw [h₀.value b hbx] at hval
      exact Option.some.inj hval
    simp only [valueSerializeInto, hst.use_node hbx, hst.nodes]
    cases hp : (doc.nodes b).payload with
    | null => exact (hst.append a _).imp (fun t ht => ⟨.null, ⟨hbx, hp⟩, ht⟩) fun _ => trivial
    | bool v =>
      refine (hst.append a _).imp (fun t ht => ⟨.bool v, ⟨hbx, hp⟩, ?_⟩) fun _ => trivial
      rw [ht]
      cases v <;> rfl
    | num v =>
      rw [hp] at hsound
      obtain ⟨-, v, rfl⟩ := hsound
      exact (hst.append a _).imp (fun t ht => ⟨.num v, ⟨hbx, hp⟩, ht⟩) fun _ => trivial
    | str s =>
      rw [hp] at hsound
      obtain ⟨t, hs, -⟩ := hsound
      obtain ⟨s, rfl, rfl⟩ := Option.map_eq_some_iff.mp hs
      exact (hst.stringEscapeInto a (string_mem_total hbx hp)).imp
        (fun t ht => ⟨.str s.text, ⟨hbx, s, hp, rfl⟩, ht⟩) fun _ => trivial
    | arr r =>
      rw [hp] at hsound
      refine (hst.append a _).andThen (fun _ => trivial) fun st₁ hst₁ htext₁ => ?_
      refine (judges_items a formatNumber (fun hne st hst => hst.use_items h₀ hbx hp hne)
        (fun c hc => ih (hsound hc)) 0 hst₁).andThen id fun st₂ hst₂ ⟨vs, hvs, htext₂⟩ => ?_
      refine (hst₂.append a _).imp (fun t ht => ⟨.arr vs, ⟨hbx, r, hp, hvs⟩, ?_⟩) fun _ => trivial
      rw [ht, htext₂, htext₁]
      rfl
    | obj r =>
      rw [hp] at hsound
      have hmem : ∀ kv ∈ r.members.items, kv.2 ∈ known := fun kv hkv =>
        (hsound (kv.1.text, kv.2) (List.mem_map.mpr ⟨kv, hkv, rfl⟩)).2
      refine (hst.append a _).andThen (fun _ => trivial) fun st₁ hst₁ htext₁ => ?_
      refine (judges_members a formatNumber (fun hne st hst => hst.use_members h₀ hbx hp hne)
        (fun kv hkv => key_mem_total hbx hp hkv) (fun kv hkv => ih (hmem kv hkv)) 0 hst₁).andThen id
        fun st₂ hst₂ ⟨ms, hms, htext₂⟩ => ?_
      refine (hst₂.append a _).imp (fun t ht => ⟨.obj ms, ⟨hbx, r, hp, hms⟩, ?_⟩) fun _ => trivial
      rw [ht, htext₂, htext₁]
      rfl

end Ends

/-! ## The whole text -/

section Whole

variable {doc : Heap D} {a : Allocator} (formatNumber : D → List UInt8)

theorem Holds.relabel {l : Ledger} {m' : Multiset ℕ} (hh : Holds h xs m)
    (hl : Owns l ({h.doc} + total h.nodes xs + m')) : Holds { h with ledger := l } xs m' :=
  ⟨hl, hh.chain, hh.tail, hh.wf⟩

/-- What the serializer may do: hand out a text as `Q` says in a block of its own, or come back
without one because one of its own requests was refused, or get stuck, and then `S`. It uses live
blocks only, and of the document only the ledger changes. -/
structure Serializes (a : Allocator) (doc : Heap D) (xs : List ℕ) (m : Multiset ℕ)
    (r : Outcome CString × Heap D) (Q : List UInt8 → Prop) (S : Prop) : Prop where
  heap : r.2 = { doc with ledger := r.2.ledger }
  clean : r.2.ledger.fault = false
  ok : ∀ s, r.1 = .ok s → Holds r.2 xs ({s.block} + m) ∧ Q s.text
  fail : r.1 = .fail → Holds r.2 xs m ∧ Refused a doc.ledger r.2.ledger
  stuck : r.1 = .stuck → S

theorem Serializes.imp {r : Outcome CString × Heap D} {Q Q' : List UInt8 → Prop} {S S' : Prop}
    (h : Serializes a doc xs m r Q S) (hQ : ∀ t, Q t → Q' t) (hS : S → S') :
    Serializes a doc xs m r Q' S' :=
  ⟨h.heap, h.clean, fun s hs => ⟨(h.ok s hs).1, hQ _ (h.ok s hs).2⟩, h.fail,
    fun hr => hS (h.stuck hr)⟩

theorem Serializes.failed {l : Ledger} {Q : List UInt8 → Prop} {S : Prop}
    (hh : Holds { doc with ledger := l } xs m) (hrefused : Refused a doc.ledger l) :
    Serializes a doc xs m (.fail, { doc with ledger := l }) Q S where
  heap := rfl
  clean := hh.owns.clean
  ok s hs := by cases hs
  fail _ := ⟨hh, hrefused⟩
  stuck hs := by cases hs

theorem Serializes.printed {l : Ledger} {s : CString} {Q : List UInt8 → Prop} {S : Prop}
    (hh : Holds { doc with ledger := l } xs ({s.block} + m)) (hs : Q s.text) :
    Serializes a doc xs m (.ok s, { doc with ledger := l }) Q S where
  heap := rfl
  clean := hh.owns.clean
  ok s' hs' := by
    cases hs'
    exact ⟨hh, hs⟩
  fail hf := by cases hf
  stuck hs' := by cases hs'

/-- From the printing of the root to the text that is handed out. -/
theorem Holds.serializes {p fuel : ℕ} {Q : List UInt8 → Prop} {S : Prop} (hh : Holds doc xs m)
    (hroot : doc.root = some p)
    (hvalue : ∀ st, Filling doc xs m st → st.out.text = [] →
      Outcomes a doc xs m st (valueSerializeInto a formatNumber fuel (some p) st) Q S) :
    Serializes a doc xs m (zenitJsonSerializeWithAllocator a formatNumber fuel doc)
      (fun t => ∃ t', Q t' ∧ t = cstr t') S := by
  unfold zenitJsonSerializeWithAllocator zenitJsonValueSerializeWithAllocator
  simp only [hh.use_doc, hroot]
  rcases stringCreateEmpty_cases hh.owns a with
    ⟨l, heq, hl, hrefused⟩ | ⟨s, h', heq, hst, htext, hle⟩
  · rw [heq]
    exact .failed (hh.relabel hl) hrefused
  simp only [heq]
  obtain ⟨hfills, hle', hok, hfail, hstuck⟩ := hvalue _ hst htext
  rcases hres : valueSerializeInto a formatNumber fuel (some p) ⟨h', s⟩ with ⟨_ | _ | ⟨⟩, st⟩
  · rw [hres] at hfills hstuck
    exact {
      heap := hfills.heap
      clean := hfills.owns.clean
      ok := fun s hs => by cases hs
      fail := fun hf => by cases hf
      stuck := fun _ => hstuck rfl }
  · rw [hres] at hfills hfail
    obtain ⟨l, hdestroy, hl, hrequests⟩ := hfills.destroy
    simp only [hdestroy]
    exact .failed (hh.relabel hl) (((hfail rfl).mono hle).congr hrequests)
  · rw [hres] at hfills hle' hok
    have huse : ((st.use st.out.handle).use st.out.vec).use st.out.buffer = st := by
      rw [hfills.use (by simp [OutString.blocks]), hfills.use (by simp [OutString.blocks]),
        hfills.use (by simp [OutString.blocks])]
    simp only [huse]
    rcases hfills.strDup a st.out.text with ⟨h₂, heq₂, hst₂, hrefused⟩ | ⟨c, h₂, heq₂, hst₂⟩
    · obtain ⟨l, hdestroy, hl, hrequests⟩ := hst₂.destroy
      simp only [heq₂, hdestroy]
      exact .failed (hh.relabel hl) ((hrefused.mono (hle.trans hle')).congr hrequests)
    · obtain ⟨l, hdestroy, hl, -⟩ := hst₂.destroy
      simp only [heq₂, hdestroy]
      exact .printed (hh.relabel hl) ⟨_, hok rfl, rfl⟩

/-- A text that is handed out is that of a tree. -/
theorem Represents.serializes_judged {p : ℕ} (h₀ : Represents doc xs m d)
    (ht : d.Tidy numbers known) (hsub : known ⊆ xs) (hroot : doc.root = some p) (fuel : ℕ) :
    Serializes a doc xs m (zenitJsonSerializeWithAllocator a formatNumber fuel doc)
      (fun t => ∃ v, Denotes doc.nodes xs p v ∧ t = Json.zenitJsonValueSerialize formatNumber v)
      True := by
  have hp : p ∈ known := ht.root p (by rw [h₀.root, hroot]; rfl)
  refine (h₀.holds.serializes formatNumber hroot fun st hst htext =>
    htext ▸ h₀.judges a formatNumber ht hsub fuel hp st hst).imp ?_ id
  rintro t ⟨t', ⟨v, hv, rfl⟩, rfl⟩
  exact ⟨v, hv, rfl⟩

/-- With fuel for the height of the tree its text is handed out, if it fits. -/
theorem Represents.serializes_tree {p : ℕ} {v : Value D} (h₀ : Represents doc xs m d)
    (hroot : doc.root = some p) (hv : Denotes doc.nodes xs p v) :
    ∃ fuel₀, ∀ fuel ≥ fuel₀,
      Serializes a doc xs m (zenitJsonSerializeWithAllocator a formatNumber fuel doc)
        (· = Json.zenitJsonValueSerialize formatNumber v)
        (¬ Fits (Json.valueSerializeInto formatNumber v [])) := by
  obtain ⟨fuel₀, hall⟩ := h₀.prints a formatNumber v p hv
  refine ⟨fuel₀, fun fuel hge => ?_⟩
  refine (h₀.holds.serializes formatNumber hroot fun st hst htext =>
    htext ▸ hall fuel hge st hst).imp ?_ id
  rintro t ⟨t', rfl, rfl⟩
  rfl

end Whole

/-! ## Strings without zero bytes -/

mutual

/-- Among known values without numbers, trees are plain. -/
theorem Represents.plain (h₀ : Represents h xs m d) (ht : d.Tidy False known) (hsub : known ⊆ xs)
    (v : Value D) (b : ℕ) (hb : b ∈ known) (hd : Denotes h.nodes xs b v) : v.Plain := by
  obtain ⟨c, hval, hsound⟩ := ht.value b hb
  obtain rfl : (h.nodes b).payload.content = c := by
    rw [h₀.value b (hsub hb)] at hval
    exact Option.some.inj hval
  match v with
  | .null => trivial
  | .bool _ => trivial
  | .num _ =>
    rw [hd.2] at hsound
    exact hsound.1
  | .str t =>
    obtain ⟨-, s, hp, rfl⟩ := hd
    rw [hp] at hsound
    obtain ⟨t, hs, hzero⟩ := hsound
    exact Option.some.inj hs ▸ hzero
  | .arr vs =>
    obtain ⟨-, r, hp, hitems⟩ := hd
    rw [hp] at hsound
    exact h₀.plain_items ht hsub vs r.items.items hsound hitems
  | .obj ms =>
    obtain ⟨-, r, hp, hmembers⟩ := hd
    rw [hp] at hsound
    exact h₀.plain_members ht hsub ms r.members.items
      (fun kv hkv => hsound _ (List.mem_map.mpr ⟨kv, hkv, rfl⟩)) hmembers

theorem Represents.plain_items (h₀ : Represents h xs m d) (ht : d.Tidy False known)
    (hsub : known ⊆ xs) (vs : List (Value D)) (bs : List ℕ) (hbs : bs ⊆ known)
    (hd : DenotesItems h.nodes xs bs vs) : PlainItems vs := by
  match bs, vs with
  | [], [] => trivial
  | b :: bs, v :: vs =>
    exact ⟨h₀.plain ht hsub v b (hbs List.mem_cons_self) hd.1,
      h₀.plain_items ht hsub vs bs (List.subset_of_cons_subset hbs) hd.2⟩

theorem Represents.plain_members (h₀ : Represents h xs m d) (ht : d.Tidy False known)
    (hsub : known ⊆ xs) (ms : List (List UInt8 × Value D)) (bs : List (CString × ℕ))
    (hbs : ∀ kv ∈ bs, 0 ∉ kv.1.text ∧ kv.2 ∈ known) (hd : DenotesMembers h.nodes xs bs ms) :
    PlainMembers ms := by
  match bs, ms with
  | [], [] => trivial
  | (k, b) :: bs, (_, v) :: ms =>
    obtain ⟨hzero, hb⟩ := hbs _ List.mem_cons_self
    exact ⟨hd.1 ▸ hzero, h₀.plain ht hsub v b hb hd.2.1,
      h₀.plain_members ht hsub ms bs (fun kv hkv => hbs kv (List.mem_cons_of_mem _ hkv)) hd.2.2⟩

end

/-! ## Runs -/

/-- The text of a plain tree is read back, whatever stands behind it. -/
theorem parse_text_within (formatNumber : D → List UInt8) (toDouble : List UInt8 → D) {v : Value D}
    (hv : v.Plain) (rest : List UInt8) {fuel : ℕ}
    (hfuel : 3 * (Json.zenitJsonValueSerialize formatNumber v).length + 1 ≤ fuel) :
    zenitJsonParseWithLength toDouble (Json.zenitJsonValueSerialize formatNumber v ++ rest)
      (Json.zenitJsonValueSerialize formatNumber v).length fuel = .ok v := by
  rw [Json.zenitJsonValueSerialize_eq hv] at hfuel ⊢
  rw [zenitJsonParseWithLength_eq_ok hfuel]
  exact ⟨0, _, WsRun.refl, derives_eq (derives_value v hv (at_zero _)) (Nat.zero_add _),
    WsRun.refl⟩

/-- As a string it ends at its terminator. -/
theorem parse_text (formatNumber : D → List UInt8) (toDouble : List UInt8 → D) {v : Value D}
    (hv : v.Plain) (rest : List UInt8) {fuel : ℕ}
    (hfuel : 3 * (Json.zenitJsonValueSerialize formatNumber v).length + 1 ≤ fuel) :
    zenitJsonParse toDouble (Json.zenitJsonValueSerialize formatNumber v ++ 0 :: rest) fuel =
      .ok v := by
  have hzero : 0 ∉ Json.zenitJsonValueSerialize formatNumber v := zero_notMem_cstr _
  unfold zenitJsonParse
  rw [cstr_append_zero hzero rest]
  exact parse_text_within formatNumber toDouble hv (0 :: rest) hfuel

/-- A document built by a client that stores only what it got from the constructors, whatever its
allocator refused, printed with an allocator that may refuse anything. Whatever the fuel, only the
ledger changes; a text is that of a finite tree the root unfolds to and is the one new block;
without a text everything is given back, and one of the serializer's own requests was refused. If
the root unfolds to a finite tree whose text fits, some fuel suffices, and without numbers the text
is read back as that tree. -/
theorem built_documents_print (formatNumber : D → List UInt8) (toDouble : List UInt8 → D)
    (a a' : Allocator) (l l₁ : Ledger) (h : Heap D) (ops : List (DomOp D)) (hl : l.fault = false)
    (hcreate : zenitJsonCreateWithAllocator a l = (some h, l₁))
    (hops : SelfContained a h [] ops) {p : ℕ} (hroot : (calls a h ops).2.root = some p) :
    ∃ xs, Holds (calls a h ops).2 xs l.live.val ∧
      (∀ fuel, Serializes a' (calls a h ops).2 xs l.live.val
        (zenitJsonSerializeWithAllocator a' formatNumber fuel (calls a h ops).2)
        (fun t => ∃ v, Denotes (calls a h ops).2.nodes xs p v ∧
          t = Json.zenitJsonValueSerialize formatNumber v) True) ∧
      (∀ v, Denotes (calls a h ops).2.nodes xs p v →
        Fits (Json.valueSerializeInto formatNumber v []) →
        ∃ fuel₀, ∀ fuel ≥ fuel₀, Serializes a' (calls a h ops).2 xs l.live.val
          (zenitJsonSerializeWithAllocator a' formatNumber fuel (calls a h ops).2)
          (fun t => t = Json.zenitJsonValueSerialize formatNumber v ∧
            ((∀ n, .make (.number n) ∉ ops) → ∀ rest fuel, 3 * t.length + 1 ≤ fuel →
              zenitJsonParse toDouble (t ++ 0 :: rest) fuel = .ok v)) False) ∧
      ((∀ n ≥ (calls a h ops).2.ledger.requests, a'.grants n = true) →
        (∀ v, Denotes (calls a h ops).2.nodes xs p v →
          Fits (Json.valueSerializeInto formatNumber v [])) →
        ((∃ fuel s, (zenitJsonSerializeWithAllocator a' formatNumber fuel
            (calls a h ops).2).1 = .ok s) ↔
          ∃ v, Denotes (calls a h ops).2.nodes xs p v)) := by
  have htidy : (Doc.empty : Doc D).Tidy (∃ n, .make (.number n) ∈ ops) [] := ⟨nofun, nofun⟩
  obtain ⟨xs, d, known, h₁, ht, hsub⟩ := (represents_empty hl hcreate).tidy_calls htidy
    (List.nil_subset _) hops fun v hv => ⟨v, hv⟩
  refine ⟨xs, h₁.holds, h₁.serializes_judged formatNumber ht hsub hroot, fun v hv hfits => ?_,
    fun hgrants hfits => ⟨?_, ?_⟩⟩
  · obtain ⟨fuel₀, hall⟩ := h₁.serializes_tree (a := a') formatNumber hroot hv
    refine ⟨fuel₀, fun fuel hge => (hall fuel hge).imp ?_ fun hno => hno hfits⟩
    rintro t rfl
    refine ⟨rfl, fun hnone rest fuel hfuel => ?_⟩
    have hfalse : (∃ n, .make (.number n) ∈ ops) = False := eq_false fun ⟨n, hn⟩ => hnone n hn
    rw [hfalse] at ht
    have hp : p ∈ known := ht.root p (by rw [h₁.root, hroot]; rfl)
    exact parse_text formatNumber toDouble (h₁.plain ht hsub v p hp hv) rest hfuel
  · rintro ⟨fuel, s, hok⟩
    obtain ⟨v, hv, -⟩ := ((h₁.serializes_judged formatNumber ht hsub hroot fuel).ok s hok).2
    exact ⟨v, hv⟩
  · rintro ⟨v, hv⟩
    obtain ⟨fuel₀, hall⟩ := h₁.serializes_tree (a := a') formatNumber hroot hv
    have hserializes := hall fuel₀ le_rfl
    refine ⟨fuel₀, ?_⟩
    cases hres : (zenitJsonSerializeWithAllocator a' formatNumber fuel₀ (calls a h ops).2).1 with
    | ok s => exact ⟨s, rfl⟩
    | fail =>
      obtain ⟨n, hn, hgrant⟩ := (hserializes.fail hres).2
      rw [hgrants n (Finset.mem_Ico.mp hn).1] at hgrant
      cases hgrant
    | stuck => exact absurd (hfits v hv) (hserializes.stuck hres)

/-- An array that holds a string twice. -/
def twiceTheSame : List (DomOp ℕ) :=
  [.make .array, .make (.string (some [97])), .arrayAppend (some 9) (some 10),
    .arrayAppend (some 9) (some 10), .setRoot (some 9)]

set_option maxRecDepth 4000 in
/-- The text is the eighteenth block. -/
theorem twice_the_same_prints : ∃ (h : Heap ℕ) (l₁ : Ledger) (xs : List ℕ),
    zenitJsonCreateWithAllocator ⟨fun _ => true, false⟩ ⟨{7}, 8, 0, false, by simp⟩ =
      (some h, l₁) ∧
    (zenitJsonSerializeWithAllocator ⟨fun _ => true, true⟩ (fun _ => []) 2
        (calls ⟨fun _ => true, false⟩ h twiceTheSame).2).1 =
      .ok ⟨18, [chLBracket, chQuote, 97, chQuote, chComma, chQuote, 97, chQuote, chRBracket]⟩ ∧
    Holds (zenitJsonSerializeWithAllocator ⟨fun _ => true, true⟩ (fun _ => []) 2
        (calls ⟨fun _ => true, false⟩ h twiceTheSame).2).2 xs ({18} + {7}) := by
  obtain ⟨xs, -, hall, -⟩ := built_documents_print (fun _ : ℕ => []) (fun _ => 0)
    ⟨fun _ => true, false⟩ ⟨fun _ => true, true⟩ ⟨{7}, 8, 0, false, by simp⟩ _ _ twiceTheSame rfl
    rfl (by decide) (p := 9) rfl
  exact ⟨_, _, xs, rfl, rfl, ((hall 2).ok _ rfl).1⟩

end LibZenit.JsonHeap
