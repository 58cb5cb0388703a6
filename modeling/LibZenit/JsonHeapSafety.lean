import LibZenit.JsonHeapParser

/-!
# Parsing and destroying leave no block behind

`zenit_json_destroy` walks the chain and releases every record with its blocks. So a failed parse,
which destroys the document, and a successful parse followed by a destroy both end with the blocks
that were live before.
-/
namespace LibZenit.JsonHeap
open Json BlockLedger LinkedChain

variable {D : Type} {h h' : Heap D} {xs : List ℕ} {m : Multiset ℕ} {a : Allocator} {b : ℕ}

/-! ## Destroying a document -/

theorem owns_freePtr {p : Option ℕ} (hl : Owns h.ledger (ptrBlocks p + m)) :
    ∃ l, h.freePtr p = { h with ledger := l } ∧ Owns l m := by
  cases p with
  | none => exact ⟨h.ledger, rfl, by simpa [ptrBlocks] using hl⟩
  | some b => exact ⟨h.ledger.free b, rfl, hl.free⟩

theorem owns_freeKeys (keys : ℕ) (ms : List (CString × ℕ))
    (hl : Owns h.ledger (keyBlocks ms + m)) (hkeys : keys ∈ m) :
    ∃ l, freeKeys keys ms h = { h with ledger := l } ∧ Owns l m := by
  induction ms generalizing h with
  | nil => exact ⟨h.ledger, rfl, by simpa [keyBlocks] using hl⟩
  | cons e ms ih =>
    obtain ⟨key, val⟩ := e
    have hcons : keyBlocks ((key, val) :: ms) = {key.block} + keyBlocks ms := by
      simp only [keyBlocks, List.map_cons, ← Multiset.cons_coe, ← Multiset.singleton_add]
    rw [hcons, add_assoc] at hl
    have huse : h.use keys = h := by
      unfold Heap.use
      rw [hl.use (by simp [hkeys])]
    rw [freeKeys, huse]
    obtain ⟨l, heq, hl'⟩ := ih (h := h.free key.block) hl.free
    exact ⟨l, heq, hl'⟩

theorem owns_freeKeyArray {r : ObjectRec} (hwf : (Payload.obj r : Payload D).Wf)
    (hl : Owns h.ledger (ptrBlocks r.keys + keyBlocks r.members.items + m)) :
    ∃ l, freeKeyArray r h = { h with ledger := l } ∧ Owns l m := by
  unfold freeKeyArray
  cases hk : r.keys with
  | none =>
    have hnil := (hwf.1 hk).2
    refine ⟨h.ledger, rfl, hl.congr ?_⟩
    simp [hk, hnil, ptrBlocks, keyBlocks]
  | some k =>
    have hl' : Owns h.ledger (keyBlocks r.members.items + ({k} + m)) := by
      refine hl.congr ?_
      simp only [hk, ptrBlocks]
      abel
    obtain ⟨l, heq, hfreed⟩ := owns_freeKeys k r.members.items hl' (by simp)
    dsimp only
    rw [heq]
    exact ⟨l.free k, rfl, hfreed.free⟩

theorem owns_freeBlocks {payload : Payload D} (hwf : payload.Wf)
    (hl : Owns h.ledger (payload.blocks + m)) :
    ∃ l, freeBlocks payload h = { h with ledger := l } ∧ Owns l m := by
  cases payload with
  | null => exact ⟨h.ledger, rfl, by simpa [Payload.blocks] using hl⟩
  | bool v => exact ⟨h.ledger, rfl, by simpa [Payload.blocks] using hl⟩
  | num d => exact ⟨h.ledger, rfl, by simpa [Payload.blocks] using hl⟩
  | str s => exact owns_freePtr hl
  | arr r => exact owns_freePtr hl
  | obj r =>
    have hl' : Owns h.ledger
        (ptrBlocks r.keys + keyBlocks r.members.items + (ptrBlocks r.values + m)) := by
      refine hl.congr ?_
      simp only [Payload.blocks]
      abel
    obtain ⟨l₁, heq₁, hl₁⟩ := owns_freeKeyArray hwf hl'
    obtain ⟨l₂, heq₂, hl₂⟩ := owns_freePtr (h := { h with ledger := l₁ }) hl₁
    refine ⟨l₂, ?_, hl₂⟩
    rw [freeBlocks, valueFreeObject, heq₁, heq₂]

/-- One round of `value_destroy_chain`: the record and its blocks are gone, the others are as they
were. -/
theorem owns_destroyNode (hl : Owns h.ledger ({b} + (h.nodes b).payload.blocks + m))
    (hwf : (h.nodes b).payload.Wf) :
    Owns ((valueFreePayload b (h.use b)).free b).ledger m ∧
      ((valueFreePayload b (h.use b)).free b).doc = h.doc ∧
      ∀ y, y ≠ b → ((valueFreePayload b (h.use b)).free b).nodes y = h.nodes y := by
  have huse : h.use b = h := by
    unfold Heap.use
    rw [hl.use (by simp)]
  obtain ⟨l, heq, hl'⟩ := owns_freeBlocks (m := {b} + m) hwf (hl.congr (by abel))
  have hpayload : valueFreePayload b (h.use b) = { h with
      ledger := l
      nodes := Function.update h.nodes b { h.nodes b with payload := .null } } := by
    rw [huse]
    unfold valueFreePayload
    rw [huse]
    dsimp only
    rw [heq]
    simp only [Heap.setPayload, Heap.use, hl'.use (show b ∈ {b} + m by simp)]
  rw [hpayload]
  exact ⟨hl'.free, rfl, fun y hy => Function.update_of_ne hy _ _⟩

/-- The walk along the chain releases every record on it. -/
theorem valueDestroyChain_owns {fuel : ℕ} {p : Option ℕ} (hf : xs.length ≤ fuel)
    (hl : Owns h.ledger ({h.doc} + total h.nodes xs + m))
    (hseg : Seg (follow h.nodes) p (xs.map some) none)
    (hwf : ∀ x ∈ xs, (h.nodes x).payload.Wf) :
    ∃ h', valueDestroyChain fuel p h = some h' ∧ Owns h'.ledger ({h.doc} + m) ∧
      h'.doc = h.doc := by
  induction xs generalizing fuel p h with
  | nil =>
    obtain rfl : p = none := hseg
    refine ⟨h, by rw [valueDestroyChain], hl.congr ?_, rfl⟩
    rw [total_nil, add_zero]
  | cons x xs ih =>
    obtain ⟨rfl, hseg⟩ := hseg
    obtain ⟨f, rfl⟩ : ∃ f, fuel = f + 1 := ⟨fuel - 1, by simp only [List.length_cons] at hf; omega⟩
    have hxs : x ∉ xs := by
      have hle : ((x :: xs : List ℕ) : Multiset ℕ) ≤ {h.doc} + total h.nodes (x :: xs) + m :=
        le_total.trans ((Multiset.le_add_left _ _).trans (Multiset.le_add_right _ _))
      exact (List.nodup_cons.mp (Multiset.coe_nodup.mp (Multiset.nodup_of_le hle hl.nodup))).1
    have hnode : Owns h.ledger ({x} + (h.nodes x).payload.blocks +
        ({h.doc} + total h.nodes xs + m)) := by
      refine hl.congr ?_
      rw [total_cons]
      abel
    obtain ⟨hl', hdoc, hnodes⟩ := owns_destroyNode hnode (hwf x (by simp))
    obtain ⟨h₁, hh₁⟩ : ∃ h₁, h₁ = (valueFreePayload x (h.use x)).free x := ⟨_, rfl⟩
    have hsame : ∀ y ∈ xs, h₁.nodes y = h.nodes y := fun y hy => by
      have hyx : y ≠ x := fun he => hxs (he ▸ hy)
      rw [hh₁, hnodes y hyx]
    rw [← hh₁] at hl' hdoc
    rw [valueDestroyChain, ← hh₁, ← hdoc]
    refine ih (by simpa using hf) ?_ ?_ fun y hy => ?_
    · rw [hdoc, total_congr fun y hy => by rw [hsame y hy]]
      exact hl'
    · refine hseg.congr fun q hq => ?_
      obtain ⟨y, hy, rfl⟩ := List.mem_map.mp hq
      simp [follow, hsame y hy]
    · rw [hsame y hy]
      exact hwf y (by simp [hy])

/-- Destroying a document gives back all its blocks. -/
theorem Holds.zenitJsonDestroy (hh : Holds h xs m) :
    ∃ l, JsonHeap.zenitJsonDestroy h = some l ∧ Owns l m := by
  have hle : (xs : Multiset ℕ) ≤ h.ledger.live.val := by
    rw [hh.owns.live]
    exact le_total.trans ((Multiset.le_add_left _ _).trans (Multiset.le_add_right _ _))
  have hlen : xs.length ≤ h.ledger.live.card := by
    simpa using Multiset.card_le_card hle
  obtain ⟨h', heq, hl, hdoc⟩ := valueDestroyChain_owns hlen hh.owns hh.chain hh.wf
  refine ⟨((h'.use h'.doc).free h'.doc).ledger, ?_, ?_⟩
  · unfold JsonHeap.zenitJsonDestroy
    rw [hh.use_doc, heq]
    rfl
  · rw [← hdoc] at hl
    simp only [Heap.free, Heap.use, hl.use (show h'.doc ∈ {h'.doc} + m by simp)]
    exact hl.free

/-! ## Parsing a document -/

variable {mem : List UInt8} {len : ℕ} {num : ℕ → Option (D × ℕ)}

theorem Holds.jsonParseInto {fuel : ℕ} (hh : Holds h xs m)
    (htree : Json.jsonParseInto mem len (Json.parseStringRaw mem len) num fuel ≠ .stuck) :
    (∃ h' ys, JsonHeap.jsonParseInto a mem len num fuel h = (.fail, h') ∧ Holds h' (xs ++ ys) m ∧
        (Json.jsonParseInto mem len (Json.parseStringRaw mem len) num fuel = .fail ∨ Refuses a)) ∨
      ∃ h' ys root v, JsonHeap.jsonParseInto a mem len num fuel h = (.ok (), h') ∧
        Holds h' (xs ++ ys) m ∧ h'.root = some root ∧ Denotes h'.nodes ys root v ∧
        Json.jsonParseInto mem len (Json.parseStringRaw mem len) num fuel = .ok v := by
  have hsim : Simulation a mem len num fuel := simulation fuel
  obtain ⟨⟨res, h₁⟩, hres⟩ : ∃ res, res = parseValue a mem len num fuel 0 h := ⟨_, rfl⟩
  unfold JsonHeap.jsonParseInto
  unfold Json.jsonParseInto at htree ⊢
  rcases hres ▸ hsim.value 0 hh with ⟨-, ho⟩ | ⟨ys, hh₁, hkeep, hend⟩
  · simp [ho] at htree
  simp only at hh₁ hend
  rcases hend with ⟨hfail, ho⟩ | ⟨b, v, q, hok, ho, hd⟩
  · simp only [← hres, hfail]
    exact Or.inl ⟨h₁, ys, rfl, hh₁, ho.imp_left fun ho => by simp [ho]⟩
  · simp only [← hres, hok, ho]
    by_cases hq : skipWs mem len q = len
    · rw [if_neg (not_not.mpr hq), if_neg (not_not.mpr hq), hh₁.use_doc]
      exact Or.inr ⟨_, ys, b, v, rfl, hh₁.off_chain rfl rfl rfl rfl fun _ _ => rfl, rfl, hd, rfl⟩
    · rw [if_pos hq, if_pos hq]
      exact Or.inl ⟨h₁, ys, rfl, hh₁, Or.inl rfl⟩

/-- Everything that the parse of a text can end in. -/
theorem parse_cases (toDouble : List UInt8 → D) {l : Ledger} (hl : Owns l m) {fuel : ℕ}
    (hf : 3 * len + 1 ≤ fuel) :
    (∃ l', zenitJsonParseWithLengthAndAllocator a mem len (parseNumber toDouble mem) fuel l =
          (.fail, l') ∧ Owns l' m ∧
        (zenitJsonParseWithLength toDouble mem len fuel = .fail ∨ Refuses a)) ∨
      ∃ h xs root v,
        zenitJsonParseWithLengthAndAllocator a mem len (parseNumber toDouble mem) fuel l =
          (.ok h, h.ledger) ∧ Holds h xs m ∧ h.root = some root ∧ Denotes h.nodes xs root v ∧
        zenitJsonParseWithLength toDouble mem len fuel = .ok v := by
  unfold zenitJsonParseWithLengthAndAllocator zenitJsonCreateWithAllocator
  rcases hl.alloc a.grants with ⟨l₁, heq, hl₁, hn⟩ | ⟨doc, l₁, heq, hl₁, -⟩
  · rw [heq]
    exact Or.inl ⟨l₁, rfl, hl₁, Or.inr hn⟩
  rw [heq]
  dsimp only
  rw [hl₁.use (by simp)]
  have hh : Holds (⟨l₁, fun _ => ⟨.null, none⟩, doc, none, none, none⟩ : Heap D) [] m :=
    ⟨hl₁.congr (by simp [total_nil]), rfl, rfl, by simp⟩
  have htree : zenitJsonParseWithLength toDouble mem len fuel ≠ .stuck :=
    zenitJsonParseWithLength_ne_stuck hf
  rcases hh.jsonParseInto (a := a) htree with
    ⟨h₁, ys, heq₁, hh₁, hfail⟩ | ⟨h₁, ys, root, v, heq₁, hh₁, hroot, hd, hok⟩
  · obtain ⟨l₂, heq₂, hl₂⟩ := hh₁.zenitJsonDestroy
    rw [heq₁]
    dsimp only
    rw [heq₂]
    exact Or.inl ⟨l₂, rfl, hl₂, hfail⟩
  · rw [heq₁]
    exact Or.inr ⟨h₁, ys, root, v, rfl, by simpa using hh₁, hroot, hd, hok⟩

/-- The live blocks of the allocator are as they were and nothing went wrong. -/
def Restored (l l' : Ledger) : Prop := l'.live = l.live ∧ l'.fault = false

theorem restored_of_owns {l l' : Ledger} (h : Owns l' l.live.val) : Restored l l' :=
  ⟨Finset.val_inj.mp h.live, h.clean⟩

/-- Whatever the input and the failures of the allocator, a parse returns; when it returns `NULL` it
has given back every block, and when it succeeds `zenit_json_destroy` does. No block is released
twice or used after its release. -/
theorem parse_gives_back_every_block (a : Allocator) (toDouble : List UInt8 → D)
    (mem : List UInt8) (len fuel : ℕ) (hf : 3 * len + 1 ≤ fuel) (l : Ledger)
    (hl : l.fault = false) :
    (∃ l', zenitJsonParseWithLengthAndAllocator a mem len (parseNumber toDouble mem) fuel l =
        (.fail, l') ∧ Restored l l') ∨
      ∃ h, zenitJsonParseWithLengthAndAllocator a mem len (parseNumber toDouble mem) fuel l =
          (.ok h, h.ledger) ∧ h.ledger.fault = false ∧
        ∃ l', JsonHeap.zenitJsonDestroy h = some l' ∧ Restored l l' := by
  have howns : Owns l l.live.val := ⟨hl, rfl⟩
  rcases parse_cases toDouble howns hf with ⟨l', heq, hl', -⟩ | ⟨h, xs, -, -, heq, hh, -⟩
  · exact Or.inl ⟨l', heq, restored_of_owns hl'⟩
  · obtain ⟨l', hdestroy, hl'⟩ := hh.zenitJsonDestroy
    exact Or.inr ⟨h, heq, hh.owns.clean, l', hdestroy, restored_of_owns hl'⟩

/-- The text `["a"]`, the fourth request refused, no `realloc_fn`: the record of the string is
missing, and its buffer, the array and the document are given back. -/
theorem refused_parse_gives_back :
    ∃ l', zenitJsonParseWithLengthAndAllocator ⟨fun n => n != 3, false⟩ [91, 34, 97, 34, 93] 5
        (parseNumber id [91, 34, 97, 34, 93]) 16 ⟨{7}, 8, 0, false, by simp⟩ = (.fail, l') ∧
      Restored ⟨{7}, 8, 0, false, by simp⟩ l' := by
  rcases parse_gives_back_every_block ⟨fun n => n != 3, false⟩ id [91, 34, 97, 34, 93] 5 16
    (by decide) ⟨{7}, 8, 0, false, by simp⟩ rfl with hfail | ⟨h, hok, -⟩
  · exact hfail
  · have hfst := congrArg Prod.fst hok
    exact absurd hfst (by simp [show (zenitJsonParseWithLengthAndAllocator
      ⟨fun n => n != 3, false⟩ [91, 34, 97, 34, 93] 5 (parseNumber id [91, 34, 97, 34, 93]) 16
      ⟨{7}, 8, 0, false, by simp⟩).1 = .fail from rfl])

/-- With an allocator that refuses nothing the two parsers end alike, and the records of the
document hold the tree. -/
theorem parse_builds_tree (a : Allocator) (hgrants : ∀ n, a.grants n = true)
    (toDouble : List UInt8 → D) (mem : List UInt8) (len fuel : ℕ) (hf : 3 * len + 1 ≤ fuel)
    (l : Ledger) (hl : l.fault = false) :
    (∃ l', zenitJsonParseWithLengthAndAllocator a mem len (parseNumber toDouble mem) fuel l =
        (.fail, l') ∧ zenitJsonParseWithLength toDouble mem len fuel = .fail) ∨
      ∃ h xs root v,
        zenitJsonParseWithLengthAndAllocator a mem len (parseNumber toDouble mem) fuel l =
          (.ok h, h.ledger) ∧ h.root = some root ∧ Denotes h.nodes xs root v ∧
        zenitJsonParseWithLength toDouble mem len fuel = .ok v := by
  have howns : Owns l l.live.val := ⟨hl, rfl⟩
  rcases parse_cases toDouble howns hf with
    ⟨l', heq, -, hfail | ⟨n, hn⟩⟩ | ⟨h, xs, root, v, heq, -, hroot, hd, hok⟩
  · exact Or.inl ⟨l', heq, hfail⟩
  · simp [hgrants n] at hn
  · exact Or.inr ⟨h, xs, root, v, heq, hroot, hd, hok⟩

end LibZenit.JsonHeap
