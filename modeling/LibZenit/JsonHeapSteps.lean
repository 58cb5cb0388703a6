import LibZenit.JsonBounds
import LibZenit.JsonHeapInvariant

/-!
# One step of the allocating parser

What growing an array, storing an element and reading a string do to the ownership of blocks, and
how they follow the growable arrays and the token readers of `JsonParser`.
-/
namespace LibZenit.JsonHeap
open Json BlockLedger

variable {D : Type} {h h' : Heap D} {xs : List ℕ} {m : Multiset ℕ} {a : Allocator}
  {x b : ℕ} {mem : List UInt8} {len : ℕ}

/-- Only the record `x` may have changed. -/
def KeepsBut (x : ℕ) (h h' : Heap D) : Prop :=
  ∀ y, y ≠ x → (h'.nodes y).payload = (h.nodes y).payload

/-! ## Arrays -/

theorem Holds.arrayGrow {r : ArrayRec} (hh : Holds h xs m) (hx : x ∈ xs)
    (hr : (h.nodes x).payload = .arr r) (a : Allocator) :
    (∃ h', JsonHeap.arrayGrow a x r h = (none, h') ∧ Holds h' xs m ∧ h'.nodes = h.nodes ∧
        Refuses a) ∨
      ∃ b h', JsonHeap.arrayGrow a x r h =
          (some ⟨some b, { r.items with capacity := growCapacity r.items.capacity }⟩, h') ∧
        Holds h' xs m ∧ KeepsBut x h h' ∧
        (h'.nodes x).payload =
          .arr ⟨some b, { r.items with capacity := growCapacity r.items.capacity }⟩ := by
  unfold JsonHeap.arrayGrow
  cases hb : r.block with
  | none =>
    rcases hh.alloc a with ⟨h₁, heq, hh₁, hnodes, hn⟩ | ⟨b, h₁, heq, hh₁, hnodes, -⟩
    · simp only [heq]
      exact Or.inl ⟨h₁, rfl, hh₁, hnodes, hn⟩
    · simp only [heq]
      refine Or.inr ⟨b, _, rfl, hh₁.setPayload hx (by simp [Payload.Wf]) ?_, fun y hy => ?_,
        payload_setPayload_same⟩
      · simp [hnodes, hr, Payload.blocks, hb, ptrBlocks]
      · rw [payload_setPayload_of_ne hy, hnodes]
  | some old =>
    have hl : Owns h.ledger ({old} + ({h.doc} + {x} + total h.nodes (xs.erase x) + m)) := by
      refine hh.owns.congr ?_
      rw [total_eq_erase hx, hr]
      simp only [Payload.blocks, hb, ptrBlocks]
      abel
    simp only [Heap.realloc]
    rcases owns_realloc hl a with ⟨l, heq, hl, hn⟩ | ⟨c, l, heq, hl⟩
    · rw [heq]
      refine Or.inl ⟨_, rfl, ⟨hl.congr ?_, hh.chain, hh.tail, hh.wf⟩, rfl, hn⟩
      dsimp only
      rw [total_eq_erase hx, hr]
      simp only [Payload.blocks, hb, ptrBlocks]
      abel
    · rw [heq]
      refine Or.inr ⟨c, _, rfl, hh.replace hx (by simp [Payload.Wf]) rfl rfl rfl rfl ?_,
        fun y hy => payload_setPayload_of_ne hy, payload_setPayload_same⟩
      refine hl.congr ?_
      simp only [Payload.blocks, ptrBlocks]
      abel

/-- Storing behind the last slot in use. -/
theorem Holds.arrayStore {r : ArrayRec} (hh : Holds h xs m) (hx : x ∈ xs)
    (hr : (h.nodes x).payload = .arr r) (hroom : r.items.items.length < r.items.capacity)
    (elem : ℕ) :
    Holds ((h.usePtr r.block).setPayload x
        (.arr { r with items := { r.items with items := r.items.items ++ [elem] } })) xs m ∧
      (h.usePtr r.block).nodes = h.nodes := by
  have hwf := hh.wf x hx
  rw [hr] at hwf
  cases hb : r.block with
  | none =>
    have hzero := hwf hb
    omega
  | some b =>
    have huse : h.usePtr (some b) = h := by
      apply hh.use
      rw [total_eq_erase hx, hr]
      simp [Payload.blocks, hb, ptrBlocks]
    rw [huse]
    refine ⟨hh.setPayload hx (by simp [Payload.Wf]) ?_, rfl⟩
    simp [hr, Payload.blocks, hb]

/-- `arrayAppend` is refused, or it does what `push` does to the array. -/
theorem Holds.arrayAppend {r : ArrayRec} (hh : Holds h xs m) (hx : x ∈ xs)
    (hr : (h.nodes x).payload = .arr r) (a : Allocator) (elem : ℕ) :
    (∃ h', JsonHeap.arrayAppend a x elem r h = (.fail, h') ∧ Holds h' xs m ∧ h'.nodes = h.nodes ∧
        Refuses a) ∨
      (∃ h', JsonHeap.arrayAppend a x elem r h = (.stuck, h') ∧ r.items.push elem = none) ∨
      ∃ h' r', JsonHeap.arrayAppend a x elem r h = (.ok (), h') ∧ Holds h' xs m ∧
        KeepsBut x h h' ∧ (h'.nodes x).payload = .arr r' ∧ r.items.push elem = some r'.items := by
  unfold JsonHeap.arrayAppend Growable.push
  by_cases hfull : r.items.items.length ≥ r.items.capacity
  · simp only [if_pos hfull]
    rcases hh.arrayGrow hx hr a with ⟨h₁, heq, hh₁, hnodes, hn⟩ | ⟨b, h₁, heq, hh₁, hkeep, hr₁⟩
    · simp only [heq]
      exact Or.inl ⟨h₁, rfl, hh₁, hnodes, hn⟩
    · simp only [heq]
      by_cases hroom : r.items.items.length < growCapacity r.items.capacity
      · obtain ⟨hh₂, hnodes⟩ := hh₁.arrayStore hx hr₁ hroom elem
        rw [if_pos hroom, if_pos hroom]
        refine Or.inr (Or.inr ⟨_, _, rfl, hh₂, fun y hy => ?_, payload_setPayload_same, rfl⟩)
        rw [payload_setPayload_of_ne hy, hnodes, hkeep y hy]
      · rw [if_neg hroom, if_neg hroom]
        exact Or.inr (Or.inl ⟨_, rfl, rfl⟩)
  · have hroom : r.items.items.length < r.items.capacity := by omega
    obtain ⟨hh₂, hnodes⟩ := hh.arrayStore hx hr hroom elem
    simp only [if_neg hfull, if_pos hroom]
    refine Or.inr (Or.inr ⟨_, _, rfl, hh₂, fun y hy => ?_, payload_setPayload_same, rfl⟩)
    rw [payload_setPayload_of_ne hy, hnodes]

/-! ## Objects -/

theorem owns_moveArray {old : Option ℕ} {rest : Multiset ℕ} (new : ℕ)
    (hl : Owns h.ledger (ptrBlocks old + rest)) (hnew : new ∈ rest) :
    ∃ l, moveArray old new h = { h with ledger := l } ∧ Owns l rest := by
  cases old with
  | none => exact ⟨h.ledger, rfl, by simpa [ptrBlocks] using hl⟩
  | some b =>
    refine ⟨((h.ledger.use new).use b).free b, rfl, ?_⟩
    rw [hl.use (by simp [hnew]), hl.use (by simp [ptrBlocks])]
    exact hl.free

theorem Holds.objectGrow {r : ObjectRec} (hh : Holds h xs m) (hx : x ∈ xs)
    (hr : (h.nodes x).payload = .obj r) (a : Allocator) :
    (∃ h', JsonHeap.objectGrow a x r h = (none, h') ∧ Holds h' xs m ∧ h'.nodes = h.nodes ∧
        Refuses a) ∨
      ∃ k v h', JsonHeap.objectGrow a x r h = (some ⟨some k, some v,
          { r.members with capacity := growCapacity r.members.capacity }⟩, h') ∧
        Holds h' xs m ∧ KeepsBut x h h' ∧ (h'.nodes x).payload = .obj ⟨some k, some v,
          { r.members with capacity := growCapacity r.members.capacity }⟩ := by
  unfold JsonHeap.objectGrow
  rcases hh.alloc a with ⟨h₁, heq, hh₁, hnodes, hn⟩ | ⟨k, h₁, heq, hh₁, hnodes, -⟩
  · simp only [heq]
    exact Or.inl ⟨h₁, rfl, hh₁, hnodes, hn⟩
  simp only [heq]
  rw [hh₁.use_other (by simp)]
  rcases hh₁.alloc a with ⟨h₂, heq₂, hh₂, hnodes₂, hn⟩ | ⟨v, h₂, heq₂, hh₂, hnodes₂, -⟩
  · simp only [heq₂]
    exact Or.inl ⟨_, rfl, hh₂.free, hnodes₂.trans hnodes, hn⟩
  simp only [heq₂]
  rw [hh₂.use_other (by simp)]
  have hr₂ : (h₂.nodes x).payload = .obj r := by rw [hnodes₂, hnodes, hr]
  have hl : Owns h₂.ledger (ptrBlocks r.keys + (ptrBlocks r.values +
      ({h₂.doc} + {x} + keyBlocks r.members.items + total h₂.nodes (xs.erase x) +
        ({v} + ({k} + m))))) := by
    refine hh₂.owns.congr ?_
    rw [total_eq_erase hx, hr₂]
    simp only [Payload.blocks]
    abel
  -- the old arrays leave the record one after the other
  obtain ⟨l₃, heq₃, hl₃⟩ := owns_moveArray k hl (by simp)
  obtain ⟨l₄, heq₄, hl₄⟩ := owns_moveArray (h := { h₂ with ledger := l₃ }) v hl₃ (by simp)
  rw [heq₃, heq₄]
  refine Or.inr ⟨k, v, _, rfl, hh₂.replace hx (by simp [Payload.Wf]) rfl rfl rfl rfl
    (hl₄.congr ?_), fun y hy => ?_, payload_setPayload_same⟩
  · simp only [Payload.blocks, ptrBlocks]
    abel
  · rw [payload_setPayload_of_ne hy]
    simp only [hnodes₂, hnodes]

theorem Holds.objectStore {r : ObjectRec} {key : CString} (hh : Holds h xs ({key.block} + m))
    (hx : x ∈ xs) (hr : (h.nodes x).payload = .obj r)
    (hroom : r.members.items.length < r.members.capacity) (val : ℕ) :
    Holds (((h.usePtr r.keys).usePtr r.values).setPayload x
        (.obj { r with members := { r.members with items := r.members.items ++ [(key, val)] } }))
        xs m ∧ ((h.usePtr r.keys).usePtr r.values).nodes = h.nodes := by
  have hwf := hh.wf x hx
  rw [hr] at hwf
  obtain ⟨hkeys, hvalues⟩ := hwf
  cases hk : r.keys with
  | none =>
    have hzero := (hkeys hk).1
    omega
  | some k =>
    cases hv : r.values with
    | none =>
      have hzero := hvalues hv
      omega
    | some v =>
      have huse : (h.usePtr (some k)).usePtr (some v) = h := by
        have hk' : h.usePtr (some k) = h := by
          apply hh.use
          rw [total_eq_erase hx, hr]
          simp [Payload.blocks, hk, ptrBlocks]
        rw [hk']
        apply hh.use
        rw [total_eq_erase hx, hr]
        simp [Payload.blocks, hv, ptrBlocks]
      rw [huse]
      refine ⟨hh.setPayload hx (by simp [Payload.Wf]) ?_, rfl⟩
      simp only [hr, Payload.blocks, hk, hv, keyBlocks, List.map_append, List.map_singleton,
        ← Multiset.coe_add, Multiset.coe_singleton]
      abel

/-- `objectAppend` is refused and the key is still in the hands of the parser, or it does what
`push` does to the members. -/
theorem Holds.objectAppend {r : ObjectRec} {key : CString} (hh : Holds h xs ({key.block} + m))
    (hx : x ∈ xs) (hr : (h.nodes x).payload = .obj r) (a : Allocator) (val : ℕ) :
    (∃ h', JsonHeap.objectAppend a x key val r h = (.fail, h') ∧ Holds h' xs ({key.block} + m) ∧
        h'.nodes = h.nodes ∧ Refuses a) ∨
      (∃ h', JsonHeap.objectAppend a x key val r h = (.stuck, h') ∧
        r.members.push (key, val) = none) ∨
      ∃ h' r', JsonHeap.objectAppend a x key val r h = (.ok (), h') ∧ Holds h' xs m ∧
        KeepsBut x h h' ∧ (h'.nodes x).payload = .obj r' ∧
        r.members.push (key, val) = some r'.members := by
  unfold JsonHeap.objectAppend Growable.push
  by_cases hfull : r.members.items.length ≥ r.members.capacity
  · simp only [if_pos hfull]
    rcases hh.objectGrow hx hr a with ⟨h₁, heq, hh₁, hnodes, hn⟩ |
      ⟨k, v, h₁, heq, hh₁, hkeep, hr₁⟩
    · simp only [heq]
      exact Or.inl ⟨h₁, rfl, hh₁, hnodes, hn⟩
    · simp only [heq]
      by_cases hroom : r.members.items.length < growCapacity r.members.capacity
      · obtain ⟨hh₂, hnodes⟩ := hh₁.objectStore hx hr₁ hroom val
        rw [if_pos hroom, if_pos hroom]
        refine Or.inr (Or.inr ⟨_, _, rfl, hh₂, fun y hy => ?_, payload_setPayload_same, rfl⟩)
        rw [payload_setPayload_of_ne hy, hnodes, hkeep y hy]
      · rw [if_neg hroom, if_neg hroom]
        exact Or.inr (Or.inl ⟨_, rfl, rfl⟩)
  · have hroom : r.members.items.length < r.members.capacity := by omega
    obtain ⟨hh₂, hnodes⟩ := hh.objectStore hx hr hroom val
    simp only [if_neg hfull, if_pos hroom]
    refine Or.inr (Or.inr ⟨_, _, rfl, hh₂, fun y hy => ?_, payload_setPayload_same, rfl⟩)
    rw [payload_setPayload_of_ne hy, hnodes]

/-! ## Strings -/

/-- `buf_grow` releases the buffer when it is refused. -/
theorem Holds.bufGrow (hh : Holds h xs ({b} + m)) (a : Allocator) (cap n needed : ℕ) :
    (∃ h', JsonHeap.bufGrow a b cap n needed h = (none, h') ∧ Holds h' xs m ∧
        h'.nodes = h.nodes ∧ Refuses a) ∨
      ∃ c cap' h', JsonHeap.bufGrow a b cap n needed h = (some (c, cap'), h') ∧
        Holds h' xs ({c} + m) ∧ h'.nodes = h.nodes := by
  unfold JsonHeap.bufGrow
  split_ifs
  · exact Or.inr ⟨b, cap, h, rfl, hh, rfl⟩
  · rcases hh.realloc a with ⟨h₁, heq, hh₁, hnodes, hn⟩ | ⟨c, h₁, heq, hh₁, hnodes⟩
    · rw [heq]
      exact Or.inl ⟨_, rfl, hh₁.free, hnodes, hn⟩
    · rw [heq]
      exact Or.inr ⟨c, cap * 2, h₁, rfl, hh₁, hnodes⟩

/-- The loop returns the buffer with what the token reader reads, or it fails and the buffer is
gone; it fails when the reader does or when a request was refused. -/
theorem Holds.parseStringFrom {fuel p cap : ℕ} {text : List UInt8} (hh : Holds h xs ({b} + m))
    (hf : len - p < fuel) (a : Allocator) :
    (∃ h', JsonHeap.parseStringFrom a mem len fuel p b cap text h = (.fail, h') ∧ Holds h' xs m ∧
        h'.nodes = h.nodes ∧
        (Json.parseStringFrom mem len fuel p text = none ∨ Refuses a)) ∨
      ∃ s q h', JsonHeap.parseStringFrom a mem len fuel p b cap text h = (.ok (s, q), h') ∧
        Holds h' xs ({s.block} + m) ∧ h'.nodes = h.nodes ∧
        Json.parseStringFrom mem len fuel p text = some (s.text, q) := by
  induction fuel generalizing p b cap text h with
  | zero => omega
  | succ fuel ih =>
    rw [JsonHeap.parseStringFrom, Json.parseStringFrom]
    cases hc : peek mem len p with
    | none => exact Or.inl ⟨_, rfl, hh.free, rfl, Or.inl rfl⟩
    | some c =>
      have hlt : p < len := by
        unfold peek at hc
        split_ifs at hc with hp
        exact hp
      dsimp only
      by_cases hquote : c = chQuote
      · rw [if_pos hquote, if_pos hquote]
        rw [hh.use_other (by simp)]
        exact Or.inr ⟨⟨b, text⟩, p + 1, h, rfl, hh, rfl, rfl⟩
      rw [if_neg hquote, if_neg hquote]
      by_cases hback : c = chBackslash
      · rw [if_neg (not_not.mpr hback), if_neg (not_not.mpr hback)]
        rcases he : parseEscapeSeq mem len (p + 1) with _ | ⟨cp, q⟩
        · exact Or.inl ⟨_, rfl, hh.free, rfl, Or.inl rfl⟩
        · have hq := parseEscapeSeq_bounds he
          dsimp only
          rcases hh.bufGrow a cap text.length (encodeUtf8 cp).length with
            ⟨h₁, heq, hh₁, hnodes, hn⟩ | ⟨c', cap', h₁, heq, hh₁, hnodes⟩
          · simp only [heq]
            exact Or.inl ⟨h₁, rfl, hh₁, hnodes, Or.inr hn⟩
          · simp only [heq]
            rw [hh₁.use_other (by simp)]
            rw [← hnodes]
            exact ih hh₁ (by omega)
      · rw [if_pos hback, if_pos hback]
        rcases hh.bufGrow a cap text.length 1 with
          ⟨h₁, heq, hh₁, hnodes, hn⟩ | ⟨c', cap', h₁, heq, hh₁, hnodes⟩
        · simp only [heq]
          exact Or.inl ⟨h₁, rfl, hh₁, hnodes, Or.inr hn⟩
        · simp only [heq]
          rw [hh₁.use_other (by simp)]
          rw [← hnodes]
          exact ih hh₁ (by omega)

theorem Holds.parseStringRaw {p : ℕ} {c : UInt8} (hh : Holds h xs m) (hp : peek mem len p = some c)
    (a : Allocator) :
    (∃ h', JsonHeap.parseStringRaw a mem len p h = (.fail, h') ∧ Holds h' xs m ∧
        h'.nodes = h.nodes ∧ (Json.parseStringRaw mem len p = none ∨ Refuses a)) ∨
      ∃ s q h', JsonHeap.parseStringRaw a mem len p h = (.ok (s, q), h') ∧
        Holds h' xs ({s.block} + m) ∧ h'.nodes = h.nodes ∧
        Json.parseStringRaw mem len p = some (s.text, q) := by
  have hlt := peek_lt hp
  unfold JsonHeap.parseStringRaw Json.parseStringRaw
  rw [hh.use_doc]
  rcases hh.alloc a with ⟨h₁, heq, hh₁, hnodes, hn⟩ | ⟨b, h₁, heq, hh₁, hnodes, -⟩
  · rw [heq]
    exact Or.inl ⟨h₁, rfl, hh₁, hnodes, Or.inr hn⟩
  · rw [heq]
    dsimp only
    rw [← hnodes]
    exact hh₁.parseStringFrom (by omega) a

end LibZenit.JsonHeap
