import LibZenit.JsonHeap
import LibZenit.LinkedChain

/-!
# Who owns which block

The document owns its own block, the records on its chain and the blocks that these point to.
`Holds h xs m` says that the live blocks are those, for the chain `xs`, together with the blocks `m`
that belong to somebody else: buffers and keys in the hands of the parser, and whatever was live
before the call.
-/
namespace LibZenit.JsonHeap
open Json BlockLedger LinkedChain

variable {D : Type}

/-! ## Blocks of the records -/

def ptrBlocks : Option ℕ → Multiset ℕ
  | some b => {b}
  | none => 0

def keyBlocks (ms : List (CString × ℕ)) : Multiset ℕ := ms.map fun m => m.1.block

def Payload.blocks : Payload D → Multiset ℕ
  | .str s => ptrBlocks (s.map CString.block)
  | .arr r => ptrBlocks r.block
  | .obj r => ptrBlocks r.keys + ptrBlocks r.values + keyBlocks r.members.items
  | _ => 0

/-- An array that was never allocated has no room, and keys are stored in an array. -/
def Payload.Wf : Payload D → Prop
  | .arr r => r.block = none → r.items.capacity = 0
  | .obj r => (r.keys = none → r.members.capacity = 0 ∧ r.members.items = []) ∧
      (r.values = none → r.members.capacity = 0)
  | _ => True

/-- The records of the chain with their blocks. -/
def total (nodes : ℕ → Node D) (xs : List ℕ) : Multiset ℕ :=
  (xs.map fun x => {x} + (nodes x).payload.blocks).sum

variable {nodes nodes' : ℕ → Node D} {xs ys : List ℕ} {x b : ℕ} {payload : Payload D}

theorem total_nil : total nodes [] = 0 := rfl

theorem total_cons : total nodes (x :: xs) = {x} + (nodes x).payload.blocks + total nodes xs := by
  simp [total]

theorem total_append : total nodes (xs ++ ys) = total nodes xs + total nodes ys := by
  simp [total]

theorem total_congr (h : ∀ x ∈ xs, (nodes' x).payload = (nodes x).payload) :
    total nodes' xs = total nodes xs := by
  unfold total
  congr 1
  exact List.map_congr_left fun x hx => by rw [h x hx]

theorem total_eq_erase (hx : x ∈ xs) :
    total nodes xs = {x} + (nodes x).payload.blocks + total nodes (xs.erase x) := by
  rw [← total_cons]
  unfold total
  exact ((List.perm_cons_erase hx).map _).sum_eq

theorem le_total : (xs : Multiset ℕ) ≤ total nodes xs := by
  induction xs with
  | nil => exact le_rfl
  | cons x xs ih =>
    rw [total_cons, ← Multiset.cons_coe, ← Multiset.singleton_add, add_assoc]
    gcongr
    exact ih.trans (Multiset.le_add_left _ _)

/-! ## The invariant -/

/-- The successor of a record on the chain. -/
def follow (nodes : ℕ → Node D) (p : Option ℕ) : Option ℕ := p.bind fun x => (nodes x).next

structure Holds (h : Heap D) (xs : List ℕ) (m : Multiset ℕ) : Prop where
  owns : Owns h.ledger ({h.doc} + total h.nodes xs + m)
  chain : Seg (follow h.nodes) h.head (xs.map some) none
  tail : h.tail = xs.getLast?
  wf : ∀ x ∈ xs, (h.nodes x).payload.Wf

/-- The records in `xs` hold what they held before. -/
def Keeps (h h' : Heap D) (xs : List ℕ) : Prop :=
  ∀ x ∈ xs, (h'.nodes x).payload = (h.nodes x).payload

variable {h h' h'' : Heap D} {m m' : Multiset ℕ} {a : Allocator}

theorem Keeps.refl : Keeps h h xs := fun _ _ => rfl

theorem Keeps.trans (h₁ : Keeps h h' xs) (h₂ : Keeps h' h'' xs) : Keeps h h'' xs :=
  fun x hx => (h₂ x hx).trans (h₁ x hx)

theorem Keeps.mono (hk : Keeps h h' ys) (hsub : xs ⊆ ys) : Keeps h h' xs :=
  fun x hx => hk x (hsub hx)

theorem Holds.congr (hh : Holds h xs m) (hm : m = m') : Holds h xs m' := hm ▸ hh

theorem Holds.nodup (hh : Holds h xs m) : xs.Nodup := by
  have hle : (xs : Multiset ℕ) ≤ {h.doc} + total h.nodes xs + m :=
    le_total.trans ((Multiset.le_add_left _ _).trans (Multiset.le_add_right _ _))
  exact Multiset.coe_nodup.mp (Multiset.nodup_of_le hle hh.owns.nodup)

theorem Holds.use (hh : Holds h xs m) (hb : b ∈ {h.doc} + total h.nodes xs + m) :
    h.use b = h := by
  unfold Heap.use
  rw [hh.owns.use hb]

theorem Holds.use_doc (hh : Holds h xs m) : h.use h.doc = h := hh.use (by simp)

theorem Holds.use_node (hh : Holds h xs m) (hx : x ∈ xs) : h.use x = h := by
  apply hh.use
  rw [total_eq_erase hx]
  simp

theorem Holds.use_other (hh : Holds h xs m) (hb : b ∈ m) : h.use b = h := hh.use (by simp [hb])

theorem Holds.free (hh : Holds h xs ({b} + m)) : Holds (h.free b) xs m := by
  refine ⟨(hh.owns.congr ?_).free, hh.chain, hh.tail, hh.wf⟩
  dsimp only [Heap.free]
  abel

/-- The allocator refuses some request, whatever its number. -/
def Refuses (a : Allocator) : Prop := ∃ n, a.grants n = false

theorem Holds.alloc (hh : Holds h xs m) (a : Allocator) :
    (∃ h', h.alloc a = (none, h') ∧ Holds h' xs m ∧ h'.nodes = h.nodes ∧ Refuses a) ∨
      ∃ b h', h.alloc a = (some b, h') ∧ Holds h' xs ({b} + m) ∧ h'.nodes = h.nodes ∧
        b ∉ xs := by
  unfold Heap.alloc
  rcases hh.owns.alloc a.grants with ⟨l, heq, hl, hn⟩ | ⟨b, l, heq, hl, hb⟩
  · rw [heq]
    exact Or.inl ⟨_, rfl, ⟨hl, hh.chain, hh.tail, hh.wf⟩, rfl, hn⟩
  · rw [heq]
    refine Or.inr ⟨b, _, rfl, ⟨hl.congr ?_, hh.chain, hh.tail, hh.wf⟩, rfl, fun hx => hb ?_⟩
    · dsimp only
      abel
    · rw [total_eq_erase hx]
      simp

theorem owns_realloc {l : Ledger} (hl : Owns l ({b} + m)) (a : Allocator) :
    (∃ l', zenitAllocatorRealloc a b l = (none, l') ∧ Owns l' ({b} + m) ∧ Refuses a) ∨
      ∃ c l', zenitAllocatorRealloc a b l = (some c, l') ∧ Owns l' ({c} + m) := by
  unfold zenitAllocatorRealloc
  split_ifs
  · rcases hl.realloc a.grants with hnone | ⟨c, l', heq, hl', -⟩
    · exact Or.inl hnone
    · exact Or.inr ⟨c, l', heq, hl'⟩
  · rcases hl.alloc a.grants with ⟨l', heq, hl', hn⟩ | ⟨c, l', heq, hl', -⟩
    · rw [heq]
      exact Or.inl ⟨l', rfl, hl', hn⟩
    · rw [heq]
      refine Or.inr ⟨c, _, rfl, ?_⟩
      rw [hl'.use (by simp), hl'.use (by simp)]
      exact (hl'.congr (by abel)).free

theorem Holds.realloc (hh : Holds h xs ({b} + m)) (a : Allocator) :
    (∃ h', h.realloc a b = (none, h') ∧ Holds h' xs ({b} + m) ∧ h'.nodes = h.nodes ∧ Refuses a) ∨
      ∃ c h', h.realloc a b = (some c, h') ∧ Holds h' xs ({c} + m) ∧ h'.nodes = h.nodes := by
  unfold Heap.realloc
  have hl : Owns h.ledger ({b} + ({h.doc} + total h.nodes xs + m)) := hh.owns.congr (by abel)
  rcases owns_realloc hl a with ⟨l, heq, hl, hn⟩ | ⟨c, l, heq, hl⟩
  · rw [heq]
    refine Or.inl ⟨_, rfl, ⟨hl.congr ?_, hh.chain, hh.tail, hh.wf⟩, rfl, hn⟩
    dsimp only
    abel
  · rw [heq]
    refine Or.inr ⟨c, _, rfl, ⟨hl.congr ?_, hh.chain, hh.tail, hh.wf⟩, rfl⟩
    dsimp only
    abel

/-! ## Updating a record -/

theorem follow_setPayload : follow (h.setPayload x payload).nodes = follow h.nodes := by
  funext p
  cases p with
  | none => rfl
  | some y =>
    by_cases hy : y = x
    · subst hy
      simp [follow, Heap.setPayload]
    · simp [follow, Heap.setPayload, Function.update_of_ne hy]

theorem payload_setPayload_same : ((h.setPayload x payload).nodes x).payload = payload := by
  simp [Heap.setPayload]

theorem payload_setPayload_of_ne {y : ℕ} (hy : y ≠ x) :
    ((h.setPayload x payload).nodes y).payload = (h.nodes y).payload := by
  simp [Heap.setPayload, Function.update_of_ne hy]

/-- A record takes over new blocks, and somebody else gets what it gave away. -/
theorem Holds.replace (hh : Holds h xs m) (hx : x ∈ xs) (hwf : payload.Wf)
    (hdoc : h'.doc = h.doc) (hhead : h'.head = h.head) (htail : h'.tail = h.tail)
    (hnodes : h'.nodes = h.nodes)
    (hl : Owns h'.ledger
      ({h.doc} + ({x} + payload.blocks + total h.nodes (xs.erase x)) + m')) :
    Holds (h'.setPayload x payload) xs m' := by
  have herase : ∀ y ∈ xs.erase x, y ≠ x := fun y hy he =>
    (hh.nodup.not_mem_erase) (he ▸ hy)
  refine ⟨?_, ?_, htail.trans hh.tail, fun y hy => ?_⟩
  · have huse : h'.ledger.use x = h'.ledger := hl.use (by simp)
    have hrest : total (h'.setPayload x payload).nodes (xs.erase x) = total h.nodes (xs.erase x) :=
      total_congr fun y hy => by rw [payload_setPayload_of_ne (herase y hy), hnodes]
    rw [total_eq_erase hx, payload_setPayload_same, hrest]
    simp only [Heap.setPayload, Heap.use, huse, hdoc]
    exact hl
  · rw [follow_setPayload, hnodes]
    exact hhead ▸ hh.chain
  · by_cases hyx : y = x
    · subst hyx
      rwa [payload_setPayload_same]
    · rw [payload_setPayload_of_ne hyx, hnodes]
      exact hh.wf y hy

/-- Give a record a payload without blocks of its own, or with blocks from outside. -/
theorem Holds.setPayload (hh : Holds h xs m) (hx : x ∈ xs) (hwf : payload.Wf)
    (hm : (h.nodes x).payload.blocks + m = payload.blocks + m') :
    Holds (h.setPayload x payload) xs m' := by
  refine hh.replace hx hwf rfl rfl rfl rfl (hh.owns.congr ?_)
  rw [total_eq_erase hx]
  calc {h.doc} + ({x} + (h.nodes x).payload.blocks + total h.nodes (xs.erase x)) + m
      = {h.doc} + {x} + total h.nodes (xs.erase x) + ((h.nodes x).payload.blocks + m) := by abel
    _ = {h.doc} + {x} + total h.nodes (xs.erase x) + (payload.blocks + m') := by rw [hm]
    _ = _ := by abel

/-! ## A new record -/

/-- Records outside the chain do not matter. -/
theorem Holds.off_chain (hh : Holds h xs m) (hledger : h'.ledger = h.ledger)
    (hdoc : h'.doc = h.doc) (hhead : h'.head = h.head) (htail : h'.tail = h.tail)
    (hnodes : ∀ x ∈ xs, h'.nodes x = h.nodes x) : Holds h' xs m := by
  refine ⟨?_, ?_, htail.trans hh.tail, fun x hx => ?_⟩
  · rw [hledger, hdoc, total_congr fun x hx => by rw [hnodes x hx]]
    exact hh.owns
  · rw [hhead]
    apply hh.chain.congr
    intro p hp
    obtain ⟨x, hx, rfl⟩ := List.mem_map.mp hp
    simp [follow, hnodes x hx]
  · rw [hnodes x hx]
    exact hh.wf x hx

theorem Holds.clear (hh : Holds h xs ({b} + m)) (hb : b ∉ xs) :
    Holds (h.clear b) xs ({b} + m) ∧ Keeps h (h.clear b) xs ∧ (h.clear b).nodes b = ⟨.null, none⟩ := by
  have hoff : ∀ x ∈ xs, (h.clear b).nodes x = h.nodes x := fun x hx => by
    have hxb : x ≠ b := fun he => hb (he ▸ hx)
    exact Function.update_of_ne hxb _ _
  refine ⟨hh.off_chain ?_ rfl rfl rfl hoff, fun x hx => by rw [hoff x hx],
    Function.update_self _ _ _⟩
  simp only [Heap.clear]
  rw [hh.use_other (by simp)]

theorem Holds.link_first (hh : Holds h [] ({b} + m)) (hnode : h.nodes b = ⟨.null, none⟩) :
    Holds (h.link b) [b] m ∧ (h.link b).nodes = h.nodes := by
  have hlink : h.link b = { h with head := some b, tail := some b } := by
    unfold Heap.link
    rw [hh.tail]
    rfl
  rw [hlink]
  refine ⟨⟨hh.owns.congr ?_, ⟨rfl, ?_⟩, rfl, ?_⟩, rfl⟩
  · simp only [total_nil, total_cons, hnode, Payload.blocks]
    abel
  · simp [follow, hnode, Seg]
  · intro x hx
    rw [List.mem_singleton.mp hx]
    simp [hnode, Payload.Wf]

/-- The link of the last record is redirected to the new one. -/
theorem Holds.link_last {t : ℕ} (hh : Holds h (xs ++ [t]) ({b} + m)) (hb : b ∉ xs ++ [t])
    (hnode : h.nodes b = ⟨.null, none⟩) :
    Holds (h.link b) (xs ++ [t] ++ [b]) m ∧
      ∀ x, ((h.link b).nodes x).payload = (h.nodes x).payload := by
  have hbt : b ≠ t := fun he => hb (by simp [he])
  have hlink : h.link b = { h with
      nodes := Function.update h.nodes t { h.nodes t with next := some b }
      tail := some b } := by
    have ht : h.tail = some t := by simpa using hh.tail
    unfold Heap.link Heap.setNext
    rw [ht]
    dsimp only
    rw [hh.use_node (by simp)]
  have hpayload : ∀ x, ((h.link b).nodes x).payload = (h.nodes x).payload := by
    intro x
    rw [hlink]
    by_cases hx : x = t
    · subst hx
      simp
    · simp [Function.update_of_ne hx]
  have hfollow : ∀ x, x ≠ t → follow (h.link b).nodes (some x) = follow h.nodes (some x) := by
    intro x hx
    simp [hlink, follow, Function.update_of_ne hx]
  have hseg : Seg (follow (h.link b).nodes) h.head ((xs ++ [t]).map some) (some b) := by
    rw [List.map_append]
    obtain ⟨p, hp, hlast⟩ := seg_append.mp (List.map_append ▸ hh.chain)
    refine seg_append.mpr ⟨p, hp.congr fun q hq => ?_, hlast.1, ?_⟩
    · obtain ⟨x, hx, rfl⟩ := List.mem_map.mp hq
      exact hfollow x fun he => (List.nodup_append.mp hh.nodup).2.2 x hx t (by simp) he
    · simp [hlink, follow, Seg]
  refine ⟨⟨?_, ?_, by simp [hlink], fun x hx => ?_⟩, hpayload⟩
  · rw [total_congr fun x _ => hpayload x, total_append, total_cons, total_nil, hnode]
    simp only [hlink, Payload.blocks]
    exact hh.owns.congr (by abel)
  · rw [List.map_append]
    refine seg_append.mpr ⟨some b, by simpa [hlink] using hseg, rfl, ?_⟩
    rw [hfollow b hbt]
    simp [follow, hnode, Seg]
  · rw [hpayload]
    rcases List.mem_append.mp hx with hx | hx
    · exact hh.wf x hx
    · rw [List.mem_singleton.mp hx, hnode]
      trivial

/-- `value_alloc` is refused and changes nothing, or it chains a cleared record. -/
theorem Holds.valueAlloc (hh : Holds h xs m) (a : Allocator) :
    (∃ h', JsonHeap.valueAlloc a h = (none, h') ∧ Holds h' xs m ∧ Keeps h h' xs ∧ Refuses a) ∨
      ∃ b h', JsonHeap.valueAlloc a h = (some b, h') ∧ Holds h' (xs ++ [b]) m ∧ Keeps h h' xs ∧
        (h'.nodes b).payload = .null := by
  unfold JsonHeap.valueAlloc
  rw [hh.use_doc]
  rcases hh.alloc a with ⟨h₁, heq, hh₁, hnodes, hn⟩ | ⟨b, h₁, heq, hh₁, hnodes, hb⟩
  · rw [heq]
    exact Or.inl ⟨h₁, rfl, hh₁, fun x _ => by rw [hnodes], hn⟩
  · rw [heq]
    refine Or.inr ⟨b, _, rfl, ?_⟩
    obtain ⟨hh₂, hkeep₂, hnode⟩ := hh₁.clear hb
    have hkeep : Keeps h (h₁.clear b) xs := fun x hx => by rw [hkeep₂ x hx, hnodes]
    rcases List.eq_nil_or_concat xs with rfl | ⟨us, t, rfl⟩
    · obtain ⟨hlinked, hsame⟩ := hh₂.link_first hnode
      exact ⟨hlinked, by simp [Keeps], by rw [hsame, hnode]⟩
    · simp only [List.concat_eq_append] at hh₂ hkeep hb ⊢
      obtain ⟨hlinked, hpayload⟩ := hh₂.link_last hb hnode
      exact ⟨hlinked, hkeep.trans fun x _ => hpayload x, by rw [hpayload, hnode]⟩

end LibZenit.JsonHeap
