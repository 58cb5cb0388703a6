import LibZenit.JsonHeapSteps

/-!
# The allocating parser follows the tree parser

Every function of `JsonHeap` keeps the ownership invariant, extends the chain by new records only,
and ends as the function of `JsonParser` does, unless a request was refused. On success the new
records denote the tree.
-/
namespace LibZenit.JsonHeap
open Json BlockLedger

variable {D : Type}

/-! ## Trees in the records -/

mutual

/-- The record `b` and those below it, all among `ys`, hold the tree. -/
def Denotes (nodes : ℕ → Node D) (ys : List ℕ) : ℕ → Value D → Prop
  | b, .null => b ∈ ys ∧ (nodes b).payload = .null
  | b, .bool v => b ∈ ys ∧ (nodes b).payload = .bool v
  | b, .num d => b ∈ ys ∧ (nodes b).payload = .num (some d)
  | b, .str t => b ∈ ys ∧ ∃ s, (nodes b).payload = .str (some s) ∧ s.text = t
  | b, .arr vs => b ∈ ys ∧ ∃ r, (nodes b).payload = .arr r ∧ DenotesItems nodes ys r.items.items vs
  | b, .obj ms =>
    b ∈ ys ∧ ∃ r, (nodes b).payload = .obj r ∧ DenotesMembers nodes ys r.members.items ms

def DenotesItems (nodes : ℕ → Node D) (ys : List ℕ) : List ℕ → List (Value D) → Prop
  | [], [] => True
  | b :: bs, v :: vs => Denotes nodes ys b v ∧ DenotesItems nodes ys bs vs
  | _, _ => False

def DenotesMembers (nodes : ℕ → Node D) (ys : List ℕ) :
    List (CString × ℕ) → List (List UInt8 × Value D) → Prop
  | [], [] => True
  | (s, b) :: bs, (k, v) :: ms => s.text = k ∧ Denotes nodes ys b v ∧ DenotesMembers nodes ys bs ms
  | _, _ => False

end

/-- The records `ys` hold in `nodes'` what they hold in `nodes`, and `ys'` has them all. -/
structure Carries (nodes nodes' : ℕ → Node D) (ys ys' : List ℕ) : Prop where
  keep : ∀ y ∈ ys, (nodes' y).payload = (nodes y).payload
  sub : ys ⊆ ys'

section Mono

variable {nodes nodes' : ℕ → Node D} {ys ys' : List ℕ}

mutual

theorem Denotes.mono (hc : Carries nodes nodes' ys ys') (v : Value D) (b : ℕ)
    (h : Denotes nodes ys b v) : Denotes nodes' ys' b v := by
  match v with
  | .null => exact ⟨hc.sub h.1, (hc.keep b h.1).trans h.2⟩
  | .bool _ => exact ⟨hc.sub h.1, (hc.keep b h.1).trans h.2⟩
  | .num _ => exact ⟨hc.sub h.1, (hc.keep b h.1).trans h.2⟩
  | .str _ =>
    obtain ⟨hb, s, hs, ht⟩ := h
    exact ⟨hc.sub hb, s, (hc.keep b hb).trans hs, ht⟩
  | .arr vs =>
    obtain ⟨hb, r, hr, hd⟩ := h
    exact ⟨hc.sub hb, r, (hc.keep b hb).trans hr, DenotesItems.mono hc vs r.items.items hd⟩
  | .obj ms =>
    obtain ⟨hb, r, hr, hd⟩ := h
    exact ⟨hc.sub hb, r, (hc.keep b hb).trans hr, DenotesMembers.mono hc ms r.members.items hd⟩

theorem DenotesItems.mono (hc : Carries nodes nodes' ys ys') (vs : List (Value D)) (bs : List ℕ)
    (h : DenotesItems nodes ys bs vs) : DenotesItems nodes' ys' bs vs := by
  match bs, vs with
  | [], [] => trivial
  | b :: bs, v :: vs => exact ⟨Denotes.mono hc v b h.1, DenotesItems.mono hc vs bs h.2⟩

theorem DenotesMembers.mono (hc : Carries nodes nodes' ys ys')
    (ms : List (List UInt8 × Value D)) (bs : List (CString × ℕ))
    (h : DenotesMembers nodes ys bs ms) : DenotesMembers nodes' ys' bs ms := by
  match bs, ms with
  | [], [] => trivial
  | (_, b) :: bs, (_, v) :: ms =>
    exact ⟨h.1, Denotes.mono hc v b h.2.1, DenotesMembers.mono hc ms bs h.2.2⟩

end

end Mono

variable {nodes : ℕ → Node D} {ys : List ℕ} {b : ℕ} {v : Value D}

theorem DenotesItems.snoc {bs : List ℕ} {vs : List (Value D)} (h : DenotesItems nodes ys bs vs)
    (hb : Denotes nodes ys b v) : DenotesItems nodes ys (bs ++ [b]) (vs ++ [v]) := by
  induction bs generalizing vs with
  | nil =>
    cases vs with
    | nil => exact ⟨hb, trivial⟩
    | cons w vs => exact h.elim
  | cons c bs ih =>
    cases vs with
    | nil => exact h.elim
    | cons w vs => exact ⟨h.1, ih h.2⟩

theorem DenotesMembers.snoc {s : CString} {bs : List (CString × ℕ)}
    {ms : List (List UInt8 × Value D)} (h : DenotesMembers nodes ys bs ms)
    (hb : Denotes nodes ys b v) : DenotesMembers nodes ys (bs ++ [(s, b)]) (ms ++ [(s.text, v)]) := by
  induction bs generalizing ms with
  | nil =>
    cases ms with
    | nil => exact ⟨rfl, hb, trivial⟩
    | cons w ms => exact h.elim
  | cons c bs ih =>
    cases ms with
    | nil => exact h.elim
    | cons w ms => exact ⟨h.1, h.2.1, ih h.2.2⟩

theorem DenotesItems.length_eq {bs : List ℕ} {vs : List (Value D)}
    (h : DenotesItems nodes ys bs vs) : bs.length = vs.length := by
  induction bs generalizing vs with
  | nil =>
    cases vs with
    | nil => rfl
    | cons w vs => exact h.elim
  | cons c bs ih =>
    cases vs with
    | nil => exact h.elim
    | cons w vs => simpa using ih h.2

theorem DenotesMembers.length_eq {bs : List (CString × ℕ)} {ms : List (List UInt8 × Value D)}
    (h : DenotesMembers nodes ys bs ms) : bs.length = ms.length := by
  induction bs generalizing ms with
  | nil =>
    cases ms with
    | nil => rfl
    | cons w ms => exact h.elim
  | cons c bs ih =>
    cases ms with
    | nil => exact h.elim
    | cons w ms => simpa using ih h.2.2

/-- Arrays of equal length and capacity grow alike. -/
theorem push_alike {α β : Type} {g : Growable α} {g' : Growable β} (x : α) (y : β)
    (hlen : g.items.length = g'.items.length) (hcap : g.capacity = g'.capacity) :
    (g.push x = none ∧ g'.push y = none) ∨
      ∃ u u', g.push x = some u ∧ g'.push y = some u' ∧ u.items = g.items ++ [x] ∧
        u'.items = g'.items ++ [y] ∧ u.capacity = u'.capacity := by
  unfold Growable.push
  simp only [hlen, hcap]
  split_ifs
  · exact Or.inr ⟨_, _, rfl, rfl, rfl, rfl, rfl⟩
  · exact Or.inl ⟨rfl, rfl⟩
  · exact Or.inr ⟨_, _, rfl, rfl, rfl, rfl, rfl⟩
  · exact Or.inl ⟨rfl, rfl⟩

/-! ## Simulation -/

section Simulation

variable {a : Allocator} {mem : List UInt8} {len : ℕ} {num : ℕ → Option (D × ℕ)}
  {h h' : Heap D} {xs : List ℕ} {m : Multiset ℕ} {p : ℕ}

/-- From `h` with the chain `xs`, the run `r` of the allocating parser follows the outcome `o` of
the tree parser. -/
def Simulates (a : Allocator) (h : Heap D) (xs : List ℕ) (m : Multiset ℕ)
    (r : Outcome (ℕ × ℕ) × Heap D) (o : Outcome (Value D × ℕ)) : Prop :=
  (r.1 = .stuck ∧ o = .stuck) ∨
    ∃ ys, Holds r.2 (xs ++ ys) m ∧ Keeps h r.2 xs ∧
      ((r.1 = .fail ∧ (o = .fail ∨ Refuses a)) ∨
        ∃ b v q, r.1 = .ok (b, q) ∧ o = .ok (v, q) ∧ Denotes r.2.nodes ys b v)

theorem Simulates.fail {o : Outcome (Value D × ℕ)} (hh : Holds h' xs m) (hkeep : Keeps h h' xs)
    (ho : o = .fail ∨ Refuses a) : Simulates a h xs m (.fail, h') o :=
  Or.inr ⟨[], by simpa using hh, hkeep, Or.inl ⟨rfl, ho⟩⟩

/-- A new record gets a payload that denotes a value by itself. -/
theorem Simulates.leaf {b q : ℕ} {v : Value D} {payload : Payload D} {m' : Multiset ℕ}
    (hh : Holds h' (xs ++ [b]) m') (hkeep : Keeps h h' xs) (hnull : (h'.nodes b).payload = .null)
    (hwf : payload.Wf) (hm : m' = payload.blocks + m)
    (hd : ∀ nodes : ℕ → Node D, (nodes b).payload = payload → Denotes nodes [b] b v) :
    Simulates a h xs m (.ok (b, q), h'.setPayload b payload) (.ok (v, q)) := by
  have hb : ∀ x ∈ xs, x ≠ b := fun x hx he =>
    (List.nodup_append.mp hh.nodup).2.2 x hx b (by simp) he
  refine Or.inr ⟨[b], hh.setPayload (by simp) hwf ?_, fun x hx => ?_, Or.inr
    ⟨b, v, q, rfl, rfl, hd _ payload_setPayload_same⟩⟩
  · rw [hnull, hm]
    simp [Payload.blocks]
  · rw [payload_setPayload_of_ne (hb x hx), hkeep x hx]

theorem Holds.parseLiteral {word : List UInt8} {payload : Payload D} {v : Value D}
    (hh : Holds h xs m) (hwf : payload.Wf) (hm : payload.blocks = 0)
    (hd : ∀ (nodes : ℕ → Node D) b, (nodes b).payload = payload → Denotes nodes [b] b v) :
    Simulates a h xs m (JsonHeap.parseLiteral a mem len word payload p h)
      (Json.parseLiteral mem len word v p) := by
  unfold JsonHeap.parseLiteral Json.parseLiteral
  split_ifs
  · rcases hh.valueAlloc a with ⟨h₁, heq, hh₁, hkeep, hn⟩ | ⟨b, h₁, heq, hh₁, hkeep, hnull⟩
    · rw [heq]
      exact Simulates.fail hh₁ hkeep (Or.inr hn)
    · rw [heq]
      exact Simulates.leaf hh₁ hkeep hnull hwf (by simp [hm]) fun nodes => hd nodes b
  · exact Simulates.fail hh Keeps.refl (Or.inl rfl)

theorem Holds.parseNumberValue_none (hh : Holds h xs m) (hnum : num p = none) :
    Simulates a h xs m (JsonHeap.parseNumberValue a num p h) .fail := by
  unfold JsonHeap.parseNumberValue
  rcases hh.valueAlloc a with ⟨h₁, heq, hh₁, hkeep, hn⟩ | ⟨b, h₁, heq, hh₁, hkeep, hnull⟩
  · rw [heq]
    exact Simulates.fail hh₁ hkeep (Or.inl rfl)
  · have hb : ∀ x ∈ xs, x ≠ b := fun x hx he =>
      (List.nodup_append.mp hh₁.nodup).2.2 x hx b (by simp) he
    rw [heq]
    simp only [hnum]
    refine Or.inr ⟨[b], hh₁.setPayload (by simp) trivial (by simp [hnull, Payload.blocks]),
      fun x hx => ?_, Or.inl ⟨rfl, Or.inl rfl⟩⟩
    rw [payload_setPayload_of_ne (hb x hx), hkeep x hx]

theorem Holds.parseNumberValue_some {d : D} {q : ℕ} (hh : Holds h xs m)
    (hnum : num p = some (d, q)) :
    Simulates a h xs m (JsonHeap.parseNumberValue a num p h) (.ok (.num d, q)) := by
  unfold JsonHeap.parseNumberValue
  rcases hh.valueAlloc a with ⟨h₁, heq, hh₁, hkeep, hn⟩ | ⟨b, h₁, heq, hh₁, hkeep, hnull⟩
  · rw [heq]
    exact Simulates.fail hh₁ hkeep (Or.inr hn)
  · rw [heq]
    simp only [hnum]
    exact Simulates.leaf hh₁ hkeep hnull trivial (by simp [Payload.blocks])
      fun nodes hnode => ⟨by simp, hnode⟩

theorem Holds.parseStringValue {c : UInt8} {o : Outcome (Value D × ℕ)} (hh : Holds h xs m)
    (hp : peek mem len p = some c) (hnone : Json.parseStringRaw mem len p = none → o = .fail)
    (hsome : ∀ s q, Json.parseStringRaw mem len p = some (s, q) → o = .ok (.str s, q)) :
    Simulates a h xs m (JsonHeap.parseStringValue a mem len p h) o := by
  unfold JsonHeap.parseStringValue
  rcases hh.parseStringRaw hp a with ⟨h₁, heq, hh₁, hnodes, hfail⟩ | ⟨s, q, h₁, heq, hh₁, hnodes, hs⟩
  · rw [heq]
    exact Simulates.fail hh₁ (fun x _ => by rw [hnodes]) (hfail.imp_left hnone)
  · rw [heq, hsome _ _ hs]
    dsimp only
    rcases hh₁.valueAlloc a with ⟨h₂, heq₂, hh₂, hkeep, hn⟩ | ⟨b, h₂, heq₂, hh₂, hkeep, hnull⟩
    · rw [heq₂]
      exact Simulates.fail hh₂.free (fun x hx => by rw [← hnodes]; exact hkeep x hx) (Or.inr hn)
    · rw [heq₂]
      exact Simulates.leaf hh₂ (fun x hx => by rw [← hnodes]; exact hkeep x hx) hnull trivial
        (by simp [Payload.blocks, ptrBlocks]) fun nodes hnode => ⟨by simp, s, hnode, rfl⟩

/-- The loop for the record `x` of the chain `xs`, which has the records `ys` behind it so far. -/
def LoopSimulates (a : Allocator) (x : ℕ) (h : Heap D) (xs ys : List ℕ) (m : Multiset ℕ)
    (r : Outcome (ℕ × ℕ) × Heap D) (o : Outcome (Value D × ℕ)) : Prop :=
  (r.1 = .stuck ∧ o = .stuck) ∨
    ∃ zs, Holds r.2 (xs ++ (ys ++ zs)) m ∧
      (∀ y ∈ xs, y ≠ x → (r.2.nodes y).payload = (h.nodes y).payload) ∧
      ((r.1 = .fail ∧ (o = .fail ∨ Refuses a)) ∨
        ∃ v q, r.1 = .ok (x, q) ∧ o = .ok (v, q) ∧ Denotes r.2.nodes (x :: (ys ++ zs)) x v)

/-- What the two parsers have in common before a round of the loop of `parse_array`. -/
structure ArrayLoop (h : Heap D) (xs ys : List ℕ) (m : Multiset ℕ) (x : ℕ) (r : ArrayRec)
    (g : Growable (Value D)) : Prop where
  holds : Holds h (xs ++ ys) m
  mem : x ∈ xs
  payload : (h.nodes x).payload = .arr r
  capacity : r.items.capacity = g.capacity
  items : DenotesItems h.nodes ys r.items.items g.items

/-- The same for `parse_object`. -/
structure ObjectLoop (h : Heap D) (xs ys : List ℕ) (m : Multiset ℕ) (x : ℕ) (r : ObjectRec)
    (g : Growable (List UInt8 × Value D)) : Prop where
  holds : Holds h (xs ++ ys) m
  mem : x ∈ xs
  payload : (h.nodes x).payload = .obj r
  capacity : r.members.capacity = g.capacity
  members : DenotesMembers h.nodes ys r.members.items g.items

structure Simulation (a : Allocator) (mem : List UInt8) (len : ℕ) (num : ℕ → Option (D × ℕ))
    (fuel : ℕ) : Prop where
  value : ∀ {h xs m} p, Holds h xs m → Simulates a h xs m (parseValue a mem len num fuel p h)
    (Json.parseValue mem len (Json.parseStringRaw mem len) num fuel p)
  array : ∀ {h xs m} p, Holds h xs m → Simulates a h xs m (parseArray a mem len num fuel p h)
    (Json.parseArray mem len (Json.parseStringRaw mem len) num fuel p)
  elements : ∀ {h xs ys m x r g} p, ArrayLoop h xs ys m x r g →
    LoopSimulates a x h xs ys m (parseElements a mem len num fuel p x h)
      (Json.parseElements mem len (Json.parseStringRaw mem len) num fuel p g)
  object : ∀ {h xs m} p, Holds h xs m → Simulates a h xs m (parseObject a mem len num fuel p h)
    (Json.parseObject mem len (Json.parseStringRaw mem len) num fuel p)
  members : ∀ {h xs ys m x r g} p, ObjectLoop h xs ys m x r g →
    LoopSimulates a x h xs ys m (parseMembers a mem len num fuel p x h)
      (Json.parseMembers mem len (Json.parseStringRaw mem len) num fuel p g)

section Steps

variable {fuel : ℕ} (ih : Simulation a mem len num fuel)
include ih

theorem Simulation.parseValue_succ (p : ℕ) (hh : Holds h xs m) :
    Simulates a h xs m (parseValue a mem len num (fuel + 1) p h)
      (Json.parseValue mem len (Json.parseStringRaw mem len) num (fuel + 1) p) := by
  rw [parseValue, Json.parseValue]
  cases hc : peek mem len (skipWs mem len p) with
  | none => exact Simulates.fail hh Keeps.refl (Or.inl rfl)
  | some c =>
    dsimp only
    split_ifs
    · exact hh.parseLiteral trivial rfl fun nodes b hb => ⟨by simp, hb⟩
    · exact hh.parseLiteral trivial rfl fun nodes b hb => ⟨by simp, hb⟩
    · exact hh.parseLiteral trivial rfl fun nodes b hb => ⟨by simp, hb⟩
    · exact ih.array _ hh
    · exact ih.object _ hh
    · exact hh.parseStringValue hc (fun hs => by simp [hs]) fun s q hs => by simp [hs]
    · rcases hn : num (skipWs mem len p) with _ | ⟨d, q⟩
      · exact hh.parseNumberValue_none hn
      · exact hh.parseNumberValue_some hn
    · exact Simulates.fail hh Keeps.refl (Or.inl rfl)

omit ih in
/-- A loop that starts with a record just chained ends as the function around it. -/
theorem LoopSimulates.simulates {x : ℕ} {r : Outcome (ℕ × ℕ) × Heap D}
    {o : Outcome (Value D × ℕ)} (hr : LoopSimulates a x h' (xs ++ [x]) [] m r o)
    (hkeep : Keeps h h' xs) (hx : x ∉ xs) : Simulates a h xs m r o := by
  rcases hr with hstuck | ⟨zs, hh, hother, hend⟩
  · exact Or.inl hstuck
  · refine Or.inr ⟨x :: zs, by simpa using hh, fun y hy => ?_, ?_⟩
    · rw [hother y (by simp [hy]) fun he => hx (he ▸ hy), hkeep y hy]
    · rcases hend with hfail | ⟨v, q, hok, ho, hd⟩
      · exact Or.inl hfail
      · exact Or.inr ⟨x, v, q, hok, ho, by simpa using hd⟩

theorem Simulation.parseArray_succ (p : ℕ) (hh : Holds h xs m) :
    Simulates a h xs m (parseArray a mem len num (fuel + 1) p h)
      (Json.parseArray mem len (Json.parseStringRaw mem len) num (fuel + 1) p) := by
  rw [parseArray, Json.parseArray]
  by_cases hopen : peek mem len p = some chLBracket
  · rw [if_neg (not_not.mpr hopen), if_neg (not_not.mpr hopen)]
    rcases hh.valueAlloc a with ⟨h₁, heq, hh₁, hkeep, hn⟩ | ⟨x, h₁, heq, hh₁, hkeep, hnull⟩
    · rw [heq]
      exact Simulates.fail hh₁ hkeep (Or.inr hn)
    · have hx : x ∉ xs := fun hx => (List.nodup_append.mp hh₁.nodup).2.2 x hx x (by simp) rfl
      rw [heq]
      dsimp only
      by_cases hempty : peek mem len (skipWs mem len (p + 1)) = some chRBracket
      · rw [if_pos hempty, if_pos hempty]
        exact Simulates.leaf hh₁ hkeep hnull (fun _ => rfl) (by simp [Payload.blocks, ptrBlocks])
          fun nodes hnode => ⟨by simp, _, hnode, trivial⟩
      · rw [if_neg hempty, if_neg hempty]
        have hh₂ : Holds (h₁.setPayload x (.arr ⟨none, ⟨[], 0⟩⟩)) (xs ++ [x]) m :=
          hh₁.setPayload (by simp) (fun _ => rfl) (by simp [hnull, Payload.blocks, ptrBlocks])
        rw [hh₂.use_node (by simp)]
        have hloop : ArrayLoop (h₁.setPayload x (.arr ⟨none, ⟨[], 0⟩⟩)) (xs ++ [x]) [] m x
            ⟨none, ⟨[], 0⟩⟩ ⟨[], 0⟩ :=
          ⟨by simpa using hh₂, by simp, payload_setPayload_same, rfl, trivial⟩
        refine (ih.elements _ hloop).simulates (fun y hy => ?_) hx
        have hyx : y ≠ x := fun he => hx (he ▸ hy)
        rw [payload_setPayload_of_ne hyx, hkeep y hy]
  · rw [if_pos hopen, if_pos hopen]
    exact Simulates.fail hh Keeps.refl (Or.inl rfl)

theorem Simulation.parseObject_succ (p : ℕ) (hh : Holds h xs m) :
    Simulates a h xs m (parseObject a mem len num (fuel + 1) p h)
      (Json.parseObject mem len (Json.parseStringRaw mem len) num (fuel + 1) p) := by
  rw [parseObject, Json.parseObject]
  by_cases hopen : peek mem len p = some chLBrace
  · rw [if_neg (not_not.mpr hopen), if_neg (not_not.mpr hopen)]
    rcases hh.valueAlloc a with ⟨h₁, heq, hh₁, hkeep, hn⟩ | ⟨x, h₁, heq, hh₁, hkeep, hnull⟩
    · rw [heq]
      exact Simulates.fail hh₁ hkeep (Or.inr hn)
    · have hx : x ∉ xs := fun hx => (List.nodup_append.mp hh₁.nodup).2.2 x hx x (by simp) rfl
      have hwf : (Payload.obj ⟨none, none, ⟨[], 0⟩⟩ : Payload D).Wf :=
        ⟨fun _ => ⟨rfl, rfl⟩, fun _ => rfl⟩
      rw [heq]
      dsimp only
      by_cases hempty : peek mem len (skipWs mem len (p + 1)) = some chRBrace
      · rw [if_pos hempty, if_pos hempty]
        exact Simulates.leaf hh₁ hkeep hnull hwf (by simp [Payload.blocks, ptrBlocks, keyBlocks])
          fun nodes hnode => ⟨by simp, _, hnode, trivial⟩
      · rw [if_neg hempty, if_neg hempty]
        have hh₂ : Holds (h₁.setPayload x (.obj ⟨none, none, ⟨[], 0⟩⟩)) (xs ++ [x]) m :=
          hh₁.setPayload (by simp) hwf (by simp [hnull, Payload.blocks, ptrBlocks, keyBlocks])
        rw [hh₂.use_node (by simp)]
        have hloop : ObjectLoop (h₁.setPayload x (.obj ⟨none, none, ⟨[], 0⟩⟩)) (xs ++ [x]) [] m x
            ⟨none, none, ⟨[], 0⟩⟩ ⟨[], 0⟩ :=
          ⟨by simpa using hh₂, by simp, payload_setPayload_same, rfl, trivial⟩
        refine (ih.members _ hloop).simulates (fun y hy => ?_) hx
        have hyx : y ≠ x := fun he => hx (he ▸ hy)
        rw [payload_setPayload_of_ne hyx, hkeep y hy]
  · rw [if_pos hopen, if_pos hopen]
    exact Simulates.fail hh Keeps.refl (Or.inl rfl)

omit ih in
theorem LoopSimulates.fail {x : ℕ} {xs ys : List ℕ} {o : Outcome (Value D × ℕ)} (zs : List ℕ)
    (hh : Holds h' (xs ++ (ys ++ zs)) m)
    (hother : ∀ y ∈ xs, y ≠ x → (h'.nodes y).payload = (h.nodes y).payload)
    (ho : o = .fail ∨ Refuses a) : LoopSimulates a x h xs ys m (.fail, h') o :=
  Or.inr ⟨zs, hh, hother, Or.inl ⟨rfl, ho⟩⟩

omit ih in
/-- What follows after the records `zs` were added and only `x` was changed. -/
theorem LoopSimulates.later {x : ℕ} {ys zs : List ℕ} {r : Outcome (ℕ × ℕ) × Heap D}
    {o : Outcome (Value D × ℕ)} (hr : LoopSimulates a x h' xs (ys ++ zs) m r o)
    (hother : ∀ y ∈ xs, y ≠ x → (h'.nodes y).payload = (h.nodes y).payload) :
    LoopSimulates a x h xs ys m r o := by
  rcases hr with hstuck | ⟨us, hh, hother', hend⟩
  · exact Or.inl hstuck
  · rw [List.append_assoc] at hh hend
    exact Or.inr ⟨zs ++ us, hh, fun y hy hne => (hother' y hy hne).trans (hother y hy hne), hend⟩

omit ih in
/-- After an element was parsed and stored, the loop is where it was, one element further. -/
theorem ArrayLoop.next {x elem : ℕ} {h₁ h₂ : Heap D} {ys zs : List ℕ} {r r' : ArrayRec}
    {g g' : Growable (Value D)} {v : Value D} (hl : ArrayLoop h xs ys m x r g)
    (hkeep : Keeps h h₁ (xs ++ ys)) (hd : Denotes h₁.nodes zs elem v)
    (hh : Holds h₂ (xs ++ ys ++ zs) m) (hbut : KeepsBut x h₁ h₂)
    (hr' : (h₂.nodes x).payload = .arr r') (hitems : r'.items.items = r.items.items ++ [elem])
    (hitems' : g'.items = g.items ++ [v]) (hcap : r'.items.capacity = g'.capacity) :
    ArrayLoop h₂ xs (ys ++ zs) m x r' g' := by
  have hnew : ∀ y ∈ ys ++ zs, y ≠ x := fun y hy he => by
    have hnd := hh.nodup
    rw [List.append_assoc] at hnd
    exact (List.nodup_append.mp hnd).2.2 x hl.mem y hy he.symm
  refine ⟨by rwa [List.append_assoc] at hh, hl.mem, hr', hcap, ?_⟩
  rw [hitems, hitems']
  refine DenotesItems.snoc (hl.items.mono ⟨fun y hy => ?_, by simp⟩) (hd.mono ⟨fun y hy => ?_, by simp⟩)
  · rw [hbut y (hnew y (by simp [hy])), hkeep y (by simp [hy])]
  · rw [hbut y (hnew y (by simp [hy]))]

theorem Simulation.parseElements_succ {x : ℕ} {ys : List ℕ} {r : ArrayRec} {g : Growable (Value D)}
    (p : ℕ) (hl : ArrayLoop h xs ys m x r g) :
    LoopSimulates a x h xs ys m (parseElements a mem len num (fuel + 1) p x h)
      (Json.parseElements mem len (Json.parseStringRaw mem len) num (fuel + 1) p g) := by
  rw [parseElements, Json.parseElements]
  obtain ⟨⟨res, h₁⟩, hres⟩ : ∃ res, res = parseValue a mem len num fuel p h := ⟨_, rfl⟩
  rcases hres ▸ ih.value p hl.holds with ⟨hstuck, ho⟩ | ⟨zs, hh₁, hkeep, hend⟩
  · simp only at hstuck
    simp only [← hres, hstuck, ho]
    exact Or.inl ⟨rfl, rfl⟩
  have hother : ∀ y ∈ xs, y ≠ x → (h₁.nodes y).payload = (h.nodes y).payload :=
    fun y hy _ => hkeep y (by simp [hy])
  simp only at hh₁ hend
  rcases hend with ⟨hfail, ho⟩ | ⟨elem, v, q, hok, ho, hd⟩
  · simp only [← hres, hfail]
    refine LoopSimulates.fail zs (by rwa [List.append_assoc] at hh₁) hother (ho.imp_left fun ho => ?_)
    simp [ho]
  have hr₁ : (h₁.nodes x).payload = .arr r := by rw [hkeep x (by simp [hl.mem]), hl.payload]
  simp only [← hres, hok, ho, hr₁]
  rw [hh₁.use_node (by simp [hl.mem])]
  have hlen := hl.items.length_eq
  rcases hh₁.arrayAppend (by simp [hl.mem]) hr₁ a elem with
    ⟨h₂, heq, hh₂, hnodes, hn⟩ | ⟨h₂, heq, hpush⟩ | ⟨h₂, r', heq, hh₂, hbut, hr', hpush⟩
  · simp only [heq]
    exact LoopSimulates.fail zs (by rwa [List.append_assoc] at hh₂)
      (fun y hy hne => by rw [hnodes, hother y hy hne]) (Or.inr hn)
  · rcases push_alike elem v hlen hl.capacity with ⟨-, hpush'⟩ | ⟨u, u', hu, -⟩
    · simp only [heq, hpush']
      exact Or.inl ⟨rfl, rfl⟩
    · simp [hpush] at hu
  · rcases push_alike elem v hlen hl.capacity with ⟨hu, -⟩ | ⟨u, u', hu, hu', hitems, hitems', hcap⟩
    · simp [hpush] at hu
    obtain rfl : r'.items = u := Option.some.inj (hpush.symm.trans hu)
    have hnext := hl.next hkeep hd hh₂ hbut hr' hitems hitems' hcap
    have hother₂ : ∀ y ∈ xs, y ≠ x → (h₂.nodes y).payload = (h.nodes y).payload :=
      fun y hy hne => by rw [hbut y hne, hother y hy hne]
    simp only [heq, hu']
    rcases parseArraySeparator mem len q with _ | ⟨_ | _, q'⟩
    · exact LoopSimulates.fail zs hnext.holds hother₂ (Or.inl rfl)
    · exact (ih.elements q' hnext).later hother₂
    · refine Or.inr ⟨zs, hnext.holds, hother₂, Or.inr ⟨_, q', rfl, rfl, by simp, r', hr', ?_⟩⟩
      exact hnext.items.mono ⟨fun _ _ => rfl, by simp⟩

omit ih in
theorem ObjectLoop.next {x val : ℕ} {key : CString} {h₁ h₂ : Heap D} {ys zs : List ℕ}
    {r r' : ObjectRec} {g g' : Growable (List UInt8 × Value D)} {v : Value D}
    (hl : ObjectLoop h xs ys m x r g) (hkeep : Keeps h h₁ (xs ++ ys))
    (hd : Denotes h₁.nodes zs val v) (hh : Holds h₂ (xs ++ ys ++ zs) m) (hbut : KeepsBut x h₁ h₂)
    (hr' : (h₂.nodes x).payload = .obj r')
    (hitems : r'.members.items = r.members.items ++ [(key, val)])
    (hitems' : g'.items = g.items ++ [(key.text, v)])
    (hcap : r'.members.capacity = g'.capacity) : ObjectLoop h₂ xs (ys ++ zs) m x r' g' := by
  have hnew : ∀ y ∈ ys ++ zs, y ≠ x := fun y hy he => by
    have hnd := hh.nodup
    rw [List.append_assoc] at hnd
    exact (List.nodup_append.mp hnd).2.2 x hl.mem y hy he.symm
  refine ⟨by rwa [List.append_assoc] at hh, hl.mem, hr', hcap, ?_⟩
  rw [hitems, hitems']
  refine DenotesMembers.snoc (hl.members.mono ⟨fun y hy => ?_, by simp⟩)
    (hd.mono ⟨fun y hy => ?_, by simp⟩)
  · rw [hbut y (hnew y (by simp [hy])), hkeep y (by simp [hy])]
  · rw [hbut y (hnew y (by simp [hy]))]

theorem Simulation.parseMembers_succ {x : ℕ} {ys : List ℕ} {r : ObjectRec}
    {g : Growable (List UInt8 × Value D)} (p : ℕ) (hl : ObjectLoop h xs ys m x r g) :
    LoopSimulates a x h xs ys m (parseMembers a mem len num (fuel + 1) p x h)
      (Json.parseMembers mem len (Json.parseStringRaw mem len) num (fuel + 1) p g) := by
  rw [parseMembers, Json.parseMembers]
  dsimp only
  have hstart : Holds h (xs ++ (ys ++ [])) m := by simpa using hl.holds
  by_cases hquote : peek mem len (skipWs mem len p) = some chQuote
  swap
  · rw [if_pos hquote, if_pos hquote]
    exact LoopSimulates.fail [] hstart (fun _ _ _ => rfl) (Or.inl rfl)
  rw [if_neg (not_not.mpr hquote), if_neg (not_not.mpr hquote)]
  -- the key, which belongs to the parser until it is stored
  rcases hl.holds.parseStringRaw hquote a with
    ⟨h₀, heq₀, hh₀, hnodes₀, hfail⟩ | ⟨key, q₀, h₀, heq₀, hh₀, hnodes₀, hkey⟩
  · simp only [heq₀]
    exact LoopSimulates.fail [] (by simpa using hh₀) (fun y _ _ => by rw [hnodes₀])
      (hfail.imp_left fun hs => by simp [hs])
  simp only [heq₀, hkey]
  by_cases hcolon : peek mem len (skipWs mem len q₀) = some chColon
  swap
  · rw [if_pos hcolon, if_pos hcolon]
    exact LoopSimulates.fail [] (by simpa using hh₀.free) (fun y _ _ => by
      simp only [Heap.free, hnodes₀]) (Or.inl rfl)
  rw [if_neg (not_not.mpr hcolon), if_neg (not_not.mpr hcolon)]
  obtain ⟨⟨res, h₁⟩, hres⟩ : ∃ res, res =
    parseValue a mem len num fuel (skipWs mem len q₀ + 1) h₀ := ⟨_, rfl⟩
  rcases hres ▸ ih.value (skipWs mem len q₀ + 1) hh₀ with ⟨hstuck, ho⟩ | ⟨zs, hh₁, hkeep₀, hend⟩
  · simp only at hstuck
    simp only [← hres, hstuck, ho]
    exact Or.inl ⟨rfl, rfl⟩
  have hkeep : Keeps h h₁ (xs ++ ys) := fun y hy => (hkeep₀ y hy).trans (by rw [hnodes₀])
  have hother : ∀ y ∈ xs, y ≠ x → (h₁.nodes y).payload = (h.nodes y).payload :=
    fun y hy _ => hkeep y (by simp [hy])
  simp only at hh₁ hend
  rcases hend with ⟨hfail, ho⟩ | ⟨val, v, q, hok, ho, hd⟩
  · simp only [← hres, hfail]
    refine LoopSimulates.fail zs ?_ hother (ho.imp_left fun ho => ?_)
    · rw [← List.append_assoc]
      exact hh₁.free
    · simp [ho]
  have hr₁ : (h₁.nodes x).payload = .obj r := by rw [hkeep x (by simp [hl.mem]), hl.payload]
  simp only [← hres, hok, ho, hr₁]
  rw [hh₁.use_node (by simp [hl.mem])]
  have hlen := hl.members.length_eq
  rcases hh₁.objectAppend (by simp [hl.mem]) hr₁ a val with
    ⟨h₂, heq, hh₂, hnodes, hn⟩ | ⟨h₂, heq, hpush⟩ | ⟨h₂, r', heq, hh₂, hbut, hr', hpush⟩
  · simp only [heq]
    refine LoopSimulates.fail zs ?_ (fun y hy hne => ?_) (Or.inr hn)
    · rw [← List.append_assoc]
      exact hh₂.free
    · simp only [Heap.free, hnodes]
      exact hother y hy hne
  · rcases push_alike (key, val) (key.text, v) hlen hl.capacity with ⟨-, hpush'⟩ | ⟨u, u', hu, -⟩
    · simp only [heq, hpush']
      exact Or.inl ⟨rfl, rfl⟩
    · simp [hpush] at hu
  · rcases push_alike (key, val) (key.text, v) hlen hl.capacity with
      ⟨hu, -⟩ | ⟨u, u', hu, hu', hitems, hitems', hcap⟩
    · simp [hpush] at hu
    obtain rfl : r'.members = u := Option.some.inj (hpush.symm.trans hu)
    have hnext := hl.next hkeep hd hh₂ hbut hr' hitems hitems' hcap
    have hother₂ : ∀ y ∈ xs, y ≠ x → (h₂.nodes y).payload = (h.nodes y).payload :=
      fun y hy hne => by rw [hbut y hne, hother y hy hne]
    simp only [heq, hu']
    rcases parseObjectSeparator mem len q with _ | ⟨_ | _, q'⟩
    · exact LoopSimulates.fail zs hnext.holds hother₂ (Or.inl rfl)
    · exact (ih.members q' hnext).later hother₂
    · refine Or.inr ⟨zs, hnext.holds, hother₂, Or.inr ⟨_, q', rfl, rfl, by simp, r', hr', ?_⟩⟩
      exact hnext.members.mono ⟨fun _ _ => rfl, by simp⟩

end Steps

theorem simulation (fuel : ℕ) : Simulation a mem len num fuel := by
  induction fuel with
  | zero =>
    refine ⟨fun p _ => Or.inl ?_, fun p _ => Or.inl ?_, fun p _ => Or.inl ?_, fun p _ => Or.inl ?_,
      fun p _ => Or.inl ?_⟩
    all_goals exact ⟨rfl, rfl⟩
  | succ fuel ih =>
    exact ⟨ih.parseValue_succ, ih.parseArray_succ, ih.parseElements_succ, ih.parseObject_succ,
      ih.parseMembers_succ⟩

end Simulation

end LibZenit.JsonHeap
