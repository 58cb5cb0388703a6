import LibZenit.JsonDomEdits
import LibZenit.JsonHeapSafety
import LibZenit.JsonOwnRequests

/-!
# Runs of the document API

A client builds a document by calls and looks only into values that the constructors returned. The
induction over the run carries `Represents`; the values known to the client are on the chain. If the
client also stores only such values, all contents it can reach are sound.
-/
namespace LibZenit.JsonHeap
open Json BlockLedger

variable {D : Type}

/-! ## One call -/

/-- The constructors. -/
def DomOp.makes : DomOp D → Bool
  | .make _ => true
  | _ => false

/-- The pointer that a constructor returned. -/
def DomOp.made : DomOp D → Reply D → List ℕ
  | .make _, .pointer (some p) => [p]
  | _, _ => []

variable {h : Heap D} {xs : List ℕ} {m : Multiset ℕ} {d : Doc D} {a : Allocator} {op : DomOp D}

theorem made_eq_nil {reply : Reply D} (hop : op.makes = false) : op.made reply = [] := by
  cases op with
  | make mk => cases hop
  | _ => rfl

/-- What a constructor may do. -/
def Constructs (a : Allocator) (xs : List ℕ) (m : Multiset ℕ) (d : Doc D) (c : Content D)
    (res : Option ℕ × Heap D) : Prop :=
  (∃ b, res.1 = some b ∧ d.values b = none ∧ Represents res.2 (xs ++ [b]) m (d.put b c)) ∨
    (res.1 = none ∧ Refuses a ∧ (Represents res.2 xs m d ∨
      ∃ b, d.values b = none ∧ Represents res.2 (xs ++ [b]) m (d.put b (.str none))))

theorem Represents.constructs_valueOf (h₀ : Represents h xs m d) (a : Allocator)
    (payload : Payload D) (hwf : payload.Wf) (hready : payload.Ready)
    (hblocks : payload.blocks = 0) :
    Constructs a xs m d payload.content (JsonHeap.valueOf a payload h) := by
  rcases h₀.valueOf a hwf hready hblocks with ⟨h₁, heq, h₁', hn⟩ | ⟨b, h₁, heq, hfresh, h₁'⟩
  · rw [heq]
    exact Or.inr ⟨rfl, hn, Or.inl h₁'⟩
  · rw [heq]
    exact Or.inl ⟨b, rfl, hfresh, h₁'⟩

theorem Represents.constructs (h₀ : Represents h xs m d) (a : Allocator) (mk : Made D) :
    Constructs a xs m d mk.content (make a h mk) := by
  cases mk with
  | null => exact h₀.constructs_valueOf a .null trivial trivial rfl
  | bool v => exact h₀.constructs_valueOf a (.bool (v ≠ 0)) trivial trivial rfl
  | number v => exact h₀.constructs_valueOf a (.num (some v)) trivial trivial rfl
  | array =>
    exact h₀.constructs_valueOf a (.arr ⟨none, ⟨[], 0⟩⟩) (fun _ => rfl) Growable.Ready.empty rfl
  | object =>
    exact h₀.constructs_valueOf a (.obj ⟨none, none, ⟨[], 0⟩⟩) ⟨fun _ => ⟨rfl, rfl⟩, fun _ => rfl⟩
      Growable.Ready.empty rfl
  | string s =>
    rcases h₀.valueString a s with
      ⟨h₁, heq, h₁', hn⟩ | ⟨b, h₁, heq, hfresh, h₁', hn⟩ | ⟨b, h₁, heq, hfresh, h₁'⟩
    · simp only [make, heq]
      exact Or.inr ⟨rfl, hn, Or.inl h₁'⟩
    · simp only [make, heq]
      exact Or.inr ⟨rfl, hn, Or.inr ⟨b, hfresh, h₁'⟩⟩
    · simp only [make, heq]
      exact Or.inl ⟨b, rfl, hfresh, h₁'⟩

theorem step_of_answer {refuses : Prop} {reply : Reply D} {d' : Doc D}
    (hop : op.makes = false)
    (h : (reply, d') = d.answer op ∨ (refuses ∧ op.allocates ∧ reply = .code .alloc ∧ d' = d)) :
    d.Step refuses op reply d' := by
  cases op with
  | make mk => cases hop
  | _ => exact h

theorem Doc.Step.mono {refuses refuses' : Prop} {reply : Reply D} {d' : Doc D}
    (h : d.Step refuses op reply d') (himp : refuses → refuses') :
    d.Step refuses' op reply d' := by
  cases op with
  | make mk => exact h.imp_right fun ⟨hr, hrest⟩ => ⟨himp hr, hrest⟩
  | _ => exact h.imp_right fun ⟨hr, hrest⟩ => ⟨himp hr, hrest⟩

/-- Every call but a constructor stays on the same chain. -/
def Steps (refuses : Prop) (xs : List ℕ) (m : Multiset ℕ) (d : Doc D) (op : DomOp D)
    (res : Reply D × Heap D) : Prop :=
  ∃ xs' d', Represents res.2 xs' m d' ∧ xs ⊆ xs' ∧ op.made res.1 ⊆ xs' ∧
    d.Step refuses op res.1 d'

theorem Steps.mono {refuses refuses' : Prop} {res : Reply D × Heap D}
    (h : Steps refuses xs m d op res) (himp : refuses → refuses') :
    Steps refuses' xs m d op res := by
  obtain ⟨xs', d', hrep, hsub, hmade, hstep⟩ := h
  exact ⟨xs', d', hrep, hsub, hmade, hstep.mono himp⟩

theorem Answers.steps {res : Reply D × Heap D} (hop : op.makes = false)
    (hres : Answers xs m res (d.answer op)) : Steps (Refuses a) xs m d op res := by
  refine ⟨xs, _, hres.1, List.Subset.refl _, ?_, step_of_answer hop (Or.inl ?_)⟩
  · rw [made_eq_nil hop]
    exact List.nil_subset _
  · rw [hres.2]

theorem Edits.steps {res : Reply D × Heap D} (hop : op.makes = false) (halloc : op.allocates)
    (hres : Edits a xs m d res (d.answer op)) : Steps (Refuses a) xs m d op res := by
  rcases hres with hres | ⟨hrep, hreply, hn⟩
  · exact hres.steps hop
  · refine ⟨xs, d, hrep, List.Subset.refl _, ?_, step_of_answer hop (Or.inr ?_)⟩
    · rw [made_eq_nil hop]
      exact List.nil_subset _
    · exact ⟨hn, halloc, hreply, rfl⟩

theorem Constructs.steps {mk : Made D} {res : Option ℕ × Heap D}
    (hres : Constructs a xs m d mk.content res) :
    Steps (Refuses a) xs m d (.make mk) (.pointer res.1, res.2) := by
  rcases hres with ⟨b, hb, hfresh, hrep⟩ | ⟨hnone, hn, hrep | ⟨b, hfresh, hrep⟩⟩
  · refine ⟨xs ++ [b], _, hrep, List.subset_append_left _ _, ?_, Or.inl ⟨b, hfresh, ?_, rfl⟩⟩
    · simp [hb, DomOp.made]
    · simp only [hb]
  · refine ⟨xs, d, hrep, List.Subset.refl _, ?_, Or.inr ⟨hn, ?_, Or.inl rfl⟩⟩
    · simp [hnone, DomOp.made]
    · simp only [hnone]
  · refine ⟨xs ++ [b], _, hrep, List.subset_append_left _ _, ?_,
      Or.inr ⟨hn, ?_, Or.inr ⟨b, hfresh, rfl⟩⟩⟩
    · simp [hnone, DomOp.made]
    · simp only [hnone]

/-- A call that leaves the heap alone. -/
theorem Represents.reads {res : Reply D × Heap D} {answer : Reply D × Doc D}
    (h₀ : Represents h xs m d) (hres : res = (answer.1, h)) (hd : answer.2 = d) :
    Answers xs m res answer := by
  rw [hres]
  exact ⟨hd ▸ h₀, rfl⟩

/-- One call that looks only into a record of the document, with refusals by the allocator. -/
theorem Represents.call_refuses (h₀ : Represents h xs m d) (a : Allocator) (op : DomOp D)
    (hop : ∀ x ∈ op.target, x ∈ xs) :
    Steps (Refuses a) xs m d op (JsonHeap.call a h op) := by
  cases op with
  | make mk => exact (h₀.constructs a mk).steps
  | arrayAppend arr item =>
    refine Edits.steps rfl rfl ?_
    rcases arr with _ | arr
    · exact Or.inl ⟨h₀, rfl⟩
    · rcases item with _ | item
      · exact Or.inl ⟨h₀, rfl⟩
      · exact h₀.arrayAppend (hop arr rfl) a item
  | arrayRemove arr index =>
    refine Answers.steps rfl ?_
    rcases arr with _ | arr
    · exact ⟨h₀, rfl⟩
    · exact h₀.arrayRemove (hop arr rfl) index
  | arrayInsert arr index item =>
    refine Edits.steps rfl rfl ?_
    rcases arr with _ | arr
    · exact Or.inl ⟨h₀, rfl⟩
    · rcases item with _ | item
      · exact Or.inl ⟨h₀, rfl⟩
      · exact h₀.arrayInsert (hop arr rfl) a index item
  | objectSet obj key val =>
    refine Edits.steps rfl rfl ?_
    rcases obj with _ | obj
    · exact Or.inl ⟨h₀, rfl⟩
    · rcases key with _ | key
      · exact Or.inl ⟨h₀, rfl⟩
      · rcases val with _ | val
        · exact Or.inl ⟨h₀, rfl⟩
        · exact h₀.objectSet (hop obj rfl) a key val
  | objectRemove obj key =>
    refine Answers.steps rfl ?_
    rcases obj with _ | obj
    · exact ⟨h₀, rfl⟩
    · rcases key with _ | key
      · exact ⟨h₀, rfl⟩
      · exact h₀.objectRemove (hop obj rfl) key
  | setRoot val =>
    refine Answers.steps rfl ⟨?_, rfl⟩
    simp only [JsonHeap.call, zenitJsonSetRoot, h₀.holds.use_doc]
    exact ⟨h₀.holds.off_chain rfl rfl rfl rfl fun _ _ => rfl, h₀.ready, h₀.value, h₀.other, rfl⟩
  | root =>
    refine Answers.steps rfl ?_
    simp only [JsonHeap.call, zenitJsonRoot, h₀.holds.use_doc]
    exact ⟨h₀, by rw [← h₀.root]; rfl⟩
  | arrayCount val =>
    exact Answers.steps rfl (h₀.reads (h₀.arrayCount hop) rfl)
  | arrayGet val index =>
    exact Answers.steps rfl (h₀.reads (h₀.arrayGet hop) rfl)
  | objectCount val =>
    exact Answers.steps rfl (h₀.reads (h₀.objectCount hop) rfl)
  | objectKey val index =>
    exact Answers.steps rfl (h₀.reads (h₀.objectKey hop) rfl)
  | objectValueAt val index =>
    exact Answers.steps rfl (h₀.reads (h₀.objectValueAt hop) rfl)
  | objectGet val key =>
    refine Answers.steps rfl ?_
    rcases key with _ | key
    · exact h₀.reads (h₀.objectGet_null hop) rfl
    · exact h₀.reads (h₀.objectGet hop key) rfl
  | getString val =>
    exact Answers.steps rfl (h₀.reads (h₀.getString hop) rfl)
  | valueType val =>
    exact Answers.steps rfl (h₀.reads (h₀.valueType hop) rfl)
  | isNull val =>
    exact Answers.steps rfl (h₀.reads (h₀.isNull hop) rfl)
  | getBool val =>
    exact Answers.steps rfl (h₀.reads (h₀.getBool hop) rfl)
  | getNumber val =>
    exact Answers.steps rfl (h₀.reads (h₀.getNumber hop) rfl)

/-- A refusal is one of the call's own requests: without one the call is that of the allocator that
refuses nothing. -/
theorem Represents.call (h₀ : Represents h xs m d) (a : Allocator) (op : DomOp D)
    (hop : ∀ x ∈ op.target, x ∈ xs) :
    Steps (Refused a h.ledger (JsonHeap.call a h op).2.ledger) xs m d op
      (JsonHeap.call a h op) := by
  by_cases hrefused : Refused a h.ledger (JsonHeap.call a h op).2.ledger
  · exact (h₀.call_refuses a op hop).mono fun _ => hrefused
  · have hsteps := h₀.call_refuses a.willing op hop
    rw [agrees_call.eq_willing hrefused] at hsteps
    exact hsteps.mono fun ⟨n, hn⟩ => nomatch hn

/-! ## Runs -/

/-- The client looks only into values that earlier constructors returned. -/
def Disciplined (a : Allocator) : Heap D → List ℕ → List (DomOp D) → Prop
  | _, _, [] => True
  | h, known, op :: ops => (∀ x ∈ op.target, x ∈ known) ∧
      Disciplined a (call a h op).2 (known ++ op.made (call a h op).1) ops

instance instDecidableDisciplined (a : Allocator) : (h : Heap D) → (known : List ℕ) →
    (ops : List (DomOp D)) → Decidable (Disciplined a h known ops)
  | _, _, [] => .isTrue trivial
  | h, known, op :: ops =>
    have := instDecidableDisciplined a (call a h op).2 (known ++ op.made (call a h op).1) ops
    inferInstanceAs (Decidable (_ ∧ _))

/-- For each call of a run, whether one of its own requests was refused. -/
def refusals (a : Allocator) (h : Heap D) : List (DomOp D) → List Bool
  | [] => []
  | op :: ops => decide (Refused a h.ledger (call a h op).2.ledger) ::
      refusals a (call a h op).2 ops

/-- The same calls on the abstract document; a call may fail for want of memory if it was refused
some. -/
inductive Doc.Run : Doc D → List Bool → List (DomOp D) → List (Reply D) → Doc D → Prop
  | nil {d : Doc D} : Doc.Run d [] [] [] d
  | cons {d d₁ d₂ : Doc D} {refused : Bool} {refusals : List Bool} {op : DomOp D}
      {ops : List (DomOp D)} {reply : Reply D} {replies : List (Reply D)}
      (step : d.Step refused op reply d₁) (rest : Doc.Run d₁ refusals ops replies d₂) :
      Doc.Run d (refused :: refusals) (op :: ops) (reply :: replies) d₂

theorem Represents.calls {known : List ℕ} {ops : List (DomOp D)} (h₀ : Represents h xs m d)
    (hknown : known ⊆ xs) (hops : Disciplined a h known ops) :
    ∃ xs' d', Represents (JsonHeap.calls a h ops).2 xs' m d' ∧
      d.Run (refusals a h ops) ops (JsonHeap.calls a h ops).1 d' := by
  induction ops generalizing h xs d known with
  | nil => exact ⟨xs, d, h₀, .nil⟩
  | cons op ops ih =>
    obtain ⟨hop, hops⟩ := hops
    obtain ⟨xs₁, d₁, h₁, hsub, hmade, hstep⟩ := h₀.call a op fun x hx => hknown (hop x hx)
    have hknown₁ := List.append_subset.mpr ⟨List.Subset.trans hknown hsub, hmade⟩
    obtain ⟨xs₂, d₂, h₂, hrun⟩ := ih h₁ hknown₁ hops
    exact ⟨xs₂, d₂, h₂, .cons (hstep.mono decide_eq_true) hrun⟩

/-- The document that `zenit_json_create` makes. -/
def Doc.empty : Doc D := ⟨fun _ => none, none⟩

theorem represents_empty {l l₁ : Ledger} (hl : l.fault = false)
    (hcreate : zenitJsonCreateWithAllocator a l = (some h, l₁)) :
    Represents h [] l.live.val Doc.empty := by
  have howns : Owns l l.live.val := ⟨hl, rfl⟩
  unfold zenitJsonCreateWithAllocator at hcreate
  rcases howns.alloc a.grants with ⟨l₂, heq, -, -⟩ | ⟨doc, l₂, heq, hl₂, -⟩
  · rw [heq] at hcreate
    simp at hcreate
  · rw [heq] at hcreate
    dsimp only at hcreate
    rw [hl₂.use (by simp)] at hcreate
    obtain rfl := Option.some.inj (congrArg Prod.fst hcreate)
    have hh : Holds (⟨l₂, fun _ => ⟨.null, none⟩, doc, none, none, none⟩ : Heap D) [] l.live.val :=
      ⟨hl₂.congr (by simp [total_nil]), rfl, rfl, by simp⟩
    exact ⟨hh, by simp, by simp, fun _ _ => rfl, rfl⟩

/-- Whatever the allocator refuses, the calls of a client answer as the abstract document does, up
to those that had a request of their own refused; no block is released twice or used after its
release, and `zenit_json_destroy` gives back every block. -/
theorem documents_follow_calls (a : Allocator) (l l₁ : Ledger) (h : Heap D)
    (ops : List (DomOp D)) (hl : l.fault = false)
    (hcreate : zenitJsonCreateWithAllocator a l = (some h, l₁))
    (hops : Disciplined a h [] ops) :
    ∃ xs d, Represents (calls a h ops).2 xs l.live.val d ∧
      Doc.empty.Run (refusals a h ops) ops (calls a h ops).1 d ∧
      ∃ l', zenitJsonDestroy (calls a h ops).2 = some l' ∧ Restored l l' := by
  obtain ⟨xs, d, h₁, hrun⟩ := (represents_empty hl hcreate).calls (List.nil_subset _) hops
  obtain ⟨l', hdestroy, howns⟩ := h₁.holds.zenitJsonDestroy
  exact ⟨xs, d, h₁, hrun, l', hdestroy, restored_of_owns howns⟩

/-- An array and an object share a number. -/
def sharedNumber : List (DomOp ℕ) :=
  [.make .array, .make (.number 3), .arrayAppend (some 9) (some 10), .make .object,
    .objectSet (some 12) (some [97]) (some 10), .objectSet (some 12) (some [97]) (some 10),
    .arrayInsert (some 9) 0 (some 12), .arrayRemove (some 9) 1, .setRoot (some 9),
    .objectGet (some 12) (some [97]), .valueType (some 12), .getNumber (some 10)]

/-- The sixth request is refused, so the first attempt to set a member fails. -/
theorem shared_number_follows : ∃ (h : Heap ℕ) (l₁ : Ledger) (xs : List ℕ) (d : Doc ℕ),
    zenitJsonCreateWithAllocator ⟨fun n => n != 5, false⟩ ⟨{7}, 8, 0, false, by simp⟩ =
      (some h, l₁) ∧
    Represents (calls ⟨fun n => n != 5, false⟩ h sharedNumber).2 xs {7} d ∧
    Doc.empty.Run
      [false, false, false, false, true, false, false, false, false, false, false, false]
      sharedNumber
      [.pointer (some 9), .pointer (some 10), .code .ok, .pointer (some 12), .code .alloc,
        .code .ok, .code .ok, .code .ok, .code .ok, .pointer (some 10), .kind .object,
        .number (some 3)] d ∧
    ∃ l', zenitJsonDestroy (calls ⟨fun n => n != 5, false⟩ h sharedNumber).2 = some l' ∧
      Restored ⟨{7}, 8, 0, false, by simp⟩ l' := by
  obtain ⟨xs, d, hrep, hrun, hdestroy⟩ := documents_follow_calls ⟨fun n => n != 5, false⟩
    ⟨{7}, 8, 0, false, by simp⟩ _ _ sharedNumber rfl rfl (by decide)
  exact ⟨_, _, xs, d, rfl, hrep, hrun, hdestroy⟩

/-! ## What the client has stored -/

/-- The values that a call stores in the document. -/
def DomOp.stores : DomOp D → List ℕ
  | .arrayAppend _ (some item) => [item]
  | .arrayInsert _ _ (some item) => [item]
  | .objectSet _ _ (some val) => [val]
  | .setRoot (some val) => [val]
  | _ => []

/-- A content that has a text and refers to known values only. Without `numbers` it is no number. -/
def Content.Sound (numbers : Prop) (known : List ℕ) : Content D → Prop
  | .num v => numbers ∧ ∃ x, v = some x
  | .str s => ∃ t, s = some t ∧ 0 ∉ t
  | .arr items => items ⊆ known
  | .obj ms => ∀ m ∈ ms, 0 ∉ m.1 ∧ m.2 ∈ known
  | _ => True

/-- The known values have sound contents, and the root is one of them. -/
structure Doc.Tidy (numbers : Prop) (known : List ℕ) (d : Doc D) : Prop where
  root : ∀ p ∈ d.root, p ∈ known
  value : ∀ x ∈ known, ∃ c, d.values x = some c ∧ c.Sound numbers known

section Stored

variable {numbers refuses : Prop} {known known' : List ℕ} {d' : Doc D} {c : Content D}
  {reply : Reply D} {x : ℕ} {key : List UInt8} {val : ℕ} {ms ms' : List (List UInt8 × ℕ)}

theorem Content.Sound.mono (h : c.Sound numbers known) (hsub : known ⊆ known') :
    c.Sound numbers known' := by
  cases c with
  | arr items => exact List.Subset.trans h hsub
  | obj ms => exact fun m hm => ⟨(h m hm).1, hsub (h m hm).2⟩
  | _ => exact h

/-- A known value gets another sound content. -/
theorem Doc.Tidy.put (h : d.Tidy numbers known) (hc : c.Sound numbers known) :
    (d.put x c).Tidy numbers known := by
  refine ⟨h.root, fun y hy => ?_⟩
  by_cases hyx : y = x
  · subst hyx
    exact ⟨c, Function.update_self .., hc⟩
  · obtain ⟨c', hval, hsound⟩ := h.value y hy
    exact ⟨c', (Function.update_of_ne hyx ..).trans hval, hsound⟩

/-- A value nobody knew of gets known. -/
theorem Doc.Tidy.fresh (h : d.Tidy numbers known) (hx : d.values x = none)
    (hc : c.Sound numbers (known ++ [x])) : (d.put x c).Tidy numbers (known ++ [x]) := by
  have hsub : known ⊆ known ++ [x] := List.subset_append_left _ _
  refine ⟨fun p hp => hsub (h.root p hp), fun y hy => ?_⟩
  by_cases hyx : y = x
  · subst hyx
    exact ⟨c, Function.update_self .., hc⟩
  · have hy' : y ∈ known := by simpa [hyx] using hy
    obtain ⟨c', hval, hsound⟩ := h.value y hy'
    exact ⟨c', (Function.update_of_ne hyx ..).trans hval, hsound.mono hsub⟩

/-- A value nobody knows of may hold anything. -/
theorem Doc.Tidy.unknown (h : d.Tidy numbers known) (hx : d.values x = none) :
    (d.put x c).Tidy numbers known := by
  refine ⟨h.root, fun y hy => ?_⟩
  obtain ⟨c', hval, hsound⟩ := h.value y hy
  have hyx : y ≠ x := fun he => by
    rw [he, hx] at hval
    cases hval
  exact ⟨c', (Function.update_of_ne hyx ..).trans hval, hsound⟩

theorem Doc.Tidy.items (h : d.Tidy numbers known) (hx : x ∈ known) {items : List ℕ}
    (hi : d.items (some x) = some items) : items ⊆ known := by
  obtain ⟨c, hval, hsound⟩ := h.value x hx
  cases c with
  | arr items' =>
    simp only [Doc.items, Option.bind_some, hval, Option.some.injEq] at hi
    exact hi ▸ hsound
  | _ => simp [Doc.items, hval] at hi

theorem Doc.Tidy.members (h : d.Tidy numbers known) (hx : x ∈ known)
    (hi : d.members (some x) = some ms) : ∀ m ∈ ms, 0 ∉ m.1 ∧ m.2 ∈ known := by
  obtain ⟨c, hval, hsound⟩ := h.value x hx
  cases c with
  | obj ms' =>
    simp only [Doc.members, Option.bind_some, hval, Option.some.injEq] at hi
    exact hi ▸ hsound
  | _ => simp [Doc.members, hval] at hi

theorem zero_notMem_cstr (s : List UInt8) : 0 ∉ cstr s := by
  intro h
  have hne := List.mem_takeWhile_imp h
  simp at hne

/-- Overwriting keeps the keys and brings in one value. -/
theorem mem_overwrite (h : overwrite key val ms = some ms') {m : List UInt8 × ℕ} (hm : m ∈ ms') :
    (∃ v, (m.1, v) ∈ ms) ∧ (m.2 = val ∨ m ∈ ms) := by
  induction ms generalizing ms' with
  | nil => simp [overwrite] at h
  | cons kv ms ih =>
    obtain ⟨k, v⟩ := kv
    rw [overwrite] at h
    split_ifs at h with hk
    · obtain rfl := Option.some.inj h
      rcases List.mem_cons.mp hm with rfl | hm
      · exact ⟨⟨v, by simp⟩, Or.inl rfl⟩
      · exact ⟨⟨m.2, by simp [hm]⟩, Or.inr (by simp [hm])⟩
    · obtain ⟨rest, hrest, rfl⟩ := Option.map_eq_some_iff.mp h
      rcases List.mem_cons.mp hm with rfl | hm
      · exact ⟨⟨v, by simp⟩, Or.inr (by simp)⟩
      · obtain ⟨⟨v', hv'⟩, hor⟩ := ih hrest hm
        exact ⟨⟨v', by simp [hv']⟩, hor.imp_right fun hmem => by simp [hmem]⟩

theorem mem_shiftOut (h : shiftOut key ms = some ms') {m : List UInt8 × ℕ} (hm : m ∈ ms') :
    m ∈ ms := by
  induction ms generalizing ms' with
  | nil => simp [shiftOut] at h
  | cons kv ms ih =>
    obtain ⟨k, v⟩ := kv
    rw [shiftOut] at h
    split_ifs at h with hk
    · obtain rfl := Option.some.inj h
      exact List.mem_cons_of_mem _ hm
    · obtain ⟨rest, hrest, rfl⟩ := Option.map_eq_some_iff.mp h
      rcases List.mem_cons.mp hm with rfl | hm
      · exact List.mem_cons_self
      · exact List.mem_cons_of_mem _ (ih hrest hm)

theorem Doc.Tidy.append (h : d.Tidy numbers known) (hx : x ∈ known) {item : ℕ}
    (hitem : item ∈ known) : (d.append x item).2.Tidy numbers known := by
  unfold Doc.append
  cases hi : d.items (some x) with
  | none => exact h
  | some items =>
    exact h.put (List.append_subset.mpr
      ⟨h.items hx hi, fun y hy => List.mem_singleton.mp hy ▸ hitem⟩)

theorem Doc.Tidy.removeAt (h : d.Tidy numbers known) (hx : x ∈ known) (index : ℕ) :
    (d.removeAt x index).2.Tidy numbers known := by
  unfold Doc.removeAt
  cases hi : d.items (some x) with
  | none => exact h
  | some items =>
    dsimp only
    split_ifs
    · exact h.put fun y hy => h.items hx hi (List.mem_of_mem_eraseIdx hy)
    · exact h

theorem Doc.Tidy.insertAt (h : d.Tidy numbers known) (hx : x ∈ known) (index : ℕ) {item : ℕ}
    (hitem : item ∈ known) : (d.insertAt x index item).2.Tidy numbers known := by
  unfold Doc.insertAt
  cases hi : d.items (some x) with
  | none => exact h
  | some items =>
    dsimp only
    split_ifs with hle
    · refine h.put fun y hy => ?_
      rcases (List.mem_insertIdx hle).mp hy with rfl | hy
      · exact hitem
      · exact h.items hx hi hy
    · exact h

theorem Doc.Tidy.set (h : d.Tidy numbers known) (hx : x ∈ known) (key : List UInt8)
    (hval : val ∈ known) : (d.set x key val).2.Tidy numbers known := by
  unfold Doc.set
  cases hi : d.members (some x) with
  | none => exact h
  | some ms =>
    have hms := h.members hx hi
    refine h.put fun m hm => ?_
    cases ho : overwrite key val ms with
    | none =>
      rw [ho, Option.getD_none] at hm
      rcases List.mem_append.mp hm with hm | hm
      · exact hms m hm
      · rw [List.mem_singleton.mp hm]
        exact ⟨zero_notMem_cstr key, hval⟩
    | some ms' =>
      rw [ho, Option.getD_some] at hm
      obtain ⟨⟨v, hv⟩, hor⟩ := mem_overwrite ho hm
      refine ⟨(hms _ hv).1, ?_⟩
      rcases hor with heq | hmem
      · exact heq ▸ hval
      · exact (hms m hmem).2

theorem Doc.Tidy.remove (h : d.Tidy numbers known) (hx : x ∈ known) (key : List UInt8) :
    (d.remove x key).2.Tidy numbers known := by
  unfold Doc.remove
  cases hi : d.members (some x) with
  | none => exact h
  | some ms =>
    dsimp only
    cases hs : shiftOut key ms with
    | none => exact h
    | some ms' => exact h.put fun m hm => h.members hx hi m (mem_shiftOut hs hm)

theorem Made.content_sound (mk : Made D) (hnum : ∀ v, mk = .number v → numbers) :
    mk.content.Sound numbers known := by
  cases mk with
  | number v => exact ⟨hnum v rfl, v, rfl⟩
  | string s => exact ⟨_, rfl, zero_notMem_cstr _⟩
  | array => exact List.nil_subset _
  | object => exact fun m hm => absurd hm List.not_mem_nil
  | _ => trivial

/-- The answers of the abstract document keep it tidy. -/
theorem Doc.Tidy.answer (h : d.Tidy numbers known) (htarget : ∀ x ∈ op.target, x ∈ known)
    (hstores : op.stores ⊆ known) : (d.answer op).2.Tidy numbers known := by
  cases op with
  | arrayAppend arr item =>
    rcases arr with _ | arr
    · exact h
    · rcases item with _ | item
      · exact h
      · exact h.append (htarget arr rfl) (hstores List.mem_cons_self)
  | arrayRemove arr index =>
    rcases arr with _ | arr
    · exact h
    · exact h.removeAt (htarget arr rfl) index
  | arrayInsert arr index item =>
    rcases arr with _ | arr
    · exact h
    · rcases item with _ | item
      · exact h
      · exact h.insertAt (htarget arr rfl) index (hstores List.mem_cons_self)
  | objectSet obj key val =>
    rcases obj with _ | obj
    · exact h
    · rcases key with _ | key
      · exact h
      · rcases val with _ | val
        · exact h
        · exact h.set (htarget obj rfl) key (hstores List.mem_cons_self)
  | objectRemove obj key =>
    rcases obj with _ | obj
    · exact h
    · rcases key with _ | key
      · exact h
      · exact h.remove (htarget obj rfl) key
  | setRoot val =>
    refine ⟨fun p hp => ?_, h.value⟩
    rcases val with _ | val
    · cases hp
    · cases hp
      exact hstores List.mem_cons_self
  | objectGet val key => cases key <;> exact h
  | _ => exact h

theorem Doc.Tidy.step (h : d.Tidy numbers known) (htarget : ∀ x ∈ op.target, x ∈ known)
    (hstores : op.stores ⊆ known) (hnum : ∀ v, op = .make (.number v) → numbers)
    (hstep : d.Step refuses op reply d') : d'.Tidy numbers (known ++ op.made reply) := by
  cases op with
  | make mk =>
    have hsound : ∀ known, mk.content.Sound numbers known := fun _ =>
      mk.content_sound fun v hv => hnum v (by rw [hv])
    rcases hstep with ⟨p, hfresh, rfl, rfl⟩ | ⟨-, rfl, rfl | ⟨p, hfresh, rfl⟩⟩
    · exact h.fresh hfresh (hsound _)
    · simpa [DomOp.made] using h
    · simpa [DomOp.made] using h.unknown hfresh
  | _ =>
    change d'.Tidy numbers (known ++ [])
    rw [List.append_nil]
    rcases hstep with hanswer | ⟨-, -, -, rfl⟩
    · have hd := congrArg Prod.snd hanswer
      rw [show d' = _ from hd]
      exact h.answer htarget hstores
    · exact h

/-- The client looks into and stores only values that earlier constructors returned. -/
def SelfContained (a : Allocator) : Heap D → List ℕ → List (DomOp D) → Prop
  | _, _, [] => True
  | h, known, op :: ops => (∀ x ∈ op.target, x ∈ known) ∧ op.stores ⊆ known ∧
      SelfContained a (call a h op).2 (known ++ op.made (call a h op).1) ops

instance instDecidableSelfContained (a : Allocator) : (h : Heap D) → (known : List ℕ) →
    (ops : List (DomOp D)) → Decidable (SelfContained a h known ops)
  | _, _, [] => .isTrue trivial
  | h, known, op :: ops =>
    have := instDecidableSelfContained a (call a h op).2 (known ++ op.made (call a h op).1) ops
    inferInstanceAs (Decidable (_ ∧ _ ∧ _))

theorem Represents.tidy_calls {a : Allocator} {ops : List (DomOp D)} (h₀ : Represents h xs m d)
    (ht : d.Tidy numbers known) (hsub : known ⊆ xs) (hops : SelfContained a h known ops)
    (hnum : ∀ v, .make (.number v) ∈ ops → numbers) :
    ∃ xs' d' known', Represents (JsonHeap.calls a h ops).2 xs' m d' ∧ d'.Tidy numbers known' ∧
      known' ⊆ xs' := by
  induction ops generalizing h xs d known with
  | nil => exact ⟨xs, d, known, h₀, ht, hsub⟩
  | cons op ops ih =>
    obtain ⟨htarget, hstores, hops⟩ := hops
    obtain ⟨xs₁, d₁, h₁, hxs, hmade, hstep⟩ := h₀.call a op fun x hx => hsub (htarget x hx)
    have ht₁ := ht.step htarget hstores (fun v hv => hnum v (hv ▸ List.mem_cons_self)) hstep
    have hsub₁ := List.append_subset.mpr ⟨List.Subset.trans hsub hxs, hmade⟩
    exact ih h₁ ht₁ hsub₁ hops fun v hv => hnum v (List.mem_cons_of_mem _ hv)

end Stored

end LibZenit.JsonHeap
