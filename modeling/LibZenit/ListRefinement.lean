import LibZenit.ListOperations

/-!
# The linked list is a sequence

Every call answers as the same call on a finite sequence does, whatever addresses the allocator
returns and whichever requests it refuses.
-/
namespace LibZenit.Lists
open NodeHeap LinkedChain Refinement

variable {α : Type} {list : ZList α} {heap : Heap α} {nodes : List ℕ} {v : List α}
  {p fuel index : ℕ} {alloc : Option ℕ} {elem : α}

/-! ## Sequences -/

def putAt (alloc : Option ℕ) (v : List α) (index : ℕ) (elem : α) : List α × Reply α :=
  if alloc.isSome then (v.insertIdx index elem, ⟨.ok, none⟩) else (v, ⟨.alloc, none⟩)

def takeAt (v : List α) (index : ℕ) : List α × Reply α := (v.eraseIdx index, ⟨.ok, v[index]?⟩)

/-- Nothing changes. -/
def refuse (code : ZenitError) (v : List α) : List α × Reply α := (v, ⟨code, none⟩)

/-- What each call means for a sequence: its new value, and the answer. -/
def spec (v : List α) : Call α → List α × Answer α
  | .pushFront alloc elem =>
    Prod.map id .result (elem.elim (refuse .null v) (putAt alloc v 0))
  | .pushBack alloc elem =>
    Prod.map id .result (elem.elim (refuse .null v) (putAt alloc v v.length))
  | .popFront out => Prod.map id .result
    (if !out then refuse .null v else if v = [] then refuse .empty v else takeAt v 0)
  | .popBack out => Prod.map id .result
    (if !out then refuse .null v else if v = [] then refuse .empty v else takeAt v (v.length - 1))
  | .insert alloc index elem => Prod.map id .result (elem.elim (refuse .null v) fun elem =>
      if index > v.length then refuse .param v else putAt alloc v index elem)
  | .remove index out => Prod.map id .result
    (if !out then refuse .null v else if index ≥ v.length then refuse .param v else takeAt v index)
  | .set index elem => Prod.map id .result (elem.elim (refuse .null v) fun elem =>
      if index < v.length then (v.set index elem, ⟨.ok, none⟩) else refuse .param v)
  | .get index => (v, .pointer v[index]?)
  | .clear => ([], .none)
  | .count => (v, .number v.length)
  | .foreach => (v, .visited v)
  | .reverseForeach => (v, .visited v.reverse)
  | .iterate n => (v, .handed ((List.range n).map fun i => v[i]?))

/-! ## Walks over the whole list -/

theorem visitAll_eq {link : Node α → ℕ} {linkOf : ℕ → ℕ}
    (hlink : ∀ node q, readNode heap q = .ok node → link node = linkOf q)
    (hseg : Seg linkOf p nodes 0) (hnonnull : 0 ∉ nodes)
    (hdata : nodes.map (dataOf heap) = v.map some) (hfuel : nodes.length < fuel) :
    visitAll link heap p fuel = .ok v := by
  induction nodes generalizing p v fuel with
  | nil =>
    obtain ⟨fuel, rfl⟩ := Nat.exists_eq_add_one_of_ne_zero (by omega : fuel ≠ 0)
    have hv : v = [] := by simpa using hdata.symm
    have hend : p = 0 := hseg
    rw [visitAll, if_pos hend, hv]
  | cons q nodes ih =>
    obtain ⟨rfl, hseg⟩ := hseg
    obtain ⟨fuel, rfl⟩ := Nat.exists_eq_add_one_of_ne_zero (by omega : fuel ≠ 0)
    obtain ⟨node, hread, -, -, hnode⟩ := readNode_eq (live_of_data hdata List.mem_cons_self)
    rw [List.mem_cons, not_or] at hnonnull
    cases v with
    | nil => simp at hdata
    | cons a v =>
      simp only [List.map_cons, List.cons.injEq, hnode, Option.some.injEq] at hdata
      rw [← hlink node p hread] at hseg
      rw [visitAll, if_neg (Ne.symm hnonnull.1), hread]
      simp only [Except.bind, ih hseg hnonnull.2 hdata.2 (by simpa using hfuel), hdata.1]
      rfl

theorem freeAll_eq (hseg : Seg (nextOf heap) p nodes 0) (hnodup : nodes.Nodup)
    (hnonnull : 0 ∉ nodes) (hlive : ∀ q ∈ nodes, Live heap q) (hfuel : nodes.length < fuel) :
    ∃ heap', freeAll heap p fuel = .ok heap' := by
  induction nodes generalizing p heap fuel with
  | nil =>
    obtain ⟨fuel, rfl⟩ := Nat.exists_eq_add_one_of_ne_zero (by omega : fuel ≠ 0)
    have hend : p = 0 := hseg
    exact ⟨heap, by rw [freeAll, if_pos hend]⟩
  | cons q nodes ih =>
    obtain ⟨rfl, hseg⟩ := hseg
    obtain ⟨fuel, rfl⟩ := Nat.exists_eq_add_one_of_ne_zero (by omega : fuel ≠ 0)
    obtain ⟨node, hread, hnext, -⟩ := readNode_eq (hlive p List.mem_cons_self)
    obtain ⟨heap₁, hfree, hnext₁, -, hdata₁⟩ := freeNode_eq (hlive p List.mem_cons_self)
    rw [List.mem_cons, not_or] at hnonnull
    obtain ⟨hp, hnodup⟩ := List.nodup_cons.mp hnodup
    have hne : ∀ q ∈ nodes, q ≠ p := fun q hq heq => hp (heq ▸ hq)
    have hseg₁ : Seg (nextOf heap₁) (nextOf heap p) nodes 0 :=
      hseg.congr fun q hq => by rw [hnext₁, Function.update_of_ne (hne q hq)]
    have hlive₁ : ∀ q ∈ nodes, Live heap₁ q := by
      intro q hq
      rw [live_iff, hdata₁, Function.update_of_ne (hne q hq), ← live_iff]
      exact hlive q (List.mem_cons_of_mem p hq)
    obtain ⟨heap', hrest⟩ := @ih heap₁ _ fuel hseg₁ hnodup hnonnull.2 hlive₁ (by simpa using hfuel)
    refine ⟨heap', ?_⟩
    rw [freeAll, if_neg (Ne.symm hnonnull.1), hread]
    simp only [bind, Except.bind, hfree, hnext]
    exact hrest

theorem iterate_eq (iter : Iter) (hvalid : iter.isValid = true)
    (hseg : Seg (nextOf heap) iter.internal nodes 0) (hnonnull : 0 ∉ nodes)
    (hdata : nodes.map (dataOf heap) = v.map some) (n : ℕ) :
    iterate heap iter n = .ok ((List.range n).map fun i => v[i]?) := by
  induction n generalizing iter nodes v with
  | zero => rfl
  | succ n ih =>
    rw [iterate, zenitListIterNext, if_neg (by simp [hvalid])]
    cases nodes with
    | nil =>
      have hv : v = [] := by simpa using hdata.symm
      have hend : iter.internal = 0 := hseg
      have hrest := ih iter hvalid hseg hnonnull hdata
      rw [if_pos hend]
      simp only [Except.bind, hrest, hv]
      simp [Except.map, List.range_succ_eq_map, Function.comp_def]
    | cons q nodes =>
      obtain ⟨hq, hseg⟩ := hseg
      obtain ⟨node, hread, hnext, -, hnode⟩ := readNode_eq (live_of_data hdata List.mem_cons_self)
      rw [List.mem_cons, not_or] at hnonnull
      cases v with
      | nil => simp at hdata
      | cons a v =>
        simp only [List.map_cons, List.cons.injEq, hnode, Option.some.injEq] at hdata
        rw [← hnext] at hseg
        have hrest := ih { iter with internal := node.next, index := wrap (iter.index + 1) } hvalid
          hseg hnonnull.2 hdata.2
        rw [if_neg (by rw [hq]; exact Ne.symm hnonnull.1), hq, hread]
        simp only [Except.map, Except.bind, hrest, hdata.1]
        simp [List.range_succ_eq_map, Function.comp_def]

/-! ## Calls -/

/-- The call ends, with the answer and the sequence of `r`. -/
def Does (x : Exec (ZList α × Reply α)) (r : List α × Reply α) : Prop :=
  ∃ list' nodes', x = .ok (list', r.2) ∧ Represents list' nodes' r.1

theorem Represents.does_refuse (h : Represents list nodes v) (code : ZenitError) :
    Does (.ok (list, ⟨code, none⟩)) (refuse code v) := ⟨list, nodes, rfl, h⟩

theorem withNode_does (h : Represents list nodes v) {link : Heap α → ℕ → Exec (ZList α)}
    (hlink : ∀ n, alloc = some n → ∃ list' nodes',
      link (withFresh list.heap n elem) n = .ok list' ∧
        Represents list' nodes' (v.insertIdx index elem)) :
    Does (withNode alloc list elem link) (putAt alloc v index elem) := by
  cases alloc with
  | none => exact ⟨list, nodes, rfl, h⟩
  | some n =>
    obtain ⟨list', nodes', hdone, h'⟩ := hlink n rfl
    have hsize : wrap (sizeofNode + list.elemSize) = sizeofNode + list.elemSize := by
      have hsmall := h.size
      exact wrap_of_lt (by unfold sizeofNode; omega)
    refine ⟨list', nodes', ?_, h'⟩
    rw [withNode, nodeAlloc, if_neg (by simpa using hsize)]
    simp only [Except.bind, Option.elim_some]
    rw [show Function.update list.heap n (some ⟨0, 0, elem⟩) = withFresh list.heap n elem from rfl,
      hdone]
    rfl

theorem pushFront_does (h : Represents list nodes v)
    (hn : ∀ n, alloc = some n → Fresh list.heap n) (elem : α) :
    Does (zenitListPushFront alloc list (some elem)) (putAt alloc v 0 elem) := by
  refine withNode_does h fun n hsome => ?_
  obtain ⟨list', hlink, h'⟩ := linkFront_represents h (hn n hsome) elem
  exact ⟨list', _, hlink, h'⟩

theorem pushBack_does (h : Represents list nodes v)
    (hn : ∀ n, alloc = some n → Fresh list.heap n) (elem : α) :
    Does (zenitListPushBack alloc list (some elem)) (putAt alloc v v.length elem) := by
  refine withNode_does h fun n hsome => ?_
  obtain ⟨list', hlink, h'⟩ := linkBack_represents h (hn n hsome) elem
  rw [List.insertIdx_length_self]
  exact ⟨list', _, hlink, h'⟩

theorem exists_split {i : ℕ} (hi : i < nodes.length) :
    ∃ xs x ys, nodes = xs ++ x :: ys ∧ xs.length = i :=
  ⟨nodes.take i, nodes[i], nodes.drop (i + 1), by simp, by simp; omega⟩

theorem insert_does (h : Represents list nodes v)
    (hn : ∀ n, alloc = some n → Fresh list.heap n) (elem : α) :
    Does (zenitListInsert alloc list index (some elem))
      (if index > v.length then refuse .param v else putAt alloc v index elem) := by
  have hlen := h.length
  have hcount := h.count
  by_cases hindex : index > v.length
  · rw [zenitListInsert, if_pos (by omega), if_pos hindex]
    exact h.does_refuse .param
  rw [zenitListInsert, if_neg (by omega), if_neg hindex]
  by_cases hfirst : index = 0
  · rw [if_pos hfirst, hfirst]
    exact pushFront_does h hn elem
  by_cases hlast : index = list.count
  · rw [if_neg hfirst, if_pos hlast, show index = v.length by omega]
    exact pushBack_does h hn elem
  rw [if_neg hfirst, if_neg hlast]
  obtain ⟨zs, y, ys, hnodes, hzs⟩ := exists_split (by omega : index < nodes.length)
  obtain ⟨xs, x, rfl⟩ : ∃ xs x, zs = xs ++ [x] := by
    rcases List.eq_nil_or_concat zs with rfl | ⟨xs, x, rfl⟩
    · simp at hzs
      omega
    · exact ⟨xs, x, by simp⟩
  have hat : nodeAt list index = .ok y := by
    refine nodeAt_eq h ?_
    rw [hnodes, ← hzs, List.getElem?_append_right (le_refl _)]
    simp
  rw [List.append_assoc, List.singleton_append] at hnodes
  subst hnodes
  rw [hat]
  refine withNode_does h fun n hsome => ?_
  obtain ⟨list', hlink, h'⟩ := linkBefore_represents h (hn n hsome) elem
  rw [← hzs, List.length_append, List.length_singleton]
  exact ⟨list', _, hlink, h'⟩

theorem remove_does (h : Represents list nodes v) (index : ℕ) (out : Bool) :
    Does (zenitListRemove list index out) (if !out then refuse .null v else
      if index ≥ v.length then refuse .param v else takeAt v index) := by
  have hlen := h.length
  have hcount := h.count
  cases out with
  | false => exact h.does_refuse .null
  | true =>
    by_cases hindex : index ≥ v.length
    · rw [zenitListRemove, if_neg (by simp), if_pos (by omega), if_neg (by simp), if_pos hindex]
      exact h.does_refuse .param
    · rw [if_neg (by simp), if_neg hindex]
      obtain ⟨xs, x, ys, rfl, rfl⟩ := exists_split (by omega : index < nodes.length)
      obtain ⟨list', hremove, h'⟩ := remove_represents h
      exact ⟨list', _, hremove, h'⟩

theorem popFront_does (h : Represents list nodes v) (out : Bool) :
    Does (zenitListPopFront list out) (if !out then refuse .null v else
      if v = [] then refuse .empty v else takeAt v 0) := by
  have hlen := h.length
  cases out with
  | false => exact h.does_refuse .null
  | true =>
    by_cases hv : v = []
    · rw [zenitListPopFront, if_neg (by simp), if_pos (by simp [h.count, hlen, hv]),
        if_neg (by simp), if_pos hv]
      exact h.does_refuse .empty
    · have hpos := List.length_pos_iff.mpr hv
      obtain ⟨xs, x, ys, rfl, hxs⟩ := exists_split (by omega : 0 < nodes.length)
      rw [List.length_eq_zero_iff] at hxs
      subst hxs
      obtain ⟨list', hpop, h'⟩ := popFront_represents h
      rw [if_neg (by simp), if_neg hv]
      exact ⟨list', _, hpop, h'⟩

theorem popBack_does (h : Represents list nodes v) (out : Bool) :
    Does (zenitListPopBack list out) (if !out then refuse .null v else
      if v = [] then refuse .empty v else takeAt v (v.length - 1)) := by
  have hlen := h.length
  cases out with
  | false => exact h.does_refuse .null
  | true =>
    by_cases hv : v = []
    · rw [zenitListPopBack, if_neg (by simp), if_pos (by simp [h.count, hlen, hv]),
        if_neg (by simp), if_pos hv]
      exact h.does_refuse .empty
    · have hpos := List.length_pos_iff.mpr hv
      obtain ⟨xs, x, ys, rfl, hxs⟩ := exists_split (by omega : v.length - 1 < nodes.length)
      have hys : ys = [] := by
        rw [List.length_append, List.length_cons] at hlen
        exact List.length_eq_zero_iff.mp (by omega)
      subst hys
      obtain ⟨list', hpop, h'⟩ := popBack_represents h
      rw [if_neg (by simp), if_neg hv, ← hxs]
      exact ⟨list', _, hpop, h'⟩

theorem get_eq (h : Represents list nodes v) (index : ℕ) :
    zenitListGet list index = .ok v[index]? := by
  have hlen := h.length
  rw [zenitListGet]
  by_cases hindex : index < v.length
  · obtain ⟨xs, x, ys, rfl, rfl⟩ := exists_split (by omega : index < nodes.length)
    obtain ⟨node, hread, -, -, hdata⟩ := h.at
    have hat : nodeAt list xs.length = .ok x :=
      nodeAt_eq h (by rw [List.getElem?_append_right (le_refl _)]; simp)
    have hx : x ≠ 0 := h.chain.nonnull x (by simp)
    simp only [hat, Except.bind, hx, if_false, hread, hdata]
    rfl
  · rw [nodeAt_none h (by omega), List.getElem?_eq_none (by omega)]
    rfl

theorem set_does (h : Represents list nodes v) (elem : α) :
    Does (zenitListSet list index (some elem))
      (if index < v.length then (v.set index elem, ⟨.ok, none⟩) else refuse .param v) := by
  have hlen := h.length
  rw [zenitListSet]
  split_ifs with hindex
  · obtain ⟨xs, x, ys, rfl, rfl⟩ := exists_split (by omega : index < nodes.length)
    have hat : nodeAt list xs.length = .ok x :=
      nodeAt_eq h (by rw [List.getElem?_append_right (le_refl _)]; simp)
    have hx : x ≠ 0 := h.chain.nonnull x (by simp)
    obtain ⟨heap', hwrite, hnext, hprev, hdata⟩ := writeData_eq (h.live (p := x) (by simp)) elem
    refine ⟨{ list with heap := heap' }, xs ++ x :: ys, ?_, ?_⟩
    · simp only [hat, bind, Except.bind, hx, if_false, hwrite]
      rfl
    · refine ⟨?_, h.tail, h.count, ?_, h.addresses, h.size⟩
      · simpa only [hnext, hprev] using h.chain
      · have hother : ∀ q ∈ xs ++ ys, dataOf heap' q = dataOf list.heap q := by
          intro q hq
          rw [hdata, Function.update_of_ne (h.other hq).1]
        have hxs := List.map_congr_left fun q hq => hother q (List.mem_append_left ys hq)
        have hys := List.map_congr_left fun q hq => hother q (List.mem_append_right xs hq)
        have hold := h.data
        rw [List.map_append, List.map_cons] at hold
        rw [List.map_append, List.map_cons, hxs, hys, hdata, Function.update_self, List.map_set,
          ← hold]
        simp
  · refine ⟨list, nodes, ?_, h⟩
    rw [nodeAt_none h (by omega)]
    rfl

/-! ## Runs -/

/-- What the allocator returns in a call. -/
def Call.address : Call α → Option ℕ
  | .pushFront alloc _ | .pushBack alloc _ | .insert alloc _ _ => alloc
  | _ => none

/-- The allocator returns no address that is in use. -/
def Allocates (list : ZList α) (call : Call α) : Prop :=
  ∀ n, call.address = some n → Fresh list.heap n

theorem step_refines (hfuel : 2 ^ 64 ≤ fuel) (list : ZList α) (v : List α) (call : Call α)
    (h : ∃ nodes, Represents list nodes v) (hn : Allocates list call) :
    ∃ list' answer v', step fuel list call = .ok (list', answer) ∧ spec v call = (v', answer) ∧
      ∃ nodes', Represents list' nodes' v' := by
  obtain ⟨nodes, h⟩ := h
  have hlen := h.length
  have hlong : nodes.length < fuel := h.small.trans_le hfuel
  -- the calls that return a code
  have hcode : ∀ {x : Exec (ZList α × Reply α)} {r : List α × Reply α}, Does x r →
      ∃ list' answer v', x.map (Prod.map id Answer.result) = .ok (list', answer) ∧
        Prod.map id .result r = (v', answer) ∧ ∃ nodes', Represents list' nodes' v' := by
    rintro x r ⟨list', nodes', rfl, h'⟩
    exact ⟨list', .result r.2, r.1, rfl, rfl, nodes', h'⟩
  cases call with
  | pushFront alloc elem =>
    cases elem with
    | none => exact hcode (h.does_refuse .null)
    | some elem => exact hcode (pushFront_does h hn elem)
  | pushBack alloc elem =>
    cases elem with
    | none => exact hcode (h.does_refuse .null)
    | some elem => exact hcode (pushBack_does h hn elem)
  | popFront out => exact hcode (popFront_does h out)
  | popBack out => exact hcode (popBack_does h out)
  | insert alloc index elem =>
    cases elem with
    | none => exact hcode (h.does_refuse .null)
    | some elem => exact hcode (insert_does h hn elem)
  | remove index out => exact hcode (remove_does h index out)
  | set index elem =>
    cases elem with
    | none => exact hcode (h.does_refuse .null)
    | some elem => exact hcode (set_does h elem)
  | get index =>
    exact ⟨list, _, v, by rw [step, get_eq h]; rfl, rfl, nodes, h⟩
  | clear =>
    obtain ⟨heap', hfree⟩ := freeAll_eq h.chain.seg h.chain.nodup h.nonnull
      (fun q hq => h.live hq) hlong
    refine ⟨⟨heap', 0, 0, list.elemSize, 0⟩, .none, [], ?_, rfl, [], ?_⟩
    · rw [step, zenitListClear, hfree]
      rfl
    · exact ⟨DList.nil, rfl, rfl, rfl, by simp, h.size⟩
  | count => exact ⟨list, _, v, rfl, by rw [spec, zenitListCount, h.count, hlen], nodes, h⟩
  | foreach =>
    have hvisit := visitAll_eq next_link h.chain.seg h.nonnull h.data hlong
    exact ⟨list, _, v, by rw [step, zenitListForeach, hvisit]; rfl, rfl, nodes, h⟩
  | reverseForeach =>
    have hvisit := @visitAll_eq α list.heap nodes.reverse v.reverse list.tail fuel Node.prev
      (prevOf list.heap) prev_link h.backward.seg (by simpa using h.nonnull)
      (by rw [List.map_reverse, h.data, List.map_reverse]) (by simpa using hlong)
    exact ⟨list, _, v, by rw [step, zenitListReverseForeach, hvisit]; rfl, rfl, nodes, h⟩
  | iterate n =>
    have hiter := iterate_eq (zenitListIter list) rfl h.chain.seg h.nonnull h.data n
    exact ⟨list, _, v, by rw [step, hiter]; rfl, rfl, nodes, h⟩

/-- An error leaves the sequence as it was. -/
theorem spec_error {v' : List α} {call : Call α} {reply : Reply α}
    (hspec : spec v call = (v', .result reply)) (hcode : reply.code ≠ .ok) : v' = v := by
  have hput : ∀ alloc index elem, (putAt alloc v index elem).2.code ≠ .ok →
      (putAt alloc v index elem).1 = v := by
    intro alloc index elem hno
    cases alloc with
    | none => rfl
    | some n => exact absurd rfl hno
  cases call with
  | pushFront alloc elem | pushBack alloc elem =>
    cases elem with
    | none => exact (congrArg Prod.fst hspec).symm
    | some elem =>
      cases hspec
      exact hput _ _ _ hcode
  | insert alloc index elem =>
    cases elem with
    | none => exact (congrArg Prod.fst hspec).symm
    | some elem =>
      simp only [spec, Option.elim_some] at hspec
      split_ifs at hspec
      · exact (congrArg Prod.fst hspec).symm
      · cases hspec
        exact hput _ _ _ hcode
  | popFront out | popBack out | remove index out =>
    simp only [spec] at hspec
    split_ifs at hspec
    · exact (congrArg Prod.fst hspec).symm
    · exact (congrArg Prod.fst hspec).symm
    · cases hspec
      exact absurd rfl hcode
  | set index elem =>
    cases elem with
    | none => exact (congrArg Prod.fst hspec).symm
    | some elem =>
      simp only [spec, Option.elim_some] at hspec
      split_ifs at hspec
      · cases hspec
        exact absurd rfl hcode
      · exact (congrArg Prod.fst hspec).symm
  | get _ | clear | count | foreach | reverseForeach | iterate _ => cases hspec

/-- A list behaves as a sequence does in every run, an error changes nothing, and a node is found
at the same address from both ends. -/
theorem list_refines_sequence {ok : Bool} {elemSize : ℕ} (hsize : elemSize < 2 ^ 63)
    (hcreate : zenitListCreateWithAllocator ok elemSize = some list) (hfuel : 2 ^ 64 ≤ fuel)
    {calls : List (Call α)} (halloc : Along (step fuel) Allocates list calls) :
    ∃ list' answers v', run (step fuel) list calls = .ok (list', answers) ∧
      Conforming (fun v call answer v' => spec v call = (v', answer)) [] calls answers v' ∧
      list'.count = v'.length ∧
      (∀ index < v'.length, ∃ n, nodeAt list' index = .ok n ∧
        walk Node.next list'.heap list'.head index = .ok n ∧
        walk Node.prev list'.heap list'.tail (list'.count - 1 - index) = .ok n) ∧
      ∀ (v v' : List α) call reply, spec v call = (v', .result reply) → reply.code ≠ .ok →
        v' = v := by
  have hempty : ∃ nodes, Represents list nodes [] := by
    unfold zenitListCreateWithAllocator at hcreate
    split_ifs at hcreate
    cases hcreate
    exact ⟨[], DList.nil, rfl, rfl, rfl, by simp, hsize⟩
  obtain ⟨list', answers, v', hrun, hconf, nodes, h⟩ :=
    run_refines (step_refines hfuel) hempty halloc
  refine ⟨list', answers, v', hrun, hconf, h.count.trans h.length, ?_, ?_⟩
  · intro index hindex
    rw [← h.length] at hindex
    have hnode := List.getElem?_eq_getElem hindex
    exact ⟨nodes[index], nodeAt_eq h hnode, walk_both h hnode⟩
  · intro v v' call reply hspec hcode
    exact spec_error hspec hcode

/-- A push that is refused, one that is not, and a walk from the end. -/
theorem short_list_refines_sequence : ∃ list : ZList ℕ, ∃ list' answers v',
    zenitListCreateWithAllocator true 8 = some list ∧
    run (step (2 ^ 64)) list [.pushFront none (some 7), .pushBack (some 16) (some 7),
      .reverseForeach] = .ok (list', answers) ∧
    Conforming (fun v call answer v' => spec v call = (v', answer)) [] [.pushFront none (some 7),
      .pushBack (some 16) (some 7), .reverseForeach] answers v' := by
  have halloc : Along (step (2 ^ 64)) Allocates (⟨fun _ => none, 0, 0, 8, 0⟩ : ZList ℕ)
      [.pushFront none (some 7), .pushBack (some 16) (some 7), .reverseForeach] := by
    refine ⟨by simp [Allocates, Call.address], fun list₁ _ hstep₁ => ?_⟩
    cases hstep₁
    refine ⟨?_, fun list₂ _ _ => ⟨by simp [Allocates, Call.address], fun _ _ _ => trivial⟩⟩
    intro n hn
    cases hn
    exact ⟨by norm_num, by norm_num, rfl⟩
  have hsize : 8 < 2 ^ 63 := by norm_num
  have hcreate : zenitListCreateWithAllocator true 8 =
      some (⟨fun _ => none, 0, 0, 8, 0⟩ : ZList ℕ) := rfl
  obtain ⟨list', answers, v', hrun, hconf, -⟩ :=
    list_refines_sequence hsize hcreate (le_refl _) halloc
  exact ⟨_, list', answers, v', hcreate, hrun, hconf⟩

end LibZenit.Lists
