import LibZenit.ListChain

/-!
# Linking and unlinking nodes

Each operation on the links is one of the surgeries on chains; the operations at the tail are those
at the head of the reversed chain.
-/
namespace LibZenit.Lists
open NodeHeap LinkedChain

variable {α : Type} {list list' : ZList α} {heap heap' : Heap α} {nodes xs ys : List ℕ}
  {v : List α} {p n x y : ℕ} {elem : α}

/-! ## A new node -/

/-- An address that the allocator can return. -/
structure Fresh (heap : Heap α) (n : ℕ) : Prop where
  nonnull : n ≠ 0
  address : n < 2 ^ 64
  unused : heap n = none

theorem Fresh.notMem (hn : Fresh list.heap n) (h : Represents list nodes v) : n ∉ nodes := by
  intro hmem
  have hlive := h.live hmem
  simp [Live, hn.unused] at hlive

/-- The heap with the new node in it. -/
def withFresh (heap : Heap α) (n : ℕ) (elem : α) : Heap α :=
  Function.update heap n (some ⟨0, 0, elem⟩)

theorem live_withFresh (heap : Heap α) (n : ℕ) (elem : α) : Live (withFresh heap n elem) n := by
  simp [Live, withFresh]

theorem live_withFresh_of_live (hp : Live heap p) (n : ℕ) (elem : α) :
    Live (withFresh heap n elem) p := by
  unfold Live withFresh at *
  by_cases hpn : p = n <;> simp [hpn, hp]

/-- The data of the nodes that were there before. -/
theorem map_dataOf_fresh (hmem : n ∉ nodes) (heap : Heap α) (elem : α) :
    nodes.map (dataOf (withFresh heap n elem)) = nodes.map (dataOf heap) := by
  refine List.map_congr_left fun q hq => ?_
  have hne : q ≠ n := fun heq => hmem (heq ▸ hq)
  rw [withFresh, dataOf_update, Function.update_of_ne hne]

theorem dataOf_fresh (heap : Heap α) (n : ℕ) (elem : α) :
    dataOf (withFresh heap n elem) n = some elem := by
  simp [dataOf, withFresh]

theorem Represents.count_succ (h : Represents list nodes v) (hn : Fresh list.heap n) :
    wrap (list.count + 1) = nodes.length + 1 := by
  have hlen : (n :: nodes).length < 2 ^ 64 := by
    refine length_lt_of_addresses (List.nodup_cons.mpr ⟨hn.notMem h, h.chain.nodup⟩) ?_ ?_
    · rw [List.mem_cons, not_or]
      exact ⟨hn.nonnull.symm, h.nonnull⟩
    · intro q hq
      obtain rfl | hq := List.mem_cons.mp hq
      · exact hn.address
      · exact h.addresses q hq
  rw [List.length_cons] at hlen
  rw [h.count, wrap_of_lt hlen]

theorem Represents.head_ne (h : Represents list nodes v) (hn : Fresh list.heap n) :
    list.head ≠ n := by
  rintro rfl
  have hmem := headD_mem (h.chain.head_eq ▸ hn.nonnull)
  rw [← h.chain.head_eq] at hmem
  exact hn.notMem h hmem

/-! ## The ends -/

theorem linkFront_eq (hlive : Live heap n) (hhead : list.head ≠ 0 → Live heap list.head) :
    ∃ heap', linkFront list heap n = .ok ⟨heap', n, if list.head = 0 then n else list.tail,
        list.elemSize, wrap (list.count + 1)⟩ ∧
      nextOf heap' = Function.update (nextOf heap) n list.head ∧
      (∀ q, prevOf heap' q = if list.head ≠ 0 ∧ q = list.head then n else
        Function.update (prevOf heap) n 0 q) ∧ dataOf heap' = dataOf heap := by
  obtain ⟨heap₁, hwrite₁, hnext₁, hprev₁, hdata₁⟩ := writeNext_eq hlive list.head
  obtain ⟨heap₂, hwrite₂, hnext₂, hprev₂, hdata₂⟩ := writePrev_eq (hlive.transfer hdata₁) 0
  by_cases hzero : list.head = 0
  · refine ⟨heap₂, ?_, by rw [hnext₂, hnext₁], ?_, by rw [hdata₂, hdata₁]⟩
    · rw [linkFront, hwrite₁]
      simp only [bind, Except.bind, hwrite₂, hzero, ne_eq, not_true_eq_false, if_false, if_true]
      rfl
    · intro q
      rw [hprev₂, hprev₁, if_neg (fun hno => hno.1 hzero)]
  · have hlive₂ := ((hhead hzero).transfer hdata₁).transfer hdata₂
    obtain ⟨heap₃, hwrite₃, hnext₃, hprev₃, hdata₃⟩ := writePrev_eq hlive₂ n
    refine ⟨heap₃, ?_, by rw [hnext₃, hnext₂, hnext₁], ?_, by rw [hdata₃, hdata₂, hdata₁]⟩
    · rw [linkFront, hwrite₁]
      simp only [bind, Except.bind, hwrite₂, hwrite₃, hzero, ne_eq, not_false_eq_true, if_false,
        if_true]
      rfl
    · intro q
      rw [hprev₃, hprev₂, hprev₁, Function.update_apply]
      simp [hzero]

theorem linkFront_represents (h : Represents list nodes v) (hn : Fresh list.heap n) (elem : α) :
    ∃ list', linkFront list (withFresh list.heap n elem) n = .ok list' ∧
      Represents list' (n :: nodes) (elem :: v) := by
  have hmem := hn.notMem h
  have hne : ∀ q ∈ nodes, q ≠ n := fun q hq heq => hmem (heq ▸ hq)
  have hhead : list.head ≠ 0 → Live (withFresh list.heap n elem) list.head := by
    intro hno
    refine live_withFresh_of_live (h.live ?_) n elem
    rw [h.chain.head_eq] at hno ⊢
    exact headD_mem hno
  obtain ⟨heap', hlink, hnext, hprev, hdata⟩ :=
    linkFront_eq (live_withFresh list.heap n elem) hhead
  refine ⟨_, hlink, ?_, ?_, h.count_succ hn, ?_, ?_, h.size⟩
  · refine h.chain.pushFront hn.nonnull hmem (by simp [hnext]) ?_ ?_ ?_
    · rw [hprev, if_neg fun hno => h.head_ne hn hno.2.symm, Function.update_self]
    · intro q hq
      rw [hnext, Function.update_of_ne (hne q hq), withFresh, nextOf_update,
        Function.update_of_ne (hne q hq)]
    · intro q hq
      have hiff : (list.head ≠ 0 ∧ q = list.head) ↔ q = list.head :=
        and_iff_right_of_imp fun heq => heq ▸ h.chain.nonnull q hq
      rw [hprev, Function.update_of_ne (hne q hq), withFresh, prevOf_update,
        Function.update_of_ne (hne q hq), if_congr hiff rfl rfl]
  · cases nodes with
    | nil => simp [h.chain.head_eq]
    | cons q nodes =>
      have hzero : list.head ≠ 0 := by
        rw [h.chain.head_eq]
        exact h.chain.nonnull q List.mem_cons_self
      simp only [hzero, if_false, h.tail, List.getLastD_cons]
  · simp [hdata, map_dataOf_fresh hmem, h.data, dataOf_fresh]
  · exact List.forall_mem_cons.mpr ⟨hn.address, h.addresses⟩

/-! ## The other end -/

/-- The list read from its end. -/
def mirror (list : ZList α) : ZList α :=
  ⟨swapLinks list.heap, list.tail, list.head, list.elemSize, list.count⟩

@[simp] theorem mirror_mirror (list : ZList α) : mirror (mirror list) = list := by
  simp [mirror]

theorem Represents.mirror (h : Represents list nodes v) :
    Represents (mirror list) nodes.reverse v.reverse := by
  refine ⟨?_, ?_, ?_, ?_, fun p hp => h.addresses p (List.mem_reverse.mp hp), h.size⟩
  · simpa [Lists.mirror] using h.backward
  · rw [Lists.mirror, h.chain.head_eq]
    cases nodes <;> simp
  · simpa [Lists.mirror] using h.count
  · simp [Lists.mirror, List.map_reverse, h.data]

theorem linkBack_mirror (list : ZList α) (heap : Heap α) (n : ℕ) :
    linkBack list heap n = (linkFront (mirror list) (swapLinks heap) n).map mirror := by
  rw [linkFront, linkBack, writeNext_swapLinks]
  simp only [mirror]
  cases writePrev heap n list.tail with
  | error e => rfl
  | ok heap₁ =>
    simp only [Except.map, bind, Except.bind, writePrev_swapLinks]
    cases writeNext heap₁ n 0 with
    | error e => rfl
    | ok heap₂ =>
      simp only [writePrev_swapLinks]
      by_cases hzero : list.tail = 0
      · simp [hzero, pure, Except.pure, mirror]
      · cases writeNext heap₂ list.tail n with
        | error e => simp [hzero, Except.map]
        | ok heap₃ => simp [hzero, pure, Except.pure, Except.map, mirror]

theorem linkBack_represents (h : Represents list nodes v) (hn : Fresh list.heap n) (elem : α) :
    ∃ list', linkBack list (withFresh list.heap n elem) n = .ok list' ∧
      Represents list' (nodes ++ [n]) (v ++ [elem]) := by
  have hfresh : Fresh (mirror list).heap n :=
    ⟨hn.nonnull, hn.address, by simp [mirror, swapLinks, hn.unused]⟩
  have hflip : swapLinks (withFresh list.heap n elem) = withFresh (mirror list).heap n elem := by
    rw [withFresh, swapLinks_update]
    rfl
  obtain ⟨list', hlink, h'⟩ := linkFront_represents h.mirror hfresh elem
  refine ⟨mirror list', ?_, by simpa using h'.mirror⟩
  rw [linkBack_mirror, hflip, hlink]
  rfl

/-! ## Taking nodes out -/

/-- A node is taken out of the middle of the chain when its neighbours are joined. -/
theorem Represents.unlink (h : Represents list (xs ++ x :: ys) v) (heap' : Heap α)
    (hnext : ∀ q ∈ xs ++ ys, nextOf heap' q =
      if q = prevOf list.heap x then nextOf list.heap x else nextOf list.heap q)
    (hprev : ∀ q ∈ xs ++ ys, prevOf heap' q =
      if q = nextOf list.heap x then prevOf list.heap x else prevOf list.heap q)
    (hdata : ∀ q ∈ xs ++ ys, dataOf heap' q = dataOf list.heap q) :
    Represents ⟨heap', if prevOf list.heap x = 0 then nextOf list.heap x else list.head,
      if nextOf list.heap x = 0 then prevOf list.heap x else list.tail, list.elemSize,
      list.count - 1⟩ (xs ++ ys) (v.eraseIdx xs.length) := by
  have herase : (xs ++ x :: ys).eraseIdx xs.length = xs ++ ys := by
    rw [List.eraseIdx_append_of_length_le (le_refl _)]
    simp
  refine ⟨h.chain.unlink hnext hprev, ?_, by simp [h.count], ?_, ?_, h.size⟩
  · have hnextx := h.chain.next_eq
    have hprevx := h.chain.prev_eq
    cases ys with
    | nil => simp [hnextx, hprevx]
    | cons y ys =>
      have hy : y ≠ 0 := h.chain.nonnull y (by simp)
      simp [hnextx, hy, h.tail, List.getLastD_eq_getLast?, List.getLast?_append]
  · rw [List.map_congr_left hdata, ← herase, ← List.eraseIdx_map, h.data, List.eraseIdx_map]
  · intro q hq
    exact h.addresses q (by simp only [List.mem_append, List.mem_cons] at hq ⊢; tauto)

/-- The node and the element at a place of the list. -/
theorem Represents.at (h : Represents list (xs ++ x :: ys) v) :
    ∃ node, readNode list.heap x = .ok node ∧ node.next = nextOf list.heap x ∧
      node.prev = prevOf list.heap x ∧ v[xs.length]? = some node.data := by
  obtain ⟨node, hread, hnext, hprev, hdata⟩ := readNode_eq (h.live (p := x) (by simp))
  refine ⟨node, hread, hnext, hprev, ?_⟩
  have hget := congrArg (·[xs.length]?) h.data
  simp only [List.getElem?_map, List.getElem?_append_right (le_refl xs.length), Nat.sub_self,
    List.getElem?_cons_zero, Option.map_some, hdata] at hget
  obtain ⟨a, ha, hsome⟩ := Option.map_eq_some_iff.mp hget.symm
  rw [ha, hsome]

theorem Represents.other (h : Represents list (xs ++ x :: ys) v) {q : ℕ} (hq : q ∈ xs ++ ys) :
    q ≠ x ∧ q ≠ 0 := by
  obtain ⟨-, -, hxs, hys, -⟩ := h.chain.append_facts
  have hmem : q ∈ xs ++ x :: ys := by
    simp only [List.mem_append, List.mem_cons] at hq ⊢
    tauto
  refine ⟨?_, h.chain.nonnull q hmem⟩
  rintro rfl
  exact (List.mem_append.mp hq).elim hxs hys

/-- The last step of a removal: the links around the node are set, the node itself is freed. -/
theorem Represents.free (h : Represents list (xs ++ x :: ys) v) (heap : Heap α)
    (hnext : ∀ q ∈ xs ++ ys, nextOf heap q =
      if q = prevOf list.heap x then nextOf list.heap x else nextOf list.heap q)
    (hprev : ∀ q ∈ xs ++ ys, prevOf heap q =
      if q = nextOf list.heap x then prevOf list.heap x else prevOf list.heap q)
    (hdata : dataOf heap = dataOf list.heap) :
    ∃ heap', freeNode heap x = .ok heap' ∧
      Represents ⟨heap', if prevOf list.heap x = 0 then nextOf list.heap x else list.head,
        if nextOf list.heap x = 0 then prevOf list.heap x else list.tail, list.elemSize,
        list.count - 1⟩ (xs ++ ys) (v.eraseIdx xs.length) := by
  have hlive : Live heap x := (h.live (p := x) (by simp)).transfer hdata
  obtain ⟨heap', hfree, hnext', hprev', hdata'⟩ := freeNode_eq hlive
  refine ⟨heap', hfree, h.unlink heap' ?_ ?_ ?_⟩
  · intro q hq
    rw [hnext', Function.update_of_ne (h.other hq).1, hnext q hq]
  · intro q hq
    rw [hprev', Function.update_of_ne (h.other hq).1, hprev q hq]
  · intro q hq
    rw [hdata', Function.update_of_ne (h.other hq).1, hdata]

theorem popFront_represents (h : Represents list (x :: ys) v) :
    ∃ list', zenitListPopFront list true = .ok (list', ⟨.ok, v[0]?⟩) ∧
      Represents list' ys (v.eraseIdx 0) := by
  have h' : Represents list ([] ++ x :: ys) v := h
  have hcount : list.count ≠ 0 := by simp [h.count]
  have hhead : list.head = x := h.chain.head_eq
  have hprevx : prevOf list.heap x = 0 := h'.chain.prev_eq
  have hnextx : nextOf list.heap x = ys.headD 0 := h'.chain.next_eq
  obtain ⟨node, hread, hnext, hprev, hdata⟩ := h'.at
  rw [List.length_nil] at hdata
  rw [hdata]
  by_cases hlast : nextOf list.heap x = 0
  · obtain ⟨heap', hfree, hrep⟩ := h'.free list.heap
      (fun q hq => by rw [hprevx, if_neg (h'.other hq).2])
      (fun q hq => by rw [hlast, if_neg (h'.other hq).2]) rfl
    rw [if_pos hprevx, if_pos hlast] at hrep
    refine ⟨_, ?_, hrep⟩
    simp [zenitListPopFront, hcount, hhead, hread, hfree, hnext, hlast, hprevx, bind, Except.bind,
      pure, Except.pure]
  · have hmem : nextOf list.heap x ∈ ys := by
      rw [hnextx] at hlast ⊢
      exact headD_mem hlast
    obtain ⟨heap₁, hwrite, hnext₁, hprev₁, hdata₁⟩ :=
      writePrev_eq (h.live (List.mem_cons_of_mem x hmem)) 0
    obtain ⟨heap', hfree, hrep⟩ := h'.free heap₁
      (fun q hq => by rw [hnext₁, hprevx, if_neg (h'.other hq).2])
      (fun q hq => by rw [hprev₁, hprevx, Function.update_apply]) hdata₁
    rw [if_pos hprevx, if_neg hlast] at hrep
    refine ⟨_, ?_, hrep⟩
    simp [zenitListPopFront, hcount, hhead, hread, hwrite, hfree, hnext, hlast, bind, Except.bind,
      pure, Except.pure]

theorem popBack_represents (h : Represents list (xs ++ [x]) v) :
    ∃ list', zenitListPopBack list true = .ok (list', ⟨.ok, v[xs.length]?⟩) ∧
      Represents list' xs (v.eraseIdx xs.length) := by
  have hcount : list.count ≠ 0 := by simp [h.count]
  have htail : list.tail = x := by simp [h.tail]
  have hprevx : prevOf list.heap x = xs.getLastD 0 := h.chain.prev_eq
  have hnextx : nextOf list.heap x = 0 := h.chain.next_eq
  obtain ⟨node, hread, hnext, hprev, hdata⟩ := h.at
  rw [hdata]
  by_cases hfirst : prevOf list.heap x = 0
  · obtain ⟨heap', hfree, hrep⟩ := h.free list.heap
      (fun q hq => by rw [hfirst, if_neg (h.other hq).2])
      (fun q hq => by rw [hnextx, if_neg (h.other hq).2]) rfl
    rw [if_pos hfirst, if_pos hnextx, List.append_nil] at hrep
    refine ⟨_, ?_, hrep⟩
    simp [zenitListPopBack, hcount, htail, hread, hfree, hprev, hfirst, hnextx, bind, Except.bind,
      pure, Except.pure]
  · have hmem : prevOf list.heap x ∈ xs := by
      rw [hprevx] at hfirst ⊢
      exact getLastD_mem hfirst
    obtain ⟨heap₁, hwrite, hnext₁, hprev₁, hdata₁⟩ :=
      writeNext_eq (h.live (List.mem_append_left [x] hmem)) 0
    obtain ⟨heap', hfree, hrep⟩ := h.free heap₁
      (fun q hq => by rw [hnext₁, hnextx, Function.update_apply])
      (fun q hq => by rw [hprev₁, hnextx, if_neg (h.other hq).2]) hdata₁
    rw [if_neg hfirst, if_pos hnextx, List.append_nil] at hrep
    refine ⟨_, ?_, hrep⟩
    simp [zenitListPopBack, hcount, htail, hread, hwrite, hfree, hprev, hfirst, bind, Except.bind,
      pure, Except.pure]

theorem remove_represents (h : Represents list (xs ++ x :: ys) v) :
    ∃ list', zenitListRemove list xs.length true = .ok (list', ⟨.ok, v[xs.length]?⟩) ∧
      Represents list' (xs ++ ys) (v.eraseIdx xs.length) := by
  have hcount : list.count = xs.length + ys.length + 1 := by
    simp [h.count]
    omega
  by_cases hfirst : xs = []
  · subst hfirst
    obtain ⟨list', hpop, h'⟩ := popFront_represents h
    refine ⟨list', ?_, h'⟩
    rw [zenitListRemove, if_neg (by simp), if_neg (by simp; omega), if_pos (by simp)]
    exact hpop
  by_cases hlast : ys = []
  · subst hlast
    obtain ⟨list', hpop, h'⟩ := popBack_represents h
    refine ⟨list', ?_, by simpa using h'⟩
    rw [zenitListRemove, if_neg (by simp), if_neg (by simp [hcount]),
      if_neg (by simpa using hfirst), if_pos (by simp [hcount])]
    exact hpop
  have hprevx := h.chain.prev_eq
  have hnextx := h.chain.next_eq
  have hprevmem : prevOf list.heap x ∈ xs := by
    rw [hprevx, List.getLastD_eq_getLast?, List.getLast?_eq_some_getLast hfirst]
    exact List.getLast_mem hfirst
  have hnextmem : nextOf list.heap x ∈ ys := by
    obtain ⟨y, ys, rfl⟩ := List.exists_cons_of_ne_nil hlast
    simp [hnextx]
  have hother : prevOf list.heap x ≠ x := (h.other (List.mem_append_left ys hprevmem)).1
  have hxs : xs.length ≠ 0 := by simpa using hfirst
  have hys : ys.length ≠ 0 := by simpa using hlast
  obtain ⟨node, hread, hnext, hprev, hdata⟩ := h.at
  obtain ⟨heap₁, hwrite₁, hnext₁, hprev₁, hdata₁⟩ :=
    writeNext_eq (h.live (List.mem_append_left (x :: ys) hprevmem)) (nextOf list.heap x)
  have hlive₁ : Live heap₁ x := (h.live (p := x) (by simp)).transfer hdata₁
  obtain ⟨after, hread₁, hafter, hafter', -⟩ := readNode_eq hlive₁
  rw [hnext₁, Function.update_of_ne hother.symm] at hafter
  rw [hprev₁] at hafter'
  have hlive₂ : Live heap₁ (nextOf list.heap x) :=
    (h.live (List.mem_append_right xs (List.mem_cons_of_mem x hnextmem))).transfer hdata₁
  obtain ⟨heap₂, hwrite₂, hnext₂, hprev₂, hdata₂⟩ := writePrev_eq hlive₂ (prevOf list.heap x)
  obtain ⟨heap', hfree, hrep⟩ := h.free heap₂
    (fun q hq => by rw [hnext₂, hnext₁, Function.update_apply])
    (fun q hq => by rw [hprev₂, hprev₁, Function.update_apply]) (by rw [hdata₂, hdata₁])
  have hat : nodeAt list xs.length = .ok x :=
    nodeAt_eq h (by rw [List.getElem?_append_right (le_refl _)]; simp)
  rw [if_neg (h.other (List.mem_append_left ys hprevmem)).2,
    if_neg (h.other (List.mem_append_right xs hnextmem)).2] at hrep
  refine ⟨_, ?_, hrep⟩
  rw [zenitListRemove, if_neg (by simp), if_neg (by omega), if_neg hxs, if_neg (by omega), hdata]
  simp only [hat, hread, bind, Except.bind, hprev, hnext, hwrite₁, hread₁, hafter, hafter', hwrite₂,
    hfree]
  rfl

/-! ## A node in the middle -/

theorem insertIdx_middle (xs ys : List ℕ) (x n : ℕ) :
    (xs ++ x :: ys).insertIdx (xs.length + 1) n = xs ++ x :: n :: ys := by
  induction xs with
  | nil => rfl
  | cons z xs ih => simp [ih]

theorem linkBefore_eq (list : ZList α) (hn : Live heap n) (hx : Live heap x) (hy : Live heap y)
    (hprev : prevOf heap y = x) (hyn : y ≠ n) :
    ∃ heap', linkBefore list y heap n =
        .ok { list with heap := heap', count := wrap (list.count + 1) } ∧
      nextOf heap' = Function.update (Function.update (nextOf heap) n y) x n ∧
      prevOf heap' = Function.update (Function.update (prevOf heap) n x) y n ∧
      dataOf heap' = dataOf heap := by
  obtain ⟨node, hread, -, hbefore, -⟩ := readNode_eq hy
  obtain ⟨heap₁, hwrite₁, hnext₁, hprev₁, hdata₁⟩ := writePrev_eq hn x
  obtain ⟨heap₂, hwrite₂, hnext₂, hprev₂, hdata₂⟩ := writeNext_eq (hn.transfer hdata₁) y
  have hdata : dataOf heap₂ = dataOf heap := hdata₂.trans hdata₁
  obtain ⟨node', hread', -, hbefore', -⟩ := readNode_eq (hy.transfer hdata)
  obtain ⟨heap₃, hwrite₃, hnext₃, hprev₃, hdata₃⟩ := writeNext_eq (hx.transfer hdata) n
  obtain ⟨heap₄, hwrite₄, hnext₄, hprev₄, hdata₄⟩ :=
    writePrev_eq (hy.transfer (hdata₃.trans hdata)) n
  rw [hprev] at hbefore
  rw [hprev₂, hprev₁, Function.update_of_ne hyn, hprev] at hbefore'
  refine ⟨heap₄, ?_, by rw [hnext₄, hnext₃, hnext₂, hnext₁], by rw [hprev₄, hprev₃, hprev₂, hprev₁],
    by rw [hdata₄, hdata₃, hdata]⟩
  simp only [linkBefore, hread, bind, Except.bind, hbefore, hwrite₁, hwrite₂, hread', hbefore',
    hwrite₃, hwrite₄]
  rfl

theorem linkBefore_represents (h : Represents list (xs ++ x :: y :: ys) v)
    (hn : Fresh list.heap n) (elem : α) :
    ∃ list', linkBefore list y (withFresh list.heap n elem) n = .ok list' ∧
      Represents list' (xs ++ x :: n :: y :: ys) (v.insertIdx (xs.length + 1) elem) := by
  have hmem := hn.notMem h
  have hxmem : x ∈ xs ++ x :: y :: ys := by simp
  have hymem : y ∈ xs ++ x :: y :: ys := by simp
  have hne : ∀ q ∈ xs ++ x :: y :: ys, q ≠ n := fun q hq heq => hmem (heq ▸ hq)
  have hnextx : nextOf list.heap x = y := h.chain.next_eq
  have hprevy : prevOf list.heap y = x := by
    have hchain := h.chain
    rw [show xs ++ x :: y :: ys = (xs ++ [x]) ++ y :: ys by simp] at hchain
    simpa using hchain.prev_eq
  have hprevy' : prevOf (withFresh list.heap n elem) y = x := by
    rw [withFresh, prevOf_update, Function.update_of_ne (hne y hymem), hprevy]
  obtain ⟨heap', hlink, hnext, hprev, hdata⟩ := linkBefore_eq list
    (live_withFresh list.heap n elem) (live_withFresh_of_live (h.live hxmem) n elem)
    (live_withFresh_of_live (h.live hymem) n elem) hprevy' (hne y hymem)
  have hnext' : ∀ q, q ≠ n → nextOf heap' q = if q = x then n else nextOf list.heap q := by
    intro q hq
    rw [hnext, Function.update_apply, Function.update_of_ne hq, withFresh, nextOf_update,
      Function.update_of_ne hq]
  have hprev' : ∀ q, q ≠ n → prevOf heap' q = if q = y then n else prevOf list.heap q := by
    intro q hq
    rw [hprev, Function.update_apply, Function.update_of_ne hq, withFresh, prevOf_update,
      Function.update_of_ne hq]
  have hother : ∀ q ∈ xs ++ y :: ys, q ≠ x ∧ q ≠ n := by
    intro q hq
    refine ⟨(h.other hq).1, hne q ?_⟩
    simp only [List.mem_append, List.mem_cons] at hq ⊢
    tauto
  have hxy : x ≠ y := (hother y (by simp)).1.symm
  refine ⟨_, hlink, ?_, ?_, ?_, ?_, ?_, h.size⟩
  · refine h.chain.insertAfter hn.nonnull hmem ?_ ?_ ?_ ?_ ?_ ?_
    · rw [hnext, Function.update_of_ne (hne x hxmem).symm, Function.update_self, hnextx]
    · rw [hprev, Function.update_of_ne (hne y hymem).symm, Function.update_self]
    · rw [hnext, Function.update_self]
    · intro q hq
      rw [hnext' q (hother q hq).2, if_neg (hother q hq).1]
    · rw [hprev' x (hne x hxmem), if_neg hxy]
    · intro q hq
      rw [hprev' q (hother q hq).2, hnextx]
  · simp [h.tail, List.getLastD_eq_getLast?, List.getLast?_append]
  · rw [h.count_succ hn]
    simp only [List.length_append, List.length_cons]
    omega
  · rw [← insertIdx_middle, List.map_insertIdx, hdata, map_dataOf_fresh hmem, dataOf_fresh, h.data,
      ← List.map_insertIdx]
  · intro q hq
    by_cases hqn : q = n
    · exact hqn ▸ hn.address
    · exact h.addresses q (by simpa [hqn] using hq)

end LibZenit.Lists
