import LibZenit.DirListing
import Mathlib.Data.List.TakeWhile

/-!
# What a list of a directory holds

The second pass decides what is in the list and the first how long it may get. A list that cannot be
finished is taken back, so memory and streams are as before.
-/
namespace LibZenit.Dirs
open Blocks CString BlockLedger

/-- The name that the iterator hands out, cut to the size of its buffer. -/
def listed (e : Dirent) : Text := (cstr e.dName).take (nameSize - 1)

def ptrs (p : Option ℕ) : Multiset ℕ := p.elim 0 ({·})

/-- The slots of the array when the names `done` are in it. -/
def filled (count : ℕ) (done : List Name) : List (Option Name) :=
  done.map some ++ List.replicate (count - done.length) none

/-- The blocks of an array with the names `done`. -/
def owned (names : Option ℕ) (done : List Name) : Multiset ℕ :=
  ptrs names + (done.map Name.block : List ℕ)

variable {dir : Directory} {grants : ℕ → Bool} {fill : UInt8} {names : Option ℕ} {done : List Name}
  {iter : DirIter} {entry : DirEntry} {rest : List Dirent} {w : Resources} {heap : Ledger}
  {m n : Multiset ℕ} {count : ℕ} {e : Dirent}

/-! ## Bytes -/

theorem zero_notMem_listed (e : Dirent) : 0 ∉ listed e := by
  intro h
  have hne := List.mem_takeWhile_imp (List.mem_of_mem_take h)
  simp at hne

/-- Up to its terminator a buffer is copied byte by byte. -/
theorem copyName_eq {name dst : Text} {k c : ℕ} (hname : c + k ≤ name.length)
    (hdst : dst.length = c + k) :
    copyName k c name dst = .ok (dst.take c ++ (name.drop c).take k) := by
  induction k generalizing c dst with
  | zero =>
    rw [List.take_of_length_le (by omega), List.take_zero, List.append_nil]
    rfl
  | succ k ih =>
    have hc : c < name.length := by omega
    have hread : readSlot name c = .ok name[c] := readSlot_eq (List.getElem?_eq_getElem hc)
    have hwrite := writeSlot_eq (by omega : c < dst.length) name[c]
    have hset : (dst.set c name[c]).length = c + 1 + k := by
      rw [List.length_set]
      omega
    have hrest := ih (by omega) hset
    simp only [copyName, hread, hwrite, bind, Except.bind, hrest]
    rw [take_succ_set (by omega), List.append_assoc, List.drop_eq_getElem_cons hc,
      List.take_succ_cons]
    rfl

theorem strlenIn_eq {name : Text} (h : 0 ∈ name) : strlenIn name = .ok (strlen name) := if_pos h

theorem copyName_string {name : Text} (h : 0 ∈ name) (fill : UInt8) :
    copyName (strlen name + 1) 0 name (List.replicate (strlen name + 1) fill) =
      .ok (cstr name ++ [0]) := by
  obtain ⟨x, y, rfl, hx⟩ := List.eq_append_cons_of_mem h
  rw [strlen_append hx, copyName_eq (by simp) (by simp)]
  have hcut : (x ++ 0 :: y).take (x.length + 1) = x ++ [0] := by simp [List.take_append]
  simp [cstr, takeWhile_eq hx, hcut]

/-! ## The iterator -/

/-- The iterator is at an entry, and hands its name out as a string. -/
theorem next_cons (hrest : iter.rest = e :: rest) (hentry : entry.name.length = nameSize)
    (hheap : Owns w.heap ({iter.block} + m)) (hstreams : Owns w.streams ({iter.dir} + n)) :
    ∃ entry' : DirEntry, entry'.name.length = nameSize ∧ 0 ∈ entry'.name ∧
      cstr entry'.name = listed e ∧ (entry'.isDirectory ≠ 0 ↔ e.dirType = true) ∧
      zenitDirNext iter entry w = .ok (1, ⟨iter.block, iter.dir, rest⟩, entry', w) := by
  have hlen : (if strlen e.dName ≥ nameSize then nameSize - 1 else strlen e.dName) =
      (listed e).length := by
    have hmin : (listed e).length = min (nameSize - 1) (strlen e.dName) := List.length_take
    rw [hmin]
    unfold nameSize
    split_ifs <;> omega
  have hfits : (listed e).length < entry.name.length := by
    rw [hentry]
    simp only [listed, List.length_take, nameSize]
    omega
  have hread : readSlots e.dName 0 (listed e).length = .ok (listed e) := by
    have hpre : listed e <+: e.dName :=
      (List.take_prefix _ _).trans (List.takeWhile_prefix _)
    rw [readSlots, if_pos (by simpa using hpre.length_le), List.drop_zero,
      ← List.prefix_iff_eq_take.mp hpre]
  have hwrite : writeSlots entry.name 0 (listed e) =
      .ok (listed e ++ entry.name.drop (listed e).length) := by
    rw [writeSlots, if_pos (by omega)]
    simp [patch]
  have hdrop := List.drop_eq_getElem_cons hfits
  have hcut : writeSlot (listed e ++ entry.name.drop (listed e).length) (listed e).length 0 =
      .ok (listed e ++ 0 :: entry.name.drop ((listed e).length + 1)) := by
    rw [hdrop, writeSlot_append]
  refine ⟨⟨listed e ++ 0 :: entry.name.drop ((listed e).length + 1),
    if e.dirType then 1 else 0⟩, ?_, by simp, takeWhile_eq (zero_notMem_listed e) _, ?_, ?_⟩
  · simp only [List.length_append, List.length_cons, List.length_drop]
    omega
  · cases e.dirType <;> simp
  · unfold zenitDirNext
    rw [hheap.use (by simp), hstreams.use (by simp), hrest]
    simp only [hlen, hread, hwrite, hcut, bind, Except.bind]
    rfl

theorem next_nil (hrest : iter.rest = []) (hheap : Owns w.heap ({iter.block} + m))
    (hstreams : Owns w.streams ({iter.dir} + n)) :
    zenitDirNext iter entry w = .ok (0, iter, entry, w) := by
  unfold zenitDirNext
  rw [hheap.use (by simp), hstreams.use (by simp), hrest]
  rfl

/-- A directory that cannot be opened, or whose iterator gets no memory, leaves nothing behind. -/
theorem iter_cases (dir : Directory) (grants : ℕ → Bool) (hheap : Owns w.heap m)
    (hstreams : Owns w.streams n) :
    (∃ w', zenitDirIter dir grants w = (none, w') ∧ Owns w'.heap m ∧ Owns w'.streams n ∧
      ((∃ k, dir.opens k = false) ∨ ∃ k, grants k = false)) ∨
    ∃ b d w', zenitDirIter dir grants w =
        (some ⟨b, d, dir.entries w.streams.requests⟩, w') ∧
      Owns w'.heap ({b} + m) ∧ Owns w'.streams ({d} + n) ∧
      w'.streams.requests = w.streams.requests + 1 := by
  unfold zenitDirIter
  rcases hstreams.alloc dir.opens with ⟨s, heq, hs, hn⟩ | ⟨d, s, heq, hs, -⟩
  · rw [heq]
    exact Or.inl ⟨_, rfl, hheap, hs, Or.inl hn⟩
  · rw [heq]
    have hcount : s.requests = w.streams.requests + 1 := by
      unfold Ledger.alloc at heq
      split_ifs at heq
      · rw [← (Prod.mk.inj heq).2]
      · cases heq
    rcases hheap.alloc grants with ⟨l, hl, hl', hn⟩ | ⟨b, l, hl, hl', -⟩
    · rw [hl]
      exact Or.inl ⟨_, rfl, hl', hs.free, Or.inr hn⟩
    · rw [hl]
      exact Or.inr ⟨b, d, _, rfl, hl', hs, hcount⟩

theorem destroy_owns (iter : DirIter) (hheap : Owns w.heap ({iter.block} + m))
    (hstreams : Owns w.streams ({iter.dir} + n)) :
    Owns (zenitDirIterDestroy iter w).heap m ∧ Owns (zenitDirIterDestroy iter w).streams n := by
  unfold zenitDirIterDestroy
  rw [hheap.use (by simp)]
  exact ⟨hheap.free, hstreams.free⟩

/-! ## The two passes -/

theorem countLoop_eq (iter : DirIter) (hrest : iter.rest = rest)
    (hentry : entry.name.length = nameSize) (hheap : Owns w.heap ({iter.block} + m))
    (hstreams : Owns w.streams ({iter.dir} + n)) (hcount : count < 2 ^ 64) :
    ∃ entry' : DirEntry, entry'.name.length = nameSize ∧
      countLoop (rest.length + 1) iter entry count w =
        .ok (wrap (count + rest.length), ⟨iter.block, iter.dir, []⟩, entry', w) := by
  induction rest generalizing iter entry count with
  | nil =>
    refine ⟨entry, hentry, ?_⟩
    rw [countLoop, next_nil hrest hheap hstreams]
    obtain ⟨b, d, r⟩ := iter
    obtain rfl : r = [] := hrest
    simp [bind, Except.bind, pure, Except.pure, wrap_of_lt hcount]
  | cons e rest ih =>
    obtain ⟨entry₁, hentry₁, -, -, -, hnext⟩ := next_cons hrest hentry hheap hstreams
    have hnext_count : wrap (count + 1) < 2 ^ 64 := Nat.mod_lt _ (by positivity)
    obtain ⟨entry₂, hentry₂, hloop⟩ := ih ⟨iter.block, iter.dir, rest⟩ rfl hentry₁ hheap
      hstreams hnext_count
    refine ⟨entry₂, hentry₂, ?_⟩
    have hsum : wrap (wrap (count + 1) + rest.length) = wrap (count + (e :: rest).length) := by
      rw [wrap, wrap, wrap, Nat.mod_add_mod, List.length_cons, Nat.add_assoc, Nat.add_comm 1]
    rw [List.length_cons, countLoop, hnext]
    simp only [bind, Except.bind, ne_eq, one_ne_zero, not_false_eq_true, if_true]
    rw [hloop, hsum, List.length_cons]

theorem length_filled (h : done.length ≤ count) : (filled count done).length = count := by
  simp only [filled, List.length_append, List.length_map, List.length_replicate]
  omega

/-- The next name goes into the first free slot. -/
theorem writeSlot_filled (h : done.length < count) (x : Name) :
    writeSlot (filled count done) done.length (some x) = .ok (filled count (done ++ [x])) := by
  have hsplit : count - done.length = count - (done.length + 1) + 1 := by omega
  rw [writeSlot_eq (by rw [length_filled h.le]; exact h), filled, filled, hsplit,
    List.replicate_succ, List.set_append_right _ _ (by simp)]
  simp

theorem writeSlot_filled_none (h : done.length < count) :
    writeSlot (filled count done) done.length none = .ok (filled count done) := by
  have hsplit : count - done.length = count - (done.length + 1) + 1 := by omega
  rw [writeSlot_eq (by rw [length_filled h.le]; exact h), filled, hsplit, List.replicate_succ,
    List.set_append_right _ _ (by simp)]
  simp

theorem owned_append (names : Option ℕ) (done : List Name) (x : Name) :
    owned names (done ++ [x]) = {x.block} + owned names done := by
  simp only [owned, List.map_append, ← Multiset.coe_add, List.map_cons, List.map_nil,
    Multiset.coe_singleton]
  abel

/-- The second pass fills the array with the names it meets, or stops at a refused request. -/
theorem fillLoop_cases (grants : ℕ → Bool) (fill : UInt8) (iter : DirIter) (done : List Name)
    (hrest : iter.rest = rest) (hentry : entry.name.length = nameSize)
    (hnames : 0 < count → ∃ b, names = some b) (hle : done.length ≤ count)
    (hheap : Owns w.heap ({iter.block} + (owned names done + m)))
    (hstreams : Owns w.streams ({iter.dir} + n)) :
    ∃ code done' iter' heap', fillLoop grants fill names count (rest.length + 1) iter entry
        (filled count done) done.length w =
          .ok (code, filled count done', done'.length, iter', ⟨heap', w.streams⟩) ∧
      iter'.block = iter.block ∧ iter'.dir = iter.dir ∧ done'.length ≤ count ∧
      Owns heap' ({iter.block} + (owned names done' + m)) ∧
      ((code = .ok ∧ done'.map Name.bytes = done.map Name.bytes ++
          (rest.take (count - done.length)).map fun e => listed e ++ [0]) ∨
        (code = .alloc ∧ ∃ k, grants k = false)) := by
  induction rest generalizing iter entry done w with
  | nil =>
    refine ⟨.ok, done, iter, w.heap, ?_, rfl, rfl, hle, hheap, Or.inl ⟨rfl, by simp⟩⟩
    rw [List.length_nil, fillLoop, next_nil hrest hheap hstreams]
    rfl
  | cons e rest ih =>
    obtain ⟨entry₁, hentry₁, hzero, hname, -, hnext⟩ := next_cons hrest hentry hheap hstreams
    rcases hle.lt_or_eq with hlt | heq
    · obtain ⟨b, hb⟩ := hnames (by omega)
      rw [List.length_cons, fillLoop, hnext]
      simp only [bind, Except.bind, ne_eq, one_ne_zero, not_false_eq_true, hlt, and_self, if_true,
        strlenIn_eq hzero]
      have huse : ∀ {h : Ledger} {x : Multiset ℕ}, Owns h (x + (owned names done + m)) →
          usePtr names h = h := fun howns => by
        rw [hb] at howns ⊢
        exact howns.use (by simp [owned, ptrs])
      rcases hheap.alloc grants with ⟨heap₁, hrefused, hheap₁, hn⟩ | ⟨c, heap₁, hgranted, hheap₁, -⟩
      · refine ⟨.alloc, done, ⟨iter.block, iter.dir, rest⟩, heap₁, ?_, rfl, rfl, hle, hheap₁,
          Or.inr ⟨rfl, hn⟩⟩
        rw [hrefused]
        simp only [writeSlot_filled_none hlt, huse hheap₁]
        rfl
      · have hc : Owns heap₁ ({iter.block} + (owned names (done ++ [⟨c, listed e ++ [0]⟩]) + m)) :=
          hheap₁.congr (by rw [owned_append]; abel)
        have hc' : Owns heap₁ ({c} + {iter.block} + (owned names done + m)) :=
          hheap₁.congr (by abel)
        obtain ⟨code, done', iter', heap', hloop, hblock, hdir, hle', hheap', hout⟩ :=
          ih ⟨iter.block, iter.dir, rest⟩ (done ++ [Name.mk c (listed e ++ [0])])
            (w := Resources.mk heap₁ w.streams) rfl hentry₁ (by simp; omega) hc hstreams
        refine ⟨code, done', iter', heap', ?_, hblock, hdir, hle', hheap', ?_⟩
        · rw [hgranted]
          simp only [copyName_string hzero, hname, writeSlot_filled hlt, huse hc']
          simpa using hloop
        · rcases hout with ⟨hok, hbytes⟩ | hrefused
          · refine Or.inl ⟨hok, ?_⟩
            have hsplit : count - done.length = count - (done.length + 1) + 1 := by omega
            rw [hbytes, hsplit, List.take_succ_cons]
            simp
          · exact Or.inr hrefused
    · refine ⟨.ok, done, ⟨iter.block, iter.dir, rest⟩, w.heap, ?_, rfl, rfl, hle, hheap,
        Or.inl ⟨rfl, by simp [heq]⟩⟩
      rw [List.length_cons, fillLoop, hnext]
      simp only [bind, Except.bind, heq, lt_irrefl, and_false, if_false]
      rfl

/-! ## Taking a list back -/

theorem readSlot_filled {j : ℕ} (h : j < done.length) :
    readSlot (filled count done) j = .ok (some done[j]) := by
  refine readSlot_eq ?_
  rw [filled, List.getElem?_append_left (by simpa using h), List.getElem?_map,
    List.getElem?_eq_getElem h]
  rfl

theorem freeLoop_owns {k j : ℕ} (hk : k + j = done.length)
    (hnames : 0 < done.length → ∃ b, names = some b)
    (hheap : Owns heap (owned names (done.drop j) + m)) :
    ∃ heap', freeLoop k j names (filled count done) heap = .ok heap' ∧
      Owns heap' (ptrs names + m) := by
  induction k generalizing j heap with
  | zero =>
    have hempty : done.drop j = [] := List.drop_of_length_le (by omega)
    rw [hempty] at hheap
    exact ⟨heap, rfl, hheap.congr (by simp [owned])⟩
  | succ k ih =>
    have hj : j < done.length := by omega
    obtain ⟨b, hb⟩ := hnames (by omega)
    have huse : usePtr names heap = heap := by
      rw [hb] at hheap ⊢
      exact hheap.use (by simp [owned, ptrs])
    have hnext : Owns (heap.free done[j].block) (owned names (done.drop (j + 1)) + m) := by
      refine (hheap.congr ?_).free
      rw [List.drop_eq_getElem_cons hj]
      simp only [owned, List.map_cons, ← Multiset.cons_coe, ← Multiset.singleton_add]
      abel
    obtain ⟨heap', hloop, hheap'⟩ := ih (j := j + 1) (by omega) hnext
    refine ⟨heap', ?_, hheap'⟩
    simp only [freeLoop, readSlot_filled hj, bind, Except.bind, huse]
    exact hloop

theorem freePtr_owns (h : Owns heap (ptrs names + m)) : Owns (freePtr names heap) m := by
  cases names with
  | none => exact h.congr (by simp [ptrs])
  | some b => exact h.free

theorem freeListing_owns (count : ℕ) (hnames : 0 < done.length → ∃ b, names = some b)
    (hheap : Owns heap (owned names done + m)) :
    ∃ heap', freeListing ⟨names, filled count done, done.length⟩ heap = .ok heap' ∧
      Owns heap' m := by
  obtain ⟨heap', hloop, hheap'⟩ := freeLoop_owns (k := done.length) (j := 0) (by omega) hnames hheap
  refine ⟨freePtr names heap', ?_, freePtr_owns hheap'⟩
  unfold freeListing
  rw [hloop]
  rfl

/-! ## Lists -/

theorem callocNames_cases (grants : ℕ → Bool) (count : ℕ) (hheap : Owns heap m) :
    (∃ heap', callocNames grants count heap = (none, heap') ∧ Owns heap' m ∧
      ((∃ k, grants k = false) ∨ 2 ^ 64 ≤ count * 8)) ∨
    ∃ names heap', callocNames grants count heap = (some names, heap') ∧
      Owns heap' (ptrs names + m) ∧ (0 < count → ∃ b, names = some b) := by
  unfold callocNames
  split_ifs with hpos hfits
  · rcases hheap.alloc grants with ⟨l, heq, hl, hn⟩ | ⟨b, l, heq, hl, -⟩
    · rw [heq]
      exact Or.inl ⟨l, rfl, hl, Or.inl hn⟩
    · rw [heq]
      exact Or.inr ⟨some b, l, rfl, hl, fun _ => ⟨b, rfl⟩⟩
  · exact Or.inl ⟨heap, rfl, hheap, Or.inr (by omega)⟩
  · exact Or.inr ⟨none, heap, rfl, hheap.congr (by simp [ptrs]), fun h => absurd h hpos⟩

theorem requests_destroy (iter : DirIter) (w : Resources) :
    (zenitDirIterDestroy iter w).streams.requests = w.streams.requests := by
  simp only [zenitDirIterDestroy, Ledger.free]
  split_ifs <;> rfl

/-- What a call reports, hands out and leaves, when its list may have `count` names of `entries`. -/
def Lists (dir : Directory) (grants : ℕ → Bool) (entries : List Dirent) (count : ℕ)
    (m n : Multiset ℕ) (res : ZenitError × Option Listing × Resources) : Prop :=
  Owns res.2.2.streams n ∧
    ((res.1 = .ok ∧ ∃ listing, res.2.1 = some listing ∧
        listing.count = min count entries.length ∧
        (listing.slots.take listing.count).map (Option.map Name.bytes) =
          (entries.take listing.count).map (fun e => some (listed e ++ [0])) ∧
        ∃ heap, freeListing listing res.2.2.heap = .ok heap ∧ Owns heap m) ∨
      res.2.1 = none ∧ Owns res.2.2.heap m ∧
        ((res.1 = .notFound ∧ ((∃ k, dir.opens k = false) ∨ ∃ k, grants k = false)) ∨
          res.1 = .alloc ∧ ((∃ k, grants k = false) ∨ 2 ^ 64 ≤ count * 8)))

theorem secondPass_lists (hentry : entry.name.length = nameSize)
    (hnames : 0 < count → ∃ b, names = some b) (hheap : Owns w.heap (ptrs names + m))
    (hstreams : Owns w.streams n) :
    ∃ res, secondPass dir grants fill names count entry w = .ok res ∧
      Lists dir grants (dir.entries w.streams.requests) count m n res := by
  unfold secondPass
  rcases iter_cases dir grants hheap hstreams with
    ⟨w₁, heq, hheap₁, hstreams₁, hwhy⟩ | ⟨b, d, w₁, heq, hheap₁, hstreams₁, -⟩
  · rw [heq]
    exact ⟨_, rfl, hstreams₁, Or.inr ⟨rfl, freePtr_owns hheap₁, Or.inl ⟨rfl, hwhy⟩⟩⟩
  have hheap₁' : Owns w₁.heap ({b} + (owned names [] + m)) := hheap₁.congr (by simp [owned])
  obtain ⟨code, done, iter, heap₂, hfill, hblock, hdir, hle, hheap₂, hout⟩ :=
    fillLoop_cases grants fill ⟨b, d, dir.entries w.streams.requests⟩ [] rfl hentry hnames
      (Nat.zero_le _) hheap₁' hstreams₁
  obtain ⟨hheap₃, hstreams₃⟩ := destroy_owns iter (w := ⟨heap₂, w₁.streams⟩)
    (by rw [hblock]; exact hheap₂) (by rw [hdir]; exact hstreams₁)
  obtain ⟨heap₄, hfree, hheap₄⟩ := freeListing_owns count (fun hpos => hnames (by omega))
    hheap₃
  have hempty : filled count [] = List.replicate count none := by simp [filled]
  rw [hempty, List.length_nil] at hfill
  rw [heq]
  simp only [hfill, bind, Except.bind]
  rcases hout with ⟨rfl, hbytes⟩ | ⟨rfl, hn⟩
  · have hlen : done.length = min count (dir.entries w.streams.requests).length := by
      simpa using congrArg List.length hbytes
    refine ⟨_, rfl, hstreams₃, Or.inl ⟨rfl, _, rfl, hlen, ?_, heap₄, hfree, hheap₄⟩⟩
    have htake : (filled count done).take done.length = done.map some := by simp [filled]
    have htake' : (dir.entries w.streams.requests).take done.length =
        (dir.entries w.streams.requests).take count := by
      rw [hlen, List.take_eq_take_iff]
      simp
    have hmap := congrArg (List.map some) hbytes
    dsimp only
    rw [htake, htake']
    simpa [Function.comp_def] using hmap
  · simp only [ne_eq, reduceCtorEq, not_false_eq_true, if_true, hfree]
    exact ⟨_, rfl, hstreams₃, Or.inr ⟨rfl, hheap₄, Or.inr ⟨rfl, Or.inl hn⟩⟩⟩

/-- However the directory changes between the two passes, and whatever is refused, the list holds
the first entries of the second pass, as many as there were in the first, in blocks that the caller
can free; or there is no list and nothing is kept. All streams are closed. With a `NULL` argument
nothing happens. -/
theorem directory_lists (dir : Directory) (grants : ℕ → Bool) (fill : UInt8) (entry : DirEntry)
    (w : Resources) (hentry : entry.name.length = nameSize) (hheap : w.heap.fault = false)
    (hstreams : w.streams.fault = false) :
    (∃ res, zenitDirList (some dir) true true grants fill entry w = .ok res ∧
      Lists dir grants (dir.entries (w.streams.requests + 1))
        (wrap (dir.entries w.streams.requests).length) w.heap.live.val w.streams.live.val res) ∧
    ∀ path outNames outCount, path = none ∨ outNames = false ∨ outCount = false →
      zenitDirList path outNames outCount grants fill entry w = .ok (.null, none, w) := by
  have hheap₀ : Owns w.heap w.heap.live.val := ⟨hheap, rfl⟩
  have hstreams₀ : Owns w.streams w.streams.live.val := ⟨hstreams, rfl⟩
  refine ⟨?_, fun path outNames outCount => by
    cases path <;> cases outNames <;> cases outCount <;> simp [zenitDirList]⟩
  change ∃ res, listTwice dir grants fill entry w = .ok res ∧ _
  unfold listTwice
  rcases iter_cases dir grants hheap₀ hstreams₀ with
    ⟨w₁, heq, hheap₁, hstreams₁, hwhy⟩ | ⟨b, d, w₁, heq, hheap₁, hstreams₁, hreq⟩
  · rw [heq]
    exact ⟨_, rfl, hstreams₁, Or.inr ⟨rfl, hheap₁, Or.inl ⟨rfl, hwhy⟩⟩⟩
  obtain ⟨entry₁, hentry₁, hcount⟩ := countLoop_eq
    ⟨b, d, dir.entries w.streams.requests⟩ rfl hentry hheap₁ hstreams₁ (by positivity : 0 < 2 ^ 64)
  obtain ⟨hheap₂, hstreams₂⟩ := destroy_owns ⟨b, d, []⟩ hheap₁ hstreams₁
  have hreq₂ := requests_destroy ⟨b, d, []⟩ w₁
  rw [heq]
  simp only [hcount, bind, Except.bind, Nat.zero_add]
  rcases callocNames_cases grants (wrap (dir.entries w.streams.requests).length) hheap₂ with
    ⟨heap₃, hcalloc, hheap₃, hwhy⟩ | ⟨names, heap₃, hcalloc, hheap₃, hnames⟩
  · rw [hcalloc]
    exact ⟨_, rfl, hstreams₂, Or.inr ⟨rfl, hheap₃, Or.inr ⟨rfl, hwhy⟩⟩⟩
  rw [hcalloc, ← hreq, ← hreq₂]
  exact secondPass_lists (w := ⟨heap₃, _⟩) hentry₁ hnames hheap₃ hstreams₂

/-- Of the entries `.`, `a` and `b` only `b` is left when the second stream is opened. -/
def shrinking : Directory where
  opens _ := true
  entries k := if k = 0 then [⟨[46, 0], true⟩, ⟨[97, 0], false⟩, ⟨[98, 0], false⟩]
    else [⟨[98, 0], false⟩]

theorem shrinking_directory_lists :
    ∃ res, zenitDirList (some shrinking) true true (fun _ => true) 170
        ⟨List.replicate nameSize 170, 0⟩ ⟨⟨{7}, 8, 0, false, by simp⟩, ⟨∅, 0, 0, false, by simp⟩⟩ = .ok res ∧
      Lists shrinking (fun _ => true) [⟨[98, 0], false⟩] 3 {7} 0 res :=
  (directory_lists shrinking (fun _ => true) 170 ⟨List.replicate nameSize 170, 0⟩
    ⟨⟨{7}, 8, 0, false, by simp⟩, ⟨∅, 0, 0, false, by simp⟩⟩ List.length_replicate rfl rfl).1

end LibZenit.Dirs
