import LibZenit.GraphInvariant
import LibZenit.GraphTraversal
import LibZenit.Worklists

/-!
# The traversals enter what can be reached

The blocks of a traversal hold the worklist of a search: a queue whose front stays in the block, or
a stack that grows towards higher slots. A search lists a vertex once, so the block has room.
-/
namespace LibZenit.Graphs
open Blocks Worklists

variable {C : Type} {g : Graph} {s : Worklist} {v u : ℕ} {marked content us is : List ℕ}
  {start : ℕ} {done pending rest : List ℕ}

/-- What the blocks hold. -/
structure Holds (g : Graph) (marked content : List ℕ) (s : Worklist) : Prop where
  length_visited : s.visited.length = g.vertexCapacity
  length_slots : s.slots.length = g.vertexCapacity
  mark : ∀ u < g.vertexCapacity, s.visited[u]? = some (if u ∈ marked then 1 else 0)
  filled : s.slots.take s.next = content
  next : s.next = content.length

theorem Holds.congr {marked' : List ℕ} (h : Holds g marked content s)
    (he : ∀ u, u ∈ marked' ↔ u ∈ marked) : Holds g marked' content s :=
  { h with mark := fun u hu => by rw [h.mark u hu]; simp only [he] }

theorem Holds.read (h : Holds g marked content s) {i : ℕ} (hi : i < s.next) :
    s.slots[i]? = content[i]? := by
  rw [← h.filled, List.getElem?_take_of_lt hi]

theorem Holds.discover (h : Holds g marked content s) {i : ℕ} (hread : (g.adj v)[i]? = some u)
    (hu : u < g.vertexCapacity) (hroom : u ∉ marked → content.length < g.vertexCapacity) :
    ∃ s', Graphs.discover g v s i = .ok s' ∧
      if u ∈ marked then s' = s else Holds g (marked ++ [u]) (content ++ [u]) s' := by
  have hmark := h.mark u hu
  by_cases hm : u ∈ marked
  · rw [if_pos hm] at hmark
    refine ⟨s, ?_, by rw [if_pos hm]⟩
    simp [Graphs.discover, readSlot_eq hread, readSlot_eq hmark, Except.bind]
  · rw [if_neg hm] at hmark
    have hvis : u < s.visited.length := by rw [h.length_visited]; exact hu
    have hslot : s.next < s.slots.length := by
      rw [h.length_slots, h.next]
      exact hroom hm
    refine ⟨⟨s.visited.set u 1, s.slots.set s.next u, s.next + 1⟩, ?_, ?_⟩
    · simp [Graphs.discover, readSlot_eq hread, readSlot_eq hmark, writeSlot_eq hvis,
        writeSlot_eq hslot, Except.bind, Except.map]
    · rw [if_neg hm]
      refine ⟨by simpa using h.length_visited, by simpa using h.length_slots, fun w hw => ?_, ?_,
        ?_⟩
      · by_cases hwu : w = u
        · subst hwu
          simp [List.getElem?_set_self hvis]
        · rw [List.getElem?_set_ne (Ne.symm hwu), h.mark w hw]
          simp [hwu]
      · rw [take_succ_set hslot, h.filled]
      · simp [h.next]

/-- The vertices read at the positions that are taken. -/
theorem Holds.discoverAt (h : Holds g marked content s)
    (hread : is.map (fun i => (g.adj v)[i]?) = us.map some) (hnodup : us.Nodup)
    (hlt : ∀ u ∈ us, u < g.vertexCapacity)
    (hroom : content.length + (us.filter fun u => u ∉ marked).length ≤ g.vertexCapacity) :
    ∃ s', Graphs.discoverAt g v is s = .ok s' ∧
      Holds g (marked ++ us.filter fun u => u ∉ marked)
        (content ++ us.filter fun u => u ∉ marked) s' := by
  induction us generalizing is marked content s with
  | nil =>
    rw [List.map_nil, List.map_eq_nil_iff] at hread
    subst hread
    exact ⟨s, rfl, by simpa using h⟩
  | cons u us ih =>
    obtain ⟨i, is, rfl, hi, his⟩ := List.map_eq_cons_iff.mp hread
    obtain ⟨hu, hnodup⟩ := List.nodup_cons.mp hnodup
    obtain ⟨hult, hlt⟩ := List.forall_mem_cons.mp hlt
    by_cases hm : u ∈ marked
    · rw [List.filter_cons_of_neg (by simpa using hm)] at hroom ⊢
      obtain ⟨s', hdisc, hs'⟩ := h.discover hi hult (fun h' => absurd hm h')
      rw [if_pos hm] at hs'
      obtain ⟨s'', hrest, hs''⟩ := ih h his hnodup hlt hroom
      refine ⟨s'', ?_, hs''⟩
      rw [Graphs.discoverAt, hdisc, hs']
      exact hrest
    · rw [List.filter_cons_of_pos (by simpa using hm)] at hroom ⊢
      rw [List.length_cons] at hroom
      obtain ⟨s', hdisc, hs'⟩ := h.discover hi hult (fun _ => by omega)
      rw [if_neg hm] at hs'
      -- the later ones differ from `u`, so marking it changes nothing for them
      have hfilter : us.filter (fun w => w ∉ marked ++ [u]) = us.filter fun w => w ∉ marked := by
        refine List.filter_congr fun w hw => ?_
        have hne : w ≠ u := fun he => hu (he ▸ hw)
        simp [hne]
      obtain ⟨s'', hrest, hs''⟩ := ih hs' his hnodup hlt (by
        rw [hfilter, List.length_append, List.length_singleton]
        omega)
      rw [hfilter] at hs''
      refine ⟨s'', ?_, by simpa using hs''⟩
      rw [Graphs.discoverAt, hdisc]
      exact hrest

/-! ## Graphs in good order -/

theorem WellFormed.within (hw : WellFormed g) : Within (neighbors g) (activeSlots g) where
  closed v hv u hu := by
    obtain ⟨hlt, hactive⟩ := hw.active v (Finset.mem_range.mp (Finset.mem_filter.mp hv).1) u hu
    exact Finset.mem_filter.mpr ⟨Finset.mem_range.mpr hlt, hactive⟩
  nodup v hv := hw.nodup v (Finset.mem_range.mp (Finset.mem_filter.mp hv).1)

theorem card_activeSlots_le (g : Graph) : (activeSlots g).card ≤ g.vertexCapacity := by
  have hle := Finset.card_filter_le (Finset.range g.vertexCapacity) fun v => g.removed v = false
  rwa [Finset.card_range] at hle

theorem lt_of_mem_activeSlots (h : v ∈ activeSlots g) : v < g.vertexCapacity :=
  Finset.mem_range.mp (Finset.mem_filter.mp h).1

theorem positions_read (hw : WellFormed g) (hv : v < g.vertexCapacity) :
    (List.range (g.counts v)).map (fun i => (g.adj v)[i]?) = (neighbors g v).map some := by
  have hlen := (hw.fits v hv).2
  refine List.ext_getElem? fun i => ?_
  rw [List.getElem?_map, List.getElem?_map]
  by_cases hi : i < g.counts v
  · rw [List.getElem?_range hi, List.getElem?_eq_getElem (by omega), Option.map_some,
      Option.map_some, ← List.getElem?_eq_getElem, neighbors, List.getElem?_take_of_lt hi]
  · rw [List.getElem?_eq_none (by simpa using hi), List.getElem?_eq_none (by omega)]
    rfl

/-! ## The loops -/

/-- The calls of a visitor that gets the vertices of a list one by one until it stops, with the
context that they leave. -/
def callUntilStop (visit : VisitFn C) : C → List ℕ → List ℕ × C
  | ctx, [] => ([], ctx)
  | ctx, v :: vs =>
    let p := visit ctx v
    if p.2 ≠ 0 then ([v], p.1)
    else
      let q := callUntilStop visit p.1 vs
      (v :: q.1, q.2)

theorem callUntilStop_of_never {visit : VisitFn C} (hnever : ∀ ctx v, (visit ctx v).2 = 0)
    (ctx : C) (vs : List ℕ) : (callUntilStop visit ctx vs).1 = vs := by
  induction vs generalizing ctx with
  | nil => rfl
  | cons v vs ih => simp [callUntilStop, hnever, ih]

/-- The vertex that a round takes from the worklist, and what it puts there, fit the blocks. -/
theorem round_fits (hw : WellFormed g) (hstart : start ∈ activeSlots g)
    (hs : Sound (neighbors g) start done (v :: rest)) (p : Placement ℕ) :
    v < g.vertexCapacity ∧
      Sound (neighbors g) start (done ++ [v])
        (p.place (fresh (neighbors g) done (v :: rest) v) rest) ∧
      (done ++ v :: rest ++ fresh (neighbors g) done (v :: rest) v).length ≤ g.vertexCapacity := by
  have hv : v ∈ activeSlots g := hw.within.of_reaches hstart (hs.reached v (by simp))
  have hvlt := lt_of_mem_activeSlots hv
  have hstep := hs.step (hw.nodup v hvlt) p
  have hfit := (hstep.length_le hw.within hstart).trans (card_activeSlots_le g)
  rw [(step_perm p _).length_eq] at hfit
  exact ⟨hvlt, hstep, hfit⟩

theorem bfsLoop_calls (hw : WellFormed g) (hstart : start ∈ activeSlots g) {fuel : ℕ}
    (hs : Sound (neighbors g) start done pending)
    (h : Holds g (done ++ pending) (done ++ pending) s)
    (hfuel : (activeSlots g).card < done.length + fuel) (visit : VisitFn C) (ctx : C) :
    bfsLoop g visit fuel done.length s ctx =
      .ok (callUntilStop visit ctx (order queue (neighbors g) fuel done pending)) := by
  induction fuel generalizing done pending s ctx with
  | zero =>
    have hle := hs.length_le hw.within hstart
    rw [List.length_append] at hle
    omega
  | succ fuel ih =>
    have hnext := h.next
    rw [List.length_append] at hnext
    cases pending with
    | nil =>
      rw [List.length_nil] at hnext
      rw [bfsLoop, if_neg (by omega)]
      rfl
    | cons v rest =>
      rw [List.length_cons] at hnext
      have hlt : done.length < s.next := by omega
      have hread : s.slots[done.length]? = some v := by simp [h.read hlt]
      obtain ⟨hvlt, hstep, hfit⟩ := round_fits hw hstart hs queue
      rw [bfsLoop, if_pos hlt, readSlot_eq hread]
      simp only [Except.bind, order, callUntilStop]
      by_cases hstop : (visit ctx v).2 ≠ 0
      · rw [if_pos hstop, if_pos hstop]
      · rw [List.length_append] at hfit
        obtain ⟨s', hdisc, hs'⟩ := h.discoverAt (positions_read hw hvlt) (hw.nodup v hvlt)
          (fun u hu => (hw.active v hvlt u hu).1) hfit
        have hnew : done ++ v :: rest ++ fresh (neighbors g) done (v :: rest) v =
            done ++ [v] ++ queue.place (fresh (neighbors g) done (v :: rest) v) rest := by
          simp [queue]
        change Holds g (done ++ v :: rest ++ fresh (neighbors g) done (v :: rest) v)
          (done ++ v :: rest ++ fresh (neighbors g) done (v :: rest) v) s' at hs'
        rw [hnew] at hs'
        have hloop := ih hstep hs' (by simp; omega) (visit ctx v).1
        rw [List.length_append, List.length_singleton] at hloop
        rw [if_neg hstop, if_neg hstop, discoverAll, if_pos hvlt, hdisc]
        simp only [Except.map, hloop]

theorem dfsLoop_calls (hw : WellFormed g) (hstart : start ∈ activeSlots g) {fuel : ℕ}
    (hs : Sound (neighbors g) start done pending) (h : Holds g (done ++ pending) pending.reverse s)
    (hfuel : (activeSlots g).card < done.length + fuel) (visit : VisitFn C) (ctx : C) :
    dfsLoop g visit fuel s ctx =
      .ok (callUntilStop visit ctx (order stack (neighbors g) fuel done pending)) := by
  induction fuel generalizing done pending s ctx with
  | zero =>
    have hle := hs.length_le hw.within hstart
    rw [List.length_append] at hle
    omega
  | succ fuel ih =>
    have hnext := h.next
    cases pending with
    | nil =>
      rw [dfsLoop, if_neg (by simpa using hnext)]
      rfl
    | cons v rest =>
      rw [List.length_reverse, List.length_cons] at hnext
      have hread : s.slots[s.next - 1]? = some v := by
        rw [h.read (by omega), hnext]
        simp
      obtain ⟨hvlt, hstep, hfit⟩ := round_fits hw hstart hs stack
      rw [dfsLoop, if_pos (by omega)]
      simp only [readSlot_eq hread, Except.bind, order, callUntilStop]
      by_cases hstop : (visit ctx v).2 ≠ 0
      · rw [if_pos hstop, if_pos hstop]
      · have hpop : Holds g (done ++ v :: rest) rest.reverse { s with next := s.next - 1 } := by
          refine ⟨h.length_visited, h.length_slots, h.mark, ?_, by simp [hnext]⟩
          have hfilled := congrArg (List.take rest.length) h.filled
          rw [List.take_take, min_eq_left (by omega)] at hfilled
          simpa [hnext] using hfilled
        have hread' : (List.range (g.counts v)).reverse.map (fun i => (g.adj v)[i]?) =
            (neighbors g v).reverse.map some := by
          rw [List.map_reverse, positions_read hw hvlt, List.map_reverse]
        have hfilter : (neighbors g v).reverse.filter (fun u => u ∉ done ++ v :: rest) =
            (fresh (neighbors g) done (v :: rest) v).reverse := List.filter_reverse
        obtain ⟨s', hdisc, hs'⟩ := hpop.discoverAt hread' (List.nodup_reverse.mpr (hw.nodup v hvlt))
          (fun u hu => (hw.active v hvlt u (List.mem_reverse.mp hu)).1) (by
            rw [hfilter, List.length_reverse, List.length_reverse]
            simp only [List.length_append, List.length_cons] at hfit
            omega)
        rw [hfilter, ← List.reverse_append] at hs'
        have hmarks : Holds g (done ++ [v] ++
            stack.place (fresh (neighbors g) done (v :: rest) v) rest)
            (fresh (neighbors g) done (v :: rest) v ++ rest).reverse s' := hs'.congr fun u => by
          rw [(step_perm stack _).mem_iff]
          simp only [List.mem_append, List.mem_reverse]
        have hloop := ih hstep hmarks (by simp; omega) (visit ctx v).1
        rw [if_neg hstop, if_neg hstop, discoverAll, if_pos hvlt, hdisc]
        simp only [Except.map, hloop]

/-! ## The traversals -/

theorem active_start {x : ℤ} (hs : isActive g x = true) : x.toNat ∈ activeSlots g := by
  obtain ⟨-, hlt, hactive⟩ := isActive_iff.mp hs
  exact Finset.mem_filter.mpr ⟨Finset.mem_range.mpr hlt, hactive⟩

/-- The blocks at the start of the loop. -/
theorem traverse_eq {okVisited okSlots : Bool} {x : ℤ}
    (loop : Worklist → C → Exec (List ℕ × C)) (fresh : ℕ → ℕ) (ctx : C) (hs : isActive g x = true)
    (hvisited : granted okVisited (g.vertexCapacity * 4) = true)
    (hslots : granted okSlots (wrap (g.vertexCapacity * 4)) = true) :
    ∃ s, traverse loop okVisited okSlots fresh g x ctx = (loop s ctx).map (fun q => (.ok, q)) ∧
      Holds g [x.toNat] [x.toNat] s := by
  obtain ⟨-, hlt, -⟩ := isActive_iff.mp hs
  have hsize : g.vertexCapacity * 4 < 2 ^ 63 := by
    rw [granted, Bool.and_eq_true, decide_eq_true_eq] at hvisited
    exact hvisited.2
  have hfit : slotsOf 4 g.vertexCapacity = g.vertexCapacity :=
    slotsOf_eq (by norm_num) (by omega)
  refine ⟨⟨(List.replicate g.vertexCapacity 0).set x.toNat 1,
    ((List.range g.vertexCapacity).map fresh).set 0 x.toNat, 1⟩, ?_, by simp, by simp,
    fun u hu => ?_, ?_, rfl⟩
  · rw [traverse, hs, hvisited, hslots, hfit, writeSlot_eq (by simpa using hlt),
      writeSlot_eq (by simp; omega)]
    rfl
  · by_cases hux : u = x.toNat
    · subst hux
      simp [hlt]
    · rw [List.getElem?_set_ne (Ne.symm hux), List.getElem?_replicate, if_pos hu]
      simp [hux]
  · rw [List.take_succ_eq_append_getElem (by simp; omega), List.getElem_set_self]
    rfl

/-- The vertices of a full breadth-first traversal, in their order. -/
def bfsOrder (g : Graph) (start : ℕ) : List ℕ :=
  order queue (neighbors g) (g.vertexCapacity + 1) [] [start]

/-- The vertices of a full depth-first traversal, in their order. -/
def dfsOrder (g : Graph) (start : ℕ) : List ℕ :=
  order stack (neighbors g) (g.vertexCapacity + 1) [] [start]

section Granted

variable {okVisited okSlots : Bool} {x : ℤ} (hw : WellFormed g) (hs : isActive g x = true)
  (hvisited : granted okVisited (g.vertexCapacity * 4) = true)
  (hslots : granted okSlots (wrap (g.vertexCapacity * 4)) = true)

include hw hs hvisited hslots

theorem zenitGraphBfs_eq (fresh : ℕ → ℕ) (visit : VisitFn C) (ctx : C) :
    zenitGraphBfs okVisited okSlots fresh g x visit ctx =
      .ok (.ok, callUntilStop visit ctx (bfsOrder g x.toNat)) := by
  obtain ⟨s, htraverse, hholds⟩ := traverse_eq (bfsLoop g visit (g.vertexCapacity + 1) 0)
    fresh ctx hs hvisited hslots
  have hcard := card_activeSlots_le g
  have hloop := bfsLoop_calls hw (active_start hs)
    (sound_start (neighbors g) x.toNat) hholds
    (by simp; omega : (activeSlots g).card < _ + (g.vertexCapacity + 1)) visit ctx
  rw [zenitGraphBfs, htraverse]
  exact congrArg (Except.map _) hloop

theorem zenitGraphDfs_eq (fresh : ℕ → ℕ) (visit : VisitFn C) (ctx : C) :
    zenitGraphDfs okVisited okSlots fresh g x visit ctx =
      .ok (.ok, callUntilStop visit ctx (dfsOrder g x.toNat)) := by
  obtain ⟨s, htraverse, hholds⟩ := traverse_eq (dfsLoop g visit (g.vertexCapacity + 1))
    fresh ctx hs hvisited hslots
  have hcard := card_activeSlots_le g
  have hloop := dfsLoop_calls hw (active_start hs)
    (sound_start (neighbors g) x.toNat) hholds
    (by simp; omega : (activeSlots g).card < _ + (g.vertexCapacity + 1)) visit ctx
  rw [zenitGraphDfs, htraverse]
  exact congrArg (Except.map _) hloop

end Granted

/-- A traversal that is refused one of its blocks calls no visitor. -/
theorem traverse_refused {loop : Worklist → C → Exec (List ℕ × C)} {okVisited okSlots : Bool}
    {fresh : ℕ → ℕ} {x : ℤ} {ctx : C} (hs : isActive g x = true)
    (h : ¬(granted okVisited (g.vertexCapacity * 4) = true ∧
      granted okSlots (wrap (g.vertexCapacity * 4)) = true)) :
    traverse loop okVisited okSlots fresh g x ctx = .ok (.alloc, [], ctx) := by
  rw [traverse, hs]
  cases hvisited : granted okVisited (g.vertexCapacity * 4) with
  | false => rfl
  | true =>
    cases hslots : granted okSlots (wrap (g.vertexCapacity * 4)) with
    | false => rfl
    | true => exact absurd ⟨hvisited, hslots⟩ h

theorem order_covers (hw : WellFormed g) {x : ℤ} (hs : isActive g x = true) (p : Placement ℕ) :
    (order p (neighbors g) (g.vertexCapacity + 1) [] [x.toNat]).Nodup ∧
      ∀ v, v ∈ order p (neighbors g) (g.vertexCapacity + 1) [] [x.toNat] ↔
        Reaches (neighbors g) x.toNat v :=
  order_start hw.within (active_start hs) p (Nat.lt_succ_of_le (card_activeSlots_le g))

/-- A traversal in which no call asks to stop enters the vertices of `full`. -/
structure FullTrace (traversal : (C : Type) → Bool → Bool → (ℕ → ℕ) → Graph → ℤ → VisitFn C → C →
    Exec (ZenitError × List ℕ × C)) (g : Graph) (x : ℤ) (full : List ℕ) : Prop where
  nodup : full.Nodup
  mem_iff : ∀ v, v ∈ full ↔ Reaches (neighbors g) x.toNat v
  calls : ∀ (C : Type) (okVisited okSlots : Bool) (fresh : ℕ → ℕ) (visit : VisitFn C) (ctx : C),
    granted okVisited (g.vertexCapacity * 4) = true →
    granted okSlots (wrap (g.vertexCapacity * 4)) = true →
      traversal C okVisited okSlots fresh g x visit ctx = .ok (.ok, callUntilStop visit ctx full)
  refused : ∀ (C : Type) (okVisited okSlots : Bool) (fresh : ℕ → ℕ) (visit : VisitFn C) (ctx : C),
    ¬(granted okVisited (g.vertexCapacity * 4) = true ∧
      granted okSlots (wrap (g.vertexCapacity * 4)) = true) →
      traversal C okVisited okSlots fresh g x visit ctx = .ok (.alloc, [], ctx)

theorem bfs_fullTrace (hw : WellFormed g) {x : ℤ} (hs : isActive g x = true) :
    FullTrace (@zenitGraphBfs) g x (bfsOrder g x.toNat) where
  nodup := (order_covers hw hs queue).1
  mem_iff := (order_covers hw hs queue).2
  calls _ _ _ fresh visit ctx hv hq := zenitGraphBfs_eq hw hs hv hq fresh visit ctx
  refused _ _ _ _ _ _ h := traverse_refused hs h

theorem dfs_fullTrace (hw : WellFormed g) {x : ℤ} (hs : isActive g x = true) :
    FullTrace (@zenitGraphDfs) g x (dfsOrder g x.toNat) where
  nodup := (order_covers hw hs stack).1
  mem_iff := (order_covers hw hs stack).2
  calls _ _ _ fresh visit ctx hv hq := zenitGraphDfs_eq hw hs hv hq fresh visit ctx
  refused _ _ _ _ _ _ h := traverse_refused hs h

theorem traversals_cover (hw : WellFormed g) {x : ℤ} (hs : isActive g x = true) :
    (∃ full, FullTrace (@zenitGraphBfs) g x full) ∧ ∃ full, FullTrace (@zenitGraphDfs) g x full :=
  ⟨⟨_, bfs_fullTrace hw hs⟩, _, dfs_fullTrace hw hs⟩

/-- Vertex 3 is a neighbour of 0 and of 1. -/
def fork : Graph where
  adj v := if v = 0 then [1, 2, 3, 0, 0, 0, 0, 0]
    else if v = 1 then [3, 0, 0, 0, 0, 0, 0, 0] else []
  counts v := if v = 0 then 3 else if v = 1 then 1 else 0
  capacities v := if v = 0 ∨ v = 1 then 8 else 0
  vertexCount := 4
  vertexCapacity := 4
  edgeCount := 4
  directed := true
  removed _ := false

theorem fork_wellFormed : WellFormed fork where
  nodup := by decide
  active := by decide
  fits := by decide
  tombstone := by decide
  symmetric := by decide
  vertexCount := by decide

theorem fork_covered :
    (∃ full, FullTrace (@zenitGraphBfs) fork 0 full) ∧
      ∃ full, FullTrace (@zenitGraphDfs) fork 0 full :=
  traversals_cover fork_wellFormed (by decide)

end LibZenit.Graphs
