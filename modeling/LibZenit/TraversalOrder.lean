import LibZenit.BreadthFirst
import LibZenit.DepthFirst
import LibZenit.TraversalCoverage

/-!
# The order of the traversals

The breadth-first traversal goes by distance. The depth-first traversal marks a vertex when it is
pushed, not when it is entered: a vertex that was pushed early stays below what was pushed later,
even when a vertex above it would lead there.
-/
namespace LibZenit.Graphs
open Blocks Worklists

variable {C : Type} {g : Graph} {x : ℤ}

theorem callUntilStop_prefix (visit : VisitFn C) (ctx : C) (vs : List ℕ) :
    (callUntilStop visit ctx vs).1 <+: vs := by
  induction vs generalizing ctx with
  | nil => exact List.prefix_rfl
  | cons v vs ih =>
    simp only [callUntilStop]
    split_ifs
    · exact (List.prefix_cons_inj v).mpr List.nil_prefix
    · exact (List.prefix_cons_inj v).mpr (ih _)

theorem bfsOrder_sorted (hw : WellFormed g) (hs : isActive g x = true) :
    (bfsOrder g x.toNat).Pairwise fun v w =>
      distance (neighbors g) x.toNat v ≤ distance (neighbors g) x.toNat w := by
  have hsorted := (layered_start (neighbors g) x.toNat).order_sorted (g.vertexCapacity + 1)
    hw.within (active_start hs)
  rwa [List.nil_append] at hsorted

/-- The calls of the visitor come in the order of the distance, whether or not it stops. With the
memory granted they are a first part of the whole order. -/
theorem bfs_visits_by_distance (hw : WellFormed g) (hs : isActive g x = true)
    (okVisited okQueue : Bool) (fresh : ℕ → ℕ) (visit : VisitFn C) (ctx : C) :
    ∃ code calls ctx',
      zenitGraphBfs okVisited okQueue fresh g x visit ctx = .ok (code, calls, ctx') ∧
        (granted okVisited (g.vertexCapacity * 4) = true →
          granted okQueue (wrap (g.vertexCapacity * 4)) = true →
          code = .ok ∧ (calls, ctx') = callUntilStop visit ctx (bfsOrder g x.toNat)) ∧
        (∀ v ∈ calls, Walk (neighbors g) x.toNat (distance (neighbors g) x.toNat v) v) ∧
        calls.Pairwise fun v w =>
          distance (neighbors g) x.toNat v ≤ distance (neighbors g) x.toNat w := by
  have htrace := bfs_fullTrace hw hs
  by_cases hgranted : granted okVisited (g.vertexCapacity * 4) = true ∧
      granted okQueue (wrap (g.vertexCapacity * 4)) = true
  · have hcalls := callUntilStop_prefix visit ctx (bfsOrder g x.toNat)
    refine ⟨.ok, _, _, htrace.calls C _ _ fresh visit ctx hgranted.1 hgranted.2,
      fun _ _ => ⟨rfl, rfl⟩, fun v hv => ?_, (bfsOrder_sorted hw hs).sublist hcalls.sublist⟩
    exact walk_distance ((htrace.mem_iff v).mp (hcalls.subset hv))
  · exact ⟨.alloc, [], ctx, htrace.refused C _ _ fresh visit ctx hgranted,
      fun hvisited hqueue => absurd ⟨hvisited, hqueue⟩ hgranted, by simp, List.Pairwise.nil⟩

theorem fork_by_distance :
    ∃ code calls ctx', zenitGraphBfs true true (fun _ => 0) fork 0
        (fun (n : ℕ) v => (n + v, 0)) 0 = .ok (code, calls, ctx') ∧
      (granted true (4 * 4) = true → granted true (wrap (4 * 4)) = true →
        code = .ok ∧ (calls, ctx') =
          callUntilStop (fun (n : ℕ) v => (n + v, 0)) 0 (bfsOrder fork 0)) ∧
      (∀ v ∈ calls, Walk (neighbors fork) 0 (distance (neighbors fork) 0 v) v) ∧
      calls.Pairwise fun v w =>
        distance (neighbors fork) 0 v ≤ distance (neighbors fork) 0 w :=
  bfs_visits_by_distance fork_wellFormed (by decide) true true _ _ _

example : zenitGraphBfs true true (fun _ => 0) fork 1 (fun (n : ℕ) v => (n + v, 0)) 0 =
    .ok (.ok, [1, 3], 4) := rfl

/-- The recursive search has one order, and the traversal keeps to it exactly if the recursion
always enters the vertex that was come across last. -/
theorem dfs_recursive_iff (hw : WellFormed g) (hs : isActive g x = true) :
    ∃ recursive, Visits (neighbors g) [] [x.toNat] recursive ∧
      (∀ vs, Visits (neighbors g) [] [x.toNat] vs → vs = recursive) ∧
      ∀ (okVisited okStack : Bool) (fresh : ℕ → ℕ) (C : Type) (visit : VisitFn C) (ctx : C),
        granted okVisited (g.vertexCapacity * 4) = true →
        granted okStack (wrap (g.vertexCapacity * 4)) = true →
        (∀ ctx v, (visit ctx v).2 = 0) →
          ∃ calls ctx',
            zenitGraphDfs okVisited okStack fresh g x visit ctx = .ok (.ok, calls, ctx') ∧
              (calls = recursive ↔ EntersLastSighted (neighbors g) recursive) := by
  have hstart := active_start hs
  obtain ⟨recursive, hvisits, -⟩ := visits_exists [] [x.toNat] hw.within le_rfl
    (by simp) (by simpa using hstart)
  refine ⟨recursive, hvisits, fun vs h => h.unique hvisits, ?_⟩
  intro okVisited okStack fresh C visit ctx hvisited hstack hnever
  refine ⟨(callUntilStop visit ctx (dfsOrder g x.toNat)).1,
    (callUntilStop visit ctx (dfsOrder g x.toNat)).2,
    (dfs_fullTrace hw hs).calls C _ _ fresh visit ctx hvisited hstack, ?_⟩
  rw [callUntilStop_of_never hnever]
  exact order_stack_eq_iff hw.within hstart (Nat.lt_succ_of_le (card_activeSlots_le g))
    hvisits.searchOrder

theorem fork_recursive :
    ∃ recursive, Visits (neighbors fork) [] [0] recursive ∧
      (∀ vs, Visits (neighbors fork) [] [0] vs → vs = recursive) ∧
      ∀ (okVisited okStack : Bool) (fresh : ℕ → ℕ) (C : Type) (visit : VisitFn C) (ctx : C),
        granted okVisited (4 * 4) = true → granted okStack (wrap (4 * 4)) = true →
        (∀ ctx v, (visit ctx v).2 = 0) →
          ∃ calls ctx', zenitGraphDfs okVisited okStack fresh fork 0 visit ctx =
              .ok (.ok, calls, ctx') ∧
            (calls = recursive ↔ EntersLastSighted (neighbors fork) recursive) :=
  dfs_recursive_iff fork_wellFormed (x := 0) (by decide)

/-- Vertex 3 is a neighbour of 1 alone. -/
def tree : Graph := { fork with
  adj := fun v => if v = 0 then [1, 2, 0, 0, 0, 0, 0, 0]
    else if v = 1 then [3, 0, 0, 0, 0, 0, 0, 0] else []
  counts := fun v => if v = 0 then 2 else if v = 1 then 1 else 0
  edgeCount := 3 }

/-- In a tree the recursion always enters what was come across last. -/
theorem tree_enters_last : EntersLastSighted (neighbors tree) (dfsOrder tree 0) ∧
    Visits (neighbors tree) [] [0] (dfsOrder tree 0) := by
  have hvisits : Visits (neighbors tree) [] [0] [0, 1, 3, 2] :=
    .enter (by decide)
      (.enter (by decide) (.enter (by decide) .nil .nil) (.enter (by decide) .nil .nil)) .nil
  have hw : WellFormed tree := ⟨by decide, by decide, by decide, by decide, by decide, by decide⟩
  have horder : dfsOrder tree 0 = [0, 1, 3, 2] := rfl
  refine ⟨?_, horder ▸ hvisits⟩
  rw [horder]
  exact (order_stack_eq_iff hw.within (active_start (x := 0) (by decide))
    (Nat.lt_succ_of_le (card_activeSlots_le tree)) hvisits.searchOrder).mp horder

/-- From vertex 1 the recursion goes on to 3; the traversal has left 3 below 2. -/
theorem fork_out_of_order :
    ¬∀ (g : Graph) (x : ℤ), WellFormed g → isActive g x = true →
      ∀ recursive, Visits (neighbors g) [] [x.toNat] recursive →
        zenitGraphDfs true true (fun _ => 0) g x (fun (_ : Unit) _ => ((), 0)) () =
          .ok (.ok, recursive, ()) := by
  intro h
  have hrecursive : Visits (neighbors fork) [] [0] [0, 1, 3, 2] :=
    .enter (by decide)
      (.enter (by decide) (.enter (by decide) .nil .nil)
        (.enter (by decide) .nil (.skip (by decide) .nil)))
      .nil
  have hrun : zenitGraphDfs true true (fun _ => 0) fork 0 (fun (_ : Unit) _ => ((), 0)) () =
      .ok (.ok, [0, 1, 2, 3], ()) := rfl
  have hclaim := h fork 0 fork_wellFormed (by decide) [0, 1, 3, 2] hrecursive
  rw [hrun] at hclaim
  simp at hclaim

end LibZenit.Graphs
