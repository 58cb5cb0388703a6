import LibZenit.Worklists

/-!
# Breadth-first order

The distance of a vertex is the least number of edges on a way to it. A search with a queue enters
the vertices by distance: its queue holds vertices of at most two distances, the nearer ones first,
and a vertex that is listed is one edge farther than the vertex it was listed from.
-/
namespace LibZenit.Worklists

variable {V : Type*} {adj : V → List V} {start u v w : V} {done pending rest : List V} {n : ℕ}

/-- A way of `n` edges. -/
inductive Walk (adj : V → List V) (start : V) : ℕ → V → Prop
  | nil : Walk adj start 0 start
  | snoc {n : ℕ} {v u : V} : Walk adj start n v → u ∈ adj v → Walk adj start (n + 1) u

noncomputable def distance (adj : V → List V) (start v : V) : ℕ := sInf {n | Walk adj start n v}

theorem Walk.reaches (h : Walk adj start n v) : Reaches adj start v := by
  induction h with
  | nil => exact .refl
  | snoc _ hedge ih => exact ih.tail hedge

theorem Walk.distance_le (h : Walk adj start n v) : distance adj start v ≤ n := Nat.sInf_le h

theorem walk_distance (h : Reaches adj start v) : Walk adj start (distance adj start v) v := by
  refine Nat.sInf_mem (s := {n | Walk adj start n v}) ?_
  induction h with
  | refl => exact ⟨0, .nil⟩
  | tail _ hedge ih =>
    obtain ⟨n, hn⟩ := ih
    exact ⟨n + 1, hn.snoc hedge⟩

theorem distance_edge (h : Reaches adj start v) (hedge : u ∈ adj v) :
    distance adj start u ≤ distance adj start v + 1 :=
  ((walk_distance h).snoc hedge).distance_le

/-- The last edge of a shortest way. -/
theorem exists_previous (h : Reaches adj start u) (hne : u ≠ start) :
    ∃ v, Reaches adj start v ∧ u ∈ adj v ∧ distance adj start v + 1 ≤ distance adj start u := by
  have hwalk := walk_distance h
  generalize hn : distance adj start u = n at hwalk
  cases hwalk with
  | nil => exact absurd rfl hne
  | snoc hwalk hedge => exact ⟨_, hwalk.reaches, hedge, Nat.succ_le_succ hwalk.distance_le⟩

/-- The order of the queue, together with the vertices that have left it. -/
structure Layered (adj : V → List V) (start : V) (done pending : List V) : Prop where
  sound : Sound adj start done pending
  sorted : (done ++ pending).Pairwise fun v w => distance adj start v ≤ distance adj start w
  near : ∀ v ∈ pending, ∀ w ∈ pending, distance adj start w ≤ distance adj start v + 1

theorem layered_start (adj : V → List V) (start : V) : Layered adj start [] [start] where
  sound := sound_start adj start
  sorted := List.pairwise_singleton _ _
  near v hv w hw := by
    rw [List.mem_singleton] at hv hw
    rw [hv, hw]
    exact Nat.le_succ _

/-- Whatever is not farther than the head of the queue has been listed. -/
theorem Layered.listed (hl : Layered adj start done (v :: rest)) (hu : Reaches adj start u)
    (hle : distance adj start u ≤ distance adj start v) : u ∈ done ++ v :: rest := by
  induction hn : distance adj start u using Nat.strong_induction_on generalizing u with
  | _ n ih =>
    by_cases hstart : u = start
    · rw [hstart]
      exact hl.sound.start_mem
    obtain ⟨w, hw, hedge, hlt⟩ := exists_previous hu hstart
    -- the vertex before `u` is nearer than everything in the queue
    have hmem := ih (distance adj start w) (by omega) hw (by omega) rfl
    rcases List.mem_append.mp hmem with hdone | hqueue
    · exact hl.sound.closed w hdone u hedge
    · have hsorted := (List.pairwise_append.mp hl.sorted).2.1
      have hhead : distance adj start v ≤ distance adj start w := by
        rcases List.mem_cons.mp hqueue with rfl | hrest
        · exact le_rfl
        · exact List.rel_of_pairwise_cons hsorted hrest
      omega

variable [DecidableEq V]

theorem Layered.distance_fresh (hl : Layered adj start done (v :: rest))
    (hu : u ∈ fresh adj done (v :: rest) v) :
    distance adj start u = distance adj start v + 1 := by
  obtain ⟨hedge, hunlisted⟩ := mem_fresh.mp hu
  have hv : Reaches adj start v := hl.sound.reached v (by simp)
  have hle := distance_edge hv hedge
  have hgt : ¬distance adj start u ≤ distance adj start v :=
    fun h => hunlisted (hl.listed (hv.tail hedge) h)
  omega

theorem Layered.step (hl : Layered adj start done (v :: rest)) (hadj : (adj v).Nodup) :
    Layered adj start (done ++ [v]) (rest ++ fresh adj done (v :: rest) v) := by
  have hsorted := List.pairwise_append.mp hl.sorted
  have hhead : ∀ w ∈ rest, distance adj start v ≤ distance adj start w :=
    fun w hw => List.rel_of_pairwise_cons hsorted.2.1 hw
  have hnear : ∀ w ∈ rest ++ fresh adj done (v :: rest) v,
      distance adj start v ≤ distance adj start w ∧
        distance adj start w ≤ distance adj start v + 1 := by
    intro w hw
    rcases List.mem_append.mp hw with hrest | hnew
    · exact ⟨hhead w hrest, hl.near v (List.mem_cons_self ..) w (List.mem_cons_of_mem _ hrest)⟩
    · have heq := hl.distance_fresh hnew
      omega
  refine ⟨hl.sound.step hadj queue, ?_, fun a ha b hb => ?_⟩
  · have hsplit : done ++ [v] ++ (rest ++ fresh adj done (v :: rest) v) =
        done ++ v :: rest ++ fresh adj done (v :: rest) v := by simp
    rw [hsplit, List.pairwise_append]
    refine ⟨hl.sorted, List.pairwise_of_forall_mem_list fun a ha b hb => ?_, fun a ha b hb => ?_⟩
    · rw [hl.distance_fresh ha, hl.distance_fresh hb]
    · rw [hl.distance_fresh hb]
      rcases List.mem_append.mp ha with hdone | hqueue
      · exact (hsorted.2.2 a hdone v (List.mem_cons_self ..)).trans (Nat.le_succ _)
      · exact hl.near v (List.mem_cons_self ..) a hqueue
  · have hlow := (hnear a ha).1
    have hhigh := (hnear b hb).2
    omega

theorem Layered.order_sorted {bound : Finset V} (fuel : ℕ) (hb : Within adj bound)
    (hstart : start ∈ bound) (hl : Layered adj start done pending) :
    (done ++ order queue adj fuel done pending).Pairwise
      fun v w => distance adj start v ≤ distance adj start w := by
  induction fuel generalizing done pending with
  | zero => simpa [order] using (List.pairwise_append.mp hl.sorted).1
  | succ fuel ih =>
    cases pending with
    | nil => simpa [order] using hl.sorted
    | cons v rest =>
      have hv : v ∈ bound := hb.of_reaches hstart (hl.sound.reached v (by simp))
      have hnext := ih (hl.step (hb.nodup v hv))
      simpa [order, queue] using hnext

end LibZenit.Worklists
