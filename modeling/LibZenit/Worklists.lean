import Mathlib.Tactic

/-!
# Searches with a worklist

A search enters the vertices at the head of its worklist and puts their neighbours into it, except
those that it has entered or listed before. Where the neighbours go is what makes the search
breadth-first or depth-first; which vertices it enters does not depend on it.
-/
namespace LibZenit.Worklists

variable {V : Type*} {adj : V → List V} {start u v w : V} {done pending rest : List V}
  {bound : Finset V}

abbrev Reaches (adj : V → List V) : V → V → Prop := Relation.ReflTransGen fun v u => u ∈ adj v

/-- What holds between two steps of a search from `start`. -/
structure Sound (adj : V → List V) (start : V) (done pending : List V) : Prop where
  nodup : (done ++ pending).Nodup
  reached : ∀ v ∈ done ++ pending, Reaches adj start v
  closed : ∀ v ∈ done, ∀ u ∈ adj v, u ∈ done ++ pending
  start_mem : start ∈ done ++ pending

theorem sound_start (adj : V → List V) (start : V) : Sound adj start [] [start] where
  nodup := by simp
  reached v hv := by
    rw [List.nil_append, List.mem_singleton] at hv
    rw [hv]
  closed v hv := absurd hv List.not_mem_nil
  start_mem := by simp

theorem Sound.mem_done_iff (hs : Sound adj start done []) : v ∈ done ↔ Reaches adj start v := by
  constructor
  · intro hv
    exact hs.reached v (by simpa using hv)
  · intro hv
    induction hv with
    | refl => simpa using hs.start_mem
    | tail _ hedge ih => simpa using hs.closed _ ih _ hedge

/-- A finite set of vertices that no edge leaves. -/
structure Within (adj : V → List V) (bound : Finset V) : Prop where
  closed : ∀ v ∈ bound, ∀ u ∈ adj v, u ∈ bound
  nodup : ∀ v ∈ bound, (adj v).Nodup

theorem Within.of_reaches (hb : Within adj bound) (hstart : start ∈ bound)
    (h : Reaches adj start v) : v ∈ bound := by
  induction h with
  | refl => exact hstart
  | tail _ hedge ih => exact hb.closed _ ih _ hedge

/-- Where a search puts the vertices that it lists. -/
structure Placement (V : Type*) where
  place : List V → List V → List V
  perm : ∀ new rest, (place new rest).Perm (rest ++ new)

/-- A queue takes them at its end. -/
def queue : Placement V where
  place new rest := rest ++ new
  perm _ _ := List.Perm.refl _

/-- A stack takes them in front. -/
def stack : Placement V where
  place new rest := new ++ rest
  perm _ _ := List.perm_append_comm

/-- Entered and listed vertices together, after a step. -/
theorem step_perm (p : Placement V) (new : List V) :
    (done ++ [v] ++ p.place new rest).Perm ((done ++ v :: rest) ++ new) := by
  rw [List.append_assoc, List.append_assoc]
  exact ((p.perm new rest).cons v).append_left done

variable [DecidableEq V]

/-- The neighbours of `v` that are neither entered nor listed. -/
def fresh (adj : V → List V) (done pending : List V) (v : V) : List V :=
  (adj v).filter fun u => u ∉ done ++ pending

/-- The vertices that the search enters from now on, in their order. -/
def order (p : Placement V) (adj : V → List V) : ℕ → List V → List V → List V
  | 0, _, _ => []
  | _ + 1, _, [] => []
  | fuel + 1, done, v :: rest =>
    v :: order p adj fuel (done ++ [v]) (p.place (fresh adj done (v :: rest) v) rest)

theorem mem_fresh : u ∈ fresh adj done pending v ↔ u ∈ adj v ∧ u ∉ done ++ pending := by
  rw [fresh, List.mem_filter, decide_eq_true_eq]

theorem mem_step_iff (p : Placement V) :
    u ∈ done ++ [v] ++ p.place (fresh adj done (v :: rest) v) rest ↔
      u ∈ done ++ v :: rest ∨ u ∈ adj v := by
  rw [(step_perm p _).mem_iff, List.mem_append, mem_fresh]
  tauto

theorem Sound.step (hs : Sound adj start done (v :: rest)) (hadj : (adj v).Nodup)
    (p : Placement V) :
    Sound adj start (done ++ [v]) (p.place (fresh adj done (v :: rest) v) rest) where
  nodup := by
    rw [(step_perm p _).nodup_iff, List.nodup_append']
    exact ⟨hs.nodup, hadj.filter _, fun u hu hnew => (mem_fresh.mp hnew).2 hu⟩
  reached u hu := by
    rcases (mem_step_iff p).mp hu with hold | hnew
    · exact hs.reached u hold
    · exact (hs.reached v (by simp)).tail hnew
  closed w hw u hu := by
    rw [mem_step_iff p]
    rcases List.mem_append.mp hw with hdone | hv
    · exact .inl (hs.closed w hdone u hu)
    · rw [List.mem_singleton] at hv
      exact .inr (hv ▸ hu)
  start_mem := (mem_step_iff p).mpr (.inl hs.start_mem)

theorem Sound.length_le (hb : Within adj bound) (hstart : start ∈ bound)
    (hs : Sound adj start done pending) : (done ++ pending).length ≤ bound.card := by
  rw [← List.toFinset_card_of_nodup hs.nodup]
  refine Finset.card_le_card fun v hv => ?_
  exact hb.of_reaches hstart (hs.reached v (List.mem_toFinset.mp hv))

/-- A search that has enough steps left enters every reachable vertex once. -/
theorem Sound.order_spec (hb : Within adj bound) (hstart : start ∈ bound) (p : Placement V)
    {fuel : ℕ} (hs : Sound adj start done pending) (hfuel : bound.card < done.length + fuel) :
    Sound adj start (done ++ order p adj fuel done pending) [] := by
  induction fuel generalizing done pending with
  | zero =>
    have hle := hs.length_le hb hstart
    rw [List.length_append] at hle
    omega
  | succ fuel ih =>
    cases pending with
    | nil => simpa [order] using hs
    | cons v rest =>
      have hv : v ∈ bound := hb.of_reaches hstart (hs.reached v (by simp))
      have hnext := ih (hs.step (hb.nodup v hv) p) (by simp; omega)
      simpa [order] using hnext

/-- The search from `start`. -/
theorem order_start (hb : Within adj bound) (hstart : start ∈ bound) (p : Placement V) {fuel : ℕ}
    (hfuel : bound.card < fuel) :
    (order p adj fuel [] [start]).Nodup ∧
      ∀ v, v ∈ order p adj fuel [] [start] ↔ Reaches adj start v := by
  have hend := (sound_start adj start).order_spec hb hstart p (by simpa using hfuel)
  rw [List.nil_append] at hend
  exact ⟨by simpa using hend.nodup, fun v => hend.mem_done_iff⟩

end LibZenit.Worklists
