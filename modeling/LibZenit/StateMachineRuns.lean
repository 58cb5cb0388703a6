import LibZenit.StateMachine
import Mathlib.Data.List.Find

/-!
# Runs of a state machine with callbacks

Callbacks may feed further events into the machine that called them. What the machine goes through
is nevertheless what a machine without callbacks goes through when it is fed the same events and
resets one after the other, in the order in which they took effect. When each callback feeds only
events of a smaller rank than the event it handles, every client comes to its end.
-/
namespace LibZenit.StateMachine

variable {C X : Type} {table table' : List (Transition C X)} {fuel fuel' : ℕ} {s s' s'' : ℤ}
  {log log' : List Entry}

/-! ## Paths -/

/-- The entries form a path through the table. -/
def Path (table : List (Transition C X)) : ℤ → List Entry → ℤ → Prop
  | s, [], s' => s = s'
  | s, .moved f e t :: log, s' =>
    s = f ∧ (firstMatch table s e).map Transition.toState = some t ∧ Path table t log s'
  | s, .unmatched f e :: log, s' => s = f ∧ firstMatch table s e = none ∧ Path table s log s'
  | _, .reset t :: log, s' => Path table t log s'

theorem Path.append (h : Path table s log s') (h' : Path table s' log' s'') :
    Path table s (log ++ log') s'' := by
  induction log generalizing s with
  | nil =>
    obtain rfl : s = s' := h
    exact h'
  | cons entry log ih =>
    cases entry with
    | moved f e t => exact ⟨h.1, h.2.1, ih h.2.2⟩
    | unmatched f e => exact ⟨h.1, h.2.1, ih h.2.2⟩
    | reset t => exact ih h

/-- A machine whose answers are paths takes every client along a path. -/
theorem Client.run_path {fire : ℤ → ℤ → X → C → Answer C}
    (hfire : ∀ {cur event context c err cur' c' log}, fire cur event context c =
      some (err, cur', c', log) → Path table cur log cur')
    {client : Client C X} {c : C} (hrun : client.run fire s = some (s', c, log)) :
    Path table s log s' := by
  induction client generalizing s log with
  | finished c₀ =>
    obtain ⟨rfl, -, rfl⟩ : s = s' ∧ c₀ = c ∧ [] = log := by simpa [Client.run] using hrun
    rfl
  | processEvent event context c₀ resume ih =>
    rw [Client.run] at hrun
    rcases hf : fire s event context c₀ with _ | ⟨err, s₁, c₁, log₁⟩
    · simp [hf] at hrun
    · rcases hr : (resume err c₁).run fire s₁ with _ | ⟨s₂, c₂, log₂⟩
      · simp [hf, hr] at hrun
      · obtain ⟨rfl, rfl, rfl⟩ : s₂ = s' ∧ c₂ = c ∧ log₁ ++ log₂ = log := by
          simpa [hf, hr] using hrun
        exact (hfire hf).append (ih _ _ hr)
  | reset t resume ih =>
    rw [Client.run] at hrun
    rcases hr : resume.run fire t with _ | ⟨s₂, c₂, log₂⟩
    · simp [hr] at hrun
    · obtain ⟨rfl, rfl, rfl⟩ : s₂ = s' ∧ c₂ = c ∧ .reset t :: log₂ = log := by
        simpa [hr] using hrun
      change Path table t log₂ s₂
      exact ih hr
  | current resume ih => exact ih _ hrun

theorem processEvent_path {event : ℤ} {context : X} {c c' : C} {err : ZenitError}
    (h : zenitStateProcessEvent table fuel s event context c = some (err, s', c', log)) :
    Path table s log s' := by
  induction fuel generalizing s event context c err s' c' log with
  | zero => simp [zenitStateProcessEvent] at h
  | succ fuel ih =>
    rw [zenitStateProcessEvent] at h
    rcases hm : firstMatch table s event with _ | t
    · obtain ⟨-, rfl, -, rfl⟩ : _ ∧ s = s' ∧ c = c' ∧ [.unmatched s event] = log := by
        simpa [hm] using h
      exact ⟨rfl, hm, rfl⟩
    · rcases hcall : t.onTransition with _ | callback
      · obtain ⟨-, rfl, -, rfl⟩ : _ ∧ t.toState = s' ∧ c = c' ∧
            [.moved s event t.toState] = log := by
          simpa [hm, hcall] using h
        exact ⟨rfl, by rw [hm]; rfl, rfl⟩
      · rcases hr : (callback event s t.toState context c).run (zenitStateProcessEvent table fuel)
          t.toState with _ | ⟨s₁, c₁, log₁⟩
        · simp [hm, hcall, hr] at h
        · obtain ⟨-, rfl, -, rfl⟩ : _ ∧ s₁ = s' ∧ c₁ = c' ∧
              .moved s event t.toState :: log₁ = log := by
            simpa [hm, hcall, hr] using h
          exact ⟨rfl, by rw [hm]; rfl, Client.run_path ih hr⟩

/-! ## Replaying a path -/

/-- The rule without its callback. -/
def Transition.silence (t : Transition C X) : Transition Unit Unit :=
  ⟨t.fromState, t.event, t.toState, none⟩

/-- A client that feeds the events and resets of the log one after the other. -/
def replay : List Entry → Client Unit Unit
  | [] => .finished ()
  | .moved _ e _ :: log => .processEvent e () () fun _ _ => replay log
  | .unmatched _ e :: log => .processEvent e () () fun _ _ => replay log
  | .reset t :: log => .reset t (replay log)

theorem firstMatch_silence (e : ℤ) : firstMatch (table.map Transition.silence) s e =
    (firstMatch table s e).map Transition.silence := by
  unfold firstMatch
  rw [List.find?_map]
  rfl

/-- Without callbacks there is nothing to run out of. -/
theorem processEvent_silence (e : ℤ) :
    zenitStateProcessEvent (table.map Transition.silence) 1 s e () () =
      match firstMatch table s e with
      | none => some (.notFound, s, (), [.unmatched s e])
      | some t => some (.ok, t.toState, (), [.moved s e t.toState]) := by
  rw [zenitStateProcessEvent, firstMatch_silence]
  cases firstMatch table s e <;> rfl

theorem Path.replay_run (h : Path table s log s') :
    (replay log).run (zenitStateProcessEvent (table.map Transition.silence) 1) s =
      some (s', (), log) := by
  induction log generalizing s with
  | nil =>
    obtain rfl : s = s' := h
    rfl
  | cons entry log ih =>
    cases entry with
    | moved f e t =>
      obtain ⟨rfl, hm, hpath⟩ := h
      obtain ⟨rule, hrule, rfl⟩ := Option.map_eq_some_iff.mp hm
      simp [replay, Client.run, processEvent_silence, hrule, ih hpath]
    | unmatched f e =>
      obtain ⟨rfl, hm, hpath⟩ := h
      simp [replay, Client.run, processEvent_silence, hm, ih hpath]
    | reset t =>
      have hpath : Path table t log s' := h
      simp [replay, Client.run, ih hpath]

/-! ## More fuel -/

theorem Client.run_mono {fire fire' : ℤ → ℤ → X → C → Answer C}
    (hfire : ∀ {cur event context c r}, fire cur event context c = some r →
      fire' cur event context c = some r)
    {client : Client C X} {r : ℤ × C × List Entry} (hrun : client.run fire s = some r) :
    client.run fire' s = some r := by
  induction client generalizing s r with
  | finished c => exact hrun
  | processEvent event context c resume ih =>
    rw [Client.run] at hrun ⊢
    rcases hf : fire s event context c with _ | ⟨err, s₁, c₁, log₁⟩
    · simp [hf] at hrun
    · rw [hfire hf]
      rw [hf] at hrun
      dsimp only at hrun ⊢
      rcases hr : (resume err c₁).run fire s₁ with _ | ⟨s₂, c₂, log₂⟩
      · simp [hr] at hrun
      · rw [ih err c₁ hr]
        rwa [hr] at hrun
  | reset t resume ih =>
    rw [Client.run] at hrun ⊢
    rcases hr : resume.run fire t with _ | ⟨s₂, c₂, log₂⟩
    · simp [hr] at hrun
    · rw [ih hr]
      rwa [hr] at hrun
  | current resume ih => exact ih s hrun

theorem processEvent_succ {event : ℤ} {context : X} {c : C} {r : ZenitError × ℤ × C × List Entry}
    (h : zenitStateProcessEvent table fuel s event context c = some r) :
    zenitStateProcessEvent table (fuel + 1) s event context c = some r := by
  induction fuel generalizing s event context c r with
  | zero => simp [zenitStateProcessEvent] at h
  | succ fuel ih =>
    rw [zenitStateProcessEvent] at h ⊢
    rcases hm : firstMatch table s event with _ | t
    · rwa [hm] at h
    · rw [hm] at h
      dsimp only at h ⊢
      rcases hcall : t.onTransition with _ | callback
      · rwa [hcall] at h
      · rw [hcall] at h
        dsimp only at h ⊢
        rcases hr : (callback event s t.toState context c).run (zenitStateProcessEvent table fuel)
          t.toState with _ | ⟨s₁, c₁, log₁⟩
        · simp [hr] at h
        · rw [Client.run_mono ih hr]
          rwa [hr] at h

theorem processEvent_mono {event : ℤ} {context : X} {c : C} {r : ZenitError × ℤ × C × List Entry}
    (hle : fuel ≤ fuel') (h : zenitStateProcessEvent table fuel s event context c = some r) :
    zenitStateProcessEvent table fuel' s event context c = some r := by
  induction hle with
  | refl => exact h
  | step _ ih => exact processEvent_succ ih

/-! ## Ranks -/

/-- Whatever the machine answers, the client feeds only events of rank below `n`. -/
def Client.FiresBelow (rank : ℤ → ℕ) (n : ℕ) : Client C X → Prop
  | .finished _ => True
  | .processEvent e _ _ resume => rank e < n ∧ ∀ err c, (resume err c).FiresBelow rank n
  | .reset _ resume => resume.FiresBelow rank n
  | .current resume => ∀ s, (resume s).FiresBelow rank n

/-- Each callback feeds only events of smaller rank than the one it handles. -/
def FiresDown (rank : ℤ → ℕ) (table : List (Transition C X)) : Prop :=
  ∀ t ∈ table, ∀ callback ∈ t.onTransition, ∀ context c,
    (callback t.event t.fromState t.toState context c).FiresBelow rank (rank t.event)

/-- A client that only feeds events which the machine answers comes to its end. -/
theorem Client.run_returns {fire : ℤ → ℤ → X → C → Answer C} {rank : ℤ → ℕ} {n : ℕ}
    (hfire : ∀ cur event context c, rank event < n → (fire cur event context c).isSome)
    {client : Client C X} (hclient : client.FiresBelow rank n) (s : ℤ) :
    (client.run fire s).isSome := by
  induction client generalizing s with
  | finished c => rfl
  | processEvent event context c resume ih =>
    obtain ⟨⟨err, s₁, c₁, log₁⟩, hf⟩ :=
      Option.isSome_iff_exists.mp (hfire s event context c hclient.1)
    obtain ⟨⟨s₂, c₂, log₂⟩, hr⟩ := Option.isSome_iff_exists.mp (ih err c₁ (hclient.2 err c₁) s₁)
    simp [Client.run, hf, hr]
  | reset t resume ih =>
    obtain ⟨⟨s₂, c₂, log₂⟩, hr⟩ := Option.isSome_iff_exists.mp (ih hclient t)
    simp [Client.run, hr]
  | current resume ih => exact ih s (hclient s) s

theorem matches_of_firstMatch {event : ℤ} {t : Transition C X}
    (h : firstMatch table s event = some t) : t ∈ table ∧ t.fromState = s ∧ t.event = event := by
  have hmatch := List.find?_some h
  simp only [Transition.matches, decide_eq_true_eq] at hmatch
  exact ⟨List.mem_of_find?_eq_some h, hmatch⟩

/-- The rank of the event bounds the depth of the nesting. -/
theorem processEvent_returns {rank : ℤ → ℕ} (hdown : FiresDown rank table) {event : ℤ}
    (hfuel : rank event < fuel) (s : ℤ) (context : X) (c : C) :
    (zenitStateProcessEvent table fuel s event context c).isSome := by
  induction fuel generalizing s event context c with
  | zero => omega
  | succ fuel ih =>
    rw [zenitStateProcessEvent]
    rcases hm : firstMatch table s event with _ | t
    · rfl
    · rcases hcall : t.onTransition with _ | callback
      · simp [hcall]
      · obtain ⟨hmem, rfl, rfl⟩ := matches_of_firstMatch hm
        have hbelow := hdown t hmem callback hcall context c
        obtain ⟨⟨s₁, c₁, log₁⟩, hr⟩ := Option.isSome_iff_exists.mp
          (Client.run_returns (fun cur e x c hlt => @ih e (by omega) cur x c) hbelow t.toState)
        simp [hcall, hr]

/-- From some fuel on the client comes to its end, always to the same one. -/
theorem Client.run_settles {rank : ℤ → ℕ} (hdown : FiresDown rank table) (client : Client C X)
    (s : ℤ) : ∃ fuel r, ∀ fuel' ≥ fuel,
      client.run (zenitStateProcessEvent table fuel') s = some r := by
  induction client generalizing s with
  | finished c => exact ⟨0, (s, c, []), fun _ _ => rfl⟩
  | processEvent event context c resume ih =>
    obtain ⟨⟨err, s₁, c₁, log₁⟩, hf⟩ := Option.isSome_iff_exists.mp
      (processEvent_returns hdown (Nat.lt_succ_self (rank event)) s context c)
    obtain ⟨fuel, ⟨s₂, c₂, log₂⟩, hr⟩ := ih err c₁ s₁
    refine ⟨max (rank event + 1) fuel, (s₂, c₂, log₁ ++ log₂), fun fuel' hge => ?_⟩
    have hevent := processEvent_mono (le_of_max_le_left hge) hf
    simp [Client.run, hevent, hr fuel' (le_of_max_le_right hge)]
  | reset t resume ih =>
    obtain ⟨fuel, ⟨s₂, c₂, log₂⟩, hr⟩ := ih t
    exact ⟨fuel, (s₂, c₂, .reset t :: log₂), fun fuel' hge => by simp [Client.run, hr fuel' hge]⟩
  | current resume ih => exact ih s s

/-! ## The order of the rules -/

/-- No two rules share a state and an event. -/
def Unambiguous (table : List (Transition C X)) : Prop :=
  ∀ t ∈ table, ∀ t' ∈ table, t.fromState = t'.fromState → t.event = t'.event → t = t'

theorem firstMatch_perm (hperm : table.Perm table') (huniq : Unambiguous table) (event : ℤ) :
    firstMatch table s event = firstMatch table' s event := by
  refine List.find?_eq_find?_of_perm hperm fun t ht t' ht' => ?_
  obtain ⟨hmem, hmatch⟩ := ht
  obtain ⟨hmem', hmatch'⟩ := ht'
  simp only [Transition.matches, decide_eq_true_eq] at hmatch hmatch'
  exact huniq t hmem t' hmem' (hmatch.1.trans hmatch'.1.symm) (hmatch.2.trans hmatch'.2.symm)

theorem processEvent_perm (hperm : table.Perm table') (huniq : Unambiguous table) :
    zenitStateProcessEvent table fuel = zenitStateProcessEvent table' fuel := by
  induction fuel with
  | zero => rfl
  | succ fuel ih =>
    funext s event context c
    rw [zenitStateProcessEvent, zenitStateProcessEvent, firstMatch_perm hperm huniq, ih]

/-! ## Whole runs -/

/-- When callbacks feed only events of smaller rank, every client comes to its end; the machine has
then gone through what a machine without callbacks goes through on the same events and resets in
the order in which they took effect. When no two rules share a state and an event, all this does not
depend on the order of the rules. -/
theorem reentrant_runs_flatten (table : List (Transition C X)) (rank : ℤ → ℕ)
    (hdown : FiresDown rank table) (client : Client C X) (initial : ℤ) :
    ∃ fuel cur c log,
      (∀ fuel' ≥ fuel,
        client.run (zenitStateProcessEvent table fuel') initial = some (cur, c, log)) ∧
      (replay log).run (zenitStateProcessEvent (table.map Transition.silence) 1) initial =
        some (cur, (), log) ∧
      (Unambiguous table → ∀ table', table.Perm table' → ∀ fuel' ≥ fuel,
        client.run (zenitStateProcessEvent table' fuel') initial = some (cur, c, log)) := by
  obtain ⟨fuel, ⟨cur, c, log⟩, hrun⟩ := Client.run_settles hdown client initial
  have hpath : Path table initial log cur := Client.run_path processEvent_path (hrun fuel le_rfl)
  refine ⟨fuel, cur, c, log, hrun, hpath.replay_run, fun huniq table' hperm fuel' hge => ?_⟩
  rw [← processEvent_perm hperm huniq]
  exact hrun fuel' hge

/-- The callback of the first rule counts and feeds the event of the second one. -/
def nestedTable : List (Transition ℕ Unit) :=
  [⟨0, 1, 1, some fun _ _ _ _ c => .processEvent 0 () (c + 1) fun _ c => .finished c⟩,
    ⟨1, 0, 2, none⟩]

/-- The nested event takes the machine to its last state before the first call returns. -/
theorem nested_event_flattens : ∃ fuel,
    (∀ fuel' ≥ fuel, (Client.processEvent 1 () 0 fun _ c => .finished c).run
      (zenitStateProcessEvent nestedTable fuel') 0 =
        some (2, 1, [.moved 0 1 1, .moved 1 0 2])) ∧
    (replay [.moved 0 1 1, .moved 1 0 2]).run
      (zenitStateProcessEvent (nestedTable.map Transition.silence) 1) 0 =
        some (2, (), [.moved 0 1 1, .moved 1 0 2]) ∧
    (Unambiguous nestedTable → ∀ table', nestedTable.Perm table' → ∀ fuel' ≥ fuel,
      (Client.processEvent 1 () 0 fun _ c => .finished c).run
        (zenitStateProcessEvent table' fuel') 0 =
          some (2, 1, [.moved 0 1 1, .moved 1 0 2])) := by
  obtain ⟨fuel, cur, c, log, hrun, hreplay, hperm⟩ := reentrant_runs_flatten nestedTable Int.toNat
    (by simp [FiresDown, nestedTable, Client.FiresBelow])
    (Client.processEvent 1 () 0 fun _ c => .finished c) 0
  have hresult : some (2, 1, [Entry.moved 0 1 1, .moved 1 0 2]) = some (cur, c, log) :=
    hrun (fuel + 2) (Nat.le_add_right _ _)
  obtain ⟨rfl, rfl, rfl⟩ : cur = 2 ∧ c = 1 ∧ log = [Entry.moved 0 1 1, .moved 1 0 2] := by
    simpa [eq_comm] using hresult
  exact ⟨fuel, hrun, hreplay, hperm⟩

end LibZenit.StateMachine
