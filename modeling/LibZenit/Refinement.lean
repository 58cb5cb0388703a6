import LibZenit.Blocks

/-!
# Runs of a step function, and their refinement

A call takes a state to a new state and a reply, or ends in a fault. A relation between states and
abstract values that every call keeps is kept by every run.
-/
namespace LibZenit.Refinement

variable {State Call Reply Value : Type} (step : State → Call → Exec (State × Reply))

def run : State → List Call → Exec (State × List Reply)
  | s, [] => .ok (s, [])
  | s, call :: calls => (step s call).bind fun p =>
    (run p.1 calls).map fun q => (q.1, p.2 :: q.2)

/-- Every call of the run meets the condition in the state it finds. -/
def Along (cond : State → Call → Prop) : State → List Call → Prop
  | _, [] => True
  | s, call :: calls => cond s call ∧
      ∀ s' reply, step s call = .ok (s', reply) → Along cond s' calls

/-- The replies of a run are those of the specification, which takes `v` to `v'`. -/
def Conforming (spec : Value → Call → Reply → Value → Prop) :
    Value → List Call → List Reply → Value → Prop
  | v, [], [], v' => v' = v
  | v, call :: calls, reply :: replies, v' =>
    ∃ v₁, spec v call reply v₁ ∧ Conforming spec v₁ calls replies v'
  | _, _, _, _ => False

/-- A record of a run, written call by call. -/
def history {Record : Type} (note : Record → Call → Reply → Record) :
    Record → List Call → List Reply → Record
  | r, call :: calls, reply :: replies => history note (note r call reply) calls replies
  | r, _, _ => r

variable {step} {cond : State → Call → Prop} {spec : Value → Call → Reply → Value → Prop}
  {rel : State → Value → Prop} {s s' : State} {v : Value} {call : Call} {calls : List Call}

theorem run_cons {reply : Reply} {q : State × List Reply} (hstep : step s call = .ok (s', reply))
    (hrun : run step s' calls = .ok q) :
    run step s (call :: calls) = .ok (q.1, reply :: q.2) := by
  rw [run, hstep]
  exact congrArg (Except.map _) hrun

theorem run_tail {reply : Reply} {q : State × List Reply} (hstep : step s call = .ok (s', reply))
    (hrun : run step s (call :: calls) = .ok q) : ∃ q', run step s' calls = .ok q' := by
  rw [run, hstep] at hrun
  obtain ⟨q', htail, -⟩ := map_eq_ok hrun
  exact ⟨q', htail⟩

/-- A condition on the calls alone. -/
theorem along_of_forall {legal : Call → Prop} (h : ∀ call ∈ calls, legal call) (s : State) :
    Along step (fun _ call => legal call) s calls := by
  induction calls generalizing s with
  | nil => trivial
  | cons call calls ih =>
    exact ⟨h call (by simp), fun s' _ _ => ih (fun c hc => h c (by simp [hc])) s'⟩

/-- Conditions that hold along a run together. -/
theorem Along.and {cond' : State → Call → Prop} (h : Along step cond s calls)
    (h' : Along step cond' s calls) :
    Along step (fun s call => cond s call ∧ cond' s call) s calls := by
  induction calls generalizing s with
  | nil => trivial
  | cons call calls ih =>
    exact ⟨⟨h.1, h'.1⟩, fun s' reply hstep => ih (h.2 s' reply hstep) (h'.2 s' reply hstep)⟩

/-- A run of calls that each refine the specification refines it. -/
theorem run_refines
    (hstep : ∀ s v call, rel s v → cond s call →
      ∃ s' reply v', step s call = .ok (s', reply) ∧ spec v call reply v' ∧ rel s' v')
    (h : rel s v) (hcond : Along step cond s calls) :
    ∃ s' replies v', run step s calls = .ok (s', replies) ∧
      Conforming spec v calls replies v' ∧ rel s' v' := by
  induction calls generalizing s v with
  | nil => exact ⟨s, [], v, rfl, rfl, h⟩
  | cons call calls ih =>
    obtain ⟨s₁, reply, v₁, hdone, hspec, h₁⟩ := hstep s v call h hcond.1
    obtain ⟨s', replies, v', hrun, hconf, h'⟩ := ih h₁ (hcond.2 s₁ reply hdone)
    exact ⟨s', reply :: replies, v', run_cons hdone hrun, ⟨v₁, hspec, hconf⟩, h'⟩

/-- Two step functions that agree wherever an invariant of the second holds have the same runs. -/
theorem run_congr {other : State → Call → Exec (State × Reply)} {inv : State → Prop}
    (hkeep : ∀ s call s' reply, inv s → step s call = .ok (s', reply) → inv s')
    (heq : ∀ s call, inv s → other s call = step s call) (h : inv s) :
    run other s calls = run step s calls := by
  induction calls generalizing s with
  | nil => rfl
  | cons call calls ih =>
    rw [run, run, heq s call h]
    cases hstep : step s call with
    | error e => rfl
    | ok p =>
      have hrest := ih (hkeep s call p.1 p.2 h hstep)
      simp only [Except.bind, hrest]

/-- Two executions end in the same fault, or with values in relation. -/
def Alike {α β : Type} (rel : α → β → Prop) : Exec α → Exec β → Prop
  | .ok a, .ok b => rel a b
  | .error e, .error e' => e = e'
  | _, _ => False

theorem Alike.cases {α β : Type} {rel : α → β → Prop} {x : Exec α} {y : Exec β}
    (h : Alike rel x y) :
    (∃ e, x = .error e ∧ y = .error e) ∨ ∃ a b, x = .ok a ∧ y = .ok b ∧ rel a b := by
  cases x with
  | error e =>
    cases y with
    | error e' => exact .inl ⟨e, rfl, by rw [show e = e' from h]⟩
    | ok b => exact h.elim
  | ok a =>
    cases y with
    | error e' => exact h.elim
    | ok b => exact .inr ⟨a, b, rfl, rfl, h⟩

theorem Alike.refl {α : Type} {rel : α → α → Prop} (hrel : ∀ a, rel a a) (x : Exec α) :
    Alike rel x x := by
  cases x with
  | error e => exact (rfl : e = e)
  | ok a => exact hrel a

theorem Alike.bind {α β γ δ : Type} {rel : α → β → Prop} {rel' : γ → δ → Prop} {x : Exec α}
    {y : Exec β} {f : α → Exec γ} {g : β → Exec δ} (h : Alike rel x y)
    (hfg : ∀ a b, rel a b → Alike rel' (f a) (g b)) : Alike rel' (x.bind f) (y.bind g) := by
  obtain ⟨e, rfl, rfl⟩ | ⟨a, b, rfl, rfl, hab⟩ := h.cases
  · exact (rfl : e = e)
  · exact hfg a b hab

theorem Alike.map {α β γ δ : Type} {rel : α → β → Prop} {rel' : γ → δ → Prop} {x : Exec α}
    {y : Exec β} {f : α → γ} {g : β → δ} (h : Alike rel x y)
    (hfg : ∀ a b, rel a b → rel' (f a) (g b)) : Alike rel' (x.map f) (y.map g) := by
  obtain ⟨e, rfl, rfl⟩ | ⟨a, b, rfl, rfl, hab⟩ := h.cases
  · exact (rfl : e = e)
  · exact hfg a b hab

theorem Alike.mono {α β : Type} {rel rel' : α → β → Prop} {x : Exec α} {y : Exec β}
    (h : Alike rel x y) (himp : ∀ a b, rel a b → rel' a b) : Alike rel' x y := by
  obtain ⟨e, rfl, rfl⟩ | ⟨a, b, rfl, rfl, hab⟩ := h.cases
  · exact (rfl : e = e)
  · exact himp a b hab

/-- The same fault, or the same replies and states in relation. -/
abbrev SameOutcome {Replies : Type} (sim : State → State → Prop) :
    Exec (State × Replies) → Exec (State × Replies) → Prop :=
  Alike fun p q => sim p.1 q.1 ∧ p.2 = q.2

/-- States in relation have runs of the same outcome if each call has. -/
theorem run_alike {sim : State → State → Prop}
    (hstep : ∀ s t call, sim s t → SameOutcome sim (step s call) (step t call))
    {t : State} (h : sim s t) : SameOutcome sim (run step s calls) (run step t calls) := by
  induction calls generalizing s t with
  | nil => exact ⟨h, rfl⟩
  | cons call calls ih =>
    refine (hstep s t call h).bind fun p q hpq => ?_
    exact (ih hpq.1).map fun a b hab => ⟨hab.1, congrArg₂ List.cons hpq.2 hab.2⟩

/-- If each call in one state has the outcome of an eased call in the other, so has each run, up to
every point of it. -/
theorem run_eased {eased : Call → Call → Prop} {sim : State → State → Prop}
    (hrefl : ∀ call, eased call call)
    (hstep : ∀ s t call, sim s t →
      ∃ call', eased call call' ∧ SameOutcome sim (step s call') (step t call))
    {t : State} (h : sim s t) : ∃ calls', List.Forall₂ eased calls calls' ∧
      ∀ n, SameOutcome sim (run step s (calls'.take n)) (run step t (calls.take n)) := by
  induction calls generalizing s t with
  | nil =>
    refine ⟨[], .nil, fun n => ?_⟩
    rw [List.take_nil]
    exact ⟨h, rfl⟩
  | cons call calls ih =>
    obtain ⟨call', heased, hsame⟩ := hstep s t call h
    obtain ⟨e, hs, ht⟩ | ⟨p, q, hs, ht, hsim, hreply⟩ := hsame.cases
    · refine ⟨call' :: calls, .cons heased (List.forall₂_same.mpr fun c _ => hrefl c), fun n => ?_⟩
      cases n with
      | zero => exact ⟨h, rfl⟩
      | succ n =>
        rw [List.take_succ_cons, List.take_succ_cons, run, run, hs, ht]
        exact (rfl : e = e)
    · obtain ⟨calls', hrest, hruns⟩ := ih hsim
      refine ⟨call' :: calls', .cons heased hrest, fun n => ?_⟩
      cases n with
      | zero => exact ⟨h, rfl⟩
      | succ n =>
        rw [List.take_succ_cons, List.take_succ_cons, run, run, hs, ht]
        exact (hruns n).map fun a b hab => ⟨hab.1, congrArg₂ List.cons hreply hab.2⟩

/-- A record that is right about the value before each call is right about it after the run. -/
theorem Conforming.history {Record : Type} {note : Record → Call → Reply → Record}
    {right : Record → Value → Prop}
    (hnote : ∀ r v call reply v', right r v → spec v call reply v' → right (note r call reply) v')
    {r : Record} (h : right r v) {replies : List Reply} {v' : Value}
    (hconf : Conforming spec v calls replies v') :
    right (Refinement.history note r calls replies) v' := by
  induction calls generalizing r v replies with
  | nil =>
    cases replies with
    | nil =>
      cases hconf
      exact h
    | cons reply replies => exact hconf.elim
  | cons call calls ih =>
    cases replies with
    | nil => exact hconf.elim
    | cons reply replies =>
      obtain ⟨v₁, hcall, hrest⟩ := hconf
      exact ih (hnote r v call reply v₁ h hcall) hrest

/-- A run without fault has met every condition whose failure is a fault. -/
theorem along_of_run {bad : State → Call → Prop}
    (hstep : ∀ s v call, rel s v → cond s call → ¬bad s call →
      ∃ s' reply v', step s call = .ok (s', reply) ∧ rel s' v')
    (hbad : ∀ s v call p, rel s v → bad s call → step s call ≠ .ok p)
    (h : rel s v) (hcond : Along step cond s calls) {q : State × List Reply}
    (hrun : run step s calls = .ok q) : Along step (fun s call => ¬bad s call) s calls := by
  induction calls generalizing s v q with
  | nil => trivial
  | cons call calls ih =>
    have hgood : ¬bad s call := by
      intro hb
      obtain ⟨p, hdone, -⟩ := bind_eq_ok hrun
      exact hbad s v call p h hb hdone
    obtain ⟨s₁, reply, v₁, hdone, h₁⟩ := hstep s v call h hcond.1 hgood
    refine ⟨hgood, fun s₂ reply₂ hdone₂ => ?_⟩
    rw [hdone] at hdone₂
    cases hdone₂
    obtain ⟨q', htail⟩ := run_tail hdone hrun
    exact ih h₁ (hcond.2 s₁ reply hdone) htail

/-- If good states go to good states exactly under the calls that meet the condition, then all the
states of a run are good exactly if all of its calls meet it. -/
theorem good_along_iff {inv good : State → Prop} {legal : Call → Prop}
    (hstep : ∀ s call, inv s → good s → legal call →
      ∃ s' reply, step s call = .ok (s', reply) ∧ inv s' ∧ (good s' ↔ cond s call))
    (hinv : inv s) (h : good s) (hlegal : ∀ call ∈ calls, legal call) :
    (∀ before, before <+: calls → ∃ s' replies, run step s before = .ok (s', replies) ∧ good s') ↔
      Along step cond s calls := by
  induction calls generalizing s with
  | nil =>
    refine iff_of_true (fun before hbefore => ?_) trivial
    rw [List.prefix_nil.mp hbefore]
    exact ⟨s, [], rfl, h⟩
  | cons call calls ih =>
    obtain ⟨s₁, reply, hdone, hinv₁, hgood⟩ := hstep s call hinv h (hlegal call (by simp))
    have htail : ∀ call ∈ calls, legal call := fun c hc => hlegal c (by simp [hc])
    constructor
    · intro hall
      have hnext : ∀ before, before <+: calls →
          ∃ s' replies, run step s₁ before = .ok (s', replies) ∧ good s' := by
        intro before hbefore
        obtain ⟨s', replies, hrun, hs'⟩ :=
          hall (call :: before) (List.cons_prefix_cons.mpr ⟨rfl, hbefore⟩)
        obtain ⟨q, hq⟩ := run_tail hdone hrun
        have hcons := run_cons hdone hq
        rw [hrun] at hcons
        cases hcons
        exact ⟨q.1, q.2, hq, hs'⟩
      obtain ⟨s₂, replies, hrun, hs₂⟩ := hnext [] List.nil_prefix
      cases hrun
      refine ⟨hgood.mp hs₂, fun s' r hdone' => ?_⟩
      rw [hdone] at hdone'
      cases hdone'
      exact (ih hinv₁ hs₂ htail).mp hnext
    · rintro ⟨hcall, hrest⟩ before hbefore
      cases before with
      | nil => exact ⟨s, [], rfl, h⟩
      | cons first before =>
        obtain ⟨rfl, hprefix⟩ := List.cons_prefix_cons.mp hbefore
        have hs₁ := hgood.mpr hcall
        obtain ⟨s', replies, hrun, hs'⟩ :=
          (ih hinv₁ hs₁ htail).mpr (hrest s₁ reply hdone) before hprefix
        exact ⟨s', reply :: replies, run_cons hdone hrun, hs'⟩

end LibZenit.Refinement
