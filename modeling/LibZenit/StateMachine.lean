import LibZenit.Basics

/-!
# The state machines of `state.c`

A table of rules and a current state. A callback runs inside `zenit_state_process_event` and may
itself feed events into the machine, reset it and read its state, so client code is a tree: at each
node it calls the machine, and it goes on with what the call returned. The memory that clients and
callbacks share is `C`, the context that a call forwards is `X`.
-/
namespace LibZenit.StateMachine

/-- What is left of the code of a client. -/
inductive Client (C X : Type) where
  | finished (c : C)
  | processEvent (event : ℤ) (context : X) (c : C) (resume : ZenitError → C → Client C X)
  | reset (newState : ℤ) (resume : Client C X)
  | current (resume : ℤ → Client C X)

/-- A callback gets the event, the previous state, the new state and the context. -/
structure Transition (C X : Type) where
  fromState : ℤ
  event : ℤ
  toState : ℤ
  onTransition : Option (ℤ → ℤ → ℤ → X → C → Client C X)

/-- What happened to the machine, one entry for each event and each reset. -/
inductive Entry where
  | moved (fromState event toState : ℤ)
  | unmatched (fromState event : ℤ)
  | reset (newState : ℤ)
  deriving DecidableEq, Repr

section Machine

variable {C X : Type}

/-- The answer of one event: the result, the current state, the shared memory and the entries. -/
abbrev Answer (C : Type) : Type := Option (ZenitError × ℤ × C × List Entry)

/-- Run the code of a client on a machine that answers events with `fire`. -/
def Client.run (fire : ℤ → ℤ → X → C → Answer C) : Client C X → ℤ → Option (ℤ × C × List Entry)
  | .finished c, cur => some (cur, c, [])
  | .processEvent event context c resume, cur =>
    match fire cur event context c with
    | none => none
    | some (err, cur, c, log) =>
      match (resume err c).run fire cur with
      | none => none
      | some (cur, c, log') => some (cur, c, log ++ log')
  | .reset newState resume, _ =>
    match resume.run fire newState with
    | none => none
    | some (cur, c, log) => some (cur, c, .reset newState :: log)
  | .current resume, cur => (resume cur).run fire cur

variable (table : List (Transition C X))

def Transition.matches (fromState event : ℤ) (t : Transition C X) : Bool :=
  t.fromState = fromState ∧ t.event = event

/-- The first rule of the scan. -/
def firstMatch (fromState event : ℤ) : Option (Transition C X) :=
  table.find? (Transition.matches fromState event)

/-- The state is committed before the callback runs. Callbacks that feed events without end exhaust
the fuel. -/
def zenitStateProcessEvent : ℕ → ℤ → ℤ → X → C → Answer C
  | 0, _, _, _, _ => none
  | fuel + 1, cur, event, context, c =>
    match firstMatch table cur event with
    | none => some (.notFound, cur, c, [.unmatched cur event])
    | some t =>
      match t.onTransition with
      | none => some (.ok, t.toState, c, [.moved cur event t.toState])
      | some callback =>
        match (callback event cur t.toState context c).run (zenitStateProcessEvent fuel)
          t.toState with
        | none => none
        | some (cur', c, log) => some (.ok, cur', c, .moved cur event t.toState :: log)

end Machine

end LibZenit.StateMachine
