import Mathlib.Tactic

/-!
# Histories of calls

A history lists what the threads of a program do in the order of time. A call of a thread takes
effect once, between its beginning and its end. When the effects in their order are a run of a
sequential object, every call can be taken for one that happens in an instant.
-/
namespace LibZenit.CallHistories

variable {Op Answer Thread σ : Type*}

inductive Event (Op Answer : Type*) where
  | call (op : Op)
  | effect (op : Op) (answer : Answer)
  | ret (op : Op) (answer : Answer)

/-- What a thread is about. -/
inductive Status (Op Answer : Type*) where
  | idle
  | called (op : Op)
  | done (op : Op) (answer : Answer)

/-- The events of the call that a thread is in. -/
def Status.begun : Status Op Answer → List (Event Op Answer)
  | .idle => []
  | .called op => [.call op]
  | .done op answer => [.call op, .effect op answer]

/-- The events of a whole call. -/
def whole (c : Op × Answer) : List (Event Op Answer) := [.call c.1, .effect c.1 c.2, .ret c.1 c.2]

/-- The events of one thread: whole calls, and the beginning of another one. -/
def Calls (es : List (Event Op Answer)) (status : Status Op Answer) : Prop :=
  ∃ calls : List (Op × Answer), es = calls.flatMap whole ++ status.begun

def eventsOf [DecidableEq Thread] (t : Thread) (h : List (Thread × Event Op Answer)) :
    List (Event Op Answer) :=
  h.filterMap fun e => if e.1 = t then some e.2 else none

def Event.effect? : Event Op Answer → Option (Op × Answer)
  | .effect op answer => some (op, answer)
  | _ => none

def effects (h : List (Thread × Event Op Answer)) : List (Op × Answer) :=
  h.filterMap fun e => e.2.effect?

/-- The answers of a sequential object to the operations, one after the other. -/
inductive Serves (act : σ → Op → σ × Answer) (start : σ) : List (Op × Answer) → σ → Prop
  | nil : Serves act start [] start
  | snoc {served : List (Op × Answer)} {s : σ} (h : Serves act start served s) (op : Op) :
      Serves act start (served ++ [(op, (act s op).2)]) (act s op).1

/-- A history that an object explains: `status` and `now` say where the threads and the object
are at its end. -/
structure Linearised [DecidableEq Thread] (act : σ → Op → σ × Answer) (start : σ)
    (h : List (Thread × Event Op Answer)) (status : Thread → Status Op Answer) (now : σ) :
    Prop where
  calls : ∀ t, Calls (eventsOf t h) (status t)
  effects : Serves act start (effects h) now

variable {op : Op} {answer : Answer} {es : List (Event Op Answer)}

theorem Calls.call (h : Calls es .idle) (op : Op) : Calls (es ++ [.call op]) (.called op) := by
  obtain ⟨calls, rfl⟩ := h
  exact ⟨calls, by simp [Status.begun]⟩

theorem Calls.effect (h : Calls es (.called op)) (answer : Answer) :
    Calls (es ++ [.effect op answer]) (.done op answer) := by
  obtain ⟨calls, rfl⟩ := h
  exact ⟨calls, by simp [Status.begun]⟩

theorem Calls.ret (h : Calls es (.done op answer)) : Calls (es ++ [.ret op answer]) .idle := by
  obtain ⟨calls, rfl⟩ := h
  exact ⟨calls ++ [(op, answer)], by simp [Status.begun, whole]⟩

section Steps

variable [DecidableEq Thread] {act : σ → Op → σ × Answer} {start now : σ} {t : Thread}
  {h : List (Thread × Event Op Answer)} {status : Thread → Status Op Answer}

theorem eventsOf_append_self (t : Thread) (h : List (Thread × Event Op Answer))
    (e : Event Op Answer) : eventsOf t (h ++ [(t, e)]) = eventsOf t h ++ [e] := by
  simp [eventsOf]

theorem eventsOf_append_of_ne {t u : Thread} (hne : t ≠ u) (h : List (Thread × Event Op Answer))
    (e : Event Op Answer) : eventsOf u (h ++ [(t, e)]) = eventsOf u h := by
  simp [eventsOf, hne]

/-- One more event of a thread. -/
theorem calls_append {e : Event Op Answer} {st : Status Op Answer}
    (hcalls : ∀ t, Calls (eventsOf t h) (status t)) (hlast : Calls (eventsOf t h ++ [e]) st) :
    ∀ u, Calls (eventsOf u (h ++ [(t, e)])) (Function.update status t st u) := by
  intro u
  by_cases hu : u = t
  · subst hu
    rw [eventsOf_append_self, Function.update_self]
    exact hlast
  · rw [eventsOf_append_of_ne (Ne.symm hu), Function.update_of_ne hu]
    exact hcalls u

theorem Linearised.nil (act : σ → Op → σ × Answer) (start : σ) :
    Linearised act start ([] : List (Thread × Event Op Answer)) (fun _ => .idle) start :=
  ⟨fun _ => ⟨[], rfl⟩, .nil⟩

theorem Linearised.call (hl : Linearised act start h status now) (ht : status t = .idle) (op : Op) :
    Linearised act start (h ++ [(t, .call op)]) (Function.update status t (.called op)) now where
  calls := calls_append hl.calls ((ht ▸ hl.calls t).call op)
  effects := by simpa [CallHistories.effects, Event.effect?] using hl.effects

/-- The object answers. -/
theorem Linearised.effect (hl : Linearised act start h status now) (ht : status t = .called op) :
    Linearised act start (h ++ [(t, .effect op (act now op).2)])
      (Function.update status t (.done op (act now op).2)) (act now op).1 where
  calls := calls_append hl.calls ((ht ▸ hl.calls t).effect _)
  effects := by simpa [CallHistories.effects, Event.effect?] using hl.effects.snoc op

theorem Linearised.ret (hl : Linearised act start h status now) (ht : status t = .done op answer) :
    Linearised act start (h ++ [(t, .ret op answer)]) (Function.update status t .idle) now where
  calls := calls_append hl.calls (ht ▸ hl.calls t).ret
  effects := by simpa [CallHistories.effects, Event.effect?] using hl.effects

end Steps

end LibZenit.CallHistories
