import LibZenit.StackModel
import LibZenit.VectorRefinement

/-!
# The stack is last in, first out

The vector of a stack is never shrunk and starts without a block, so it has no slots or at least
eight, and its growth loop never gets stuck. What a part of a run leaves untouched lies below what
it has pushed.
-/
namespace LibZenit.Refinement

/-- The conditions of a run in two parts. -/
theorem Along.parts {State Call Reply : Type} {step : State → Call → Exec (State × Reply)}
    {cond : State → Call → Prop} {s : State} {before during : List Call}
    (h : Along step cond s (before ++ during)) :
    Along step cond s before ∧
      ∀ s' replies, run step s before = .ok (s', replies) → Along step cond s' during := by
  induction before generalizing s with
  | nil =>
    refine ⟨trivial, fun s' replies hrun => ?_⟩
    cases hrun
    exact h
  | cons call before ih =>
    obtain ⟨hcall, hrest⟩ := h
    refine ⟨⟨hcall, fun s₁ reply hstep => (ih (hrest s₁ reply hstep)).1⟩,
      fun s' replies hrun => ?_⟩
    obtain ⟨⟨s₁, reply⟩, hstep, htail⟩ := bind_eq_ok hrun
    obtain ⟨q, hq, heq⟩ := map_eq_ok htail
    cases heq
    exact (ih (hrest s₁ reply hstep)).2 _ _ hq

end LibZenit.Refinement

namespace LibZenit.Stacks
open Vectors Growth

variable {α : Type} {stack : Stack α} {v : Vector α} {l s s' base : List α} {fuel : ℕ}

/-! ## Last in, first out -/

/-- What a call does to the contents, the top first, when no allocation fails. -/
def lifoStep : Call α → List α → Reply α × List α
  | .push _ none, s => (⟨.null, none⟩, s)
  | .push _ (some x), s => (⟨.ok, none⟩, x :: s)
  | .pop false, s => (⟨.null, none⟩, s)
  | .pop true, [] => (⟨.empty, none⟩, [])
  | .pop true, x :: s => (⟨.ok, some x⟩, s)
  | .peek, s => (⟨.ok, s.head?⟩, s)
  | .clear, _ => (⟨.ok, none⟩, [])

/-- The call would store an element and is denied the memory it may ask for. -/
def Denied (call : Call α) : Prop := ∃ x, call = .push false (some x)

/-- A call that fails for lack of memory leaves the contents as they are. -/
def Conforms (s : List α) (call : Call α) (reply : Reply α) (s' : List α) : Prop :=
  (reply, s') = lifoStep call s ∨ Denied call ∧ reply = ⟨.alloc, none⟩ ∧ s' = s

/-! ## Nested runs -/

/-- What a call makes of the number of elements that a part of a run has on the stack. There is no
number once it has taken an element that it did not push, or cleared the stack. -/
def surplusStep (n : ℕ) : Call α → Reply α → Option ℕ
  | .push _ _, reply => some (if reply.code = .ok then n + 1 else n)
  | .pop _, reply => if reply.code = .ok then (if n = 0 then none else some (n - 1)) else some n
  | .peek, _ => some n
  | .clear, _ => none

def surplus (calls : List (Call α)) (replies : List (Reply α)) : Option ℕ :=
  Refinement.history (fun n call reply => n.bind fun n => surplusStep n call reply) (some 0) calls
    replies

/-- The part of a run that has the surplus `n` has pushed the first `n` elements. -/
def OnTopOf (base : List α) (n : Option ℕ) (s : List α) : Prop :=
  ∀ k, n = some k → ∃ mine, mine.length = k ∧ s = mine ++ base

theorem OnTopOf.call {n : Option ℕ} (h : OnTopOf base n s) {call : Call α} {reply : Reply α}
    (hconf : Conforms s call reply s') :
    OnTopOf base (n.bind fun n => surplusStep n call reply) s' := by
  intro k hk
  obtain ⟨m, hm, hstep⟩ := Option.bind_eq_some_iff.mp hk
  obtain ⟨mine, hlen, rfl⟩ := h m hm
  obtain hlifo | ⟨⟨x, rfl⟩, rfl, rfl⟩ := hconf
  · cases call with
    | push ok elem =>
      cases elem with
      | none =>
        cases hlifo
        cases hstep
        exact ⟨mine, hlen, rfl⟩
      | some x =>
        cases hlifo
        cases hstep
        exact ⟨x :: mine, congrArg (· + 1) hlen, rfl⟩
    | pop out =>
      cases out with
      | false =>
        cases hlifo
        cases hstep
        exact ⟨mine, hlen, rfl⟩
      | true =>
        cases mine with
        | nil =>
          -- nothing of its own is left: the stack is empty, or the surplus is gone
          obtain rfl : 0 = m := hlen
          cases base with
          | nil =>
            cases hlifo
            cases hstep
            exact ⟨[], rfl, rfl⟩
          | cons x base =>
            cases hlifo
            cases hstep
        | cons x mine =>
          obtain rfl : mine.length + 1 = m := hlen
          cases hlifo
          cases hstep
          exact ⟨mine, rfl, rfl⟩
    | peek =>
      cases hlifo
      cases hstep
      exact ⟨mine, hlen, rfl⟩
    | clear => cases hstep
  · cases hstep
    exact ⟨mine, hlen, rfl⟩

/-! ## The representation -/

structure Represents (stack : Stack α) (s : List α) : Prop where
  vector : Vectors.Represents stack.vector s.reverse
  slots : stack.vector.capacity = 0 ∨ 8 ≤ stack.vector.capacity

theorem create_represents {handle vectorHandle : Bool} {elemSize : ℕ}
    (h : zenitStackCreateWithAllocator handle vectorHandle elemSize = some stack) :
    Represents stack [] := by
  unfold zenitStackCreateWithAllocator at h
  split_ifs at h
  obtain ⟨v, hv, rfl⟩ := Option.map_eq_some_iff.mp h
  refine ⟨Vectors.create_represents hv, Or.inl ?_⟩
  unfold zenitVectorCreate at hv
  split_ifs at hv
  cases hv
  rfl

theorem Represents.count (h : Represents stack s) : stack.vector.count = s.length := by
  rw [h.vector.count, List.length_reverse]

theorem Represents.peek (h : Represents stack s) : zenitStackPeek stack = .ok s.head? := by
  have hcount := h.count
  unfold zenitStackPeek
  cases s with
  | nil => exact if_pos hcount
  | cons x s =>
    rw [if_neg (by rw [hcount]; exact Nat.succ_ne_zero _), get_spec h.vector, hcount]
    simp

variable [Inhabited α]

theorem Represents.pop (h : Represents stack s) (fuel : ℕ) :
    ∃ stack' reply s', step fuel stack (.pop true) = .ok (stack', reply) ∧
      Conforms s (.pop true) reply s' ∧ Represents stack' s' := by
  cases s with
  | nil =>
    have hpop : zenitVectorPop stack.vector = .ok (stack.vector, ⟨.empty, none⟩) := if_pos h.count
    exact ⟨stack, _, [], congrArg (Except.map _) hpop, Or.inl rfl, h⟩
  | cons x s =>
    have hvector := h.vector
    rw [List.reverse_cons] at hvector
    obtain ⟨v', hpop, h'⟩ := pop_spec hvector
    exact ⟨⟨v', stack.elemSize⟩, _, s, congrArg (Except.map _) hpop, Or.inl rfl, h',
      (pop_frame hpop).1 ▸ h.slots⟩

/-- A push that finds the block full makes it at least eight slots large. -/
theorem push_cases (h : Vectors.Represents v l) (hslots : v.capacity = 0 ∨ 8 ≤ v.capacity)
    (hbytes : v.count = v.capacity → growthFactor v.capacity * v.elemSize < 2 ^ 64) (fuel : ℕ)
    (ok : Bool) (x : α) :
    (zenitVectorPush (fuel + 2) ok v x = .ok (v, ⟨.alloc, none⟩) ∧ ok = false) ∨
      ∃ v', zenitVectorPush (fuel + 2) ok v x = .ok (v', ⟨.ok, none⟩) ∧
        Vectors.Represents v' (l ++ [x]) ∧ 8 ≤ v'.capacity := by
  have hcount := h.count
  have hfits := h.fits
  by_cases hfull : v.count = v.capacity
  · have hone : v.capacity ≠ 1 := by omega
    have hlt := lt_growthFactor hone
    have height : 8 ≤ growthFactor v.capacity := by
      unfold growthFactor
      split_ifs <;> omega
    have hle : growthFactor v.capacity ≤ growthFactor v.capacity * v.elemSize :=
      Nat.le_mul_of_pos_right _ h.sized
    have hwrap := hbytes hfull
    have hloop := growLoop_succ hone (by omega) fuel
    obtain ⟨v₁, r, hrealloc, hres⟩ :=
      reallocBuffer_spec h (by omega : l.length ≤ growthFactor v.capacity) hwrap ok
    have hgrow : grow (fuel + 2) ok v (wrap (v.capacity + 1)) = .ok (v₁, r) := by
      rw [wrap_of_lt (by omega), grow, hloop]
      exact congrArg Except.ok hrealloc
    unfold zenitVectorPush withRoom
    rw [if_pos hfull, hgrow]
    obtain ⟨rfl, hok, rfl⟩ | ⟨rfl, h₁, hcap₁, -⟩ := hres
    · exact Or.inl ⟨rfl, hok⟩
    · obtain ⟨v₂, hput, h₂⟩ := putLast_spec h₁ (by omega) x
      have hcap₂ := (putLast_frame hput).1
      exact Or.inr ⟨v₂, hput, h₂, by omega⟩
  · obtain ⟨v₂, hput, h₂⟩ := putLast_spec h (by omega) x
    have hcap₂ := (putLast_frame hput).1
    exact Or.inr ⟨v₂, (if_neg hfull).trans hput, h₂, by omega⟩

/-! ## The calls -/

/-- No requested byte size wraps. -/
def Admissible (stack : Stack α) : Call α → Prop
  | .push _ (some _) => stack.vector.count = stack.vector.capacity →
      growthFactor stack.vector.capacity * stack.vector.elemSize < 2 ^ 64
  | _ => True

/-- One call keeps the representation and answers as the contents do. -/
theorem step_steps (h : Represents stack s) {call : Call α} (hadm : Admissible stack call)
    (fuel : ℕ) : ∃ stack' reply s', step (fuel + 2) stack call = .ok (stack', reply) ∧
      Conforms s call reply s' ∧ Represents stack' s' := by
  cases call with
  | push ok elem =>
    cases elem with
    | none => exact ⟨stack, _, s, rfl, Or.inl rfl, h⟩
    | some x =>
      obtain ⟨heq, rfl⟩ | ⟨v', heq, h', height⟩ := push_cases h.vector h.slots hadm fuel ok x
      · exact ⟨stack, _, s, congrArg (Except.map _) heq, Or.inr ⟨⟨x, rfl⟩, rfl, rfl⟩, h⟩
      · rw [← List.reverse_cons] at h'
        exact ⟨⟨v', stack.elemSize⟩, _, x :: s, congrArg (Except.map _) heq, Or.inl rfl, h',
          Or.inr height⟩
  | pop out =>
    cases out with
    | false => exact ⟨stack, _, s, rfl, Or.inl rfl, h⟩
    | true => exact h.pop (fuel + 2)
  | peek => exact ⟨stack, _, s, congrArg (Except.map _) h.peek, Or.inl rfl, h⟩
  | clear =>
    exact ⟨zenitStackClear stack, _, [], rfl, Or.inl rfl, clear_represents h.vector, h.slots⟩

/-! ## Runs -/

/-- If byte sizes do not wrap, a stack hands the elements out in the reverse of the order in which
it has accepted them, whatever the allocator does. A part of a run that takes no more than it has
pushed leaves everything below as it was, and what it has left lies on top. -/
theorem stack_refines_lifo {handle vectorHandle : Bool} {elemSize : ℕ} (fuel : ℕ)
    (hcreate : zenitStackCreateWithAllocator handle vectorHandle elemSize = some stack)
    {before during : List (Call α)}
    (hadm : Refinement.Along (step (fuel + 2)) Admissible stack (before ++ during)) :
    ∃ stack₁ replies₁ s₁ stack₂ replies₂ s₂,
      Refinement.run (step (fuel + 2)) stack before = .ok (stack₁, replies₁) ∧
      Refinement.Conforming Conforms [] before replies₁ s₁ ∧
      Refinement.run (step (fuel + 2)) stack₁ during = .ok (stack₂, replies₂) ∧
      Refinement.Conforming Conforms s₁ during replies₂ s₂ ∧
      (∀ n, surplus during replies₂ = some n → ∃ mine, mine.length = n ∧ s₂ = mine ++ s₁) ∧
      zenitStackCount stack₂ = s₂.length ∧ (zenitStackEmpty stack₂ = true ↔ s₂ = []) ∧
      zenitStackPeek stack₂ = .ok s₂.head? ∧
      stack₂.vector.count ≤ stack₂.vector.capacity ∧
      stack₂.vector.buffer.length = stack₂.vector.capacity := by
  have hstep : ∀ (stack : Stack α) s call, Represents stack s → Admissible stack call →
      ∃ stack' reply s', step (fuel + 2) stack call = .ok (stack', reply) ∧
        Conforms s call reply s' ∧ Represents stack' s' :=
    fun stack s call hrep hcall => step_steps hrep hcall fuel
  obtain ⟨hbefore, hduring⟩ := hadm.parts
  obtain ⟨stack₁, replies₁, s₁, hrun₁, hconf₁, h₁⟩ :=
    Refinement.run_refines hstep (create_represents hcreate) hbefore
  obtain ⟨stack₂, replies₂, s₂, hrun₂, hconf₂, h₂⟩ :=
    Refinement.run_refines hstep h₁ (hduring stack₁ replies₁ hrun₁)
  have htop : OnTopOf s₁ (some 0) s₁ := by
    intro k hk
    cases hk
    exact ⟨[], rfl, rfl⟩
  have hmine : OnTopOf s₁ (surplus during replies₂) s₂ :=
    hconf₂.history (fun _ _ _ _ _ hright hcall => hright.call hcall) htop
  have hfits : stack₂.vector.count ≤ stack₂.vector.capacity := by
    rw [h₂.vector.count]
    exact h₂.vector.fits
  refine ⟨stack₁, replies₁, s₁, stack₂, replies₂, s₂, hrun₁, hconf₁, hrun₂, hconf₂, hmine,
    h₂.count, ?_, h₂.peek, hfits, h₂.vector.slots⟩
  rw [zenitStackEmpty, h₂.count, decide_eq_true_eq, List.length_eq_zero_iff]

/-- A part that pushes an element and NULL, and pops once, above an element it does not touch. -/
theorem nested_calls_restore : ∃ stack stack₁ stack₂ : Stack ℕ, ∃ replies₁ replies₂,
    ∃ s₁ s₂ : List ℕ,
    zenitStackCreateWithAllocator true true 4 = some stack ∧
    Refinement.run (step 2) stack [.push true (some 7)] = .ok (stack₁, replies₁) ∧
    Refinement.run (step 2) stack₁ [.push true (some 8), .push true none, .pop true] =
      .ok (stack₂, replies₂) ∧
    surplus [.push true (some 8), .push true none, .pop true] replies₂ = some 0 ∧
    zenitStackPeek stack₂ = .ok s₂.head? ∧ s₂ = s₁ := by
  have hcreate : zenitStackCreateWithAllocator true true 4 = some (⟨⟨[], 4, 0, 0⟩, 4⟩ : Stack ℕ) :=
    rfl
  have hadm : Refinement.Along (step (0 + 2)) Admissible (⟨⟨[], 4, 0, 0⟩, 4⟩ : Stack ℕ)
      ([.push true (some 7)] ++ [.push true (some 8), .push true none, .pop true]) := by
    refine ⟨fun _ => by decide, fun stack₁ _ h₁ => ?_⟩
    cases h₁
    exact ⟨fun hfull => absurd hfull (by decide), fun _ _ _ =>
      ⟨trivial, fun _ _ _ => ⟨trivial, fun _ _ _ => trivial⟩⟩⟩
  obtain ⟨stack₁, replies₁, s₁, stack₂, replies₂, s₂, hrun₁, -, hrun₂, -, hmine, -, -, hpeek, -⟩ :=
    stack_refines_lifo 0 hcreate hadm
  have hsurplus : surplus [.push true (some 8), .push true none, .pop true] replies₂ = some 0 := by
    cases hrun₁
    cases hrun₂
    rfl
  obtain ⟨mine, hlen, hs₂⟩ := hmine 0 hsurplus
  obtain rfl : mine = [] := List.length_eq_zero_iff.mp hlen
  exact ⟨_, stack₁, stack₂, replies₁, replies₂, s₁, s₂, hcreate, hrun₁, hrun₂, hsurplus, hpeek, hs₂⟩

end LibZenit.Stacks
