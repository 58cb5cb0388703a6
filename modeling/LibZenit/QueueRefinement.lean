import LibZenit.DequeRefinement
import LibZenit.QueueModel

/-!
# The queue is first in, first out

The deque of a queue is never shrunk, so it keeps at least its first eight slots and a tail inside
the block: neither the growth loop nor a push can go wrong.
-/
namespace LibZenit.Queues
open Deques Growth

variable {α : Type} {queue queue' : Queue α} {l l' : List α} {fuel : ℕ}

/-! ## First in, first out -/

/-- What a call does to the sequence when no allocation fails. -/
def fifoStep : Call α → List α → Reply α × List α
  | .enqueue _ none, l => (⟨.null, none⟩, l)
  | .enqueue _ (some x), l => (⟨.ok, none⟩, l ++ [x])
  | .dequeue false, l => (⟨.null, none⟩, l)
  | .dequeue true, [] => (⟨.empty, none⟩, [])
  | .dequeue true, x :: l => (⟨.ok, some x⟩, l)
  | .peek, l => (⟨.ok, l.head?⟩, l)
  | .clear, _ => (⟨.ok, none⟩, [])

/-- The call would store an element and is denied the memory it may ask for. -/
def Denied (call : Call α) : Prop := ∃ x, call = .enqueue false (some x)

/-- A call that fails for lack of memory leaves the sequence as it is. -/
def Conforms (l : List α) (call : Call α) (reply : Reply α) (l' : List α) : Prop :=
  (reply, l') = fifoStep call l ∨ Denied call ∧ reply = ⟨.alloc, none⟩ ∧ l' = l

/-- The elements accepted and the elements handed out since the last clear. -/
structure Ledger (α : Type) where
  accepted : List α
  delivered : List α

def Ledger.record (ledger : Ledger α) : Call α → Reply α → Ledger α
  | .enqueue _ (some x), ⟨.ok, _⟩ => { ledger with accepted := ledger.accepted ++ [x] }
  | .dequeue _, ⟨.ok, some x⟩ => { ledger with delivered := ledger.delivered ++ [x] }
  | .clear, _ => ⟨[], []⟩
  | _, _ => ledger

def Ledger.after (ledger : Ledger α) (calls : List (Call α)) (replies : List (Reply α)) :
    Ledger α :=
  Refinement.history Ledger.record ledger calls replies

/-- What has been accepted is what has been handed out, and behind it what is still there. -/
def Ledger.Balanced (ledger : Ledger α) (l : List α) : Prop :=
  ledger.accepted = ledger.delivered ++ l

theorem Ledger.Balanced.record {ledger : Ledger α} (h : ledger.Balanced l) {call : Call α}
    {reply : Reply α} (hconf : Conforms l call reply l') :
    (ledger.record call reply).Balanced l' := by
  obtain hstep | ⟨⟨x, rfl⟩, rfl, rfl⟩ := hconf
  · unfold fifoStep at hstep
    split at hstep <;> cases hstep
    case h_2 x _ =>
      rw [Balanced, Ledger.record, h, List.append_assoc]
    case h_5 x l =>
      rw [Balanced, Ledger.record, List.append_assoc, List.singleton_append]
      exact h
    case h_7 => rfl
    all_goals exact h
  · exact h

theorem Ledger.Balanced.after {ledger : Ledger α} (h : ledger.Balanced l) {calls : List (Call α)}
    {replies : List (Reply α)} (hconf : Refinement.Conforming Conforms l calls replies l') :
    (ledger.after calls replies).Balanced l' :=
  hconf.history (fun _ _ _ _ _ hbalanced hcall => hbalanced.record hcall) h

/-! ## The representation -/

structure Represents (queue : Queue α) (l : List α) : Prop where
  deque : Deques.Represents queue.deque l
  eight : 8 ≤ queue.deque.capacity
  tail : queue.deque.tail < queue.deque.capacity

theorem putBack_frame {d d' : Deque α} {x : α} {reply : Reply α}
    (h : putBack d x = .ok (d', reply)) :
    reply.code = .ok ∧ d'.capacity = d.capacity ∧ d'.tail = (d.tail + 1) % d.capacity := by
  obtain ⟨buffer, -, heq⟩ := map_eq_ok h
  cases heq
  exact ⟨rfl, rfl, rfl⟩

theorem popFront_frame {d d' : Deque α} {reply : Reply α}
    (h : zenitDequePopFront d = .ok (d', reply)) : d'.capacity = d.capacity ∧ d'.tail = d.tail := by
  unfold zenitDequePopFront at h
  split_ifs at h
  · cases h
    exact ⟨rfl, rfl⟩
  · obtain ⟨elem, -, heq⟩ := map_eq_ok h
    cases heq
    exact ⟨rfl, rfl⟩

variable [Inhabited α]

theorem create_frame {handle block : Bool} {elemSize capacity : ℕ} {d : Deque α}
    (h : zenitDequeCreateWithCapacity handle block elemSize capacity = some d) :
    d.capacity = capacity ∧ d.tail = 0 := by
  unfold zenitDequeCreateWithCapacity at h
  split_ifs at h
  cases h
  exact ⟨rfl, rfl⟩

theorem reallocBuffer_error {d d' : Deque α} {ok : Bool} {newCap : ℕ} {r : ZenitError}
    (h : reallocBuffer ok d newCap = .ok (d', r)) (hr : r ≠ .ok) : d' = d := by
  unfold reallocBuffer at h
  split_ifs at h
  · cases h
    exact absurd rfl hr
  · cases h
    rfl
  · obtain ⟨newBuf, -, heq⟩ := map_eq_ok h
    cases heq
    exact absurd rfl hr

theorem pushBack_error {d d' : Deque α} {ok : Bool} {x : α} {reply : Reply α}
    (h : zenitDequePushBack fuel ok d x = .ok (d', reply)) (hcode : reply.code ≠ .ok) : d' = d := by
  unfold zenitDequePushBack withRoom at h
  split_ifs at h
  · obtain ⟨⟨d₁, r⟩, hgrow, h⟩ := bind_eq_ok h
    obtain ⟨newCap, -, hrealloc⟩ := bind_eq_ok hgrow
    simp only at h
    split_ifs at h with hr
    · cases h
      exact reallocBuffer_error hrealloc hr
    · exact absurd (putBack_frame h).1 hcode
  · exact absurd (putBack_frame h).1 hcode

theorem create_represents {handle dequeHandle block : Bool} {elemSize : ℕ}
    (hbytes : 8 * elemSize < 2 ^ 64)
    (h : zenitQueueCreateWithAllocator handle dequeHandle block elemSize = some queue) :
    Represents queue [] := by
  unfold zenitQueueCreateWithAllocator at h
  split_ifs at h
  obtain ⟨d, hd, rfl⟩ := Option.map_eq_some_iff.mp h
  obtain ⟨hcap, htail⟩ := create_frame hd
  exact ⟨Deques.create_represents hbytes hd, hcap.ge, by simp only [hcap, htail]; omega⟩

/-! ## The calls -/

/-- No requested byte size wraps. -/
def Admissible (queue : Queue α) : Call α → Prop
  | .enqueue _ (some _) => queue.deque.count = queue.deque.capacity →
      growthFactor queue.deque.capacity * queue.deque.elemSize < 2 ^ 64
  | _ => True

/-- One call keeps the representation and answers as the sequence does. -/
def StepsTo (fuel : ℕ) (queue : Queue α) (call : Call α) (l : List α) : Prop :=
  ∃ queue' reply l', step fuel queue call = .ok (queue', reply) ∧ Conforms l call reply l' ∧
    Represents queue' l'

theorem enqueue_steps (h : Represents queue l) {ok : Bool} {x : α}
    (hadm : Admissible queue (.enqueue ok (some x))) (fuel : ℕ) :
    StepsTo (fuel + 2) queue (.enqueue ok (some x)) l := by
  have height := h.eight
  have hgrow : queue.deque.count = queue.deque.capacity → queue.deque.capacity ≠ 1 ∧
      growthFactor queue.deque.capacity * queue.deque.elemSize < 2 ^ 64 :=
    fun hfull => ⟨by omega, hadm hfull⟩
  obtain ⟨heq, hok⟩ | ⟨d₁, heq, h₁, hroom, hcap, htail⟩ :=
    withRoom_spec h.deque hgrow fuel ok (putBack · x)
  · subst hok
    exact ⟨queue, _, l, congrArg (Except.map _) heq, Or.inr ⟨⟨x, rfl⟩, rfl, rfl⟩, h⟩
  · have hlt : d₁.tail < d₁.capacity := by
      obtain hlt | ⟨rfl, -⟩ := htail
      · exact hlt
      · exact h.tail
    obtain ⟨d₂, hput, h₂⟩ := putBack_spec h₁ hroom hlt x
    obtain ⟨-, hcap₂, htail₂⟩ := putBack_frame hput
    refine ⟨⟨d₂, queue.elemSize⟩, _, l ++ [x], congrArg (Except.map _) (heq.trans hput), Or.inl rfl,
      h₂, by simp only; omega, ?_⟩
    simp only [hcap₂, htail₂]
    exact Nat.mod_lt _ (by omega)

theorem dequeue_steps (h : Represents queue l) (fuel : ℕ) :
    StepsTo fuel queue (.dequeue true) l := by
  have hsteps : Deques.StepsTo fuel queue.deque .popFront l := popFront_steps h.deque
  obtain ⟨d', reply, l', hpop, hconf, h'⟩ := hsteps
  obtain ⟨hcap, htail⟩ := popFront_frame hpop
  refine ⟨⟨d', queue.elemSize⟩, reply, l', congrArg (Except.map _) hpop, Or.inl ?_, h',
    hcap ▸ h.eight, by simpa only [hcap, htail] using h.tail⟩
  obtain hconf | ⟨hdenied, -⟩ := hconf
  · cases l <;> exact hconf
  · exact hdenied.elim

theorem step_steps (h : Represents queue l) {call : Call α} (hadm : Admissible queue call)
    (fuel : ℕ) : StepsTo (fuel + 2) queue call l := by
  have height := h.eight
  cases call with
  | enqueue ok elem =>
    cases elem with
    | none => exact ⟨queue, _, l, rfl, Or.inl rfl, h⟩
    | some x => exact enqueue_steps h hadm fuel
  | dequeue out =>
    cases out with
    | false => exact ⟨queue, _, l, rfl, Or.inl rfl, h⟩
    | true => exact dequeue_steps h (fuel + 2)
  | peek => exact ⟨queue, _, l, congrArg (Except.map _) (front_spec h.deque), Or.inl rfl, h⟩
  | clear =>
    exact ⟨zenitQueueClear queue, _, [], rfl, Or.inl rfl, clear_represents h.deque, height,
      (by omega : 0 < queue.deque.capacity)⟩

/-- An enqueue that fails hands back the queue it was given. -/
theorem enqueue_error {ok : Bool} {elem : Option α} {reply : Reply α}
    (h : zenitQueueEnqueue fuel ok queue elem = .ok (queue', reply)) (hcode : reply.code ≠ .ok) :
    queue' = queue := by
  cases elem with
  | none =>
    cases h
    rfl
  | some x =>
    obtain ⟨p, hpush, heq⟩ := map_eq_ok h
    cases heq
    rw [pushBack_error hpush hcode]

/-! ## Runs -/

/-- If byte sizes do not wrap, a queue hands the elements out in the order in which it has accepted
them, whatever the allocator does, and every index it uses is inside its block. -/
theorem queue_refines_fifo {handle dequeHandle block : Bool} {elemSize : ℕ} (fuel : ℕ)
    (hbytes : 8 * elemSize < 2 ^ 64)
    (hcreate : zenitQueueCreateWithAllocator handle dequeHandle block elemSize = some queue)
    {calls : List (Call α)}
    (hadm : Refinement.Along (step (fuel + 2)) Admissible queue calls) :
    ∃ queue' replies l', Refinement.run (step (fuel + 2)) queue calls = .ok (queue', replies) ∧
      Refinement.Conforming Conforms [] calls replies l' ∧
      (Ledger.after ⟨[], []⟩ calls replies).Balanced l' ∧ zenitQueueCount queue' = l'.length ∧
      (zenitQueueEmpty queue' = true ↔ l' = []) ∧
      (∀ ok elem after reply, zenitQueueEnqueue (fuel + 2) ok queue' elem = .ok (after, reply) →
        reply.code ≠ .ok → after = queue') ∧
      queue'.deque.head < queue'.deque.capacity ∧ queue'.deque.tail < queue'.deque.capacity ∧
      queue'.deque.buffer.length = queue'.deque.capacity := by
  have h := create_represents hbytes hcreate
  have hstep : ∀ (queue : Queue α) l call, Represents queue l → Admissible queue call →
      StepsTo (fuel + 2) queue call l := fun queue l call hrep hcall => step_steps hrep hcall fuel
  obtain ⟨queue', replies, l', hrun, hconf, h'⟩ := Refinement.run_refines hstep h hadm
  have height := h'.eight
  have hempty : Ledger.Balanced (⟨[], []⟩ : Ledger α) [] := rfl
  refine ⟨queue', replies, l', hrun, hconf, hempty.after hconf, h'.deque.count, ?_,
    fun ok elem after reply => enqueue_error, ?_, h'.tail, h'.deque.slots⟩
  · rw [zenitQueueEmpty, zenitDequeEmpty, h'.deque.count, decide_eq_true_eq,
      List.length_eq_zero_iff]
  · exact h'.deque.head.resolve_right (by omega)

/-- Two elements, of which the first is taken out again. -/
theorem short_queue_refines_fifo : ∃ queue : Queue ℕ, ∃ queue' replies l',
    zenitQueueCreateWithAllocator true true true 4 = some queue ∧
    Refinement.run (step 2) queue
      [.enqueue true (some 7), .enqueue false (some 8), .dequeue true] = .ok (queue', replies) ∧
    (Ledger.after ⟨[], []⟩ [.enqueue true (some 7), .enqueue false (some 8), .dequeue true]
      replies).Balanced l' ∧
    zenitQueueCount queue' = l'.length := by
  have hcreate : zenitQueueCreateWithAllocator true true true 4 =
      some (⟨⟨List.replicate 8 0, 4, 0, 8, 0, 0⟩, 4⟩ : Queue ℕ) := rfl
  have hadm : Refinement.Along (step (0 + 2)) Admissible
      (⟨⟨List.replicate 8 0, 4, 0, 8, 0, 0⟩, 4⟩ : Queue ℕ)
      [.enqueue true (some 7), .enqueue false (some 8), .dequeue true] := by
    refine ⟨fun hfull => absurd hfull (by decide), fun queue₁ _ h₁ => ?_⟩
    cases h₁
    exact ⟨fun hfull => absurd hfull (by decide), fun _ _ _ => ⟨trivial, fun _ _ _ => trivial⟩⟩
  obtain ⟨queue', replies, l', hrun, -, hledger, hcount, -⟩ :=
    queue_refines_fifo 0 (by norm_num) hcreate hadm
  exact ⟨_, queue', replies, l', hcreate, hrun, hledger, hcount⟩

end LibZenit.Queues
