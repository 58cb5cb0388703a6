import LibZenit.CallHistories
import LibZenit.SpscSafety

/-!
# The queue between two threads as a bounded queue

A push takes effect when it publishes the new head, or when it loads the tail and finds the queue
full. A pop takes effect when it publishes the new tail, or when it loads the head and finds the
queue empty. With these moments every interleaving is explained by a queue with a bound.
-/
namespace LibZenit.Spsc
open FreeRunning CallHistories

variable {size capacity : ℕ}

inductive Op (size : ℕ) where
  | push (elem : Elem size)
  | pop

/-- The result codes, and the element that a pop hands out. -/
inductive Answer (size : ℕ) where
  | ok
  | full
  | popped (elem : Elem size)
  | empty

/-- A queue of at most `capacity` elements. -/
def queueAct (capacity : ℕ) (q : List (Elem size)) : Op size → List (Elem size) × Answer size
  | .push elem => if q.length < capacity then (q ++ [elem], .ok) else (q, .full)
  | .pop =>
    match q with
    | [] => ([], .empty)
    | x :: q => (q, .popped x)

inductive Side where
  | producer
  | consumer
  deriving DecidableEq

def Act.side : Act size → Side
  | .produce _ => .producer
  | .consume _ => .consumer

/-- The elements in the queue. -/
def State.queued (s : State size) : List (Elem size) := s.pushed.drop s.popped.length

/-- The test of `zenit_spsc_push`. -/
def seemsFull (capacity : ℕ) (head tail : BitVec 32) : Prop :=
  (head - tail).toNat ≥ (BitVec.ofNat 32 capacity).toNat

instance (capacity : ℕ) (head tail : BitVec 32) : Decidable (seemsFull capacity head tail) :=
  inferInstanceAs (Decidable (_ ≥ _))

def State.status (capacity : ℕ) (s : State size) : Side → Status (Op size) (Answer size)
  | .producer =>
    match s.producer with
    | .idle => .idle
    | .loadedHead elem _ => .called (.push elem)
    | .loadedTail elem head tail =>
      if seemsFull capacity head tail then .done (.push elem) .full else .called (.push elem)
    | .copying elem _ _ => .called (.push elem)
  | .consumer =>
    match s.consumer with
    | .idle => .idle
    | .loadedHead head => if head = s.tail then .done .pop .empty else .called .pop
    | .loadedTail head tail => if head = tail then .done .pop .empty else .called .pop
    | .copying _ _ _ => .called .pop

/-- What happens in a step, besides the accesses to the queue. -/
def events (capacity : ℕ) (s : State size) :
    Act size → List (Side × Event (Op size) (Answer size))
  | .produce elem =>
    match s.producer with
    | .idle => [(.producer, .call (.push elem))]
    | .loadedHead elem head =>
      if seemsFull capacity head s.tail then [(.producer, .effect (.push elem) .full)] else []
    | .loadedTail elem head tail =>
      if seemsFull capacity head tail then [(.producer, .ret (.push elem) .full)] else []
    | .copying elem _ done =>
      if done < size then []
      else [(.producer, .effect (.push elem) .ok), (.producer, .ret (.push elem) .ok)]
  | .consume _ =>
    match s.consumer with
    | .idle =>
      if s.head = s.tail then [(.consumer, .call .pop), (.consumer, .effect .pop .empty)]
      else [(.consumer, .call .pop)]
    | .loadedHead _ => []
    | .loadedTail head tail => if head = tail then [(.consumer, .ret .pop .empty)] else []
    | .copying _ out done =>
      if done < size then []
      else [(.consumer, .effect .pop (.popped out)), (.consumer, .ret .pop (.popped out))]

def history (capacity : ℕ) : State size → List (Act size) →
    List (Side × Event (Op size) (Answer size))
  | _, [] => []
  | s, a :: acts => events capacity s a ++ history capacity (step capacity s a) acts

variable {s : State size} {h : List (Side × Event (Op size) (Answer size))}

/-- What the two threads and the queue have to do with a history. -/
abbrev Explained (capacity : ℕ) (h : List (Side × Event (Op size) (Answer size)))
    (s : State size) : Prop :=
  Linearised (queueAct capacity) [] h (s.status capacity) s.queued

theorem create_explained (capacity : ℕ) (slots : ℕ → Elem size) :
    Explained capacity [] (create slots) := by
  have hstatus : (create slots).status capacity = fun _ => .idle := by
    funext t
    cases t <;> rfl
  rw [Explained, hstatus]
  exact Linearised.nil _ _

theorem length_queued (s : State size) : s.queued.length = s.pushed.length - s.popped.length :=
  List.length_drop

theorem Inv.seemsFull_iff (hinv : Inv capacity s) (hcap : PowerOfTwo capacity) :
    seemsFull capacity (BitVec.ofNat 32 s.pushed.length) s.tail ↔ s.queued.length = capacity := by
  have htaken := hinv.window.taken
  rw [seemsFull, hinv.tail, test_room hcap htaken hinv.window.room, length_queued]
  omega

theorem Inv.head_eq_tail_iff (hinv : Inv capacity s) (hcap : PowerOfTwo capacity) :
    s.head = s.tail ↔ s.queued = [] := by
  have hroom := hinv.window.room
  have hlt := hcap.lt
  rw [hinv.head, hinv.tail, ofNat_eq_iff hinv.window.taken (by omega), ← List.length_eq_zero_iff,
    length_queued]
  have htaken := hinv.window.taken
  omega

/-! ## One step -/

theorem Explained.of {h' : List (Side × Event (Op size) (Answer size))} {s' : State size}
    {status : Side → Status (Op size) (Answer size)} {q : List (Elem size)}
    (he : Linearised (queueAct capacity) [] h' status q)
    (hproducer : s'.status capacity .producer = status .producer)
    (hconsumer : s'.status capacity .consumer = status .consumer) (hqueued : s'.queued = q) :
    Explained capacity h' s' := by
  have hstatus : s'.status capacity = status := by
    funext t
    cases t with
    | producer => exact hproducer
    | consumer => exact hconsumer
  rw [Explained, hstatus, hqueued]
  exact he

/-- A step that is no event of a call. -/
theorem Explained.silent {s' : State size} (he : Explained capacity h s)
    (hproducer : s'.status capacity .producer = s.status capacity .producer)
    (hconsumer : s'.status capacity .consumer = s.status capacity .consumer)
    (hqueued : s'.queued = s.queued) : Explained capacity (h ++ []) s' := by
  rw [List.append_nil]
  exact .of he hproducer hconsumer hqueued

theorem explained_produce (hcap : PowerOfTwo capacity) (hinv : Inv capacity s)
    (he : Explained capacity h s) (elem : Elem size) :
    Explained capacity (h ++ events capacity s (.produce elem)) (produce capacity s elem) := by
  have hknows := hinv.producer
  cases hp : s.producer with
  | idle =>
    have hcall := he.call (t := .producer) (by simp [State.status, hp]) (.push elem)
    simp only [events, hp, produce]
    exact .of hcall (by simp [State.status]) rfl rfl
  | loadedHead elem head =>
    rw [hp] at hknows
    obtain rfl : head = BitVec.ofNat 32 s.pushed.length := hknows
    simp only [events, hp, produce]
    split_ifs with hfull
    · have hlen := (hinv.seemsFull_iff hcap).mp hfull
      have hcalled : s.status capacity .producer = .called (.push elem) := by
        simp [State.status, hp]
      have heffect := he.effect hcalled
      simp only [queueAct, hlen, lt_irrefl, if_false] at heffect
      exact .of heffect (by simp [State.status, hfull]) rfl rfl
    · exact he.silent (by simp [State.status, hfull, hp]) rfl rfl
  | loadedTail elem head tail =>
    simp only [events, hp, produce]
    change Explained capacity _ (if seemsFull capacity head tail then _ else _)
    split_ifs with hfull
    · have hdone : s.status capacity .producer = .done (.push elem) .full := by
        simp [State.status, hp, hfull]
      have hret := he.ret hdone
      exact .of hret (by simp [State.status]) rfl rfl
    · exact he.silent (by simp [State.status, hfull, hp]) rfl rfl
  | copying elem head done =>
    rw [hp] at hknows
    obtain ⟨-, hroom, -⟩ := hknows
    simp only [events, hp, produce]
    split_ifs with hdone
    · exact he.silent (by simp [State.status, hp]) rfl rfl
    · have htaken := hinv.window.taken
      have hlt : s.queued.length < capacity := by
        rw [length_queued]
        omega
      have hcalled : s.status capacity .producer = .called (.push elem) := by
        simp [State.status, hp]
      have heffect := he.effect hcalled
      simp only [queueAct, hlt, if_true] at heffect
      have hret := heffect.ret (t := .producer) (Function.update_self ..)
      rw [List.append_assoc] at hret
      refine .of hret (by simp [State.status]) rfl ?_
      simp [State.queued, List.drop_append_of_le_length htaken]

theorem explained_consume (hcap : PowerOfTwo capacity) (hinv : Inv capacity s)
    (he : Explained capacity h s) (out : Elem size) :
    Explained capacity (h ++ events capacity s (.consume out)) (consume capacity s out) := by
  have hknows := hinv.consumer
  cases hc : s.consumer with
  | idle =>
    have hcall := he.call (t := .consumer) (by simp [State.status, hc]) .pop
    simp only [events, hc, consume]
    split_ifs with hempty
    · have hnil := (hinv.head_eq_tail_iff hcap).mp hempty
      have heffect := hcall.effect (t := .consumer) (Function.update_self ..)
      rw [List.append_assoc] at heffect
      simp only [queueAct, hnil] at heffect
      exact .of heffect rfl (by simp [State.status, hempty]) hnil
    · exact .of hcall rfl (by simp [State.status, hempty]) rfl
  | loadedHead head =>
    simp only [events, hc, consume]
    exact he.silent rfl (by simp [State.status, hc]) rfl
  | loadedTail head tail =>
    simp only [events, hc, consume]
    split_ifs with hempty
    · have hdone : s.status capacity .consumer = .done .pop .empty := by
        simp [State.status, hc, hempty]
      have hret := he.ret hdone
      exact .of hret rfl (by simp [State.status]) rfl
    · exact he.silent rfl (by simp [State.status, hempty, hc]) rfl
  | copying tail out done =>
    rw [hc] at hknows
    obtain ⟨-, x, hx, hcopied⟩ := hknows
    simp only [events, hc, consume]
    split_ifs with hdone
    · exact he.silent rfl (by simp [State.status, hc]) rfl
    · obtain rfl : out = x := funext fun i => hcopied i (by have := i.isLt; omega)
      have hqueued : s.queued = out :: s.pushed.drop (s.popped.length + 1) := by
        obtain ⟨hlt, hget⟩ := List.getElem?_eq_some_iff.mp hx
        rw [State.queued, List.drop_eq_getElem_cons hlt, hget]
      have hcalled : s.status capacity .consumer = .called .pop := by simp [State.status, hc]
      have heffect := he.effect hcalled
      simp only [queueAct, hqueued] at heffect
      have hret := heffect.ret (t := .consumer) (Function.update_self ..)
      rw [List.append_assoc] at hret
      exact .of hret rfl (by simp [State.status]) (by simp [State.queued])

theorem explained_step (hcap : PowerOfTwo capacity) (hinv : Inv capacity s)
    (he : Explained capacity h s) (a : Act size) :
    Explained capacity (h ++ events capacity s a) (step capacity s a) := by
  cases a with
  | produce elem => exact explained_produce hcap hinv he elem
  | consume out => exact explained_consume hcap hinv he out

theorem explained_run (hcap : PowerOfTwo capacity) (hinv : Inv capacity s)
    (he : Explained capacity h s) (acts : List (Act size)) :
    Explained capacity (h ++ history capacity s acts) (run capacity s acts) := by
  induction acts generalizing s h with
  | nil => exact he.silent rfl rfl rfl
  | cons a acts ih =>
    rw [history, ← List.append_assoc]
    exact ih (step_inv hcap hinv a) (explained_step hcap hinv he a)

/-! ## Calls return -/

/-- The steps that a thread still takes in its call, or would take in a new one. -/
def State.left (s : State size) : Side → ℕ
  | .producer =>
    match s.producer with
    | .idle => size + 4
    | .loadedHead _ _ => size + 3
    | .loadedTail _ _ _ => size + 2
    | .copying _ _ done => size - done + 1
  | .consumer =>
    match s.consumer with
    | .idle => size + 4
    | .loadedHead _ => size + 3
    | .loadedTail _ _ => size + 2
    | .copying _ _ done => size - done + 1

theorem left_le (s : State size) (t : Side) : s.left t ≤ size + 4 := by
  cases t with
  | producer =>
    rw [State.left]
    cases s.producer <;> simp only <;> omega
  | consumer =>
    rw [State.left]
    cases s.consumer <;> simp only <;> omega

theorem left_pos (s : State size) (t : Side) : 0 < s.left t := by
  cases t with
  | producer =>
    rw [State.left]
    cases s.producer <;> simp only <;> omega
  | consumer =>
    rw [State.left]
    cases s.consumer <;> simp only <;> omega

/-- The other thread does not hold up a call. -/
theorem left_other (capacity : ℕ) (s : State size) (a : Act size) {t : Side} (ht : a.side ≠ t) :
    (step capacity s a).left t = s.left t := by
  cases a with
  | produce elem =>
    cases t with
    | producer => exact absurd rfl ht
    | consumer =>
      simp only [step, produce, State.left]
      cases s.producer <;> simp only <;> split_ifs <;> rfl
  | consume out =>
    cases t with
    | consumer => exact absurd rfl ht
    | producer =>
      simp only [step, consume, State.left]
      cases s.consumer <;> simp only <;> split_ifs <;> rfl

/-- The call comes nearer to its end, or ends. -/
theorem left_own (capacity : ℕ) (s : State size) (a : Act size) :
    (step capacity s a).left a.side < s.left a.side ∨
      ∃ op answer, (a.side, Event.ret op answer) ∈ events capacity s a := by
  cases a with
  | produce elem =>
    simp only [step, produce, State.left, events, Act.side]
    cases s.producer with
    | idle => exact Or.inl (by simp)
    | loadedHead elem head => exact Or.inl (by simp)
    | loadedTail elem head tail =>
      change State.left (if seemsFull capacity head tail then _ else _) .producer < _ ∨ _
      by_cases hfull : seemsFull capacity head tail
      · exact Or.inr ⟨.push elem, .full, by simp [hfull]⟩
      · exact Or.inl (by simp [hfull, State.left])
    | copying elem head done =>
      by_cases hdone : done < size
      · exact Or.inl (by simp [hdone]; omega)
      · exact Or.inr ⟨.push elem, .ok, by simp [hdone]⟩
  | consume out =>
    simp only [step, consume, State.left, events, Act.side]
    cases s.consumer with
    | idle => exact Or.inl (by simp)
    | loadedHead head => exact Or.inl (by simp)
    | loadedTail head tail =>
      by_cases hempty : head = tail
      · exact Or.inr ⟨.pop, .empty, by simp [hempty]⟩
      · exact Or.inl (by simp [hempty])
    | copying tail out done =>
      by_cases hdone : done < size
      · exact Or.inl (by simp [hdone]; omega)
      · exact Or.inr ⟨.pop, .popped out, by simp [hdone]⟩

theorem returns (capacity : ℕ) (s : State size) (t : Side) (acts : List (Act size))
    (hsteps : s.left t ≤ acts.countP fun a => a.side = t) :
    ∃ op answer, (t, Event.ret op answer) ∈ history capacity s acts := by
  induction acts generalizing s with
  | nil => exact absurd hsteps (by have := left_pos s t; simp only [List.countP_nil]; omega)
  | cons a acts ih =>
    have hrest : (step capacity s a).left t ≤ acts.countP (fun a => a.side = t) →
        ∃ op answer, (t, Event.ret op answer) ∈ history capacity s (a :: acts) := fun hle => by
      obtain ⟨op, answer, hmem⟩ := ih _ hle
      exact ⟨op, answer, List.mem_append_right _ hmem⟩
    by_cases ht : a.side = t
    · subst ht
      rw [List.countP_cons_of_pos (by simp)] at hsteps
      rcases left_own capacity s a with hless | ⟨op, answer, hret⟩
      · exact hrest (by omega)
      · exact ⟨op, answer, List.mem_append_left _ hret⟩
    · rw [List.countP_cons_of_neg (by simpa using ht)] at hsteps
      exact hrest (by rw [left_other capacity s a ht]; exact hsteps)

/-- Under every interleaving, pushes and pops are calls of a queue with a bound: each takes effect
once, between its beginning and its end, and the answers are those of the bounded queue in the order
of the effects. A call returns after `size + 4` steps of its thread, whatever the other one does. -/
theorem spsc_linearises (hcap : PowerOfTwo capacity) (slots : ℕ → Elem size)
    (acts : List (Act size)) :
    Linearised (queueAct capacity) [] (history capacity (create slots) acts)
      ((run capacity (create slots) acts).status capacity)
      (run capacity (create slots) acts).queued ∧
    ∀ t more, size + 4 ≤ more.countP (fun a => a.side = t) →
      ∃ op answer, (t, Event.ret op answer) ∈
        history capacity (run capacity (create slots) acts) more := by
  refine ⟨explained_run hcap (create_inv capacity slots) (create_explained capacity slots) acts,
    fun t more hmore => ?_⟩
  exact returns capacity _ t more ((left_le _ t).trans hmore)

/-- A push into a queue of one slot meets the pop of the element before it: it has loaded the tail
before the pop publishes the new one, so it finds the queue full. -/
theorem late_pop_linearises : ∃ acts : List (Act 1),
    (effects (history 1 (create fun _ _ => 0) acts)).length = 3 ∧
    (effects (history 1 (create fun _ _ => 0) acts))[1]? = some (.push fun _ => 8, .full) ∧
    Serves (queueAct 1) [] (effects (history 1 (create fun _ _ => 0) acts)) [] := by
  let acts : List (Act 1) := List.replicate 5 (Act.produce fun _ => 7) ++
    List.replicate 4 (Act.consume fun _ => 0) ++ List.replicate 2 (Act.produce fun _ => 8) ++
    [Act.consume fun _ => 0, Act.produce fun _ => 0]
  have hlin := (spsc_linearises ⟨0, by norm_num, rfl⟩ (fun _ _ => 0) acts).1
  exact ⟨acts, rfl, rfl, hlin.effects⟩

end LibZenit.Spsc
