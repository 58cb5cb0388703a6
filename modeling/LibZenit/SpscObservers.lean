import LibZenit.SpscHistory

/-!
# What a thread learns from the observers of `spsc.c`

Each observer loads the two indices. A thread alone moves its own index, so what it gets is the
state at the load of the other one. The other thread may go on at once; the answer stays good in one
direction, until the next call of the thread itself.
-/
namespace LibZenit.Spsc
open FreeRunning CallHistories

variable {size capacity : ℕ} {s : State size} {a : Act size}

def zenitSpscCount (s : State size) : ℕ := (s.head - s.tail).toNat

def zenitSpscFull (capacity : ℕ) (s : State size) : ℕ :=
  if seemsFull capacity s.head s.tail then 1 else 0

def zenitSpscEmpty (s : State size) : ℕ := if s.head = s.tail then 1 else 0

theorem Inv.count_eq (hinv : Inv capacity s) (hcap : PowerOfTwo capacity) :
    zenitSpscCount s = s.queued.length := by
  have hroom := hinv.window.room
  have hlt := hcap.lt
  rw [zenitSpscCount, hinv.head, hinv.tail, toNat_sub_ofNat hinv.window.taken (by omega),
    length_queued]

theorem Inv.full_iff (hinv : Inv capacity s) (hcap : PowerOfTwo capacity) :
    zenitSpscFull capacity s = 1 ↔ s.queued.length = capacity := by
  rw [← hinv.seemsFull_iff hcap, ← hinv.head, zenitSpscFull]
  simp

theorem Inv.empty_iff (hinv : Inv capacity s) (hcap : PowerOfTwo capacity) :
    zenitSpscEmpty s = 1 ↔ s.queued = [] := by
  rw [← hinv.head_eq_tail_iff hcap, zenitSpscEmpty]
  simp

/-! ## Between two pushes -/

/-- The thread has pushed nothing. -/
def NoPush (h : List (Side × Event (Op size) (Answer size))) : Prop :=
  ∀ elem, (Side.producer, Event.ret (Op.push elem) Answer.ok) ∉ h

/-- The thread has popped nothing. -/
def NoPop (h : List (Side × Event (Op size) (Answer size))) : Prop :=
  ∀ elem, (Side.consumer, Event.ret Op.pop (Answer.popped elem)) ∉ h

/-- What a producer step leaves to the consumer. -/
theorem produce_frame (capacity : ℕ) (s : State size) (elem : Elem size) :
    (produce capacity s elem).consumer = s.consumer ∧ (produce capacity s elem).tail = s.tail ∧
      (produce capacity s elem).popped = s.popped := by
  unfold produce
  cases s.producer with
  | idle => exact ⟨rfl, rfl, rfl⟩
  | loadedHead _ _ => exact ⟨rfl, rfl, rfl⟩
  | _ => dsimp only; split_ifs <;> exact ⟨rfl, rfl, rfl⟩

/-- What a consumer step leaves to the producer. -/
theorem consume_frame (capacity : ℕ) (s : State size) (out : Elem size) :
    (consume capacity s out).producer = s.producer ∧
      (consume capacity s out).pushed = s.pushed := by
  unfold consume
  cases s.consumer with
  | idle => exact ⟨rfl, rfl⟩
  | loadedHead _ => exact ⟨rfl, rfl⟩
  | _ => dsimp only; split_ifs <;> exact ⟨rfl, rfl⟩

theorem produce_pushed (elem : Elem size) (hnone : NoPush (events capacity s (.produce elem))) :
    (produce capacity s elem).pushed = s.pushed := by
  unfold produce
  cases hp : s.producer with
  | idle => rfl
  | loadedHead _ _ => rfl
  | loadedTail elem head tail => dsimp only; split_ifs <;> rfl
  | copying elem head done =>
    by_cases hdone : done < size
    · simp [hdone]
    · exact absurd (by simp [events, hp, hdone]) (hnone elem)

theorem consume_popped (out : Elem size) (hnone : NoPop (events capacity s (.consume out))) :
    (consume capacity s out).popped = s.popped := by
  unfold consume
  cases hc : s.consumer with
  | idle => rfl
  | loadedHead _ => rfl
  | loadedTail head tail => dsimp only; split_ifs <;> rfl
  | copying tail out done =>
    by_cases hdone : done < size
    · simp [hdone]
    · exact absurd (by simp [events, hc, hdone]) (hnone out)

theorem produce_pushed_le (capacity : ℕ) (s : State size) (elem : Elem size) :
    s.pushed.length ≤ (produce capacity s elem).pushed.length := by
  unfold produce
  cases s.producer with
  | idle => exact le_rfl
  | loadedHead _ _ => exact le_rfl
  | _ => dsimp only; split_ifs <;> simp

theorem consume_popped_le (capacity : ℕ) (s : State size) (out : Elem size) :
    s.popped.length ≤ (consume capacity s out).popped.length := by
  unfold consume
  cases s.consumer with
  | idle => exact le_rfl
  | loadedHead _ => exact le_rfl
  | _ => dsimp only; split_ifs <;> simp

/-- There is room, and the producer has seen nothing else. -/
def HasRoom (capacity : ℕ) (s : State size) : Prop :=
  s.pushed.length < s.popped.length + capacity ∧
    ∀ elem, s.status capacity .producer ≠ .done (.push elem) .full

/-- There is an element, and the consumer has seen nothing else. -/
def HasElement (capacity : ℕ) (s : State size) : Prop :=
  s.popped.length < s.pushed.length ∧ s.status capacity .consumer ≠ .done .pop .empty

theorem hasRoom_produce (hcap : PowerOfTwo capacity) (hinv : Inv capacity s)
    (h : HasRoom capacity s) (elem : Elem size)
    (hnone : NoPush (events capacity s (.produce elem))) :
    HasRoom capacity (produce capacity s elem) ∧
      ∀ e, (Side.producer, Event.ret (Op.push e) Answer.full) ∉
        events capacity s (.produce elem) := by
  obtain ⟨hroom, hstatus⟩ := h
  rw [HasRoom, produce_pushed elem hnone, (produce_frame capacity s elem).2.2]
  have hknows := hinv.producer
  cases hp : s.producer with
  | idle => exact ⟨⟨hroom, by simp [State.status, produce, hp]⟩, by simp [events, hp]⟩
  | loadedHead elem head =>
    rw [hp] at hknows
    obtain rfl : head = BitVec.ofNat 32 s.pushed.length := hknows
    have hnot : ¬seemsFull capacity (BitVec.ofNat 32 s.pushed.length) s.tail := by
      rw [hinv.seemsFull_iff hcap, length_queued]
      have htaken := hinv.window.taken
      omega
    exact ⟨⟨hroom, by simp [State.status, produce, hp, hnot]⟩, by simp [events, hp, hnot]⟩
  | loadedTail elem head tail =>
    have hnot : ¬seemsFull capacity head tail := fun hfull =>
      hstatus elem (by simp [State.status, hp, hfull])
    refine ⟨⟨hroom, ?_⟩, by simp [events, hp, hnot]⟩
    simp only [produce, hp]
    change ∀ e, State.status capacity (if seemsFull capacity head tail then _ else _) .producer ≠ _
    rw [if_neg hnot]
    simp [State.status]
  | copying elem head done =>
    by_cases hdone : done < size
    · exact ⟨⟨hroom, by simp [State.status, produce, hp, hdone]⟩, by simp [events, hp, hdone]⟩
    · exact ⟨⟨hroom, by simp [State.status, produce, hp, hdone]⟩, by simp [events, hp, hdone]⟩

theorem hasElement_consume (hcap : PowerOfTwo capacity) (hinv : Inv capacity s)
    (h : HasElement capacity s) (out : Elem size)
    (hnone : NoPop (events capacity s (.consume out))) :
    HasElement capacity (consume capacity s out) ∧
      (Side.consumer, Event.ret Op.pop Answer.empty) ∉ events capacity s (.consume out) := by
  obtain ⟨helem, hstatus⟩ := h
  have hne : s.head ≠ s.tail := by
    rw [ne_eq, hinv.head_eq_tail_iff hcap, ← List.length_eq_zero_iff, length_queued]
    omega
  rw [HasElement, consume_popped out hnone, (consume_frame capacity s out).2]
  cases hc : s.consumer with
  | idle => exact ⟨⟨helem, by simp [State.status, consume, hc, hne]⟩, by simp [events, hc, hne]⟩
  | loadedHead head =>
    have hnot : head ≠ s.tail := fun hempty => hstatus (by simp [State.status, hc, hempty])
    exact ⟨⟨helem, by simp [State.status, consume, hc, hnot]⟩, by simp [events, hc]⟩
  | loadedTail head tail =>
    have hnot : head ≠ tail := fun hempty => hstatus (by simp [State.status, hc, hempty])
    exact ⟨⟨helem, by simp [State.status, consume, hc, hnot]⟩, by simp [events, hc, hnot]⟩
  | copying tail out done =>
    by_cases hdone : done < size
    · exact ⟨⟨helem, by simp [State.status, consume, hc, hdone]⟩, by simp [events, hc, hdone]⟩
    · exact ⟨⟨helem, by simp [State.status, consume, hc, hdone]⟩, by simp [events, hc, hdone]⟩

theorem HasRoom.consume (h : HasRoom capacity s) (out : Elem size) :
    HasRoom capacity (consume capacity s out) := by
  have hpopped := consume_popped_le capacity s out
  obtain ⟨hproducer, hpushed⟩ := consume_frame capacity s out
  refine ⟨by rw [hpushed]; have := h.1; omega, fun elem => ?_⟩
  simp only [State.status, hproducer]
  exact h.2 elem

theorem HasElement.produce (h : HasElement capacity s) (elem : Elem size) :
    HasElement capacity (produce capacity s elem) := by
  have hpushed := produce_pushed_le capacity s elem
  obtain ⟨hconsumer, htail, hpopped⟩ := produce_frame capacity s elem
  refine ⟨by rw [hpopped]; have := h.1; omega, ?_⟩
  simp only [State.status, hconsumer, htail]
  exact h.2

/-! ## Runs -/

theorem consumer_not_full (capacity : ℕ) (s : State size) (out e : Elem size) :
    (Side.producer, Event.ret (Op.push e) Answer.full) ∉ events capacity s (.consume out) := by
  simp only [events]
  cases s.consumer with
  | loadedHead _ => exact List.not_mem_nil
  | _ => dsimp only; split_ifs <;> simp

theorem producer_not_empty (capacity : ℕ) (s : State size) (elem : Elem size) :
    (Side.consumer, Event.ret Op.pop Answer.empty) ∉ events capacity s (.produce elem) := by
  simp only [events]
  cases s.producer with
  | idle => simp
  | _ => dsimp only; split_ifs <;> simp

/-- Until the next push the queue only gets shorter, and a push that has room succeeds. -/
theorem run_noPush (hcap : PowerOfTwo capacity) (hinv : Inv capacity s) (acts : List (Act size))
    (hnone : NoPush (history capacity s acts)) :
    (run capacity s acts).queued.length ≤ s.queued.length ∧
      (HasRoom capacity s → ∀ e,
        (Side.producer, Event.ret (Op.push e) Answer.full) ∉ history capacity s acts) := by
  induction acts generalizing s with
  | nil => exact ⟨le_rfl, fun _ _ => List.not_mem_nil⟩
  | cons a acts ih =>
    have hfirst : NoPush (events capacity s a) := fun e he =>
      hnone e (List.mem_append_left _ he)
    obtain ⟨hle, hroom⟩ := ih (step_inv hcap hinv a) fun e he =>
      hnone e (List.mem_append_right _ he)
    cases a with
    | produce elem =>
      have hqueued : (step capacity s (.produce elem)).queued = s.queued := by
        simp only [step, State.queued, produce_pushed elem hfirst,
          (produce_frame capacity s elem).2.2]
      rw [hqueued] at hle
      refine ⟨hle, fun h e he => ?_⟩
      obtain ⟨h', hnot⟩ := hasRoom_produce hcap hinv h elem hfirst
      exact (List.mem_append.mp he).elim (hnot e) (hroom h' e)
    | consume out =>
      have hpopped := consume_popped_le capacity s out
      have hshort : (step capacity s (.consume out)).queued.length ≤ s.queued.length := by
        simp only [step, length_queued, (consume_frame capacity s out).2]
        omega
      refine ⟨hle.trans hshort, fun h e he => ?_⟩
      exact (List.mem_append.mp he).elim (consumer_not_full capacity s out e)
        (hroom (h.consume out) e)

/-- Until the next pop the queue only gets longer, and a pop that has an element succeeds. -/
theorem run_noPop (hcap : PowerOfTwo capacity) (hinv : Inv capacity s) (acts : List (Act size))
    (hnone : NoPop (history capacity s acts)) :
    s.queued.length ≤ (run capacity s acts).queued.length ∧
      (HasElement capacity s →
        (Side.consumer, Event.ret Op.pop Answer.empty) ∉ history capacity s acts) := by
  induction acts generalizing s with
  | nil => exact ⟨le_rfl, fun _ => List.not_mem_nil⟩
  | cons a acts ih =>
    have hfirst : NoPop (events capacity s a) := fun e he => hnone e (List.mem_append_left _ he)
    obtain ⟨hle, helem⟩ := ih (step_inv hcap hinv a) fun e he =>
      hnone e (List.mem_append_right _ he)
    cases a with
    | produce elem =>
      have hpushed := produce_pushed_le capacity s elem
      have hlong : s.queued.length ≤ (step capacity s (.produce elem)).queued.length := by
        simp only [step, length_queued, (produce_frame capacity s elem).2.2]
        omega
      refine ⟨hlong.trans hle, fun h he => ?_⟩
      exact (List.mem_append.mp he).elim (producer_not_empty capacity s elem)
        (helem (h.produce elem))
    | consume out =>
      have hqueued : (step capacity s (.consume out)).queued = s.queued := by
        simp only [step, State.queued, consume_popped out hfirst, (consume_frame capacity s out).2]
      rw [hqueued] at hle
      refine ⟨hle, fun h he => ?_⟩
      obtain ⟨h', hnot⟩ := hasElement_consume hcap hinv h out hfirst
      exact (List.mem_append.mp he).elim hnot (helem h')

/-- In every reachable state the observers say how many elements the queue holds. For a producer
between two pushes, and whatever the consumer goes on to do, the count is an upper bound until its
next push, and after `zenit_spsc_full` has said no the next push succeeds. For a consumer the count
is a lower bound, and after `zenit_spsc_empty` has said no the next pop succeeds. -/
theorem observers_hold (hcap : PowerOfTwo capacity) (slots : ℕ → Elem size)
    (acts : List (Act size)) {s : State size} (hs : run capacity (create slots) acts = s) :
    zenitSpscCount s = s.queued.length ∧
    (zenitSpscFull capacity s = 1 ↔ s.queued.length = capacity) ∧
    (zenitSpscEmpty s = 1 ↔ s.queued = []) ∧
    (s.producer = .idle → ∀ more, NoPush (history capacity s more) →
      (run capacity s more).queued.length ≤ zenitSpscCount s ∧
      (zenitSpscFull capacity s = 0 → ∀ e,
        (Side.producer, Event.ret (Op.push e) Answer.full) ∉ history capacity s more)) ∧
    (s.consumer = .idle → ∀ more, NoPop (history capacity s more) →
      zenitSpscCount s ≤ (run capacity s more).queued.length ∧
      (zenitSpscEmpty s = 0 →
        (Side.consumer, Event.ret Op.pop Answer.empty) ∉ history capacity s more)) := by
  have hinv : Inv capacity s := hs ▸ run_inv hcap (create_inv capacity slots) acts
  have hcount := hinv.count_eq hcap
  have hfull := hinv.full_iff hcap
  have hempty := hinv.empty_iff hcap
  have hlen := length_queued s
  have htaken := hinv.window.taken
  have hwindow := hinv.window.room
  refine ⟨hcount, hfull, hempty, fun hidle more hnone => ?_, fun hidle more hnone => ?_⟩
  · obtain ⟨hle, hroom⟩ := run_noPush hcap hinv more hnone
    refine ⟨hcount ▸ hle, fun hno => hroom ⟨?_, by simp [State.status, hidle]⟩⟩
    have hne : s.queued.length ≠ capacity := fun h => by
      rw [hfull.mpr h] at hno
      cases hno
    omega
  · obtain ⟨hle, helem⟩ := run_noPop hcap hinv more hnone
    refine ⟨hcount ▸ hle, fun hno => helem ⟨?_, by simp [State.status, hidle]⟩⟩
    have hne : s.queued ≠ [] := fun h => by
      rw [hempty.mpr h] at hno
      cases hno
    have hpos := List.length_pos_of_ne_nil hne
    omega

/-- One element in a queue of two slots. -/
theorem one_of_two_observed : ∃ (acts : List (Act 1)) (s : State 1),
    run 2 (create fun _ _ => 0) acts = s ∧ zenitSpscCount s = 1 ∧
    ∀ more, NoPush (history 2 s more) → (run 2 s more).queued.length ≤ zenitSpscCount s ∧
      ∀ e, (Side.producer, Event.ret (Op.push e) Answer.full) ∉ history 2 s more := by
  let acts : List (Act 1) := List.replicate 5 (.produce fun _ => 7)
  obtain ⟨-, -, -, hproducer, -⟩ := observers_hold ⟨1, by norm_num, rfl⟩ (fun _ _ => 0) acts rfl
  refine ⟨acts, _, rfl, by decide, fun more hnone => ?_⟩
  obtain ⟨hle, hroom⟩ := hproducer rfl more hnone
  exact ⟨hle, hroom (by decide)⟩

end LibZenit.Spsc
