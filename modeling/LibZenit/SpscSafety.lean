import LibZenit.SpscModel

/-!
# Safety of the single-producer single-consumer queue

The invariant compares the two indices with the numbers of elements pushed and popped, and says of
each thread how old its view of the other one's index may be. It holds between any two steps.
-/
namespace LibZenit.Spsc

open FreeRunning

variable {size capacity : ℕ} {s : State size}

/-- The capacities that `zenit_spsc_create` rounds to. -/
def PowerOfTwo (capacity : ℕ) : Prop := ∃ k, k ≤ 31 ∧ capacity = 2 ^ k

theorem PowerOfTwo.lt (hcap : PowerOfTwo capacity) : capacity < 2 ^ 32 := by
  obtain ⟨k, hk, rfl⟩ := hcap
  exact Nat.pow_lt_pow_right (by norm_num) (by omega)

theorem slotOf_ofNat (hcap : PowerOfTwo capacity) (n : ℕ) :
    slotOf capacity (BitVec.ofNat 32 n) = n % capacity := by
  obtain ⟨k, hk, rfl⟩ := hcap
  exact toNat_mask_ofNat (by omega) n

/-! ## The invariant -/

/-- What the producer knows: the head is its own, the tail it has loaded may be old. While it
copies there is room, and the bytes before `done` are in the slot. -/
def ProducerKnows (capacity : ℕ) (s : State size) : Producer size → Prop
  | .idle => True
  | .loadedHead _ head => head = BitVec.ofNat 32 s.pushed.length
  | .loadedTail _ head tail => head = BitVec.ofNat 32 s.pushed.length ∧
      ∃ seen, tail = BitVec.ofNat 32 seen ∧ seen ≤ s.popped.length ∧
        s.pushed.length ≤ seen + capacity
  | .copying elem head done => head = BitVec.ofNat 32 s.pushed.length ∧
      s.pushed.length < s.popped.length + capacity ∧
      ∀ i : Fin size, i < done → s.slots (s.pushed.length % capacity) i = elem i

/-- The head that the consumer has loaded may be old, but not older than its own tail. -/
def HeadSeen (s : State size) (head : BitVec 32) : Prop :=
  ∃ seen, head = BitVec.ofNat 32 seen ∧ s.popped.length ≤ seen ∧ seen ≤ s.pushed.length

/-- What the consumer knows: while it copies there is an element, and the bytes before `done` of
the caller's buffer are those of the element. -/
def ConsumerKnows (s : State size) : Consumer size → Prop
  | .idle => True
  | .loadedHead head => HeadSeen s head
  | .loadedTail head tail => HeadSeen s head ∧ tail = BitVec.ofNat 32 s.popped.length
  | .copying tail out done => tail = BitVec.ofNat 32 s.popped.length ∧
      ∃ x, s.pushed[s.popped.length]? = some x ∧ ∀ i : Fin size, i < done → out i = x i

structure Inv (capacity : ℕ) (s : State size) : Prop where
  head : s.head = BitVec.ofNat 32 s.pushed.length
  tail : s.tail = BitVec.ofNat 32 s.popped.length
  window : Window capacity s.slots s.popped.length s.pushed
  fifo : s.popped <+: s.pushed
  producer : ProducerKnows capacity s s.producer
  consumer : ConsumerKnows s s.consumer

theorem create_inv (capacity : ℕ) (slots : ℕ → Elem size) : Inv capacity (create slots) where
  head := rfl
  tail := rfl
  window := window_nil capacity slots
  fifo := List.prefix_rfl
  producer := trivial
  consumer := trivial

theorem Inv.distance (hinv : Inv capacity s) (hcap : PowerOfTwo capacity) :
    (s.head - s.tail).toNat ≤ capacity := by
  have hroom := hinv.window.room
  rw [hinv.head, hinv.tail, toNat_sub_ofNat hinv.window.taken (by have := hcap.lt; omega)]
  omega

/-! ## The producer -/

section Producer

variable {elem : Elem size} {head tail : BitVec 32} {done : ℕ}

theorem test_room {pushed seen : ℕ} (hcap : PowerOfTwo capacity) (hle : seen ≤ pushed)
    (hroom : pushed ≤ seen + capacity) :
    (BitVec.ofNat 32 pushed - BitVec.ofNat 32 seen).toNat ≥ (BitVec.ofNat 32 capacity).toNat ↔
      pushed = seen + capacity := by
  have hlt := hcap.lt
  rw [toNat_sub_ofNat hle (by omega), BitVec.toNat_ofNat, Nat.mod_eq_of_lt hlt]
  omega

/-- The consumer does not look at the slots, and more pushed elements do not disturb it. -/
theorem ConsumerKnows.grow {s' : State size} {c : Consumer size} (h : ConsumerKnows s c)
    (hpopped : s'.popped = s.popped) (hpushed : s.pushed <+: s'.pushed) : ConsumerKnows s' c := by
  have hseen : ∀ head, HeadSeen s head → HeadSeen s' head := by
    rintro head ⟨seen, hhead, hlo, hhi⟩
    exact ⟨seen, hhead, hpopped ▸ hlo, hhi.trans hpushed.length_le⟩
  cases c with
  | idle => trivial
  | loadedHead head => exact hseen head h
  | loadedTail head tail => exact ⟨hseen head h.1, hpopped ▸ h.2⟩
  | copying tail out done =>
    obtain ⟨htail, x, hx, hout⟩ := h
    obtain ⟨more, hmore⟩ := hpushed
    refine ⟨hpopped ▸ htail, x, ?_, hout⟩
    rw [hpopped, ← hmore, List.getElem?_append_left (List.getElem?_eq_some_iff.mp hx).1, hx]

/-- A byte written into the next free slot stays out of the window. -/
theorem update_window (hroom : s.pushed.length < s.popped.length + capacity) (v : Elem size) {n : ℕ}
    (hlo : s.popped.length ≤ n) (hhi : n < s.pushed.length) :
    Function.update s.slots (s.pushed.length % capacity) v (n % capacity) =
      s.slots (n % capacity) :=
  Function.update_of_ne (slot_ne hhi (by omega)) _ _

theorem produce_inv (hcap : PowerOfTwo capacity) (hinv : Inv capacity s) (elem : Elem size) :
    Inv capacity (produce capacity s elem) := by
  have hknows := hinv.producer
  unfold produce
  cases hp : s.producer with
  | idle => exact { hinv with producer := hinv.head, consumer := hinv.consumer }
  | loadedHead elem head =>
    rw [hp] at hknows
    exact { hinv with
      producer := ⟨hknows, s.popped.length, hinv.tail, le_rfl, hinv.window.room⟩
      consumer := hinv.consumer }
  | loadedTail elem head tail =>
    rw [hp] at hknows
    obtain ⟨hhead, seen, htail, hseen, hroom⟩ := hknows
    simp only
    split_ifs with htest
    · exact { hinv with producer := trivial, consumer := hinv.consumer }
    · rw [hhead, htail, test_room hcap (hseen.trans hinv.window.taken) hroom] at htest
      exact { hinv with
        producer := ⟨hhead, by simp only; omega, fun i hi => absurd hi (Nat.not_lt_zero _)⟩
        consumer := hinv.consumer }
  | copying elem head done =>
    rw [hp] at hknows
    obtain ⟨hhead, hroom, hcopied⟩ := hknows
    simp only
    split_ifs with hdone
    · rw [hhead, slotOf_ofNat hcap]
      refine { hinv with
        window := hinv.window.congr fun n hlo hhi => update_window hroom _ hlo hhi
        producer := ⟨rfl, hroom, fun i hi => ?_⟩
        consumer := hinv.consumer }
      simp only [Function.update_self]
      by_cases hlast : i = ⟨done, hdone⟩
      · rw [hlast, Function.update_self]
      · rw [Function.update_of_ne hlast]
        exact hcopied i (by have := Fin.val_ne_of_ne hlast; simp only at this; omega)
    · have hslot : s.slots (s.pushed.length % capacity) = elem :=
        funext fun i => hcopied i (by have := i.isLt; omega)
      exact
        { head := by rw [hhead, ofNat_succ, List.length_append, List.length_singleton]
          tail := hinv.tail
          window := hinv.window.publish hroom hslot
          fifo := hinv.fifo.trans (List.prefix_append _ _)
          producer := trivial
          consumer := hinv.consumer.grow rfl (List.prefix_append _ _) }

theorem produce_slots (hcap : PowerOfTwo capacity) (hinv : Inv capacity s) (elem : Elem size)
    {n : ℕ} (hlo : s.popped.length ≤ n) (hhi : n < s.pushed.length) :
    (produce capacity s elem).slots (n % capacity) = s.slots (n % capacity) := by
  have hknows := hinv.producer
  unfold produce
  cases hp : s.producer with
  | idle => rfl
  | loadedHead elem head => rfl
  | loadedTail elem head tail =>
    simp only
    split_ifs <;> rfl
  | copying elem head done =>
    rw [hp] at hknows
    obtain ⟨hhead, hroom, -⟩ := hknows
    simp only
    split_ifs with hdone
    · rw [hhead, slotOf_ofNat hcap]
      exact update_window hroom _ hlo hhi
    · rfl

end Producer

/-! ## The consumer -/

section Consumer

/-- More popped elements only make room for the producer. -/
theorem ProducerKnows.grow {s' : State size} {p : Producer size} (h : ProducerKnows capacity s p)
    (hslots : s'.slots = s.slots) (hpushed : s'.pushed = s.pushed)
    (hpopped : s.popped.length ≤ s'.popped.length) : ProducerKnows capacity s' p := by
  cases p with
  | idle => trivial
  | loadedHead elem head =>
    simp only [ProducerKnows, hpushed] at h ⊢
    exact h
  | loadedTail elem head tail =>
    obtain ⟨hhead, seen, htail, hseen, hroom⟩ := h
    exact ⟨hpushed ▸ hhead, seen, htail, hseen.trans hpopped, hpushed ▸ hroom⟩
  | copying elem head done =>
    obtain ⟨hhead, hroom, hcopied⟩ := h
    refine ⟨hpushed ▸ hhead, by rw [hpushed]; omega, ?_⟩
    rw [hslots, hpushed]
    exact hcopied

theorem snoc_prefix {α : Type} {xs ys : List α} {x : α} (h : xs <+: ys)
    (hx : ys[xs.length]? = some x) : xs ++ [x] <+: ys := by
  obtain ⟨zs, rfl⟩ := h
  rw [List.getElem?_append_right le_rfl, Nat.sub_self] at hx
  cases zs with
  | nil => cases hx
  | cons z zs =>
    cases hx
    exact ⟨zs, by simp⟩

theorem consume_inv (hcap : PowerOfTwo capacity) (hinv : Inv capacity s) (out : Elem size) :
    Inv capacity (consume capacity s out) := by
  have hknows := hinv.consumer
  unfold consume
  cases hc : s.consumer with
  | idle =>
    exact { hinv with
      producer := hinv.producer
      consumer := ⟨s.pushed.length, hinv.head, hinv.window.taken, le_rfl⟩ }
  | loadedHead head =>
    rw [hc] at hknows
    exact { hinv with producer := hinv.producer, consumer := ⟨hknows, hinv.tail⟩ }
  | loadedTail head tail =>
    rw [hc] at hknows
    obtain ⟨⟨seen, hhead, hlo, hhi⟩, htail⟩ := hknows
    have hroom := hinv.window.room
    simp only
    split_ifs with hempty
    · exact { hinv with producer := hinv.producer, consumer := trivial }
    · rw [hhead, htail, ofNat_eq_iff hlo (by have := hcap.lt; omega)] at hempty
      have hlt : s.popped.length < s.pushed.length := by omega
      exact { hinv with
        producer := hinv.producer
        consumer := ⟨htail, _, List.getElem?_eq_getElem hlt,
          fun i hi => absurd hi (Nat.not_lt_zero _)⟩ }
  | copying tail out done =>
    rw [hc] at hknows
    obtain ⟨htail, x, hx, hcopied⟩ := hknows
    simp only
    split_ifs with hdone
    · refine { hinv with
        producer := hinv.producer
        consumer := ⟨htail, x, hx, fun i hi => ?_⟩ }
      by_cases hlast : i = ⟨done, hdone⟩
      · rw [hlast, Function.update_self, htail, slotOf_ofNat hcap,
          hinv.window.holds _ x le_rfl hx]
      · rw [Function.update_of_ne hlast]
        exact hcopied i (by have := Fin.val_ne_of_ne hlast; simp only at this; omega)
    · have hout : out = x := funext fun i => hcopied i (by have := i.isLt; omega)
      subst hout
      have hlt := (List.getElem?_eq_some_iff.mp hx).1
      have hlen : (s.popped ++ [out]).length = s.popped.length + 1 := by
        rw [List.length_append, List.length_singleton]
      exact
        { head := hinv.head
          tail := by rw [htail, ofNat_succ, hlen]
          window := by rw [hlen]; exact hinv.window.consume hlt
          fifo := snoc_prefix hinv.fifo hx
          producer := hinv.producer.grow rfl rfl (by rw [hlen]; omega)
          consumer := trivial }

theorem consume_slots (s : State size) (out : Elem size) :
    (consume capacity s out).slots = s.slots := by
  unfold consume
  cases s.consumer with
  | idle => rfl
  | loadedHead head => rfl
  | loadedTail head tail =>
    simp only
    split_ifs <;> rfl
  | copying tail out done =>
    simp only
    split_ifs <;> rfl

end Consumer

/-! ## Interleavings -/

theorem step_inv (hcap : PowerOfTwo capacity) (hinv : Inv capacity s) (a : Act size) :
    Inv capacity (step capacity s a) := by
  cases a with
  | produce elem => exact produce_inv hcap hinv elem
  | consume out => exact consume_inv hcap hinv out

theorem step_slots (hcap : PowerOfTwo capacity) (hinv : Inv capacity s) (a : Act size) {n : ℕ}
    (hlo : s.popped.length ≤ n) (hhi : n < s.pushed.length) :
    (step capacity s a).slots (n % capacity) = s.slots (n % capacity) := by
  cases a with
  | produce elem => exact produce_slots hcap hinv elem hlo hhi
  | consume out => exact congrFun (consume_slots s out) _

theorem run_inv (hcap : PowerOfTwo capacity) (hinv : Inv capacity s) (acts : List (Act size)) :
    Inv capacity (run capacity s acts) := by
  induction acts generalizing s with
  | nil => exact hinv
  | cons a acts ih => exact ih (step_inv hcap hinv a)

/-- In every state of every interleaving the popped elements are the oldest pushed ones, the
indices are at most a capacity apart, and no step touches a slot that is published and not yet
given back: it holds its element until then. -/
theorem spsc_runs_safely (hcap : PowerOfTwo capacity) (slots : ℕ → Elem size)
    (acts : List (Act size)) {s : State size} (hs : run capacity (create slots) acts = s) :
    s.popped <+: s.pushed ∧ (s.head - s.tail).toNat ≤ capacity ∧
    ∀ n, s.popped.length ≤ n → n < s.pushed.length →
      s.pushed[n]? = some (s.slots (slotOf capacity (BitVec.ofNat 32 n))) ∧
      ∀ a, (step capacity s a).slots (slotOf capacity (BitVec.ofNat 32 n)) =
        s.slots (slotOf capacity (BitVec.ofNat 32 n)) := by
  have hinv : Inv capacity s := hs ▸ run_inv hcap (create_inv capacity slots) acts
  refine ⟨hinv.fifo, hinv.distance hcap, fun n hlo hhi => ?_⟩
  rw [slotOf_ofNat hcap]
  refine ⟨?_, fun a => step_slots hcap hinv a hlo hhi⟩
  have hget := List.getElem?_eq_getElem hhi
  rw [hinv.window.holds n _ hlo hget]
  exact hget

/-- Two pushes fill a queue of two slots; a third one, begun before the pop ends, finds room after
it and reuses the slot. -/
theorem reused_slot_runs_safely : ∃ (acts : List (Act 1)) (s : State 1),
    run 2 (create fun _ _ => 0) acts = s ∧ s.pushed.map (· 0) = [1, 2, 3] ∧
    s.popped.map (· 0) = [1] ∧ s.popped <+: s.pushed ∧ (s.head - s.tail).toNat ≤ 2 := by
  let push (b : UInt8) : List (Act 1) := List.replicate 5 (.produce fun _ => b)
  let acts : List (Act 1) := push 1 ++ push 2 ++ [.produce fun _ => 3] ++
    List.replicate 5 (.consume fun _ => 0) ++ List.replicate 4 (.produce fun _ => 0)
  have hsafe := spsc_runs_safely ⟨1, by norm_num, rfl⟩ (fun _ _ => 0) acts rfl
  exact ⟨acts, _, rfl, by decide, by decide, hsafe.1, hsafe.2.1⟩

end LibZenit.Spsc
