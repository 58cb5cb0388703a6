import LibZenit.ThreadPoolModel
import LibZenit.FreeRunning
import Mathlib.Algebra.BigOperators.Fin
import Mathlib.Algebra.Order.BigOperators.Group.Multiset

/-!
# Task accounting of the thread pool

The invariant follows every accepted task through the queue and a worker to its completion. It says
what the free-running counters stand for, which slots of the queue are in use, and that a worker
that has left saw the pool stopped and the queue empty.
-/
namespace LibZenit.ThreadPools

open FreeRunning

variable {threadCount : ℕ} {s : State threadCount}

/-- One term of a sum over all threads changes. -/
theorem sum_update_add {ι ω M : Type} [Fintype ι] [DecidableEq ι] [AddCommMonoid M] (g : ω → M)
    (f : ι → ω) (i : ι) (v : ω) :
    (∑ x, g (Function.update f i v x)) + g (f i) = (∑ x, g (f x)) + g v := by
  have hothers : ∑ x ∈ Finset.univ.erase i, g (Function.update f i v x) =
      ∑ x ∈ Finset.univ.erase i, g (f x) :=
    Finset.sum_congr rfl fun x hx => by rw [Function.update_of_ne (Finset.ne_of_mem_erase hx)]
  rw [← Finset.add_sum_erase _ _ (Finset.mem_univ i), hothers, Function.update_self,
    ← Finset.add_sum_erase _ (fun x => g (f x)) (Finset.mem_univ i)]
  abel

/-! ## The invariant -/

/-- The task a worker has taken and not yet completed. -/
def Worker.held : Worker → Multiset Task
  | .polling => 0
  | .holding task => {task}
  | .executed task => {task}
  | .exited => 0

/-- The task a worker has called and not yet completed. -/
def Worker.called : Worker → Multiset Task
  | .polling => 0
  | .holding _ => 0
  | .executed task => {task}
  | .exited => 0

def held (workers : Fin threadCount → Worker) : Multiset Task := ∑ i, (workers i).held

def called (workers : Fin threadCount → Worker) : Multiset Task := ∑ i, (workers i).called

/-- How many workers `zenit_thread_pool_destroy` has joined. -/
def State.joined (s : State threadCount) : ℕ :=
  match s.destroyer with
  | .idle => 0
  | .joining next => next
  | .returned => threadCount

structure Inv (s : State threadCount) : Prop where
  head : s.queueHead = BitVec.ofNat 64 s.accepted.length
  tail : s.queueTail = BitVec.ofNat 64 s.dequeued.length
  window : Window poolQueueCapacity s.queue s.dequeued.length s.accepted
  fifo : s.dequeued <+: s.accepted
  active : s.active = BitVec.ofNat 64 (held s.workers).card
  taken : (s.dequeued : Multiset Task) = s.completed + held s.workers
  called : s.executed = s.completed + called s.workers
  left : ∀ i, s.workers i = .exited → s.running = false ∧ s.dequeued = s.accepted
  joined : ∀ i : Fin threadCount, i < s.joined → s.workers i = .exited

theorem create_inv (threadCount : ℕ) (queue : ℕ → Task) : Inv (create threadCount queue) where
  head := rfl
  tail := rfl
  window := window_nil _ _
  fifo := List.prefix_rfl
  active := by simp [create, held, Worker.held]
  taken := by simp [create, held, Worker.held]
  called := by simp [create, called, Worker.called]
  left := by simp [create]
  joined := by simp [create, State.joined]

theorem poolQueueCapacity_dvd : poolQueueCapacity ∣ 2 ^ 64 := ⟨2 ^ 52, by norm_num [poolQueueCapacity]⟩

/-- The distance of the counters is the number of tasks in the queue. -/
theorem Inv.distance (hinv : Inv s) :
    (s.queueHead - s.queueTail).toNat = s.accepted.length - s.dequeued.length := by
  have hroom := hinv.window.room
  unfold poolQueueCapacity at hroom
  rw [hinv.head, hinv.tail, toNat_sub_ofNat hinv.window.taken (by omega)]

theorem Inv.drained_iff (hinv : Inv s) : s.queueHead = s.queueTail ↔ s.dequeued = s.accepted := by
  have hroom := hinv.window.room
  unfold poolQueueCapacity at hroom
  rw [hinv.head, hinv.tail, ofNat_eq_iff hinv.window.taken (by omega)]
  constructor
  · intro hlen
    exact hinv.fifo.eq_of_length hlen.symm
  · intro hsame
    rw [hsame]

theorem card_held_le (workers : Fin threadCount → Worker) : (held workers).card ≤ threadCount := by
  have hone : ∀ w : Worker, w.held.card ≤ 1 := by
    intro w
    cases w <;> simp [Worker.held]
  calc (held workers).card = ∑ i, (workers i).held.card := by rw [held, Multiset.card_sum]
    _ ≤ ∑ _i : Fin threadCount, 1 := Finset.sum_le_sum fun i _ => hone (workers i)
    _ = threadCount := by simp

theorem Inv.active_toNat (hinv : Inv s) (hcount : threadCount < 2 ^ 64) :
    s.active.toNat = (held s.workers).card := by
  rw [hinv.active, BitVec.toNat_ofNat, Nat.mod_eq_of_lt ((card_held_le _).trans_lt hcount)]

/-- Accepted tasks are completed, held by a worker or in the queue. -/
theorem Inv.accounts (hinv : Inv s) :
    s.accepted.length = s.completed.card + (held s.workers).card +
      (s.accepted.length - s.dequeued.length) := by
  have hcard := congrArg Multiset.card hinv.taken
  have hle := hinv.window.taken
  rw [Multiset.coe_card, Multiset.card_add] at hcard
  omega

/-! ## The sections keep the invariant -/

theorem Inv.room (hinv : Inv s)
    (hfull : ¬ ((s.queueHead - s.queueTail).toNat ≥ poolQueueCapacity ∧ s.running))
    (hrunning : s.running = true) :
    s.accepted.length < s.dequeued.length + poolQueueCapacity := by
  rw [hinv.distance] at hfull
  have hlt : ¬ s.accepted.length - s.dequeued.length ≥ poolQueueCapacity :=
    fun h => hfull ⟨h, hrunning⟩
  have hle := hinv.window.taken
  omega

/-- The next slot to be written is outside the window. -/
theorem Inv.update_queue (hinv : Inv s)
    (hroom : s.accepted.length < s.dequeued.length + poolQueueCapacity) (task : Task) {n : ℕ}
    (hlo : s.dequeued.length ≤ n) (hhi : n < s.accepted.length) :
    Function.update s.queue (s.queueHead.toNat % poolQueueCapacity) task (n % poolQueueCapacity) =
      s.queue (n % poolQueueCapacity) := by
  rw [hinv.head, toNat_mod_ofNat poolQueueCapacity_dvd]
  have hround : s.accepted.length < n + poolQueueCapacity := by omega
  exact Function.update_of_ne (slot_ne hhi hround) task s.queue

theorem enqueueSection_inv (hinv : Inv s) (j : ℕ) (task : Task) : Inv (enqueueSection s j task) := by
  unfold enqueueSection
  split_ifs with hfull hstopped
  · exact hinv
  · exact { hinv with }
  · have hrunning : s.running = true := by simpa using hstopped
    have hroom := hinv.room hfull hrunning
    have hwindow := hinv.window.congr fun n hlo hhi => hinv.update_queue hroom task hlo hhi
    exact { hinv with
      head := by rw [hinv.head, ofNat_succ, List.length_append, List.length_singleton]
      window := by
        refine hwindow.publish hroom ?_
        rw [hinv.head, toNat_mod_ofNat poolQueueCapacity_dvd, Function.update_self]
      fifo := hinv.fifo.trans (List.prefix_append _ _)
      left := fun i hi => absurd (hinv.left i hi).1 (by simp [hrunning]) }

theorem clientStep_inv (hinv : Inv s) (j : ℕ) : Inv (clientStep s j) := by
  unfold clientStep
  cases s.clients j with
  | idle => exact hinv
  | enqueuing task => exact enqueueSection_inv hinv j task
  | waiting =>
    simp only [waitSection]
    split_ifs
    · exact hinv
    · exact { hinv with }
  | returned result => exact hinv

section Workers

variable {i : Fin threadCount}

/-- A worker that has not left is not one of those that have been joined. -/
theorem Inv.joined_update (hinv : Inv s) (hi : s.workers i ≠ .exited) (w : Worker) :
    ∀ k : Fin threadCount, k < s.joined → Function.update s.workers i w k = .exited := by
  intro k hk
  rw [Function.update_of_ne]
  · exact hinv.joined k hk
  · rintro rfl
    exact hi (hinv.joined k hk)

theorem Inv.left_update (hinv : Inv s) {w : Worker} (hw : w ≠ .exited) (k : Fin threadCount)
    (hk : Function.update s.workers i w k = .exited) :
    s.running = false ∧ s.dequeued = s.accepted := by
  by_cases hki : k = i
  · rw [hki, Function.update_self] at hk
    exact absurd hk hw
  · rw [Function.update_of_ne hki] at hk
    exact hinv.left k hk

theorem held_update {w₀ : Worker} (hi : s.workers i = w₀) (w : Worker) :
    held (Function.update s.workers i w) + w₀.held = held s.workers + w.held := by
  subst hi
  exact sum_update_add Worker.held s.workers i w

theorem called_update {w₀ : Worker} (hi : s.workers i = w₀) (w : Worker) :
    called (Function.update s.workers i w) + w₀.called = called s.workers + w.called := by
  subst hi
  exact sum_update_add Worker.called s.workers i w

theorem exit_inv (hinv : Inv s) (hi : s.workers i = .polling) (hstopped : s.running = false)
    (hempty : s.queueHead = s.queueTail) :
    Inv { s with workers := Function.update s.workers i .exited } := by
  have hheld : held (Function.update s.workers i .exited) + 0 = held s.workers + 0 :=
    held_update hi .exited
  have hcalled : called (Function.update s.workers i .exited) + 0 = called s.workers + 0 :=
    called_update hi .exited
  rw [add_zero, add_zero] at hheld hcalled
  exact { hinv with
    active := by rw [hheld]; exact hinv.active
    taken := by rw [hheld]; exact hinv.taken
    called := by rw [hcalled]; exact hinv.called
    left := fun _ _ => ⟨hstopped, hinv.drained_iff.mp hempty⟩
    joined := hinv.joined_update (by simp [hi]) .exited }

theorem take_inv (hinv : Inv s) (hi : s.workers i = .polling) (hne : s.dequeued ≠ s.accepted) :
    Inv { s with
      queueTail := s.queueTail + 1
      active := s.active + 1
      workers := Function.update s.workers i
        (.holding (s.queue (s.queueTail.toNat % poolQueueCapacity)))
      dequeued := s.dequeued ++ [s.queue (s.queueTail.toNat % poolQueueCapacity)] } := by
  rw [hinv.tail, toNat_mod_ofNat poolQueueCapacity_dvd]
  obtain ⟨rest, hrest⟩ := hinv.fifo
  cases rest with
  | nil => exact absurd (by simpa using hrest) hne
  | cons task rest =>
    have hget : s.accepted[s.dequeued.length]? = some task := by simp [← hrest]
    rw [hinv.window.holds _ task le_rfl hget]
    have hlen : (s.dequeued ++ [task]).length = s.dequeued.length + 1 := by simp
    have hheld : held (Function.update s.workers i (.holding task)) + 0 =
        held s.workers + {task} := held_update hi (.holding task)
    have hcalled : called (Function.update s.workers i (.holding task)) + 0 =
        called s.workers + 0 := called_update hi (.holding task)
    rw [add_zero] at hheld hcalled
    have hactive : s.active + 1 = BitVec.ofNat 64 (held s.workers + {task}).card := by
      rw [hinv.active, ofNat_succ, Multiset.card_add, Multiset.card_singleton]
    exact { hinv with
      tail := by rw [ofNat_succ, hlen]
      window := by
        rw [hlen]
        exact hinv.window.consume (List.getElem?_eq_some_iff.mp hget).1
      fifo := ⟨rest, by simpa using hrest⟩
      active := by rw [hheld]; exact hactive
      taken := by
        rw [hheld, ← Multiset.coe_add, hinv.taken, add_assoc]
        rfl
      called := by rw [hcalled, add_zero]; exact hinv.called
      left := fun k hk => absurd (hinv.left_update (by simp) k hk).2 hne
      joined := hinv.joined_update (by simp [hi]) _ }

theorem dequeueSection_inv (hinv : Inv s) (hi : s.workers i = .polling) :
    Inv (dequeueSection s i) := by
  unfold dequeueSection
  split_ifs with hwait hexit
  · exact hinv
  · exact exit_inv hinv hi (by simpa using hexit.1) hexit.2
  · refine take_inv hinv hi fun hsame => ?_
    have hempty := hinv.drained_iff.mpr hsame
    cases hrunning : s.running with
    | true => exact hwait ⟨hempty, hrunning⟩
    | false => exact hexit ⟨by simp [hrunning], hempty⟩

theorem execute_inv (hinv : Inv s) {task : Task} (hi : s.workers i = .holding task) :
    Inv { s with
      workers := Function.update s.workers i (.executed task)
      executed := task ::ₘ s.executed } := by
  have hheld : held (Function.update s.workers i (.executed task)) + {task} =
      held s.workers + {task} := held_update hi (.executed task)
  have hcalled : called (Function.update s.workers i (.executed task)) + 0 =
      called s.workers + {task} := called_update hi (.executed task)
  rw [add_zero] at hcalled
  exact { hinv with
    active := by rw [add_right_cancel hheld]; exact hinv.active
    taken := by rw [add_right_cancel hheld]; exact hinv.taken
    called := by
      rw [hcalled, ← add_assoc, ← hinv.called, ← Multiset.singleton_add, add_comm]
    left := hinv.left_update (by simp)
    joined := hinv.joined_update (by simp [hi]) _ }

theorem add_add_singleton (done more : Multiset Task) (task : Task) :
    done + (more + {task}) = task ::ₘ done + more := by
  rw [← Multiset.singleton_add]
  abel

theorem complete_inv (hinv : Inv s) {task : Task} (hi : s.workers i = .executed task) :
    Inv { s with
      active := s.active - 1
      workers := Function.update s.workers i .polling
      completed := task ::ₘ s.completed } := by
  have hheld : held (Function.update s.workers i .polling) + {task} = held s.workers + 0 :=
    held_update hi .polling
  have hcalled : called (Function.update s.workers i .polling) + {task} = called s.workers + 0 :=
    called_update hi .polling
  rw [add_zero] at hheld hcalled
  exact { hinv with
    active := by
      rw [hinv.active, ← hheld, Multiset.card_add, Multiset.card_singleton, ← ofNat_succ,
        BitVec.add_sub_cancel]
    taken := by rw [hinv.taken, ← hheld]; exact add_add_singleton _ _ _
    called := by rw [hinv.called, ← hcalled]; exact add_add_singleton _ _ _
    left := hinv.left_update (by simp)
    joined := hinv.joined_update (by simp [hi]) _ }

theorem workerStep_inv (hinv : Inv s) (i : Fin threadCount) : Inv (workerStep s i) := by
  unfold workerStep
  cases hi : s.workers i with
  | polling => exact dequeueSection_inv hinv hi
  | holding task => exact execute_inv hinv hi
  | executed task => exact complete_inv hinv hi
  | exited => exact hinv

end Workers

theorem destroyStep_inv (hinv : Inv s) : Inv (destroyStep s) := by
  have hjoined := hinv.joined
  unfold destroyStep
  unfold State.joined at hjoined
  cases hd : s.destroyer with
  | idle =>
    exact { hinv with
      left := fun i hi => ⟨rfl, (hinv.left i hi).2⟩
      joined := fun i hi => absurd hi (Nat.not_lt_zero _) }
  | joining next =>
    rw [hd] at hjoined
    simp only
    split_ifs with hnext
    · cases hw : s.workers ⟨next, hnext⟩ with
      | exited =>
        refine { hinv with joined := fun i hi => ?_ }
        rcases Nat.lt_succ_iff_lt_or_eq.mp hi with hlt | heq
        · exact hjoined i hlt
        · rw [show i = ⟨next, hnext⟩ from Fin.ext heq]
          exact hw
      | polling => exact hinv
      | holding task => exact hinv
      | executed task => exact hinv
    · exact { hinv with joined := fun i _ => hjoined i (by simp only; omega) }
  | returned => exact hinv

/-! ## Interleavings -/

theorem step_inv (hinv : Inv s) (a : Act threadCount) : Inv (step s a) := by
  cases a with
  | callEnqueue j task =>
    simp only [step, callEnqueue]
    split_ifs
    · exact { hinv with }
    · exact { hinv with }
    · exact hinv
  | callWait j =>
    simp only [step, callWait]
    split_ifs
    · exact { hinv with }
    · exact hinv
  | client j => exact clientStep_inv hinv j
  | worker i => exact workerStep_inv hinv i
  | destroy => exact destroyStep_inv hinv

theorem run_inv (hinv : Inv s) (acts : List (Act threadCount)) : Inv (run s acts) := by
  induction acts generalizing s with
  | nil => exact hinv
  | cons a acts ih => exact ih (step_inv hinv a)

/-- A task stays in its slot until a worker takes it. -/
theorem step_queue (hinv : Inv s) (a : Act threadCount) {n : ℕ} (hlo : s.dequeued.length ≤ n)
    (hhi : n < s.accepted.length) :
    (step s a).queue (n % poolQueueCapacity) = s.queue (n % poolQueueCapacity) := by
  cases a with
  | callEnqueue j task =>
    simp only [step, callEnqueue]
    split_ifs <;> rfl
  | callWait j =>
    simp only [step, callWait]
    split_ifs <;> rfl
  | client j =>
    simp only [step, clientStep]
    cases s.clients j with
    | idle => rfl
    | enqueuing task =>
      simp only [enqueueSection]
      split_ifs with hfull hstopped
      · rfl
      · rfl
      · exact hinv.update_queue (hinv.room hfull (by simpa using hstopped)) task hlo hhi
    | waiting =>
      simp only [waitSection]
      split_ifs <;> rfl
    | returned result => rfl
  | worker i =>
    simp only [step, workerStep]
    cases s.workers i with
    | polling =>
      simp only [dequeueSection]
      split_ifs <;> rfl
    | holding task => rfl
    | executed task => rfl
    | exited => rfl
  | destroy =>
    simp only [step, destroyStep]
    cases s.destroyer with
    | idle => rfl
    | joining next =>
      simp only
      split_ifs
      · split <;> rfl
      · rfl
    | returned => rfl

/-- Every accepted task has been called and completed. -/
def AllDone (s : State threadCount) : Prop :=
  s.completed = (s.accepted : Multiset Task) ∧ s.executed = (s.accepted : Multiset Task)

theorem allDone_of_idle (hinv : Inv s) (hempty : s.dequeued = s.accepted)
    (hidle : ∀ i, (s.workers i).held = 0) : AllDone s := by
  have hheld : held s.workers = 0 := Finset.sum_eq_zero fun i _ => hidle i
  have hcalled : called s.workers = 0 := by
    refine Finset.sum_eq_zero fun i _ => ?_
    have hi := hidle i
    cases hw : s.workers i with
    | polling => rfl
    | holding task => rfl
    | executed task => simp [hw, Worker.held] at hi
    | exited => rfl
  have hcompleted : s.completed = (s.accepted : Multiset Task) := by
    rw [← hempty, hinv.taken, hheld, add_zero]
  exact ⟨hcompleted, by rw [hinv.called, hcalled, add_zero, hcompleted]⟩

theorem waitSection_allDone (hinv : Inv s) (hcount : threadCount < 2 ^ 64) {j : ℕ}
    (hreturn : waitSection s j ≠ s) : AllDone (waitSection s j) := by
  unfold waitSection at hreturn ⊢
  split_ifs at hreturn ⊢ with htest
  · exact absurd rfl hreturn
  · push Not at htest
    obtain ⟨hempty, hactive⟩ := htest
    have hzero : (held s.workers).card = 0 := by
      have hnone : s.active = 0 := by simpa using hactive
      rw [← hinv.active_toNat hcount, hnone]
      rfl
    have hheld : held s.workers = 0 := Multiset.card_eq_zero.mp hzero
    have hdone : AllDone s := allDone_of_idle hinv (hinv.drained_iff.mp hempty) fun i =>
      Finset.sum_eq_zero_iff.mp hheld i (Finset.mem_univ i)
    exact hdone

/-- A thread that waits goes on only through its own critical section. -/
theorem step_waiting {a : Act threadCount} {j : ℕ} (hwaiting : s.clients j = .waiting)
    (hreturn : (step s a).clients j ≠ .waiting) : step s a = waitSection s j := by
  have hother : ∀ k c, k ≠ j → Function.update s.clients k c j = .waiting := by
    intro k c hk
    rw [Function.update_of_ne hk.symm, hwaiting]
  have hinside : ∀ k, (s.clients k).outside = true → k ≠ j := by
    rintro k hk rfl
    rw [hwaiting] at hk
    cases hk
  cases a with
  | callEnqueue k task =>
    exfalso
    simp only [step, callEnqueue] at hreturn
    split_ifs at hreturn with hout hnull
    · exact hreturn (hother k _ (hinside k hout.1))
    · exact hreturn (hother k _ (hinside k hout.1))
    · exact hreturn hwaiting
  | callWait k =>
    exfalso
    simp only [step, callWait] at hreturn
    split_ifs at hreturn with hout
    · exact hreturn (hother k _ (hinside k hout))
    · exact hreturn hwaiting
  | client k =>
    by_cases hk : k = j
    · subst hk
      simp only [step, clientStep, hwaiting]
    · exfalso
      simp only [step, clientStep] at hreturn
      cases hc : s.clients k with
      | idle => exact hreturn (by rw [hc]; exact hwaiting)
      | enqueuing task =>
        rw [hc] at hreturn
        simp only [enqueueSection] at hreturn
        split_ifs at hreturn
        · exact hreturn hwaiting
        · exact hreturn (hother k _ hk)
        · exact hreturn (hother k _ hk)
      | waiting =>
        rw [hc] at hreturn
        simp only [waitSection] at hreturn
        split_ifs at hreturn
        · exact hreturn hwaiting
        · exact hreturn (hother k _ hk)
      | returned result => exact hreturn (by rw [hc]; exact hwaiting)
  | worker i =>
    exfalso
    refine hreturn ?_
    simp only [step, workerStep]
    cases s.workers i with
    | polling =>
      simp only [dequeueSection]
      split_ifs <;> exact hwaiting
    | holding task => exact hwaiting
    | executed task => exact hwaiting
    | exited => exact hwaiting
  | destroy =>
    exfalso
    refine hreturn ?_
    simp only [step, destroyStep]
    cases s.destroyer with
    | idle => exact hwaiting
    | joining next =>
      simp only
      split_ifs
      · split <;> exact hwaiting
      · exact hwaiting
    | returned => exact hwaiting

theorem destroyed_allDone (hinv : Inv s) (hpos : 0 < threadCount)
    (hreturned : s.destroyer = .returned) : AllDone s := by
  have hleft : ∀ i, s.workers i = .exited := by
    intro i
    refine hinv.joined i ?_
    rw [State.joined, hreturned]
    exact i.isLt
  exact allDone_of_idle hinv (hinv.left ⟨0, hpos⟩ (hleft _)).2 fun i => by rw [hleft i]; rfl

/-- In every state of every interleaving: the queue is within its capacity; tasks are dequeued in
the order in which they were accepted, each one from a slot that keeps it until then; every
accepted task is completed, held by a worker or in the queue; a worker has left only if the pool is
stopped and its queue empty; `zenit_thread_pool_wait` returns, and `zenit_thread_pool_destroy` has
returned, only with every accepted task done. -/
theorem pool_accounts_for_tasks (hpos : 0 < threadCount) (hcount : threadCount < 2 ^ 64)
    (queue : ℕ → Task) (acts : List (Act threadCount)) {s : State threadCount}
    (hs : run (create threadCount queue) acts = s) :
    (s.queueHead - s.queueTail).toNat ≤ poolQueueCapacity ∧
    s.dequeued <+: s.accepted ∧
    (∀ n, s.dequeued.length ≤ n → n < s.accepted.length →
      s.accepted[n]? = some (s.queue (n % poolQueueCapacity)) ∧
      ∀ a, (step s a).queue (n % poolQueueCapacity) = s.queue (n % poolQueueCapacity)) ∧
    s.accepted.length =
      s.completed.card + s.active.toNat + (s.queueHead - s.queueTail).toNat ∧
    (∀ a j, s.clients j = .waiting → (step s a).clients j ≠ .waiting → AllDone (step s a)) ∧
    (∀ i, s.workers i = .exited → s.running = false ∧ s.queueHead = s.queueTail) ∧
    (s.destroyer = .returned → AllDone s) := by
  have hinv : Inv s := hs ▸ run_inv (create_inv threadCount queue) acts
  refine ⟨?_, hinv.fifo, fun n hlo hhi => ⟨?_, fun a => step_queue hinv a hlo hhi⟩, ?_,
    fun a j hwaiting hreturn => ?_, fun i hi => ?_, destroyed_allDone hinv hpos⟩
  · have hroom := hinv.window.room
    rw [hinv.distance]
    omega
  · have hget := List.getElem?_eq_getElem hhi
    rw [hinv.window.holds n _ hlo hget]
    exact hget
  · rw [hinv.active_toNat hcount, hinv.distance]
    exact hinv.accounts
  · have hstep := step_waiting hwaiting hreturn
    rw [hstep] at hreturn ⊢
    refine waitSection_allDone hinv hcount fun hsame => ?_
    rw [hsame] at hreturn
    exact hreturn hwaiting
  · exact ⟨(hinv.left i hi).1, hinv.drained_iff.mpr (hinv.left i hi).2⟩

/-- The pool is destroyed while its only worker holds a task and another one is queued. -/
theorem destroyed_pool_accounts : ∃ (acts : List (Act 1)) (s : State 1),
    run (create 1 fun _ => ⟨0, 0⟩) acts = s ∧ s.destroyer = .returned ∧
    s.accepted = [⟨1, 10⟩, ⟨2, 20⟩] ∧ AllDone s := by
  let acts : List (Act 1) := [.callEnqueue 0 ⟨1, 10⟩, .client 0, .worker 0, .callEnqueue 1 ⟨2, 20⟩,
    .client 1, .destroy, .worker 0, .worker 0, .worker 0, .worker 0, .worker 0, .worker 0,
    .destroy, .destroy]
  have hacc := pool_accounts_for_tasks (by norm_num) (by norm_num) (fun _ => ⟨0, 0⟩) acts rfl
  have hreturned : (run (create 1 fun _ => ⟨0, 0⟩) acts).destroyer = .returned := by decide
  exact ⟨acts, _, rfl, hreturned, by decide, hacc.2.2.2.2.2.2 hreturned⟩

/-! ## The pending count -/

/-- The tasks that are accepted and not yet completed. -/
def State.outstanding (s : State threadCount) : ℕ := s.accepted.length - s.completed.card

/-- No worker has taken a task that it has not completed. -/
def State.Idle (s : State threadCount) : Prop := ∀ i, s.workers i = .polling ∨ s.workers i = .exited

/-- The tasks in the queue are counted, those in the workers are not. -/
theorem Inv.outstanding_eq (hinv : Inv s) :
    s.outstanding = zenitThreadPoolPending s + (held s.workers).card := by
  have hacc := hinv.accounts
  rw [State.outstanding, zenitThreadPoolPending, hinv.distance]
  omega

theorem Worker.held_eq_zero_iff (w : Worker) : w.held = 0 ↔ w = .polling ∨ w = .exited := by
  cases w <;> simp [Worker.held]

theorem held_eq_zero_iff (s : State threadCount) : held s.workers = 0 ↔ s.Idle := by
  simp only [held, Finset.sum_eq_zero_iff, Finset.mem_univ, true_imp_iff, Worker.held_eq_zero_iff,
    State.Idle]

/-- In every state of every interleaving, the pending count is the number of accepted tasks that are
not completed exactly when no worker is between taking a task and completing it. -/
theorem pending_eq_outstanding_iff (queue : ℕ → Task) (acts : List (Act threadCount)) :
    zenitThreadPoolPending (run (create threadCount queue) acts) =
        (run (create threadCount queue) acts).outstanding ↔
      (run (create threadCount queue) acts).Idle := by
  have hinv := run_inv (create_inv threadCount queue) acts
  rw [hinv.outstanding_eq, ← held_eq_zero_iff, ← Multiset.card_eq_zero]
  omega

/-- The only task has been taken and not yet called, and nothing is pending. -/
theorem taken_task_not_pending :
    let s := run (create 1 fun _ => ⟨0, 0⟩) [.callEnqueue 0 ⟨1, 10⟩, .client 0, .worker 0]
    s.accepted = [⟨1, 10⟩] ∧ s.workers 0 = .holding ⟨1, 10⟩ ∧ zenitThreadPoolPending s = 0 ∧
      s.outstanding = 1 ∧ zenitThreadPoolPending s ≠ s.outstanding := by
  decide

end LibZenit.ThreadPools
