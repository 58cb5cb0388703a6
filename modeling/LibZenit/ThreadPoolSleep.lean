import LibZenit.ThreadPoolModel
import LibZenit.WakeUps

/-!
# The condition variables of `thread_pool.c`

`ThreadPoolModel` lets a sleeping thread test its condition again at any time. Here a thread that
has called `pthread_cond_wait` stays in the set of its condition variable until somebody wakes it:
a signal, which is a step of its own after the mutex has been unlocked and wakes at least one
sleeper, the broadcast of `zenit_thread_pool_destroy`, or nobody (a spurious wake-up). A test and
the sleep that follows it are one step, since the mutex is held until the thread is in the set.
-/
namespace LibZenit.ThreadPools.Monitors

open WakeUps

/-- The pool, the sleepers of its two condition variables and where the other threads are: about to
lock the mutex in `zenit_thread_pool_enqueue`, in `zenit_thread_pool_wait`, or between unlocking
the mutex and the signal or broadcast that follows. -/
structure Monitor (threadCount : ℕ) where
  pool : State threadCount
  cvNotEmpty : Finset (Fin threadCount)
  cvNotFull : Finset ℕ
  entering : Finset ℕ
  waiting : Finset ℕ
  notEmptyOwed : Finset ℕ
  notFullOwed : Finset (Fin threadCount)
  broadcastOwed : Bool

variable {threadCount : ℕ}

/-- The pool when `zenit_thread_pool_create` has returned: every worker is about to lock. -/
def create (threadCount : ℕ) (queue : ℕ → Task) : Monitor threadCount :=
  ⟨ThreadPools.create threadCount queue, ∅, ∅, ∅, ∅, ∅, ∅, false⟩

/-- A call of `zenit_thread_pool_enqueue`, by a thread that is not inside one. -/
def callEnqueue (s : Monitor threadCount) (j : ℕ) (task : Task) : Monitor threadCount :=
  if j ∈ s.notEmptyOwed then s
  else
    { s with
      pool := ThreadPools.callEnqueue s.pool j task
      entering :=
        if ((s.pool.clients j).outside ∧ s.pool.destroyer ≠ .returned) ∧ task.fn ≠ 0 then
          insert j s.entering
        else s.entering }

def callWait (s : Monitor threadCount) (j : ℕ) : Monitor threadCount :=
  if j ∈ s.notEmptyOwed then s
  else
    { s with
      pool := ThreadPools.callWait s.pool j
      waiting := if (s.pool.clients j).outside then insert j s.waiting else s.waiting }

/-- The critical section of `zenit_thread_pool_enqueue`, up to the sleep or to the end. -/
def enqueueSection (s : Monitor threadCount) (j : ℕ) (task : Task) : Monitor threadCount :=
  if (s.pool.queueHead - s.pool.queueTail).toNat ≥ poolQueueCapacity ∧ s.pool.running then
    { s with cvNotFull := insert j s.cvNotFull, entering := s.entering.erase j }
  else
    { s with
      pool := ThreadPools.enqueueSection s.pool j task
      entering := s.entering.erase j
      notEmptyOwed := if s.pool.running then insert j s.notEmptyOwed else s.notEmptyOwed }

/-- One round of the loop of `zenit_thread_pool_wait`, which does not sleep. -/
def waitSection (s : Monitor threadCount) (j : ℕ) : Monitor threadCount :=
  if s.pool.queueHead ≠ s.pool.queueTail ∨ s.pool.active > 0 then s
  else { s with pool := ThreadPools.waitSection s.pool j, waiting := s.waiting.erase j }

/-- The next step of a client that is inside a call and not asleep. -/
def clientStep (s : Monitor threadCount) (j : ℕ) : Monitor threadCount :=
  match s.pool.clients j with
  | .enqueuing task => if j ∈ s.cvNotFull then s else enqueueSection s j task
  | .waiting => waitSection s j
  | .idle => s
  | .returned _ => s

/-- The first critical section of a worker's round, up to the sleep or to the end. -/
def dequeueSection (s : Monitor threadCount) (i : Fin threadCount) : Monitor threadCount :=
  if s.pool.queueHead = s.pool.queueTail ∧ s.pool.running then
    { s with cvNotEmpty := insert i s.cvNotEmpty }
  else
    { s with
      pool := ThreadPools.dequeueSection s.pool i
      notFullOwed :=
        if s.pool.queueHead = s.pool.queueTail then s.notFullOwed else insert i s.notFullOwed }

/-- The next step of a worker that is not asleep and owes no signal. -/
def workerStep (s : Monitor threadCount) (i : Fin threadCount) : Monitor threadCount :=
  if i ∈ s.cvNotEmpty ∨ i ∈ s.notFullOwed then s
  else
    match s.pool.workers i with
    | .polling => dequeueSection s i
    | .holding _ => { s with pool := ThreadPools.workerStep s.pool i }
    | .executed _ => { s with pool := ThreadPools.workerStep s.pool i }
    | .exited => s

/-- `pthread_cond_signal(&pool->cv_not_empty)` at the end of `zenit_thread_pool_enqueue`. -/
def signalNotEmpty (s : Monitor threadCount) (j : ℕ) (woken : Finset (Fin threadCount)) :
    Monitor threadCount :=
  if j ∈ s.notEmptyOwed ∧ MayWake s.cvNotEmpty woken then
    { s with notEmptyOwed := s.notEmptyOwed.erase j, cvNotEmpty := s.cvNotEmpty \ woken }
  else s

/-- `pthread_cond_signal(&pool->cv_not_full)` after a worker has taken a task. -/
def signalNotFull (s : Monitor threadCount) (i : Fin threadCount) (woken : Finset ℕ) :
    Monitor threadCount :=
  if i ∈ s.notFullOwed ∧ MayWake s.cvNotFull woken then
    { s with
      notFullOwed := s.notFullOwed.erase i
      cvNotFull := s.cvNotFull \ woken
      entering := s.entering ∪ woken }
  else s

/-- `pthread_cond_broadcast(&pool->cv_not_empty)` in `zenit_thread_pool_destroy`. -/
def broadcast (s : Monitor threadCount) : Monitor threadCount :=
  if s.broadcastOwed then { s with cvNotEmpty := ∅, broadcastOwed := false } else s

/-- The critical section of `zenit_thread_pool_destroy`, or joining a worker. -/
def destroyStep (s : Monitor threadCount) : Monitor threadCount :=
  if s.broadcastOwed then s
  else
    { s with
      pool := ThreadPools.destroyStep s.pool
      broadcastOwed := decide (s.pool.destroyer = .idle) }

/-- A worker wakes up without a signal. -/
def wakeWorker (s : Monitor threadCount) (i : Fin threadCount) : Monitor threadCount :=
  { s with cvNotEmpty := s.cvNotEmpty.erase i }

/-- A client wakes up without a signal. -/
def wakeClient (s : Monitor threadCount) (j : ℕ) : Monitor threadCount :=
  if j ∈ s.cvNotFull then
    { s with cvNotFull := s.cvNotFull.erase j, entering := insert j s.entering }
  else s

/-- What can happen next. -/
inductive Act (threadCount : ℕ) where
  | callEnqueue (j : ℕ) (task : Task)
  | callWait (j : ℕ)
  | client (j : ℕ)
  | worker (i : Fin threadCount)
  | signalNotEmpty (j : ℕ) (woken : Finset (Fin threadCount))
  | signalNotFull (i : Fin threadCount) (woken : Finset ℕ)
  | broadcast
  | destroy
  | wakeWorker (i : Fin threadCount)
  | wakeClient (j : ℕ)

def step (s : Monitor threadCount) : Act threadCount → Monitor threadCount
  | .callEnqueue j task => callEnqueue s j task
  | .callWait j => callWait s j
  | .client j => clientStep s j
  | .worker i => workerStep s i
  | .signalNotEmpty j woken => signalNotEmpty s j woken
  | .signalNotFull i woken => signalNotFull s i woken
  | .broadcast => broadcast s
  | .destroy => destroyStep s
  | .wakeWorker i => wakeWorker s i
  | .wakeClient j => wakeClient s j

/-- An interleaving of the threads. -/
def run (s : Monitor threadCount) (acts : List (Act threadCount)) : Monitor threadCount :=
  acts.foldl step s

/-- The number of threads inside `zenit_thread_pool_enqueue`. -/
def Monitor.inside (s : Monitor threadCount) : ℕ := s.entering.card + s.cvNotFull.card

/-- No thread is inside `zenit_thread_pool_enqueue` or `zenit_thread_pool_wait`. -/
def Monitor.Quiet (s : Monitor threadCount) : Prop :=
  s.entering = ∅ ∧ s.cvNotFull = ∅ ∧ s.waiting = ∅ ∧ s.notEmptyOwed = ∅

instance (s : Monitor threadCount) : Decidable s.Quiet :=
  inferInstanceAs (Decidable (_ ∧ _ ∧ _ ∧ _))

/-- The workers are joined: what `zenit_thread_pool_destroy` does next is to free the pool. -/
def Monitor.Frees (s : Monitor threadCount) : Prop :=
  ∃ next, s.pool.destroyer = .joining next ∧ threadCount ≤ next

/-- What the code leaves to its clients. `zenit_thread_pool_destroy` is called while at most as many
threads are inside `zenit_thread_pool_enqueue` as the queue has slots, and it frees the pool when no
thread is inside a call; no call begins afterwards. -/
def Allowed (s : Monitor threadCount) : Act threadCount → Prop
  | .callEnqueue _ _ => s.pool.destroyer ≠ .returned
  | .callWait _ => s.pool.destroyer ≠ .returned
  | .destroy =>
    (s.pool.destroyer = .idle → s.inside ≤ poolQueueCapacity) ∧ (s.Frees → s.Quiet)
  | _ => True

/-- Every action of the interleaving is allowed where it happens. -/
def Orderly (s : Monitor threadCount) : List (Act threadCount) → Prop
  | [] => True
  | a :: acts => Allowed s a ∧ Orderly (step s a) acts

/-! ## The pool under its condition variables -/

/-- A step of the pool with condition variables is a step of the pool, or leaves it alone. -/
theorem step_pool (s : Monitor threadCount) (a : Act threadCount) :
    (step s a).pool = s.pool ∨ ∃ b, (step s a).pool = ThreadPools.step s.pool b := by
  cases a with
  | callEnqueue j task =>
    simp only [step, callEnqueue]
    split_ifs
    · exact .inl rfl
    all_goals exact .inr ⟨.callEnqueue j task, rfl⟩
  | callWait j =>
    simp only [step, callWait]
    split_ifs
    · exact .inl rfl
    all_goals exact .inr ⟨.callWait j, rfl⟩
  | client j =>
    simp only [step, clientStep]
    cases hj : s.pool.clients j with
    | enqueuing task =>
      simp only [enqueueSection]
      split_ifs
      · exact .inl rfl
      · exact .inl rfl
      all_goals exact .inr ⟨.client j, by simp [ThreadPools.step, ThreadPools.clientStep, hj]⟩
    | waiting =>
      simp only [waitSection]
      split_ifs
      · exact .inl rfl
      · exact .inr ⟨.client j, by simp [ThreadPools.step, ThreadPools.clientStep, hj]⟩
    | idle => exact .inl rfl
    | returned result => exact .inl rfl
  | worker i =>
    simp only [step, workerStep]
    split_ifs
    · exact .inl rfl
    · cases hi : s.pool.workers i with
      | polling =>
        simp only [dequeueSection]
        split_ifs
        · exact .inl rfl
        all_goals exact .inr ⟨.worker i, by simp [ThreadPools.step, ThreadPools.workerStep, hi]⟩
      | holding task => exact .inr ⟨.worker i, rfl⟩
      | executed task => exact .inr ⟨.worker i, rfl⟩
      | exited => exact .inl rfl
  | signalNotEmpty j woken =>
    simp only [step, signalNotEmpty]
    split_ifs <;> exact .inl rfl
  | signalNotFull i woken =>
    simp only [step, signalNotFull]
    split_ifs <;> exact .inl rfl
  | broadcast =>
    simp only [step, broadcast]
    split_ifs <;> exact .inl rfl
  | destroy =>
    simp only [step, destroyStep]
    split_ifs
    · exact .inl rfl
    · exact .inr ⟨.destroy, rfl⟩
  | wakeWorker i => exact .inl rfl
  | wakeClient j =>
    simp only [step, wakeClient]
    split_ifs <;> exact .inl rfl

/-- Every run with condition variables is a run of the pool without them. -/
theorem run_pool (s : Monitor threadCount) (acts : List (Act threadCount)) :
    ∃ acts', (run s acts).pool = ThreadPools.run s.pool acts' := by
  induction acts generalizing s with
  | nil => exact ⟨[], rfl⟩
  | cons a acts ih =>
    obtain ⟨rest, hrest⟩ := ih (step s a)
    rcases step_pool s a with hsame | ⟨b, hb⟩
    · exact ⟨rest, by rw [← hsame]; exact hrest⟩
    · exact ⟨b :: rest, by
        rw [show run s (a :: acts) = run (step s a) acts from rfl, hrest, hb]
        rfl⟩

end LibZenit.ThreadPools.Monitors
