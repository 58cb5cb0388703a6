import LibZenit.Basics
import Mathlib.Data.Multiset.AddSub
import Mathlib.Data.List.Basic

/-!
# The thread pool of `thread_pool.c`

A critical section is one atomic step, and the execution of a task is a step between the two
sections of a worker. A thread that sleeps on a condition variable, or yields in
`zenit_thread_pool_wait`, may test its condition again at any time, so wake-ups need no model: a
test that fails leaves everything as it is. Any number of other threads call into the pool.
-/
namespace LibZenit.ThreadPools

/-- `POOL_QUEUE_CAPACITY` -/
def poolQueueCapacity : ℕ := 4096

/-- `task_t`; the function pointer may be `NULL`, which is 0. -/
structure Task where
  fn : ℕ
  ctx : ℕ
  deriving DecidableEq, Repr

/-- Where a worker is: before its first section or asleep in it, with the task it has taken from
the queue, after the call of the task, or at the end of `worker_thread`. -/
inductive Worker where
  | polling
  | holding (task : Task)
  | executed (task : Task)
  | exited
  deriving DecidableEq, Repr

/-- Where another thread is: not in the pool, inside `zenit_thread_pool_enqueue` or
`zenit_thread_pool_wait`, or back from a call with its result. -/
inductive Client where
  | idle
  | enqueuing (task : Task)
  | waiting
  | returned (result : ZenitError)
  deriving DecidableEq, Repr

/-- Where the thread that destroys the pool is: it joins the workers one after another. -/
inductive Destroyer where
  | idle
  | joining (next : ℕ)
  | returned
  deriving DecidableEq, Repr

/-- The pool and its threads. The last four fields record the tasks that were accepted and
dequeued, in order, and those whose function has been called and whose second section is over. -/
structure State (threadCount : ℕ) where
  queue : ℕ → Task
  queueHead : BitVec 64
  queueTail : BitVec 64
  active : BitVec 64
  running : Bool
  workers : Fin threadCount → Worker
  clients : ℕ → Client
  destroyer : Destroyer
  accepted : List Task
  dequeued : List Task
  executed : Multiset Task
  completed : Multiset Task

variable {threadCount : ℕ}

/-- The pool when `zenit_thread_pool_create` has returned; the array `queue` holds anything. -/
def create (threadCount : ℕ) (queue : ℕ → Task) : State threadCount :=
  ⟨queue, 0, 0, 0, true, fun _ => .polling, fun _ => .idle, .idle, [], [], 0, 0⟩

/-- The critical section of `zenit_thread_pool_enqueue`. -/
def enqueueSection (s : State threadCount) (j : ℕ) (task : Task) : State threadCount :=
  if (s.queueHead - s.queueTail).toNat ≥ poolQueueCapacity ∧ s.running then s
  else if !s.running then { s with clients := Function.update s.clients j (.returned .state) }
  else
    { s with
      queue := Function.update s.queue (s.queueHead.toNat % poolQueueCapacity) task
      queueHead := s.queueHead + 1
      clients := Function.update s.clients j (.returned .ok)
      accepted := s.accepted ++ [task] }

/-- The critical section of `zenit_thread_pool_wait`. -/
def waitSection (s : State threadCount) (j : ℕ) : State threadCount :=
  if s.queueHead ≠ s.queueTail ∨ s.active > 0 then s
  else { s with clients := Function.update s.clients j (.returned .ok) }

/-- The next step of a client that is inside a call. -/
def clientStep (s : State threadCount) (j : ℕ) : State threadCount :=
  match s.clients j with
  | .enqueuing task => enqueueSection s j task
  | .waiting => waitSection s j
  | .idle => s
  | .returned _ => s

/-- The first critical section of a worker's round. -/
def dequeueSection (s : State threadCount) (i : Fin threadCount) : State threadCount :=
  if s.queueHead = s.queueTail ∧ s.running then s
  else if !s.running ∧ s.queueHead = s.queueTail then
    { s with workers := Function.update s.workers i .exited }
  else
    let task := s.queue (s.queueTail.toNat % poolQueueCapacity)
    { s with
      queueTail := s.queueTail + 1
      active := s.active + 1
      workers := Function.update s.workers i (.holding task)
      dequeued := s.dequeued ++ [task] }

/-- The next step of a worker. -/
def workerStep (s : State threadCount) (i : Fin threadCount) : State threadCount :=
  match s.workers i with
  | .polling => dequeueSection s i
  | .holding task =>
    { s with
      workers := Function.update s.workers i (.executed task)
      executed := task ::ₘ s.executed }
  | .executed task =>
    { s with
      active := s.active - 1
      workers := Function.update s.workers i .polling
      completed := task ::ₘ s.completed }
  | .exited => s

/-- The next step of `zenit_thread_pool_destroy`: its critical section, or joining a worker. -/
def destroyStep (s : State threadCount) : State threadCount :=
  match s.destroyer with
  | .idle => { s with running := false, destroyer := .joining 0 }
  | .joining next =>
    if h : next < threadCount then
      match s.workers ⟨next, h⟩ with
      | .exited => { s with destroyer := .joining (next + 1) }
      | _ => s
    else { s with destroyer := .returned }
  | .returned => s

/-- `zenit_thread_pool_pending`, which reads the two counters. -/
def zenitThreadPoolPending (s : State threadCount) : ℕ := (s.queueHead - s.queueTail).toNat

/-- What can happen next. Calls begin in threads that are not inside one; no enqueue begins after
`zenit_thread_pool_destroy` has returned. -/
inductive Act (threadCount : ℕ) where
  | callEnqueue (j : ℕ) (task : Task)
  | callWait (j : ℕ)
  | client (j : ℕ)
  | worker (i : Fin threadCount)
  | destroy

/-- The thread is not inside a call. -/
def Client.outside : Client → Bool
  | .idle => true
  | .enqueuing _ => false
  | .waiting => false
  | .returned _ => true

def callEnqueue (s : State threadCount) (j : ℕ) (task : Task) : State threadCount :=
  if (s.clients j).outside ∧ s.destroyer ≠ .returned then
    if task.fn = 0 then { s with clients := Function.update s.clients j (.returned .null) }
    else { s with clients := Function.update s.clients j (.enqueuing task) }
  else s

def callWait (s : State threadCount) (j : ℕ) : State threadCount :=
  if (s.clients j).outside then { s with clients := Function.update s.clients j .waiting } else s

def step (s : State threadCount) : Act threadCount → State threadCount
  | .callEnqueue j task => callEnqueue s j task
  | .callWait j => callWait s j
  | .client j => clientStep s j
  | .worker i => workerStep s i
  | .destroy => destroyStep s

/-- An interleaving of the threads. -/
def run (s : State threadCount) (acts : List (Act threadCount)) : State threadCount :=
  acts.foldl step s

end LibZenit.ThreadPools
