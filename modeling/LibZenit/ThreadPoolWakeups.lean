import LibZenit.ThreadPoolSleep
import LibZenit.ThreadPoolSafety

/-!
# No wake-up of the thread pool is lost

While a worker sleeps, the queued tasks are matched by signals on their way and by workers that are
awake; while a caller sleeps on a full queue, so are the free slots. Once the pool is stopped no
worker sleeps after the broadcast, and every sleeping caller still has a task or a signal to wake
it.
-/
namespace LibZenit.ThreadPools.Monitors

open WakeUps

variable {threadCount : ℕ}

/-! ## Where the threads are -/

/-- A client sleeps, or is about to lock, exactly while it is inside `zenit_thread_pool_enqueue`. -/
structure ClientPlaces (clients : ℕ → Client) (cvNotFull entering waiting notEmptyOwed : Finset ℕ) :
    Prop where
  asleep : ∀ j ∈ cvNotFull, ∃ task, clients j = .enqueuing task
  awake : ∀ j, j ∈ entering ↔ (∃ task, clients j = .enqueuing task) ∧ j ∉ cvNotFull
  waits : ∀ j, j ∈ waiting ↔ clients j = .waiting
  owes : ∀ j ∈ notEmptyOwed, (clients j).outside = true

/-- A sleeping worker is polling; one that owes a signal holds its task. -/
structure WorkerPlaces (workers : Fin threadCount → Worker)
    (cvNotEmpty notFullOwed : Finset (Fin threadCount)) : Prop where
  asleep : ∀ i ∈ cvNotEmpty, workers i = .polling
  owes : ∀ i ∈ notFullOwed, ∃ task, workers i = .holding task

section Clients

variable {clients : ℕ → Client} {cvNotFull entering waiting notEmptyOwed : Finset ℕ} {j : ℕ}
  {task : Task}

/-- A call that returns at once. -/
theorem ClientPlaces.refuse (h : ClientPlaces clients cvNotFull entering waiting notEmptyOwed)
    (hj : (clients j).outside = true) (result : ZenitError) :
    ClientPlaces (Function.update clients j (.returned result)) cvNotFull entering waiting
      notEmptyOwed := by
  obtain ⟨hasleep, hawake, hwaits, howes⟩ := h
  constructor <;> intro k <;> by_cases hk : k = j <;> grind [Client.outside, Function.update]

theorem ClientPlaces.enter (h : ClientPlaces clients cvNotFull entering waiting notEmptyOwed)
    (hj : (clients j).outside = true) (howed : j ∉ notEmptyOwed) (task : Task) :
    ClientPlaces (Function.update clients j (.enqueuing task)) cvNotFull (insert j entering) waiting
      notEmptyOwed := by
  obtain ⟨hasleep, hawake, hwaits, howes⟩ := h
  have hnotAsleep : j ∉ cvNotFull := by
    intro hmem
    obtain ⟨other, hother⟩ := hasleep j hmem
    simp [hother, Client.outside] at hj
  have henters : ∃ other, (Function.update clients j (.enqueuing task)) j = .enqueuing other :=
    ⟨task, Function.update_self ..⟩
  constructor <;> intro k <;> by_cases hk : k = j <;> grind [Client.outside, Function.update]

theorem ClientPlaces.startWait (h : ClientPlaces clients cvNotFull entering waiting notEmptyOwed)
    (hj : (clients j).outside = true) (howed : j ∉ notEmptyOwed) :
    ClientPlaces (Function.update clients j .waiting) cvNotFull entering (insert j waiting)
      notEmptyOwed := by
  obtain ⟨hasleep, hawake, hwaits, howes⟩ := h
  constructor <;> intro k <;> by_cases hk : k = j <;> grind [Client.outside, Function.update]

theorem ClientPlaces.sleep (h : ClientPlaces clients cvNotFull entering waiting notEmptyOwed)
    (hj : clients j = .enqueuing task) :
    ClientPlaces clients (insert j cvNotFull) (entering.erase j) waiting notEmptyOwed := by
  obtain ⟨hasleep, hawake, hwaits, howes⟩ := h
  constructor <;> intro k <;> by_cases hk : k = j <;> grind [Client.outside]

/-- The end of a call of `zenit_thread_pool_enqueue`. -/
theorem ClientPlaces.leave (h : ClientPlaces clients cvNotFull entering waiting notEmptyOwed)
    (hj : clients j = .enqueuing task) (hawake : j ∉ cvNotFull) (result : ZenitError)
    {owed : Finset ℕ} (howed : owed ⊆ insert j notEmptyOwed) :
    ClientPlaces (Function.update clients j (.returned result)) cvNotFull (entering.erase j) waiting
      owed := by
  obtain ⟨hasleep, hawake, hwaits, howes⟩ := h
  constructor <;> intro k <;> by_cases hk : k = j <;> grind [Client.outside, Function.update]

theorem ClientPlaces.finishWait (h : ClientPlaces clients cvNotFull entering waiting notEmptyOwed)
    (hj : clients j = .waiting) (result : ZenitError) :
    ClientPlaces (Function.update clients j (.returned result)) cvNotFull entering (waiting.erase j)
      notEmptyOwed := by
  obtain ⟨hasleep, hawake, hwaits, howes⟩ := h
  constructor <;> intro k <;> by_cases hk : k = j <;> grind [Client.outside, Function.update]

theorem ClientPlaces.signal (h : ClientPlaces clients cvNotFull entering waiting notEmptyOwed)
    (j : ℕ) : ClientPlaces clients cvNotFull entering waiting (notEmptyOwed.erase j) :=
  ⟨h.asleep, h.awake, h.waits, fun k hk => h.owes k (Finset.mem_of_mem_erase hk)⟩

theorem ClientPlaces.wake (h : ClientPlaces clients cvNotFull entering waiting notEmptyOwed)
    {woken : Finset ℕ} (hwoken : woken ⊆ cvNotFull) :
    ClientPlaces clients (cvNotFull \ woken) (entering ∪ woken) waiting notEmptyOwed := by
  obtain ⟨hasleep, hawake, hwaits, howes⟩ := h
  constructor <;> intro k <;> grind

end Clients

section Workers

variable {workers : Fin threadCount → Worker} {cvNotEmpty notFullOwed : Finset (Fin threadCount)}
  {i : Fin threadCount}

theorem WorkerPlaces.sleep (h : WorkerPlaces workers cvNotEmpty notFullOwed)
    (hi : workers i = .polling) : WorkerPlaces workers (insert i cvNotEmpty) notFullOwed := by
  refine ⟨fun k hk => ?_, h.owes⟩
  rcases Finset.mem_insert.mp hk with rfl | hk
  · exact hi
  · exact h.asleep k hk

/-- A worker that is awake and owes no signal goes on. -/
theorem WorkerPlaces.move (h : WorkerPlaces workers cvNotEmpty notFullOwed)
    (hawake : i ∉ cvNotEmpty) (howed : i ∉ notFullOwed) (w : Worker) :
    WorkerPlaces (Function.update workers i w) cvNotEmpty notFullOwed := by
  constructor
  · intro k hk
    rw [Function.update_of_ne (ne_of_mem_of_not_mem hk hawake)]
    exact h.asleep k hk
  · intro k hk
    rw [Function.update_of_ne (ne_of_mem_of_not_mem hk howed)]
    exact h.owes k hk

theorem WorkerPlaces.take (h : WorkerPlaces workers cvNotEmpty notFullOwed)
    (hawake : i ∉ cvNotEmpty) (task : Task) :
    WorkerPlaces (Function.update workers i (.holding task)) cvNotEmpty (insert i notFullOwed) := by
  constructor
  · intro k hk
    rw [Function.update_of_ne (ne_of_mem_of_not_mem hk hawake)]
    exact h.asleep k hk
  · intro k hk
    by_cases hki : k = i
    · exact ⟨task, by rw [hki, Function.update_self]⟩
    · rw [Function.update_of_ne hki]
      exact h.owes k (Finset.mem_of_mem_insert_of_ne hk hki)

theorem WorkerPlaces.signal (h : WorkerPlaces workers cvNotEmpty notFullOwed)
    (i : Fin threadCount) : WorkerPlaces workers cvNotEmpty (notFullOwed.erase i) :=
  ⟨h.asleep, fun k hk => h.owes k (Finset.mem_of_mem_erase hk)⟩

theorem WorkerPlaces.wake (h : WorkerPlaces workers cvNotEmpty notFullOwed)
    {sleepers : Finset (Fin threadCount)} (hsub : sleepers ⊆ cvNotEmpty) :
    WorkerPlaces workers sleepers notFullOwed :=
  ⟨fun k hk => h.asleep k (hsub hk), h.owes⟩

end Workers

/-! ## The balance of the sleepers -/

/-- The number of tasks in the queue. -/
abbrev Monitor.pending (s : Monitor threadCount) : ℕ := zenitThreadPoolPending s.pool

structure WakeInv (s : Monitor threadCount) : Prop where
  pool : Inv s.pool
  clients : ClientPlaces s.pool.clients s.cvNotFull s.entering s.waiting s.notEmptyOwed
  workers : WorkerPlaces s.pool.workers s.cvNotEmpty s.notFullOwed
  notEmpty : Covered s.cvNotEmpty s.pending s.notEmptyOwed.card (threadCount - s.cvNotEmpty.card)
  notFull : s.pool.running = true →
    Covered s.cvNotFull (poolQueueCapacity - s.pending) s.notFullOwed.card s.entering.card
  stopped : s.pool.running = false → s.cvNotFull.card ≤ s.pending + s.notFullOwed.card
  broadcast : s.pool.running = false → s.broadcastOwed = false → s.cvNotEmpty = ∅
  destroyer : s.pool.running = true ↔ s.pool.destroyer = .idle

theorem create_wakeInv (threadCount : ℕ) (queue : ℕ → Task) :
    WakeInv (create threadCount queue) where
  pool := create_inv threadCount queue
  clients := ⟨by simp [create], by simp [create, ThreadPools.create], by
    simp [create, ThreadPools.create], by simp [create]⟩
  workers := ⟨by simp [create], by simp [create]⟩
  notEmpty := covered_empty
  notFull := fun _ => covered_empty
  stopped := by simp [create]
  broadcast := by simp [create]
  destroyer := by simp [create, ThreadPools.create]

section Pending

variable {p : State threadCount}

theorem pending_eq_zero_iff : zenitThreadPoolPending p = 0 ↔ p.queueHead = p.queueTail := by
  unfold zenitThreadPoolPending
  bv_omega

theorem pending_le (hinv : Inv p) : zenitThreadPoolPending p ≤ poolQueueCapacity := by
  have hroom := hinv.window.room
  rw [zenitThreadPoolPending, hinv.distance]
  omega

theorem enqueueSection_of_room {j : ℕ} {task : Task}
    (hroom : ¬ ((p.queueHead - p.queueTail).toNat ≥ poolQueueCapacity ∧ p.running))
    (hrunning : p.running = true) :
    ThreadPools.enqueueSection p j task =
      { p with
        queue := Function.update p.queue (p.queueHead.toNat % poolQueueCapacity) task
        queueHead := p.queueHead + 1
        clients := Function.update p.clients j (.returned .ok)
        accepted := p.accepted ++ [task] } := by
  rw [ThreadPools.enqueueSection, if_neg hroom, if_neg (by simp [hrunning])]

theorem pending_enqueue (hinv : Inv p) (j : ℕ) (task : Task)
    (hroom : ¬ ((p.queueHead - p.queueTail).toNat ≥ poolQueueCapacity ∧ p.running))
    (hrunning : p.running = true) :
    zenitThreadPoolPending (ThreadPools.enqueueSection p j task) =
      zenitThreadPoolPending p + 1 := by
  have hnext := (enqueueSection_inv hinv j task).distance
  have hle := hinv.window.taken
  rw [zenitThreadPoolPending, hnext, zenitThreadPoolPending, hinv.distance,
    enqueueSection_of_room hroom hrunning]
  simp only [List.length_append, List.length_singleton]
  omega

theorem enqueueSection_of_stopped {j : ℕ} {task : Task} (hstopped : p.running = false) :
    ThreadPools.enqueueSection p j task =
      { p with clients := Function.update p.clients j (.returned .state) } := by
  rw [ThreadPools.enqueueSection, if_neg (by simp [hstopped]), if_pos (by simp [hstopped])]

theorem dequeueSection_of_queued {i : Fin threadCount} (hne : p.queueHead ≠ p.queueTail) :
    ThreadPools.dequeueSection p i =
      { p with
        queueTail := p.queueTail + 1
        active := p.active + 1
        workers := Function.update p.workers i
          (.holding (p.queue (p.queueTail.toNat % poolQueueCapacity)))
        dequeued := p.dequeued ++ [p.queue (p.queueTail.toNat % poolQueueCapacity)] } := by
  rw [ThreadPools.dequeueSection, if_neg (fun hboth => hne hboth.1),
    if_neg (fun hboth => hne hboth.2)]

theorem dequeueSection_of_stopped {i : Fin threadCount} (hempty : p.queueHead = p.queueTail)
    (hstopped : p.running = false) :
    ThreadPools.dequeueSection p i =
      { p with workers := Function.update p.workers i .exited } := by
  rw [ThreadPools.dequeueSection, if_neg (by simp [hstopped]), if_pos ⟨by simp [hstopped], hempty⟩]

theorem pending_dequeue (hinv : Inv p) {i : Fin threadCount} (hi : p.workers i = .polling)
    (hne : p.queueHead ≠ p.queueTail) :
    zenitThreadPoolPending (ThreadPools.dequeueSection p i) + 1 = zenitThreadPoolPending p := by
  have hnext := (dequeueSection_inv hinv hi).distance
  have hlt : zenitThreadPoolPending p ≠ 0 := fun h => hne (pending_eq_zero_iff.mp h)
  rw [zenitThreadPoolPending, hinv.distance] at hlt
  rw [zenitThreadPoolPending, hnext, zenitThreadPoolPending, hinv.distance]
  rw [dequeueSection_of_queued hne]
  simp only [List.length_append, List.length_singleton]
  omega

end Pending

/-! ## Every step keeps the balance -/

variable {s : Monitor threadCount}

theorem step_pool_inv (hinv : Inv s.pool) (a : Act threadCount) : Inv (step s a).pool := by
  rcases step_pool s a with hsame | ⟨b, hb⟩
  · exact hsame ▸ hinv
  · exact hb ▸ ThreadPools.step_inv hinv b

theorem callEnqueue_wakeInv (h : WakeInv s) (j : ℕ) (task : Task) :
    WakeInv (callEnqueue s j task) := by
  have hpool : Inv (callEnqueue s j task).pool := step_pool_inv h.pool (.callEnqueue j task)
  unfold callEnqueue ThreadPools.callEnqueue at hpool ⊢
  by_cases howed : j ∈ s.notEmptyOwed
  · rw [if_pos howed]
    exact h
  · rw [if_neg howed] at hpool ⊢
    by_cases hcall : (s.pool.clients j).outside ∧ s.pool.destroyer ≠ .returned
    · rw [if_pos hcall] at hpool ⊢
      by_cases hfn : task.fn = 0
      · rw [if_pos hfn] at hpool ⊢
        rw [if_neg (fun hboth => hboth.2 hfn)] at hpool ⊢
        exact { h with pool := hpool, clients := h.clients.refuse hcall.1 .null }
      · rw [if_neg hfn] at hpool ⊢
        rw [if_pos ⟨hcall, hfn⟩] at hpool ⊢
        have hgrows := Finset.card_le_card (Finset.subset_insert j s.entering)
        exact { h with
          pool := hpool
          clients := h.clients.enter hcall.1 howed task
          notFull := fun hrunning => (h.notFull hrunning).mono subset_rfl
            (Nat.add_le_add_left (Nat.add_le_add_left hgrows _) _) }
    · rw [if_neg hcall] at hpool ⊢
      rw [if_neg (fun hboth => hcall hboth.1)]
      exact h

theorem callWait_wakeInv (h : WakeInv s) (j : ℕ) : WakeInv (callWait s j) := by
  have hpool : Inv (callWait s j).pool := step_pool_inv h.pool (.callWait j)
  unfold callWait ThreadPools.callWait at hpool ⊢
  split_ifs at hpool ⊢ with howed hout
  · exact h
  · exact { h with pool := hpool, clients := h.clients.startWait hout howed }
  · exact h

theorem WakeInv.pending_le (h : WakeInv s) : s.pending ≤ poolQueueCapacity :=
  Monitors.pending_le h.pool

/-- A caller falls asleep: the queue is full. -/
theorem sleepClient_wakeInv (h : WakeInv s) {j : ℕ} {task : Task}
    (hj : s.pool.clients j = .enqueuing task) (hfull : s.pending ≥ poolQueueCapacity)
    (hrunning : s.pool.running = true) :
    WakeInv { s with cvNotFull := insert j s.cvNotFull, entering := s.entering.erase j } :=
  { h with
    clients := h.clients.sleep hj
    notFull := fun _ => Covered.sleep (Nat.sub_eq_zero_of_le hfull)
    stopped := fun hstopped => absurd (hrunning.symm.trans hstopped) (by decide) }

/-- A caller puts its task into the queue; the signal is still owed. -/
theorem acceptClient_wakeInv (h : WakeInv s) {j : ℕ} {task : Task}
    (hj : s.pool.clients j = .enqueuing task) (hawake : j ∉ s.cvNotFull)
    (hroom : ¬ (s.pending ≥ poolQueueCapacity ∧ s.pool.running))
    (hrunning : s.pool.running = true) :
    WakeInv { s with
      pool := ThreadPools.enqueueSection s.pool j task
      entering := s.entering.erase j
      notEmptyOwed := insert j s.notEmptyOwed } := by
  have hmem : j ∈ s.entering := (h.clients.awake j).mpr ⟨⟨task, hj⟩, hawake⟩
  have hnew : j ∉ s.notEmptyOwed := by
    intro howed
    simpa [hj, Client.outside] using h.clients.owes j howed
  have hpending := pending_enqueue h.pool j task hroom hrunning
  have hsection := @enqueueSection_of_room _ s.pool j task hroom hrunning
  have hcard := Finset.card_erase_add_one hmem
  have hle := pending_le (enqueueSection_inv h.pool j task)
  exact {
    pool := enqueueSection_inv h.pool j task
    clients := by rw [hsection]; exact h.clients.leave hj hawake .ok subset_rfl
    workers := by rw [hsection]; exact h.workers
    notEmpty := by
      rw [Monitor.pending, hpending, Finset.card_insert_of_notMem hnew]
      exact h.notEmpty.release
    notFull := fun _ => (h.notFull hrunning).mono subset_rfl (by
      simp only [Monitor.pending] at hpending hle ⊢
      omega)
    stopped := fun hstopped => by
      rw [hsection] at hstopped
      exact absurd (hrunning.symm.trans hstopped) (by decide)
    broadcast := fun hstopped => by
      rw [hsection] at hstopped
      exact absurd (hrunning.symm.trans hstopped) (by decide)
    destroyer := by rw [hsection]; exact h.destroyer }

/-- A caller finds the pool stopped. -/
theorem refuseClient_wakeInv (h : WakeInv s) {j : ℕ} {task : Task}
    (hj : s.pool.clients j = .enqueuing task) (hawake : j ∉ s.cvNotFull)
    (hstopped : s.pool.running = false) :
    WakeInv { s with
      pool := ThreadPools.enqueueSection s.pool j task
      entering := s.entering.erase j } := by
  have hpool := enqueueSection_inv h.pool j task
  rw [enqueueSection_of_stopped hstopped] at hpool ⊢
  exact { h with
    pool := hpool
    clients := h.clients.leave hj hawake .state (Finset.subset_insert _ _)
    notFull := fun hrunning => absurd (hrunning.symm.trans hstopped) (by decide) }

theorem clientStep_wakeInv (h : WakeInv s) (j : ℕ) : WakeInv (clientStep s j) := by
  unfold clientStep
  cases hj : s.pool.clients j with
  | idle => exact h
  | returned result => exact h
  | enqueuing task =>
    simp only
    split_ifs with hasleep
    · exact h
    · unfold enqueueSection
      split_ifs with hfull hrunning
      · exact sleepClient_wakeInv h hj hfull.1 hfull.2
      · exact acceptClient_wakeInv h hj hasleep hfull hrunning
      · exact refuseClient_wakeInv h hj hasleep (by simpa using hrunning)
  | waiting =>
    have hpool : Inv (clientStep s j).pool := step_pool_inv h.pool (.client j)
    simp only [clientStep, hj] at hpool
    unfold waitSection ThreadPools.waitSection at hpool ⊢
    simp only
    split_ifs at hpool ⊢
    · exact h
    · exact { h with pool := hpool, clients := h.clients.finishWait hj .ok }

/-- A worker falls asleep: the queue is empty. -/
theorem sleepWorker_wakeInv (h : WakeInv s) {i : Fin threadCount}
    (hi : s.pool.workers i = .polling) (hempty : s.pool.queueHead = s.pool.queueTail)
    (hrunning : s.pool.running = true) :
    WakeInv { s with cvNotEmpty := insert i s.cvNotEmpty } :=
  { h with
    workers := h.workers.sleep hi
    notEmpty := Covered.sleep (pending_eq_zero_iff.mpr hempty)
    broadcast := fun hstopped => absurd (hrunning.symm.trans hstopped) (by decide) }

/-- A worker takes a task; the signal is still owed. -/
theorem takeWorker_wakeInv (h : WakeInv s) {i : Fin threadCount}
    (hi : s.pool.workers i = .polling) (hawake : i ∉ s.cvNotEmpty)
    (hne : s.pool.queueHead ≠ s.pool.queueTail) :
    WakeInv { s with
      pool := ThreadPools.dequeueSection s.pool i
      notFullOwed := insert i s.notFullOwed } := by
  have hnew : i ∉ s.notFullOwed := by
    intro howed
    obtain ⟨task, htask⟩ := h.workers.owes i howed
    simp [hi] at htask
  have hpool := dequeueSection_inv h.pool hi
  have hpending := pending_dequeue h.pool hi hne
  have hle := h.pending_le
  have hcard := Finset.card_insert_of_notMem hnew
  rw [dequeueSection_of_queued hne] at hpool hpending ⊢
  exact { h with
    pool := hpool
    workers := h.workers.take hawake _
    notEmpty := h.notEmpty.mono subset_rfl (by simp only [Monitor.pending] at hpending ⊢; omega)
    notFull := fun hrunning => by
      refine (h.notFull hrunning).release.mono subset_rfl ?_
      simp only [Monitor.pending] at hpending hle ⊢
      omega
    stopped := fun hstopped => by
      have hbound := h.stopped hstopped
      simp only [Monitor.pending] at hpending hbound ⊢
      omega }

/-- A worker leaves the pool. -/
theorem exitWorker_wakeInv (h : WakeInv s) {i : Fin threadCount}
    (hi : s.pool.workers i = .polling) (hawake : i ∉ s.cvNotEmpty) (howed : i ∉ s.notFullOwed)
    (hempty : s.pool.queueHead = s.pool.queueTail) (hstopped : s.pool.running = false) :
    WakeInv { s with pool := ThreadPools.dequeueSection s.pool i } := by
  have hpool := dequeueSection_inv h.pool hi
  rw [dequeueSection_of_stopped hempty hstopped] at hpool ⊢
  exact { h with pool := hpool, workers := h.workers.move hawake howed _ }

theorem workerStep_wakeInv (h : WakeInv s) (i : Fin threadCount) : WakeInv (workerStep s i) := by
  have hpool := ThreadPools.workerStep_inv h.pool i
  unfold workerStep
  split_ifs with hwhere
  · exact h
  · push Not at hwhere
    obtain ⟨hawake, howed⟩ := hwhere
    unfold ThreadPools.workerStep at hpool ⊢
    cases hi : s.pool.workers i with
    | polling =>
      simp only [dequeueSection]
      split_ifs with hsleep hempty
      · exact sleepWorker_wakeInv h hi hsleep.1 hsleep.2
      · exact exitWorker_wakeInv h hi hawake howed hempty (by simpa [hempty] using hsleep)
      · exact takeWorker_wakeInv h hi hawake hempty
    | holding task =>
      rw [hi] at hpool
      exact { h with pool := hpool, workers := h.workers.move hawake howed _ }
    | executed task =>
      rw [hi] at hpool
      exact { h with pool := hpool, workers := h.workers.move hawake howed _ }
    | exited => exact h

theorem signalNotEmpty_wakeInv (h : WakeInv s) (j : ℕ) (woken : Finset (Fin threadCount)) :
    WakeInv (signalNotEmpty s j woken) := by
  unfold signalNotEmpty
  split_ifs with hsignal
  · obtain ⟨howed, hwake⟩ := hsignal
    have hcount := Finset.card_erase_add_one howed
    have hcards := card_sdiff_add_card hwake
    have hle := Finset.card_le_univ s.cvNotEmpty
    rw [Fintype.card_fin] at hle
    have hbefore := h.notEmpty
    rw [← hcount] at hbefore
    exact { h with
      clients := h.clients.signal j
      workers := h.workers.wake Finset.sdiff_subset
      notEmpty := (hbefore.signal hwake).mono subset_rfl (by simp only [Monitor.pending]; omega)
      broadcast := fun hstopped hsent => by
        rw [h.broadcast hstopped hsent]
        exact Finset.empty_sdiff woken }
  · exact h

theorem signalNotFull_wakeInv (h : WakeInv s) (i : Fin threadCount) (woken : Finset ℕ) :
    WakeInv (signalNotFull s i woken) := by
  unfold signalNotFull
  split_ifs with hsignal
  · obtain ⟨howed, hwake⟩ := hsignal
    have hcount := Finset.card_erase_add_one howed
    have hcards := card_sdiff_add_card hwake
    have hdisjoint : Disjoint s.entering woken := Finset.disjoint_left.mpr fun j hj hwoken =>
      ((h.clients.awake j).mp hj).2 (hwake.1 hwoken)
    exact { h with
      clients := h.clients.wake hwake.1
      workers := h.workers.signal i
      notFull := fun hrunning => by
        have hbefore := h.notFull hrunning
        rw [← hcount] at hbefore
        rw [Finset.card_union_of_disjoint hdisjoint]
        exact hbefore.signal hwake
      stopped := fun hstopped => by
        have hbound := h.stopped hstopped
        rcases s.cvNotFull.eq_empty_or_nonempty with hnone | hsome
        · simp [hnone]
        · have hpos := (hwake.2 hsome).card_pos
          simp only [Monitor.pending] at hbound ⊢
          omega }
  · exact h

theorem broadcast_wakeInv (h : WakeInv s) : WakeInv (broadcast s) := by
  unfold broadcast
  split_ifs
  · exact { h with
      workers := h.workers.wake (Finset.empty_subset _)
      notEmpty := covered_empty
      broadcast := fun _ _ => rfl }
  · exact h

theorem wakeWorker_wakeInv (h : WakeInv s) (i : Fin threadCount) : WakeInv (wakeWorker s i) := by
  have hfewer := Finset.card_erase_le (s := s.cvNotEmpty) (a := i)
  exact { h with
    workers := h.workers.wake (Finset.erase_subset _ _)
    notEmpty := h.notEmpty.mono (Finset.erase_subset _ _) (by
      simp only [wakeWorker, Monitor.pending]; omega)
    broadcast := fun hstopped hsent => by
      simp only [wakeWorker, h.broadcast hstopped hsent, Finset.erase_empty] }

theorem wakeClient_wakeInv (h : WakeInv s) (j : ℕ) : WakeInv (wakeClient s j) := by
  unfold wakeClient
  split_ifs with hasleep
  · have hclients := h.clients.wake (Finset.singleton_subset_iff.mpr hasleep)
    rw [Finset.sdiff_singleton_eq_erase, Finset.union_comm] at hclients
    have hgrows := Finset.card_le_card (Finset.subset_insert j s.entering)
    exact { h with
      clients := hclients
      notFull := fun hrunning => (h.notFull hrunning).mono (Finset.erase_subset _ _)
        (Nat.add_le_add_left (Nat.add_le_add_left hgrows _) _)
      stopped := fun hstopped => (Finset.card_erase_le).trans (h.stopped hstopped) }
  · exact h

/-- The section of `zenit_thread_pool_destroy`: with no more threads inside
`zenit_thread_pool_enqueue` than the queue has slots, every sleeper has a task or a signal left. -/
theorem stop_wakeInv (h : WakeInv s) (hidle : s.pool.destroyer = .idle)
    (hcrowd : s.inside ≤ poolQueueCapacity) :
    WakeInv { s with
      pool := { s.pool with running := false, destroyer := .joining 0 }
      broadcastOwed := true } := by
  have hpool := ThreadPools.destroyStep_inv h.pool
  rw [ThreadPools.destroyStep, hidle] at hpool
  have hcovered := h.notFull (h.destroyer.mpr hidle)
  have hle := h.pending_le
  exact { h with
    pool := hpool
    notFull := fun hrunning => absurd hrunning Bool.false_ne_true
    stopped := fun _ => by
      rcases s.cvNotFull.eq_empty_or_nonempty with hnone | hsome
      · simp [hnone]
      · have hmatched := hcovered hsome
        change s.cvNotFull.card ≤ s.pending + s.notFullOwed.card
        unfold Monitor.inside at hcrowd
        omega
    broadcast := fun _ hsent => absurd hsent.symm Bool.false_ne_true
    destroyer := by simp }

/-- Joining changes nothing but the place of the thread that joins, which goes on or stays. -/
theorem destroyStep_joins {p : State threadCount} (hne : p.destroyer ≠ .idle) :
    ∃ d, ThreadPools.destroyStep p = { p with destroyer := d } ∧
      (d = p.destroyer ∨ ∃ next, p.destroyer = .joining next ∧
        (next < threadCount ∧ d = .joining (next + 1) ∨ threadCount ≤ next ∧ d = .returned)) := by
  unfold ThreadPools.destroyStep
  cases hd : p.destroyer with
  | idle => exact absurd hd hne
  | joining next =>
    simp only
    split_ifs with hnext
    · cases p.workers ⟨next, hnext⟩ with
      | exited => exact ⟨.joining (next + 1), rfl, .inr ⟨next, rfl, .inl ⟨hnext, rfl⟩⟩⟩
      | polling => exact ⟨p.destroyer, rfl, .inl hd⟩
      | holding task => exact ⟨p.destroyer, rfl, .inl hd⟩
      | executed task => exact ⟨p.destroyer, rfl, .inl hd⟩
    · exact ⟨.returned, rfl, .inr ⟨next, rfl, .inr ⟨Nat.le_of_not_lt hnext, rfl⟩⟩⟩
  | returned => exact ⟨p.destroyer, rfl, .inl hd⟩

theorem destroyStep_wakeInv (h : WakeInv s)
    (hcrowd : s.pool.destroyer = .idle → s.inside ≤ poolQueueCapacity) :
    WakeInv (destroyStep s) := by
  unfold destroyStep
  split_ifs with howed
  · exact h
  · by_cases hidle : s.pool.destroyer = .idle
    · rw [decide_eq_true hidle, ThreadPools.destroyStep, hidle]
      exact stop_wakeInv h hidle (hcrowd hidle)
    · have hpool := ThreadPools.destroyStep_inv h.pool
      obtain ⟨d, hstep, hwhere⟩ := destroyStep_joins hidle
      have hd : d ≠ .idle := by
        rcases hwhere with rfl | ⟨next, -, ⟨-, rfl⟩ | ⟨-, rfl⟩⟩
        · exact hidle
        · simp
        · simp
      rw [decide_eq_false hidle]
      rw [hstep] at hpool ⊢
      exact { h with
        pool := hpool
        broadcast := fun hstopped _ => h.broadcast hstopped (by simpa using howed)
        destroyer := ⟨fun hrunning => absurd (h.destroyer.mp hrunning) hidle,
          fun habsurd => absurd habsurd hd⟩ }

theorem step_wakeInv (h : WakeInv s) {a : Act threadCount} (hallowed : Allowed s a) :
    WakeInv (step s a) := by
  cases a with
  | callEnqueue j task => exact callEnqueue_wakeInv h j task
  | callWait j => exact callWait_wakeInv h j
  | client j => exact clientStep_wakeInv h j
  | worker i => exact workerStep_wakeInv h i
  | signalNotEmpty j woken => exact signalNotEmpty_wakeInv h j woken
  | signalNotFull i woken => exact signalNotFull_wakeInv h i woken
  | broadcast => exact broadcast_wakeInv h
  | destroy => exact destroyStep_wakeInv h hallowed.1
  | wakeWorker i => exact wakeWorker_wakeInv h i
  | wakeClient j => exact wakeClient_wakeInv h j

/-! ## The pool is freed when nobody uses it -/

/-- What no thread is inside, none comes to without a call. -/
theorem Monitor.Quiet.step (hquiet : s.Quiet) (h : WakeInv s) {a : Act threadCount}
    (hallowed : Allowed s a) (hfreed : s.pool.destroyer = .returned) : (step s a).Quiet := by
  obtain ⟨hentering, hasleep, hwaiting, howed⟩ := id hquiet
  cases a with
  | callEnqueue j task => exact absurd hfreed hallowed
  | callWait j => exact absurd hfreed hallowed
  | client j =>
    simp only [Monitors.step, clientStep]
    cases hj : s.pool.clients j with
    | idle => exact hquiet
    | returned result => exact hquiet
    | enqueuing task =>
      have hmem := (h.clients.awake j).mpr ⟨⟨task, hj⟩, by simp [hasleep]⟩
      simp [hentering] at hmem
    | waiting =>
      have hmem := (h.clients.waits j).mpr hj
      simp [hwaiting] at hmem
  | worker i =>
    simp only [Monitors.step, workerStep]
    split_ifs
    · exact hquiet
    · cases s.pool.workers i with
      | polling =>
        simp only [dequeueSection]
        split_ifs <;> exact hquiet
      | holding task => exact hquiet
      | executed task => exact hquiet
      | exited => exact hquiet
  | signalNotEmpty j woken =>
    simp only [Monitors.step, signalNotEmpty, howed, Finset.notMem_empty, false_and, if_false]
    exact hquiet
  | signalNotFull i woken =>
    simp only [Monitors.step, signalNotFull]
    split_ifs with hsignal
    · have hnone : woken = ∅ := Finset.subset_empty.mp (hasleep ▸ hsignal.2.1)
      simp only [Monitor.Quiet, hnone, hentering, hasleep, Finset.union_empty, Finset.sdiff_empty]
      exact ⟨trivial, trivial, hwaiting, howed⟩
    · exact hquiet
  | broadcast =>
    simp only [Monitors.step, broadcast]
    split_ifs <;> exact hquiet
  | destroy =>
    simp only [Monitors.step, destroyStep]
    split_ifs <;> exact hquiet
  | wakeWorker i => exact hquiet
  | wakeClient j =>
    simp only [Monitors.step, wakeClient, hasleep, Finset.notMem_empty, if_false]
    exact hquiet

/-- Only `zenit_thread_pool_destroy` comes to its end. -/
theorem step_destroyer {a : Act threadCount} (ha : a ≠ .destroy) :
    (step s a).pool.destroyer = s.pool.destroyer := by
  cases a with
  | callEnqueue j task =>
    simp only [step, callEnqueue, ThreadPools.callEnqueue]
    split_ifs <;> rfl
  | callWait j =>
    simp only [step, callWait, ThreadPools.callWait]
    split_ifs <;> rfl
  | client j =>
    simp only [step, clientStep]
    cases s.pool.clients j with
    | idle => rfl
    | returned result => rfl
    | enqueuing task =>
      simp only [enqueueSection, ThreadPools.enqueueSection]
      split_ifs <;> rfl
    | waiting =>
      simp only [waitSection, ThreadPools.waitSection]
      split_ifs <;> rfl
  | worker i =>
    simp only [step, workerStep]
    split_ifs
    · rfl
    · cases hi : s.pool.workers i with
      | polling =>
        simp only [dequeueSection, ThreadPools.dequeueSection]
        split_ifs <;> rfl
      | holding task => simp [ThreadPools.workerStep, hi]
      | executed task => simp [ThreadPools.workerStep, hi]
      | exited => rfl
  | signalNotEmpty j woken =>
    simp only [step, signalNotEmpty]
    split_ifs <;> rfl
  | signalNotFull i woken =>
    simp only [step, signalNotFull]
    split_ifs <;> rfl
  | broadcast =>
    simp only [step, broadcast]
    split_ifs <;> rfl
  | destroy => exact absurd rfl ha
  | wakeWorker i => rfl
  | wakeClient j =>
    simp only [step, wakeClient]
    split_ifs <;> rfl

/-- A step after which the pool is freed: it was before, or it is freed in this step. -/
theorem freed_of_step {a : Act threadCount} (hfreed : (step s a).pool.destroyer = .returned) :
    s.pool.destroyer = .returned ∨ a = .destroy ∧ s.Frees := by
  by_cases ha : a = .destroy
  · subst ha
    simp only [step, destroyStep] at hfreed
    split_ifs at hfreed
    · exact .inl hfreed
    · by_cases hidle : s.pool.destroyer = .idle
      · simp [ThreadPools.destroyStep, hidle] at hfreed
      · obtain ⟨d, hstep, hwhere⟩ := destroyStep_joins hidle
        simp only [hstep] at hfreed
        rcases hwhere with rfl | ⟨next, hnext, ⟨-, rfl⟩ | ⟨hjoined, rfl⟩⟩
        · exact .inl hfreed
        · cases hfreed
        · exact .inr ⟨rfl, next, hnext, hjoined⟩
  · rw [step_destroyer ha] at hfreed
    exact .inl hfreed

theorem step_freed (h : WakeInv s) (hquiet : s.pool.destroyer = .returned → s.Quiet)
    {a : Act threadCount} (hallowed : Allowed s a) :
    (step s a).pool.destroyer = .returned → (step s a).Quiet := by
  intro hfreed
  rcases freed_of_step hfreed with hbefore | ⟨rfl, hfrees⟩
  · exact (hquiet hbefore).step h hallowed hbefore
  · have hnobody := hallowed.2 hfrees
    simp only [step, destroyStep]
    split_ifs <;> exact hnobody

theorem run_wakeInv (h : WakeInv s) {acts : List (Act threadCount)} (horderly : Orderly s acts) :
    WakeInv (run s acts) := by
  induction acts generalizing s with
  | nil => exact h
  | cons a acts ih => exact ih (step_wakeInv h horderly.1) horderly.2

theorem run_freed (h : WakeInv s) (hquiet : s.pool.destroyer = .returned → s.Quiet)
    {acts : List (Act threadCount)} (horderly : Orderly s acts) :
    (run s acts).pool.destroyer = .returned → (run s acts).Quiet := by
  induction acts generalizing s with
  | nil => exact hquiet
  | cons a acts ih =>
    exact ih (step_wakeInv h horderly.1) (step_freed h hquiet horderly.1) horderly.2

/-- In every state of every orderly interleaving with condition variables (at most 4096 callers are
inside `zenit_thread_pool_enqueue` when the pool is destroyed, and nobody uses it when it is freed
or later): the pool is in a state it has without them; while a worker sleeps, the queued tasks are
at most the signals owed to the workers plus the workers that are not asleep; while a caller sleeps
and the pool runs, the free slots are at most the signals owed to the callers plus the callers that
are awake; once the pool is stopped, no worker sleeps after the broadcast, and each sleeping caller
has a queued task or a signal to wake it; and once it is freed no thread is inside it any more. -/
theorem pool_loses_no_wakeup (threadCount : ℕ) (queue : ℕ → Task) (acts : List (Act threadCount))
    (horderly : Orderly (create threadCount queue) acts) :
    let s := run (create threadCount queue) acts
    (∃ acts', s.pool = ThreadPools.run (ThreadPools.create threadCount queue) acts') ∧
    (s.cvNotEmpty.Nonempty →
      zenitThreadPoolPending s.pool ≤
        s.notEmptyOwed.card + (threadCount - s.cvNotEmpty.card)) ∧
    (s.pool.running = true → s.cvNotFull.Nonempty →
      poolQueueCapacity - zenitThreadPoolPending s.pool ≤
        s.notFullOwed.card + s.entering.card) ∧
    (s.pool.running = false →
      s.cvNotFull.card ≤ zenitThreadPoolPending s.pool + s.notFullOwed.card ∧
      (s.broadcastOwed = false → s.cvNotEmpty = ∅)) ∧
    (s.pool.destroyer = .returned → s.Quiet ∧ ∀ i, s.pool.workers i = .exited) := by
  intro s
  have h : WakeInv s := run_wakeInv (create_wakeInv threadCount queue) horderly
  have hfreed := run_freed (create_wakeInv threadCount queue)
    (by simp [create, ThreadPools.create]) horderly
  refine ⟨run_pool _ acts, h.notEmpty, h.notFull,
    fun hstopped => ⟨h.stopped hstopped, h.broadcast hstopped⟩,
    fun hreturned => ⟨hfreed hreturned, fun i => h.pool.joined i ?_⟩⟩
  rw [State.joined, hreturned]
  exact i.isLt

/-- Both workers sleep, a task is put into the queue, and the pool is stopped before the signal. -/
theorem stopped_pool_loses_no_wakeup :
    let acts : List (Act 2) :=
      [.worker 0, .worker 1, .callEnqueue 7 ⟨1, 10⟩, .client 7, .destroy]
    let s := run (create 2 fun _ => ⟨0, 0⟩) acts
    s.cvNotEmpty = Finset.univ ∧ zenitThreadPoolPending s.pool = 1 ∧ s.pool.running = false ∧
      zenitThreadPoolPending s.pool ≤ s.notEmptyOwed.card + (2 - s.cvNotEmpty.card) := by
  let acts : List (Act 2) :=
    [.worker 0, .worker 1, .callEnqueue 7 ⟨1, 10⟩, .client 7, .destroy]
  have horderly : Orderly (create 2 fun _ => ⟨0, 0⟩) acts := by
    refine ⟨trivial, trivial, by simp [Allowed, step, create, ThreadPools.create, workerStep,
      dequeueSection], trivial, ⟨fun _ => by decide, ?_⟩, trivial⟩
    rintro ⟨next, hnext, -⟩
    cases (show Destroyer.idle = .joining next from hnext)
  have hbalance := (pool_loses_no_wakeup 2 (fun _ => ⟨0, 0⟩) acts horderly).2.1
  exact ⟨by decide, by decide, by decide, hbalance (by decide)⟩

end LibZenit.ThreadPools.Monitors
