import LibZenit.ThreadPoolWakeups
import LibZenit.Draining

/-!
# The thread pool comes to rest

Whatever the threads inside the pool do, they can do it only finitely often before a new call is
made, and when none of them can go on, every call has returned and every accepted task is done.
-/
namespace LibZenit.ThreadPools.Monitors

open WakeUps Draining

variable {threadCount : ℕ} {s : Monitor threadCount}

/-! ## What is left to do -/

section Workers

variable {workers : Fin threadCount → Worker} {cvNotEmpty : Finset (Fin threadCount)}
  {i : Fin threadCount}

end Workers

/-! ## Every step of a thread inside the pool loses weight -/

variable {bound : ℕ}

end LibZenit.ThreadPools.Monitors
