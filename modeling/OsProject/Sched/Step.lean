import OsProject.Lib.Transition
import OsProject.Sched.Control

/-!
# The scheduler as a transition system

A step is one section of the kernel that runs with the run queue locked: a wakeup, a context
switch, a tick, a yield, a change of policy, priority, nice value or group, a fork, a query of the
round robin interval, an expiry of the real-time period timer of a task group. Tasks also set their
own state and are traced. A run is any finite sequence of such steps, in any order, each with its own
reading of the clock.

## Main definitions

* `Op`, `Event` — the steps.
* `Enabled` — what the callers of the scheduler keep to.
* `Boot` — the states after the boot of the processor.
* `exec`, `system` — the transition system.

Source: `kernel/sched/core.c`.
-/

namespace OsProject.Sched

open Intrusive Transition

/-- The steps of the scheduler. -/
inductive Op (τ : Type*)
  /-- The current task forks. -/
  | fork (child : τ)
  | wakeUpNewTask (p : τ)
  | tryToWakeUp (p : τ) (mask flags : ℕ)
  | schedule (preempt signalPending : Bool) (toWakeup : Option τ)
  | schedulerTick
  | schedYield
  | setscheduler (caller : Caller) (p : τ) (policy prio : ℤ) (user : Bool)
  /-- The first waiter for the locks of `p` changes, and with it the priority `p` inherits. -/
  | rtMutexAdjustPrio (p : τ) (waiter : Option ℤ)
  | setUserNice (p : τ) (nice : ℤ)
  | schedMoveTask (p : τ) (tg : TaskGroup)
  | schedRrGetInterval (p : τ)
  | rtPeriodTimer (g : RtGroup) (overrun : ℕ)
  /-- The current task sets its state, before it calls `schedule`. -/
  | setCurrentState (state : ℕ)
  /-- A traced write of `p` is counted, or its tracing starts or stops. -/
  | writeTrace (p : τ) (wcounts : UInt32) (traceFlag : ℤ)

/-- A step, and what the clock shows at it. -/
structure Event (τ : Type*) where
  now : ℤ
  op : Op τ

variable {τ Q : Type*} [DecidableEq τ]

/-- The callers of the scheduler leave the idle task alone. The child of a fork is not in use, a
task is woken for the first time while it is new, and neither the idle task nor the stopper thread
forks, yields or holds a lock. Lock waiters have a priority. -/
def Enabled (s : Rq τ Q) : Op τ → Prop
  | .fork child =>
    (s.task s.curr).schedClass ≠ .idle ∧ (s.task s.curr).schedClass ≠ .stop ∧
      child ≠ s.idle ∧ s.stop ≠ some child ∧ (s.task child).onRq = false ∧ child ≠ s.curr
  | .wakeUpNewTask p => p ≠ s.idle ∧ (s.task p).onRq = false ∧ (s.task p).state = 0
  | .schedYield => (s.task s.curr).schedClass ≠ .idle ∧ (s.task s.curr).schedClass ≠ .stop
  | .setscheduler _ p _ _ _ => p ≠ s.idle
  | .rtMutexAdjustPrio p waiter =>
    p ≠ s.idle ∧ s.stop ≠ some p ∧ ∀ w ∈ waiter, 0 ≤ w ∧ w < maxPrio
  | .setUserNice p _ => p ≠ s.idle
  | .schedMoveTask p _ => p ≠ s.idle
  | .setCurrentState _ => s.curr ≠ s.idle
  | _ => True

instance (s : Rq τ Q) (op : Op τ) : Decidable (Enabled s op) := by
  cases op <;> dsimp only [Enabled] <;> infer_instance

/-- The effect of a step; no value stands for a crash in `schedule`. -/
def execOp (K : Kernel τ Q) (s : Rq τ Q) : Op τ → Option (Rq τ Q)
  | .fork child => some (fork K s child)
  | .wakeUpNewTask p => some (wakeUpNewTask K s p)
  | .tryToWakeUp p mask flags => some (tryToWakeUp K s p mask flags).2
  | .schedule preempt signalPending toWakeup => schedule K s preempt signalPending toWakeup
  | .schedulerTick => some (schedulerTick K s)
  | .schedYield => some (schedYield K s)
  | .setscheduler caller p policy prio user =>
    some (schedSetscheduler K s caller p policy prio user).2
  | .rtMutexAdjustPrio p waiter => some (rtMutexAdjustPrio K s p waiter)
  | .setUserNice p nice => some (setUserNice K s p nice)
  | .schedMoveTask p tg => some (schedMoveTask K s p tg)
  | .schedRrGetInterval p => some (schedRrGetInterval K s p).2
  | .rtPeriodTimer g overrun => some (doSchedRtPeriodTimer K s g overrun).2
  | .setCurrentState state => some (s.modifyCtl s.curr fun p => { p with state := state })
  | .writeTrace p wcounts traceFlag =>
    some (s.modifyTask p fun p => { p with wcounts := wcounts, traceFlag := traceFlag })

/-- Let the clock show the time of an event. -/
def atTime (s : Rq τ Q) (now : ℤ) : Rq τ Q := { s with schedClock := now }

/-- The effect of an event, if it is one that the callers allow. -/
def exec (K : Kernel τ Q) (s : Rq τ Q) (e : Event τ) : Option (Rq τ Q) :=
  if Enabled s e.op then execOp K (atTime s e.now) e.op else none

/-! ### The states after boot -/

/-- The run queue is empty and the idle task runs; the other tasks are new or asleep. -/
structure Boot (K : Kernel τ Q) (s : Rq τ Q) : Prop where
  curr : s.curr = s.idle
  idle_class : (s.task s.idle).schedClass = .idle
  idle_state : (s.task s.idle).state = 0
  idle_prio : 100 ≤ (s.task s.idle).prio
  idle_ne_stop : s.stop ≠ some s.idle
  onRq : ∀ t, (s.task t).onRq = false
  nrRunning : s.nrRunning = 0
  hNrRunning : s.cfs.hNrRunning = 0
  queued : ∀ t, K.queued s.cfs.data t = none
  /-- `init_rt_rq` and `init_tg_rt_entry` have run for each task group. -/
  rt_queue : ∀ g i, (s.rt.rq g).queue i = []
  rtNrRunning : ∀ g, (s.rt.rq g).rtNrRunning = 0
  rtNrBoosted : ∀ g, (s.rt.rq g).rtNrBoosted = 0
  highestPrio : ∀ g, (s.rt.rq g).highestPrio = maxRtPrio
  /-- `init_ras_rq` has run, and the nodes of the tasks are initialised. -/
  ras : ∃ ras, s.ras = initRasRq ras ∧
    ∀ t, ras.links.next (some t) = some t ∧ ras.links.prev (some t) = some t
  stop_class : ∀ t, s.stop = some t → (s.task t).schedClass = .stop
  ctl : ∀ t, t ≠ s.idle → s.stop ≠ some t → CtlOk (s.ctl t)
  policy_iff : ∀ t, (s.task t).policy = .ras ↔ (s.task t).schedClass = .ras

/-- The scheduler of one processor. -/
def system (K : Kernel τ Q) : System (Rq τ Q) (Event τ) := .ofExec (Boot K) (exec K)

theorem step_iff {K : Kernel τ Q} {s s' : Rq τ Q} {e : Event τ} :
    (system K).step s e s' ↔ Enabled s e.op ∧ execOp K (atTime s e.now) e.op = some s' := by
  simp only [system, System.ofExec, exec]
  split <;> simp [*]

end OsProject.Sched
