import OsProject.Sched.Rt

/-!
# The scheduler core: wakeups, ticks and context switches

The run queue clock, the calls of the class callbacks, and the paths that wake a task, tick and
switch tasks, on a uniprocessor. Each function is the part of its source function that runs with
the run queue locked.

Source: `kernel/sched/core.c`.
-/

namespace OsProject.Sched

variable {τ Q : Type*} [DecidableEq τ]

def updateRqClock (s : Rq τ Q) : Rq τ Q :=
  if 0 < s.skipClockUpdate then s
  else
    let delta := s.schedClock - s.clock
    { s with clock := s.clock + delta, clockTask := s.clockTask + delta }

omit [DecidableEq τ] in
@[simp]
theorem updateRqClock_task (s : Rq τ Q) : (updateRqClock s).task = s.task := by
  rw [updateRqClock]
  split <;> rfl

omit [DecidableEq τ] in
@[simp]
theorem updateRqClock_curr (s : Rq τ Q) : (updateRqClock s).curr = s.curr := by
  rw [updateRqClock]
  split <;> rfl

/-! ### Calls of class callbacks -/

section ClassCalls

variable (K : Kernel τ Q)

/-- `enqueue_task` of a class outside the repository. -/
def enqueueTaskForeign (s : Rq τ Q) (c : SchedClass) (p : τ) (flags : EnqueueFlags) : Rq τ Q :=
  { s with
    cfs :=
      { hNrRunning := if c = .fair then s.cfs.hNrRunning + 1 else s.cfs.hNrRunning
        data := K.enqueueTask c s.view p flags s.cfs.data }
    nrRunning := s.nrRunning + 1 }

/-- `dequeue_task` of a class outside the repository. -/
def dequeueTaskForeign (s : Rq τ Q) (c : SchedClass) (p : τ) (sleep : Bool) : Rq τ Q :=
  { s with
    cfs :=
      { hNrRunning := if c = .fair then s.cfs.hNrRunning - 1 else s.cfs.hNrRunning
        data := K.dequeueTask c s.view p sleep s.cfs.data }
    nrRunning := s.nrRunning - 1 }

def enqueueTask (s : Rq τ Q) (p : τ) (flags : EnqueueFlags) : Rq τ Q :=
  let s := updateRqClock s
  match (s.task p).schedClass with
  | .rt => enqueueTaskRt s p flags
  | .ras => enqueueTaskRas K s p flags
  | c => enqueueTaskForeign K s c p flags

def dequeueTask (s : Rq τ Q) (p : τ) (sleep : Bool) : Rq τ Q :=
  let s := updateRqClock s
  match (s.task p).schedClass with
  | .rt => dequeueTaskRt K s p
  | .ras => dequeueTaskRas s p
  | c => dequeueTaskForeign K s c p sleep

/-- `p->sched_class->put_prev_task(rq, p)`. -/
def classPutPrevTask (s : Rq τ Q) (p : τ) : Rq τ Q :=
  match (s.task p).schedClass with
  | .rt => putPrevTaskRt K s
  | .ras => putPrevTaskRas s p
  | c => s.setData (K.putPrevTask c s.view p s.cfs.data)

/-- `p->sched_class->set_curr_task(rq)`, called when `p` is current. -/
def classSetCurrTask (s : Rq τ Q) : Rq τ Q :=
  match (s.task s.curr).schedClass with
  | .rt => setCurrTaskRt s
  | .ras => setCurrTaskRas s
  | c => s.setData (K.setCurrTask c s.view s.cfs.data)

/-- `current->sched_class->yield_task(rq)`. -/
def classYieldTask (s : Rq τ Q) : Rq τ Q :=
  match (s.task s.curr).schedClass with
  | .rt => yieldTaskRt s
  | .ras => yieldTaskRas s
  | c => s.applyEffect (K.yieldTask c s.view s.cfs.data)

/-- `rq->curr->sched_class->check_preempt_curr(rq, p, flags)`. -/
def classCheckPreemptCurr (s : Rq τ Q) (p : τ) (flags : ℕ) : Rq τ Q :=
  match (s.task s.curr).schedClass with
  | .rt => checkPreemptCurrRt s p
  | .ras => checkPreemptCurrRas s p
  | c => s.applyEffect (K.checkPreemptCurr c s.view p flags s.cfs.data)

/-- `curr->sched_class->task_tick(rq, curr, 0)`. -/
def classTaskTick (s : Rq τ Q) : Rq τ Q :=
  match (s.task s.curr).schedClass with
  | .rt => taskTickRt K s s.curr
  | .ras => taskTickRas K s s.curr
  | c => s.applyEffect (K.taskTick c s.view s.curr s.cfs.data)

/-- `prev_class->switched_from(rq, p)`; only classes outside the repository have the callback. -/
def classSwitchedFrom (s : Rq τ Q) (prevClass : SchedClass) (p : τ) : Rq τ Q :=
  match prevClass with
  | .rt => s
  | .ras => s
  | c => s.setData (K.switchedFrom c s.view p s.cfs.data)

/-- `p->sched_class->switched_to(rq, p)`. -/
def classSwitchedTo (s : Rq τ Q) (p : τ) : Rq τ Q :=
  match (s.task p).schedClass with
  | .rt => switchedToRt s p
  | .ras => switchedToRas s p
  | c => s.applyEffect (K.switchedTo c s.view p s.cfs.data)

/-- `p->sched_class->prio_changed(rq, p, oldprio)`. -/
def classPrioChanged (s : Rq τ Q) (p : τ) (oldprio : ℤ) : Rq τ Q :=
  match (s.task p).schedClass with
  | .rt => prioChangedRt s p oldprio
  | .ras => prioChangedRas s p oldprio
  | c => s.applyEffect (K.prioChanged c s.view p oldprio s.cfs.data)

/-- `class->pick_next_task(rq)`; the idle class always has the idle task. -/
def classPickNextTask (s : Rq τ Q) (c : SchedClass) : Pick τ × Rq τ Q :=
  match c with
  | .rt => pickNextTaskRt s
  | .ras => pickNextTaskRas s
  | .idle => (.task s.idle, s.setData (K.pickNextTask .idle s.view s.cfs.data).2)
  | c =>
    match K.pickNextTask c s.view s.cfs.data with
    | (some p, d) => (.task p, s.setData d)
    | (none, d) => (.none, s.setData d)

end ClassCalls

/-! ### Preemption -/

/-- The loop of `check_preempt_curr` over the classes: whether the class of the task is met before
the class of the current task. -/
def preemptsIn (currClass pClass : SchedClass) : List SchedClass → Bool
  | [] => false
  | c :: cs =>
    if c = currClass then false else if c = pClass then true else preemptsIn currClass pClass cs

/-- The comparison of `check_preempt_curr`: within a class by the class, between classes by their
order. -/
def preemptCurr (K : Kernel τ Q) (s : Rq τ Q) (p : τ) (flags : ℕ) : Rq τ Q :=
  if (s.task p).schedClass = (s.task s.curr).schedClass then classCheckPreemptCurr K s p flags
  else if preemptsIn (s.task s.curr).schedClass (s.task p).schedClass forEachClass then
    s.reschedTask s.curr
  else s

def checkPreemptCurr (K : Kernel τ Q) (s : Rq τ Q) (p : τ) (flags : ℕ) : Rq τ Q :=
  let s := preemptCurr K s p flags
  if (s.task s.curr).onRq ∧ s.needResched s.curr then { s with skipClockUpdate := 1 } else s

/-! ### Wakeups -/

/-- `ENQUEUE_WAKEUP`. -/
def enqueueWakeup : EnqueueFlags := { wakeup := true }

/-- `WF_FORK`. -/
def wfFork : ℕ := 2

/-- `TASK_NORMAL`, the mask of interruptible and uninterruptible sleep. -/
def taskNormal : ℕ := 3

def activateTask (K : Kernel τ Q) (s : Rq τ Q) (p : τ) (flags : EnqueueFlags) : Rq τ Q :=
  enqueueTask K s p flags

def deactivateTask (K : Kernel τ Q) (s : Rq τ Q) (p : τ) (sleep : Bool) : Rq τ Q :=
  dequeueTask K s p sleep

def ttwuActivate (K : Kernel τ Q) (s : Rq τ Q) (p : τ) (flags : EnqueueFlags) : Rq τ Q :=
  (activateTask K s p flags).modifyCtl p fun p => { p with onRq := true }

def ttwuDoWakeup (K : Kernel τ Q) (s : Rq τ Q) (p : τ) (flags : ℕ) : Rq τ Q :=
  (checkPreemptCurr K s p flags).modifyCtl p fun p => { p with state := 0 }

/-- `try_to_wake_up`, which returns whether the task was woken. -/
def tryToWakeUp (K : Kernel τ Q) (s : Rq τ Q) (p : τ) (mask flags : ℕ) : Bool × Rq τ Q :=
  if (s.task p).state &&& mask = 0 then (false, s)
  else if (s.task p).onRq then (true, ttwuDoWakeup K s p flags)
  else (true, ttwuDoWakeup K (ttwuActivate K s p enqueueWakeup) p 0)

/-- `try_to_wake_up_local`. -/
def tryToWakeUpLocal (K : Kernel τ Q) (s : Rq τ Q) (p : τ) : Rq τ Q :=
  if p = s.curr then s
  else if (s.task p).state &&& taskNormal = 0 then s
  else
    let s := if !(s.task p).onRq then ttwuActivate K s p enqueueWakeup else s
    ttwuDoWakeup K s p 0

def wakeUpNewTask (K : Kernel τ Q) (s : Rq τ Q) (p : τ) : Rq τ Q :=
  checkPreemptCurr K
    ((activateTask K s p {}).modifyCtl p fun p => { p with onRq := true }) p wfFork

/-! ### Ticks and context switches -/

def schedulerTick (K : Kernel τ Q) (s : Rq τ Q) : Rq τ Q := classTaskTick K (updateRqClock s)

/-- `put_prev_task` of the core. -/
def putPrevTask (K : Kernel τ Q) (s : Rq τ Q) (prev : τ) : Rq τ Q :=
  classPutPrevTask K
    (if (s.task prev).onRq ∨ s.skipClockUpdate < 0 then updateRqClock s else s) prev

/-- The class loop of `pick_next_task`: the first class with a task gives it. -/
def pickFrom (K : Kernel τ Q) (s : Rq τ Q) : List SchedClass → Pick τ × Rq τ Q
  | [] => (.wild, s)
  | c :: cs =>
    match classPickNextTask K s c with
    | (.none, s) => pickFrom K s cs
    | r => r

/-- `pick_next_task`, which asks the fair class first when all tasks are in it. -/
def pickNextTask (K : Kernel τ Q) (s : Rq τ Q) : Pick τ × Rq τ Q :=
  if s.nrRunning = s.cfs.hNrRunning then
    match classPickNextTask K s .fair with
    | (.none, s) => pickFrom K s forEachClass
    | r => r
  else pickFrom K s forEachClass

/-- The part of `__schedule` that takes a task that is about to sleep off the run queue. It is
skipped for a preempted task, a pending signal keeps the task running, and a workqueue worker may
name another one to wake. -/
def schedulePrev (K : Kernel τ Q) (s : Rq τ Q) (preempt signalPending : Bool)
    (toWakeup : Option τ) : Rq τ Q :=
  let prev := s.curr
  if (s.task prev).state ≠ 0 ∧ !preempt then
    if signalPending then s.modifyCtl prev fun p => { p with state := 0 }
    else
      let s := (deactivateTask K s prev true).modifyCtl prev fun p => { p with onRq := false }
      match toWakeup with
      | some w => tryToWakeUpLocal K s w
      | none => s
  else s

/-- `__schedule`, one round of its loop; no value stands for a jump through a pointer that is no
task, and for `BUG`. -/
def schedule (K : Kernel τ Q) (s : Rq τ Q) (preempt signalPending : Bool)
    (toWakeup : Option τ) : Option (Rq τ Q) :=
  let prev := s.curr
  let s := putPrevTask K (schedulePrev K s preempt signalPending toWakeup) prev
  match pickNextTask K s with
  | (.task next, s) =>
    let s := { s with
      needResched := Function.update s.needResched prev false
      skipClockUpdate := 0 }
    some (if prev ≠ next then { s with nrSwitches := s.nrSwitches + 1, curr := next } else s)
  | _ => none

/-- `sched_yield` up to its call of `schedule`. -/
def schedYield (K : Kernel τ Q) (s : Rq τ Q) : Rq τ Q := classYieldTask K s

end OsProject.Sched
