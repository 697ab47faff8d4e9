import OsProject.Sched.Core

/-!
# The scheduler core: priorities, policies, groups and forks

The paths of the core that change what a task is scheduled by: priority inheritance, nice values,
scheduling policies, task groups, and the set-up of a forked task. All of them but the last take
a queued task off the run queue, change it and queue it again.

`kernel/rtmutex.c` and `kernel/fork.c` are not in the repository. `rtMutexGetprio`,
`rtMutexAdjustPrio` and `dupTaskStruct` are what the core relies on of them: the priority a task
inherits is the best of its own and of the first of its waiters, `rt_mutex_setprio` is called
with that priority, and a child starts as a copy of its parent's `task_struct`.

Source: `kernel/sched/core.c`.
-/

namespace OsProject.Sched

open Intrusive

variable {τ Q : Type*} [DecidableEq τ]

/-! ### Priorities -/

def normalPrio (p : TaskControl) : ℤ :=
  if rtPolicy p.policy then maxRtPrio - 1 - p.rtPriority else p.staticPrio

/-- `effective_prio`, with the task it has written the normal priority to. -/
def effectivePrio (p : TaskControl) : ℤ × TaskControl :=
  let p := { p with normalPrio := normalPrio p }
  (if !rtPrio p.prio then p.normalPrio else p.prio, p)

/-- `rt_mutex_getprio`. -/
def rtMutexGetprio (p : TaskControl) : ℤ :=
  match p.piTopWaiter with
  | none => p.normalPrio
  | some w => min w p.normalPrio

/-- The class by policy and priority, as `rt_mutex_setprio` and `__setscheduler` choose it. -/
def classFor (policy : Policy) (prio : ℤ) : SchedClass :=
  if policy = .ras then .ras else if rtPrio prio then .rt else .fair

/-! ### Changes to queued tasks -/

/-- Dequeue `p` if it is queued, change it and queue it again. Callers that change its class or
group also tell the class when `p` is running. -/
def withTaskOffRq (K : Kernel τ Q) (s : Rq τ Q) (p : τ) (running : Bool)
    (change : Rq τ Q → Rq τ Q) (flags : EnqueueFlags) : Rq τ Q :=
  let onRq := (s.task p).onRq
  let s := if onRq then dequeueTask K s p false else s
  let s := if running then classPutPrevTask K s p else s
  let s := change s
  let s := if running then classSetCurrTask K s else s
  if onRq then enqueueTask K s p flags else s

def checkClassChanged (K : Kernel τ Q) (s : Rq τ Q) (p : τ) (prevClass : SchedClass)
    (oldprio : ℤ) : Rq τ Q :=
  if prevClass ≠ (s.task p).schedClass then classSwitchedTo K (classSwitchedFrom K s prevClass p) p
  else if oldprio ≠ (s.task p).prio then classPrioChanged K s p oldprio
  else s

def rtMutexSetprio (K : Kernel τ Q) (s : Rq τ Q) (p : τ) (prio : ℤ) : Rq τ Q :=
  if p = s.idle then s
  else
    let oldprio := (s.task p).prio
    let prevClass := (s.task p).schedClass
    let s := withTaskOffRq K s p (s.curr = p)
      (fun s => s.modifyCtl p fun p =>
        { p with schedClass := classFor p.policy prio, prio := prio })
      { head := oldprio < prio }
    checkClassChanged K s p prevClass oldprio

/-- The first waiter of a task changes, and `__rt_mutex_adjust_prio` gives the task the priority
it now inherits. -/
def rtMutexAdjustPrio (K : Kernel τ Q) (s : Rq τ Q) (p : τ) (waiter : Option ℤ) : Rq τ Q :=
  let s := s.modifyCtl p fun p => { p with piTopWaiter := waiter }
  if (s.task p).prio ≠ rtMutexGetprio (s.ctl p) then
    rtMutexSetprio K s p (rtMutexGetprio (s.ctl p))
  else s

/-- What `set_user_nice` writes to a task without a real-time policy. -/
def reniced (nice : ℤ) (p : TaskControl) : TaskControl :=
  let (prio, p) := effectivePrio { p with staticPrio := niceToPrio nice }
  { p with prio := prio }

def setUserNice (K : Kernel τ Q) (s : Rq τ Q) (p : τ) (nice : ℤ) : Rq τ Q :=
  if prioToNice (s.task p).staticPrio = nice ∨ nice < -20 ∨ 19 < nice then s
  else if rtPolicy (s.task p).policy then
    s.modifyCtl p fun p => { p with staticPrio := niceToPrio nice }
  else
    let onRq := (s.task p).onRq
    let oldPrio := (s.task p).prio
    let s := withTaskOffRq K s p false (fun s => s.modifyCtl p (reniced nice)) {}
    let delta := (s.task p).prio - oldPrio
    if onRq ∧ (delta < 0 ∨ (0 < delta ∧ s.curr = p)) then s.reschedTask s.curr else s

/-! ### Scheduling policies -/

/-- `EPERM`. -/
def eperm : ℤ := 1

/-- `EINVAL`. -/
def einval : ℤ := 22

/-- `SCHED_RESET_ON_FORK`, a flag in the policy argument. -/
def schedResetOnForkFlag : ℤ := 0x40000000

/-- `__setscheduler`. -/
def setschedulerCtl (policy : Policy) (prio : ℤ) (p : TaskControl) : TaskControl :=
  let p := { p with policy := policy, rtPriority := prio.toNat }
  let p := { p with normalPrio := normalPrio p }
  let p := { p with prio := rtMutexGetprio p }
  { p with schedClass := classFor policy p.prio }

/-- Who calls `sched_setscheduler`: whether it is capable of `CAP_SYS_NICE` and owns the target,
and what `security_task_setscheduler` returns. -/
structure Caller where
  capSysNice : Bool := false
  sameOwner : Bool := true
  security : ℤ := 0
  deriving DecidableEq, Repr

/-- `can_nice`. -/
def canNice (caller : Caller) (p : TaskStruct) (nice : ℤ) : Bool :=
  20 - nice ≤ p.rlim.nice ∨ caller.capSysNice

/-- The permission checks of `__sched_setscheduler` for a caller without `CAP_SYS_NICE`. -/
def unprivilegedMay (caller : Caller) (p : TaskStruct) (policy : Policy) (resetOnFork : Bool)
    (prio : ℤ) : Bool :=
  -- can't set or change the rt policy, can't increase priority
  !(rtPolicy policy ∧ policy ≠ p.policy ∧ p.rlim.rtprio = 0) ∧
  !(rtPolicy policy ∧ (p.rtPriority : ℤ) < prio ∧ (p.rlim.rtprio : ℤ) < prio) ∧
  -- `SCHED_IDLE` is treated as nice 20
  !(p.policy = .idle ∧ policy ≠ .idle ∧ !canNice caller p (prioToNice p.staticPrio)) ∧
  caller.sameOwner ∧
  !(p.schedResetOnFork ∧ !resetOnFork)

/-- The policy and the reset flag that a call asks for; a negative policy keeps both. -/
def requested (p : TaskControl) (policy : ℤ) : Option (Policy × Bool) :=
  if policy < 0 then some (p.policy, p.schedResetOnFork)
  else
    let resetOnFork : Bool := policy / schedResetOnForkFlag % 2 = 1
    let policy := if resetOnFork then policy - schedResetOnForkFlag else policy
    (Policy.ofInt policy).map fun policy => (policy, resetOnFork)

/-- The range checks on the priority argument. -/
def validParam (p : TaskControl) (policy : Policy) (prio : ℤ) : Bool :=
  !(prio < 0 ∨ (p.mm ∧ maxRtPrio - 1 < prio) ∨ (!p.mm ∧ maxRtPrio - 1 < prio)) ∧
  rtPolicy policy = decide (prio ≠ 0)

/-- The call changes nothing. -/
def setschedulerNoChange (p : TaskControl) (policy : Policy) (prio : ℤ) : Bool :=
  policy = p.policy ∧ (!rtPolicy policy ∨ prio = p.rtPriority)

/-- The group of the task has no real-time run time to give. -/
def rtGroupForbids (K : Kernel τ Q) (p : TaskControl) (policy : Policy) : Bool :=
  K.rtBandwidthEnabled ∧ rtPolicy policy ∧ p.schedTaskGroup.rtRuntime = 0 ∧
    !p.schedTaskGroup.isAutogroup

/-- The part of `__sched_setscheduler` that changes the task. -/
def changePolicy (K : Kernel τ Q) (s : Rq τ Q) (p : τ) (policy : Policy) (resetOnFork : Bool)
    (prio : ℤ) : Rq τ Q :=
  let oldprio := (s.task p).prio
  let prevClass := (s.task p).schedClass
  let s := withTaskOffRq K s p (s.curr = p)
    (fun s => s.modifyCtl p fun p =>
      setschedulerCtl policy prio { p with schedResetOnFork := resetOnFork }) {}
  checkClassChanged K s p prevClass oldprio

/-- The checks of `__sched_setscheduler`: the value to return at once, or the policy and the reset
flag to set. Nothing runs between the checks and the lock, so that the policy that was read is
still the policy of the task. -/
def setschedulerCheck (K : Kernel τ Q) (s : Rq τ Q) (caller : Caller) (p : τ) (policy prio : ℤ)
    (user : Bool) : Except ℤ (Policy × Bool) :=
  match requested (s.ctl p) policy with
  | none => .error (-einval)
  | some (policy, resetOnFork) =>
    if !validParam (s.ctl p) policy prio then .error (-einval)
    else if user ∧ !caller.capSysNice ∧
        !unprivilegedMay caller (s.task p) policy resetOnFork prio then .error (-eperm)
    else if user ∧ caller.security ≠ 0 then .error caller.security
    else if s.stop = some p then .error (-einval)
    else if setschedulerNoChange (s.ctl p) policy prio then .error 0
    else if user ∧ rtGroupForbids K (s.ctl p) policy then .error (-eperm)
    else .ok (policy, resetOnFork)

/-- `__sched_setscheduler` with what it returns. -/
def schedSetscheduler (K : Kernel τ Q) (s : Rq τ Q) (caller : Caller) (p : τ) (policy prio : ℤ)
    (user : Bool) : ℤ × Rq τ Q :=
  match setschedulerCheck K s caller p policy prio user with
  | .error r => (r, s)
  | .ok (policy, resetOnFork) => (0, changePolicy K s p policy resetOnFork prio)

/-! ### Task groups and queries -/

/-- `p->sched_class->task_move_group(p, on_rq)`; only the fair class has the callback. -/
def classTaskMoveGroup (K : Kernel τ Q) (s : Rq τ Q) (p : τ) (onRq : Bool) : Rq τ Q :=
  match (s.task p).schedClass with
  | .rt => s
  | .ras => s
  | c => s.setData (K.taskMoveGroup c s.view p onRq s.cfs.data)

/-- `sched_move_task` of a task whose control group is now `tg`. -/
def schedMoveTask (K : Kernel τ Q) (s : Rq τ Q) (p : τ) (tg : TaskGroup) : Rq τ Q :=
  withTaskOffRq K s p (s.curr = p)
    (fun t => classTaskMoveGroup K (t.modifyCtl p fun p => { p with schedTaskGroup := tg }) p
      (s.task p).onRq) {}

/-- `sys_sched_rr_get_interval`: the slice it reports, and the state it leaves. -/
def schedRrGetInterval (K : Kernel τ Q) (s : Rq τ Q) (p : τ) : UInt32 × Rq τ Q :=
  match (s.task p).schedClass with
  | .rt => (getRrIntervalRt K.hz (s.task p), s)
  | .ras => getRrIntervalRas K s p
  | c => (K.getRrInterval c s.view p s.cfs.data, s)

/-! ### Forks -/

/-- `dup_task_struct`: the child is a copy of the current task, also of its list nodes, except
that it is not marked to be rescheduled and holds no lock. -/
def dupTaskStruct (s : Rq τ Q) (child : τ) : Rq τ Q :=
  let parent := s.task s.curr
  { s with
    task := Function.update s.task child { parent with piTopWaiter := none }
    ras := { s.ras with links := copyNode s.ras.links (some s.curr) (some child) }
    needResched := Function.update s.needResched child false }

/-- `__sched_fork`; an initialised node is on no list. -/
def schedForkInit (s : Rq τ Q) (p : τ) : Rq τ Q :=
  let s := s.modifyTask p fun p => { p with onRq := false, se := {} }
  { s with ras := { s.ras with links := initListHead s.ras.links (some p) } }

/-- The control fields that `sched_fork` gives a child whose parent has the given priority. -/
def forkedCtl (parentNormalPrio : ℤ) (p : TaskControl) : TaskControl :=
  let p := { p with state := 0, prio := parentNormalPrio }
  let p :=
    if p.schedResetOnFork then
      let p :=
        if rtPolicy p.policy then
          { p with policy := .normal, staticPrio := niceToPrio 0, rtPriority := 0 }
        else if prioToNice p.staticPrio < 0 then { p with staticPrio := niceToPrio 0 }
        else p
      { p with prio := p.staticPrio, normalPrio := p.staticPrio, schedResetOnFork := false }
    else p
  if !rtPrio p.prio then { p with schedClass := .fair } else p

/-- `p->sched_class->task_fork(p)`; only the fair class has the callback. -/
def classTaskFork (K : Kernel τ Q) (s : Rq τ Q) (p : τ) : Rq τ Q :=
  match (s.task p).schedClass with
  | .rt => s
  | .ras => s
  | c => s.applyEffect (K.taskFork c s.view p s.cfs.data)

/-- The fork callbacks leave the tasks and the clocks alone. -/
theorem classTaskFork_eq (K : Kernel τ Q) (s : Rq τ Q) (p : τ) :
    (classTaskFork K s p).task = s.task ∧ (classTaskFork K s p).clockTask = s.clockTask ∧
      (classTaskFork K s p).curr = s.curr := by
  rw [classTaskFork]
  split
  · exact ⟨rfl, rfl, rfl⟩
  · exact ⟨rfl, rfl, rfl⟩
  · rw [Rq.applyEffect]
    dsimp only
    split <;> exact ⟨rfl, rfl, rfl⟩

def schedFork (K : Kernel τ Q) (s : Rq τ Q) (p : τ) : Rq τ Q :=
  let s := schedForkInit s p
  classTaskFork K (s.modifyCtl p (forkedCtl (s.task s.curr).normalPrio)) p

/-- `fork` of the current task. -/
def fork (K : Kernel τ Q) (s : Rq τ Q) (child : τ) : Rq τ Q :=
  schedFork K (dupTaskStruct s child) child

end OsProject.Sched
