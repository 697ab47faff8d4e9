import Mathlib.Data.Int.Order.Basic
import Mathlib.Data.Finset.Basic
import OsProject.Lib.ListHead

/-!
# Tasks, run queues and scheduling classes

The data of `include/linux/sched.h` and `kernel/sched/sched.h` that the scheduler core, the
real-time class and the RAS class read and write, on a uniprocessor with group scheduling as in
`goldfish_armv7_defconfig`. Tasks are named by the addresses `τ` of their `task_struct`, and the
real-time run queues of the task groups by the paths of the groups above them.

The fields of `task_struct` come in two parts: `TaskControl` has those that only `core.c` writes
(state, policy, class, priorities, group) or only reads (limits), and `TaskStruct` adds those that
the callbacks of the classes write as well (accounting, time slices, write counts).

The classes `stop`, `fair` and `idle` are not in the repository. What the core uses of them is a
parameter, the fields of `Kernel` from `queued` on: their callbacks work on private data `Q` of
the run queue, and the laws state which tasks they hold queued.

Sources: `include/linux/sched.h`, `kernel/sched/sched.h`.
-/

namespace OsProject.Sched

open Intrusive

/-! ### Policies, classes and priorities -/

/-- The scheduling policies, `SCHED_NORMAL` to `SCHED_RAS`. -/
inductive Policy
  | normal | fifo | rr | batch | idle | ras
  deriving DecidableEq, Repr

/-- The policy a system call names by its number; `none` for numbers without a policy. -/
def Policy.ofInt (n : ℤ) : Option Policy :=
  if n = 0 then some .normal
  else if n = 1 then some .fifo
  else if n = 2 then some .rr
  else if n = 3 then some .batch
  else if n = 5 then some .idle
  else if n = 6 then some .ras
  else none

def rtPolicy (policy : Policy) : Bool := policy = .fifo ∨ policy = .rr

/-- The scheduling classes, in the order of the chain of their `next` pointers. -/
inductive SchedClass
  | stop | rt | ras | fair | idle
  deriving DecidableEq, Repr

/-- The `next` pointer of a class. -/
def SchedClass.next : SchedClass → Option SchedClass
  | .stop => some .rt
  | .rt => some .ras
  | .ras => some .fair
  | .fair => some .idle
  | .idle => none

/-- A class and those that follow it, up to the given number. -/
def SchedClass.chain (c : SchedClass) : ℕ → List SchedClass
  | 0 => [c]
  | n + 1 => c :: (c.next.map fun d => d.chain n).getD []

/-- The classes in the order of `for_each_class`, from `sched_class_highest` on. -/
def forEachClass : List SchedClass := SchedClass.stop.chain 4

theorem forEachClass_eq : forEachClass = [.stop, .rt, .ras, .fair, .idle] := rfl

/-- The place of a class in the chain. -/
def SchedClass.rank : SchedClass → ℕ
  | .stop => 0
  | .rt => 1
  | .ras => 2
  | .fair => 3
  | .idle => 4

/-- `MAX_RT_PRIO`, which is `MAX_USER_RT_PRIO`. -/
def maxRtPrio : ℤ := 100

def maxPrio : ℤ := maxRtPrio + 40

def rtPrio (prio : ℤ) : Bool := prio < maxRtPrio

theorem rtPrio_eq_true_iff {prio : ℤ} : rtPrio prio = true ↔ prio < maxRtPrio := by simp [rtPrio]

theorem rtPrio_eq_false_iff {prio : ℤ} : rtPrio prio = false ↔ maxRtPrio ≤ prio := by simp [rtPrio]

def niceToPrio (nice : ℤ) : ℤ := maxRtPrio + nice + 20

def prioToNice (prio : ℤ) : ℤ := prio - maxRtPrio - 20

/-- `RUNTIME_INF`, the runtime of a group without a bandwidth limit. -/
def runtimeInf : ℤ := 0xffffffffffffffff

/-- `RLIM_INFINITY`. -/
def rlimInfinity : ℕ := 0xffffffff

/-! ### Tasks -/

/-- A task group: its control group path, those of the groups above it, from its parent up to the
root task group, which is left out, and the real-time bandwidth it is given. -/
structure TaskGroup where
  path : String
  parents : List String := []
  rtRuntime : ℤ := 0
  isAutogroup : Bool := false
  deriving DecidableEq, Repr

/-- The name of a real-time run queue: the paths of its task group and of the groups above it. The
root task group has the run queue `[]`, and the run queue above `x :: g` is `g`. -/
abbrev RtGroup := List String

/-- `tg->rt_rq`; an autogroup has the run queue of the root task group. -/
def TaskGroup.rtRq (tg : TaskGroup) : RtGroup :=
  if tg.path = "/" ∨ tg.isAutogroup then [] else tg.path :: tg.parents

/-- The resource limits the scheduler reads. -/
structure Rlimits where
  rttimeSoft : ℕ := rlimInfinity
  rttimeHard : ℕ := rlimInfinity
  rtprio : ℕ := 0
  nice : ℕ := 0
  deriving DecidableEq, Repr

/-- The fields of `task_struct` that only the scheduler core writes, and the limits that it reads. -/
structure TaskControl where
  /-- `0` when runnable, otherwise the set of wakeups the task waits for. -/
  state : ℕ := 0
  onRq : Bool := false
  prio : ℤ := niceToPrio 0
  staticPrio : ℤ := niceToPrio 0
  normalPrio : ℤ := niceToPrio 0
  rtPriority : ℕ := 0
  policy : Policy := .normal
  schedClass : SchedClass := .fair
  schedResetOnFork : Bool := false
  schedTaskGroup : TaskGroup := { path := "/" }
  /-- The priority of the first of `pi_waiters`, the tasks waiting for a lock this task holds. -/
  piTopWaiter : Option ℤ := none
  /-- Whether the task has an address space of its own, `p->mm`. -/
  mm : Bool := true
  rlim : Rlimits := {}
  deriving DecidableEq, Repr

/-- The part of `struct sched_entity` that the real-time and RAS classes use. -/
structure SchedEntity where
  execStart : ℤ := 0
  sumExecRuntime : ℤ := 0
  deriving DecidableEq, Repr

structure SchedRtEntity where
  timeout : ℕ := 0
  timeSlice : UInt32 := 0
  deriving DecidableEq, Repr

/-- `struct sched_ras_entity`; its `run_list` node is the node `some p` of the links of the
RAS run queue. -/
structure SchedRasEntity where
  timeout : ℕ := 0
  timeSlice : UInt32 := 0
  weight : ℕ := 0
  deriving DecidableEq, Repr

structure TaskStruct extends TaskControl where
  /-- The number of traced writes, as counted by the page fault path. -/
  wcounts : UInt32 := 0
  traceFlag : ℤ := 0
  se : SchedEntity := {}
  rt : SchedRtEntity := {}
  ras : SchedRasEntity := {}
  /-- `cputime_expires.sched_exp`. -/
  schedExp : ℤ := 0
  deriving DecidableEq, Repr

/-! ### Run queues -/

/-- A real-time entity: that of a task, or `tg->rt_se` of a task group. -/
inductive RtEntity (τ : Type*)
  | task (p : τ)
  | group (g : RtGroup)
  deriving DecidableEq

/-- `struct rt_rq`. The entities of the tasks of a group and those of the groups directly below it
hang off the run queue of the group. -/
structure RtRq (τ : Type*) where
  /-- `active.queue`; the bit of a priority is set when its queue is nonempty. -/
  queue : ℤ → List (RtEntity τ) := fun _ => []
  rtNrRunning : ℤ := 0
  highestPrio : ℤ := maxRtPrio
  rtThrottled : Bool := false
  rtTime : ℤ := 0
  rtRuntime : ℤ := runtimeInf
  rtPeriod : ℤ := 0
  rtNrBoosted : ℤ := 0

/-- The real-time run queues: `rq->rt`, which is that of the root task group, and those of the other
groups. -/
structure RtRqs (τ : Type*) where
  rq : RtGroup → RtRq τ := fun _ => {}
  /-- `rq->leaf_rt_rq_list`, the run queues with entities queued. -/
  leafRtRqList : List RtGroup := []

/-- `struct ras_rq`. The node `none` of the links is the list head `run_list`, the node `some p`
is `p->ras.run_list`. -/
structure RasRq (τ : Type*) where
  links : Links (Option τ)
  rasNrRunning : ℤ

/-- The part of `struct cfs_rq` the core reads, and the private data of the classes that are not
in the repository. -/
structure CfsRq (Q : Type*) where
  hNrRunning : ℤ
  data : Q

/-- `struct rq`, with the task structures and the `TIF_NEED_RESCHED` flags of all tasks. -/
structure Rq (τ Q : Type*) where
  nrRunning : ℤ
  cfs : CfsRq Q
  rt : RtRqs τ
  ras : RasRq τ
  curr : τ
  idle : τ
  stop : Option τ
  /-- What `sched_clock_cpu` returns. -/
  schedClock : ℤ
  clock : ℤ
  clockTask : ℤ
  skipClockUpdate : ℤ
  nrSwitches : ℕ
  task : τ → TaskStruct
  needResched : τ → Bool

/-- The flags of `enqueue_task`; `ENQUEUE_WAKING` is `0` on a uniprocessor. -/
structure EnqueueFlags where
  wakeup : Bool := false
  head : Bool := false
  deriving DecidableEq, Repr

/-- What a `pick_next_task` callback returns: no task, a task, or a pointer that is no task (the
list head taken for an entity, or the end of a function that must not be reached). -/
inductive Pick (τ : Type*)
  | none
  | task (p : τ)
  | wild
  deriving DecidableEq, Repr

/-! ### The kernel configuration and the classes outside the repository -/

/-- What the callbacks of a class outside the repository see of the run queue. -/
structure ForeignView (τ : Type*) where
  ctl : τ → TaskControl
  curr : τ
  clockTask : ℤ

/-- What such a callback does to the run queue: new private data, whether it calls
`resched_task(rq->curr)`, and whether it sets `rq->skip_clock_update`. -/
structure ForeignEffect (Q : Type*) where
  data : Q
  resched : Bool := false
  skipClock : Bool := false

/-- The tick frequency, the real-time bandwidth switch and the callbacks of the classes `stop`,
`fair` and `idle`, with the laws of Linux 3.4 that the core relies on. The tick frequency is such
that every slice has a tick and the products of the slice macros fit an `int`. -/
structure Kernel (τ Q : Type*) [DecidableEq τ] where
  hz : ℕ
  one_le_slice : 1 ≤ 30 * hz / 1000
  slice_fits : 100 * hz < 0x80000000
  sysctlSchedRtRuntime : ℤ
  /-- The class, of those outside the repository, in which a task is queued. -/
  queued : Q → τ → Option SchedClass
  enqueueTask : SchedClass → ForeignView τ → τ → EnqueueFlags → Q → Q
  /-- The flag is `DEQUEUE_SLEEP`. -/
  dequeueTask : SchedClass → ForeignView τ → τ → Bool → Q → Q
  putPrevTask : SchedClass → ForeignView τ → τ → Q → Q
  setCurrTask : SchedClass → ForeignView τ → Q → Q
  pickNextTask : SchedClass → ForeignView τ → Q → Option τ × Q
  yieldTask : SchedClass → ForeignView τ → Q → ForeignEffect Q
  checkPreemptCurr : SchedClass → ForeignView τ → τ → ℕ → Q → ForeignEffect Q
  taskTick : SchedClass → ForeignView τ → τ → Q → ForeignEffect Q
  taskFork : SchedClass → ForeignView τ → τ → Q → ForeignEffect Q
  taskMoveGroup : SchedClass → ForeignView τ → τ → Bool → Q → Q
  switchedFrom : SchedClass → ForeignView τ → τ → Q → Q
  switchedTo : SchedClass → ForeignView τ → τ → Q → ForeignEffect Q
  prioChanged : SchedClass → ForeignView τ → τ → ℤ → Q → ForeignEffect Q
  getRrInterval : SchedClass → ForeignView τ → τ → Q → UInt32
  queued_enqueueTask : ∀ c v p f q,
    queued (enqueueTask c v p f q) = Function.update (queued q) p (some c)
  queued_dequeueTask : ∀ c v p f q,
    queued (dequeueTask c v p f q) = Function.update (queued q) p none
  queued_putPrevTask : ∀ c v p q, queued (putPrevTask c v p q) = queued q
  queued_setCurrTask : ∀ c v q, queued (setCurrTask c v q) = queued q
  queued_pickNextTask : ∀ c v q, queued (pickNextTask c v q).2 = queued q
  queued_yieldTask : ∀ c v q, queued (yieldTask c v q).data = queued q
  queued_checkPreemptCurr : ∀ c v p f q, queued (checkPreemptCurr c v p f q).data = queued q
  queued_taskTick : ∀ c v p q, queued (taskTick c v p q).data = queued q
  queued_taskFork : ∀ c v p q, queued (taskFork c v p q).data = queued q
  queued_taskMoveGroup : ∀ c v p f q, queued (taskMoveGroup c v p f q) = queued q
  queued_switchedFrom : ∀ c v p q, queued (switchedFrom c v p q) = queued q
  queued_switchedTo : ∀ c v p q, queued (switchedTo c v p q).data = queued q
  queued_prioChanged : ∀ c v p o q, queued (prioChanged c v p o q).data = queued q
  /-- A class picks one of its queued tasks. -/
  pick_some : ∀ c v q p, (pickNextTask c v q).1 = some p → queued q p = some c
  /-- A class picks a task unless it has none queued. -/
  pick_none : ∀ c v q, (pickNextTask c v q).1 = none → ∀ p, queued q p ≠ some c
  /-- `switched_to_fair` reschedules when the task is current. -/
  switchedTo_curr : ∀ v q, (v.ctl v.curr).onRq = true →
    (switchedTo .fair v v.curr q).resched = true
  /-- `switched_to_fair` otherwise checks for preemption, which the idle task always loses. -/
  switchedTo_idle : ∀ v p q, (v.ctl p).onRq = true → (v.ctl v.curr).schedClass = .idle →
    (switchedTo .fair v p q).resched = true

/-- `rt_bandwidth_enabled()`. -/
def Kernel.rtBandwidthEnabled {τ Q : Type*} [DecidableEq τ] (K : Kernel τ Q) : Bool :=
  0 ≤ K.sysctlSchedRtRuntime

namespace Rq

variable {τ Q : Type*}

/-- The control fields of all tasks. -/
def ctl (s : Rq τ Q) (t : τ) : TaskControl := (s.task t).toTaskControl

/-- What a callback of a class outside the repository sees. -/
def view (s : Rq τ Q) : ForeignView τ := { ctl := s.ctl, curr := s.curr, clockTask := s.clockTask }

variable [DecidableEq τ]

/-- Write the `task_struct` of `p`. -/
def modifyTask (s : Rq τ Q) (p : τ) (f : TaskStruct → TaskStruct) : Rq τ Q :=
  { s with task := Function.update s.task p (f (s.task p)) }

/-- Write the control fields of `p`. -/
def modifyCtl (s : Rq τ Q) (p : τ) (f : TaskControl → TaskControl) : Rq τ Q :=
  s.modifyTask p fun t => { t with toTaskControl := f t.toTaskControl }

/-- `resched_task`: mark a task to be rescheduled now. -/
def reschedTask (s : Rq τ Q) (p : τ) : Rq τ Q :=
  { s with needResched := Function.update s.needResched p true }

/-- Carry out what a callback of a class outside the repository does. -/
def applyEffect (s : Rq τ Q) (e : ForeignEffect Q) : Rq τ Q :=
  let s := { s with
    cfs := { s.cfs with data := e.data }
    skipClockUpdate := if e.skipClock then 1 else s.skipClockUpdate }
  if e.resched then s.reschedTask s.curr else s

/-- Replace the private data of the classes outside the repository. -/
def setData (s : Rq τ Q) (d : Q) : Rq τ Q := { s with cfs := { s.cfs with data := d } }

end Rq

end OsProject.Sched
