import OsProject.Sched.Types

/-!
# The RAS scheduling class

The callbacks of `ras_sched_class`. One list holds the queued tasks. A task is granted a time
slice by its control group and by its weight, which falls as the number of its traced writes grows.
The slice is granted at every enqueue and at every expiry, and a task whose slice expires goes to
the tail when it does not have the list to itself. Kernel log lines, `schedstat` statistics and
the process accounting of `account_group_exec_runtime` and `cpuacct_charge` are left out: nothing
here reads them.

Source: `kernel/sched/ras.c`.
-/

namespace OsProject.Sched

open Intrusive

variable {τ Q : Type*}

/-! ### Time slices and weights -/

section TimeSlices

variable (hz : ℕ)

/-- `RAS_FG_TIMESLICE`, in ticks. -/
def rasFgTimeslice : ℕ := 50 * hz / 1000

/-- `RAS_BG_TIMESLICE`, in ticks. -/
def rasBgTimeslice : ℕ := 30 * hz / 1000

/-- `RAS_INC_TIME`, in ticks. -/
def rasIncTime : ℕ := 10 * hz / 1000

end TimeSlices

/-- `task_group_path(task_group(p))`. -/
def taskGroupPath (p : TaskStruct) : String := p.schedTaskGroup.path

def calcRasWeight (p : TaskStruct) : ℕ :=
  if p.wcounts.toNat < 1 <<< 4 then 10
  else if p.wcounts.toNat < 1 <<< 5 then 9
  else if p.wcounts.toNat < 1 <<< 6 then 8
  else if p.wcounts.toNat < 1 <<< 7 then 7
  else if p.wcounts.toNat < 1 <<< 8 then 6
  else if p.wcounts.toNat < 1 <<< 9 then 5
  else if p.wcounts.toNat < 1 <<< 10 then 4
  else if p.wcounts.toNat < 1 <<< 11 then 3
  else if p.wcounts.toNat < 1 <<< 12 then 2
  else if p.wcounts.toNat < 1 <<< 13 then 1
  else 0

/-- The slice a task is granted: a base by its group, and an increment for each unit of weight. -/
def rasSlice (hz : ℕ) (p : TaskStruct) : UInt32 :=
  UInt32.ofNat ((if taskGroupPath p = "/" then rasFgTimeslice hz else rasBgTimeslice hz) +
    calcRasWeight p * rasIncTime hz)

/-! ### The run list -/

/-- `on_ras_rq`: whether the node of a task is linked. -/
def onRasRq (s : Rq τ Q) [DecidableEq τ] (p : τ) : Bool := !listEmpty s.ras.links (some p)

section Callbacks

variable [DecidableEq τ]

/-- `init_ras_rq`. -/
def initRasRq (ras : RasRq τ) : RasRq τ where
  links := initListHead ras.links none
  rasNrRunning := 0

/-- The execution time of the current task since its start stamp, not below zero. -/
def deltaExec (s : Rq τ Q) : ℤ :=
  let delta := s.clockTask - (s.task s.curr).se.execStart
  if delta < 0 then 0 else delta

/-- Charge the current task up to now and restart its stamp, as `update_curr_ras` and
`update_curr_rt` both do. -/
def chargeCurr (s : Rq τ Q) : Rq τ Q :=
  s.modifyTask s.curr fun p =>
    { p with se := { p.se with
        sumExecRuntime := p.se.sumExecRuntime + deltaExec s, execStart := s.clockTask } }

def updateCurrRas (s : Rq τ Q) : Rq τ Q :=
  if (s.task s.curr).schedClass ≠ .ras then s else chargeCurr s

def enqueueTaskRas (K : Kernel τ Q) (s : Rq τ Q) (p : τ) (flags : EnqueueFlags) : Rq τ Q :=
  let s := s.modifyTask p fun p =>
    let gp := taskGroupPath p
    let weight := calcRasWeight p
    { p with ras :=
      { weight := weight
        timeSlice :=
          if gp = "/" then UInt32.ofNat (rasFgTimeslice K.hz + weight * rasIncTime K.hz)
          else if gp = "/bg_non_interactive" then
            UInt32.ofNat (rasBgTimeslice K.hz + weight * rasIncTime K.hz)
          else UInt32.ofNat (rasBgTimeslice K.hz + weight * rasIncTime K.hz)
        timeout := if flags.wakeup then 0 else p.ras.timeout } }
  { s with
    ras :=
      { links :=
          if flags.head then listAdd s.ras.links (some p) none
          else listAddTail s.ras.links (some p) none
        rasNrRunning := s.ras.rasNrRunning + 1 }
    nrRunning := s.nrRunning + 1 }

def dequeueTaskRas (s : Rq τ Q) (p : τ) : Rq τ Q :=
  let s := updateCurrRas s
  { s with
    ras :=
      if onRasRq s p then
        { links := listDelInit s.ras.links (some p), rasNrRunning := s.ras.rasNrRunning - 1 }
      else s.ras
    nrRunning := s.nrRunning - 1 }

/-- `pick_next_task_ras`: the task of the first node, whose start stamp is reset. When the
counter is not zero the node is taken for the entity of a task, whatever it is. -/
def pickNextTaskRas (s : Rq τ Q) : Pick τ × Rq τ Q :=
  if s.ras.rasNrRunning = 0 then (.none, s)
  else
    match s.ras.links.next none with
    | none => (.wild, s)
    | some p => (.task p, s.modifyTask p fun p =>
        { p with se := { p.se with execStart := s.clockTask } })

/-- Move the node of a task to the tail, if it is linked. -/
def requeueTaskRas (s : Rq τ Q) (p : τ) : Rq τ Q :=
  if onRasRq s p then { s with ras := { s.ras with links := listMoveTail s.ras.links (some p) none } }
  else s

def putPrevTaskRas (s : Rq τ Q) (p : τ) : Rq τ Q := requeueTaskRas (updateCurrRas s) p

def yieldTaskRas (s : Rq τ Q) : Rq τ Q := requeueTaskRas s s.curr

/-- Recompute the weight of a task. -/
def updateWeight (s : Rq τ Q) (p : τ) : Rq τ Q :=
  s.modifyTask p fun p => { p with ras := { p.ras with weight := calcRasWeight p } }

def checkPreemptCurrRas (s : Rq τ Q) (p : τ) : Rq τ Q :=
  let s := updateWeight (updateWeight s p) s.curr
  if (s.task s.curr).ras.weight < (s.task p).ras.weight then s.reschedTask s.curr else s

def setCurrTaskRas (s : Rq τ Q) : Rq τ Q :=
  s.modifyTask s.curr fun p => { p with se := { p.se with execStart := s.clockTask } }

/-- The number of ticks after which a soft limit on real-time run time is exceeded,
`DIV_ROUND_UP(min(soft, hard), USEC_PER_SEC/HZ)`. -/
def rttimeTicks (hz : ℕ) (rlim : Rlimits) : ℕ :=
  let usecPerTick := 1000000 / hz
  (min rlim.rttimeSoft rlim.rttimeHard + usecPerTick - 1) / usecPerTick

/-- `watchdog` of `ras.c`. -/
def watchdogRas (hz : ℕ) (p : TaskStruct) : TaskStruct :=
  if p.rlim.rttimeSoft ≠ rlimInfinity then
    let timeout := p.ras.timeout + 1
    { p with
      ras := { p.ras with timeout := timeout }
      schedExp := if rttimeTicks hz p.rlim < timeout then p.se.sumExecRuntime else p.schedExp }
  else p

def taskTickRas (K : Kernel τ Q) (s : Rq τ Q) (p : τ) : Rq τ Q :=
  let s := updateCurrRas s
  let s := s.modifyTask p (watchdogRas K.hz)
  let s := s.modifyTask p fun p => { p with ras := { p.ras with timeSlice := p.ras.timeSlice - 1 } }
  if (s.task p).ras.timeSlice ≠ 0 then s
  else
    let s := s.modifyTask p fun p =>
      let gp := taskGroupPath p
      let weight := calcRasWeight p
      { p with ras := { p.ras with
          weight := weight
          timeSlice :=
            if gp = "/" then UInt32.ofNat (rasFgTimeslice K.hz + weight * rasIncTime K.hz)
            else if gp = "/bg_non_interactive" then
              UInt32.ofNat (rasBgTimeslice K.hz + weight * rasIncTime K.hz)
            else UInt32.ofNat (rasBgTimeslice K.hz + weight * rasIncTime K.hz) } }
    if s.ras.links.prev none ≠ s.ras.links.next none then (requeueTaskRas s p).reschedTask p else s

/-- `get_rr_interval_ras`, which grants the task a new slice before it returns it. -/
def getRrIntervalRas (K : Kernel τ Q) (s : Rq τ Q) (p : τ) : UInt32 × Rq τ Q :=
  let s := s.modifyTask p fun p =>
    let gp := taskGroupPath p
    let weight := calcRasWeight p
    { p with ras := { p.ras with
        weight := weight
        timeSlice :=
          if gp = "/" then UInt32.ofNat (rasFgTimeslice K.hz + weight * rasIncTime K.hz)
          else if gp = "/bg_non_interactive" then
            UInt32.ofNat (rasBgTimeslice K.hz + weight * rasIncTime K.hz)
          else UInt32.ofNat (rasBgTimeslice K.hz + weight * rasIncTime K.hz) } }
  ((s.task p).ras.timeSlice, s)

/-- `switched_to_ras`; on a uniprocessor the run queue of `p` is this one. -/
def switchedToRas (s : Rq τ Q) (p : τ) : Rq τ Q :=
  if (s.task p).onRq ∧ s.curr ≠ p then s.reschedTask s.curr else s

/-- `prio_changed_ras` does nothing. -/
def prioChangedRas (s : Rq τ Q) (_p : τ) (_oldprio : ℤ) : Rq τ Q := s

end Callbacks

end OsProject.Sched
