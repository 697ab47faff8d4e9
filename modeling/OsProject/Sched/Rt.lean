import OsProject.Sched.Ras

/-!
# The real-time scheduling class

The callbacks of `rt_sched_class` on a uniprocessor: a list of entities for each priority in the run
queue of each task group, the best priority queued, the number of boosted entities, and the
bandwidth control that throttles a group until its period timer gives it new run time. The entity of
a group hangs off the run queue of the group above it, at the best priority of its own run queue, as
long as the group has an entity queued and is not throttled.

Source: `kernel/sched/rt.c`.
-/

namespace OsProject.Sched

variable {τ Q : Type*}

/-- `RR_TIMESLICE`, in ticks. -/
def rrTimeslice (hz : ℕ) : ℕ := 100 * hz / 1000

/-- The bandwidth of the group is used up and no boosted entity is queued. -/
def rtRqThrottled (q : RtRq τ) : Bool := q.rtThrottled && q.rtNrBoosted == 0

/-! ### Entities -/

/-- A task runs at a priority that is not its own. -/
def rtTaskBoosted (p : TaskControl) : Bool := p.prio ≠ p.normalPrio

/-- `rt_se_boosted`. -/
def rtSeBoosted (rt : RtRqs τ) (ctl : τ → TaskControl) : RtEntity τ → Bool
  | .task p => rtTaskBoosted (ctl p)
  | .group g => (rt.rq g).rtNrBoosted ≠ 0

/-- `rt_se_prio`. -/
def rtSePrio (rt : RtRqs τ) (ctl : τ → TaskControl) : RtEntity τ → ℤ
  | .task p => (ctl p).prio
  | .group g => (rt.rq g).highestPrio

/-- `rt_rq_of_se`, which `set_task_rq` sets for a task. -/
def rtRqOfSe (ctl : τ → TaskControl) : RtEntity τ → RtGroup
  | .task p => (ctl p).schedTaskGroup.rtRq
  | .group g => g.tail

/-- The entities of a group and of those above it; the root task group has none. -/
def groupEntities : RtGroup → List (RtEntity τ)
  | [] => []
  | x :: g => .group (x :: g) :: groupEntities g

/-- `for_each_sched_rt_entity`. -/
def forEachSchedRtEntity (ctl : τ → TaskControl) : RtEntity τ → List (RtEntity τ)
  | .task p => .task p :: groupEntities (rtRqOfSe ctl (.task p))
  | .group g => groupEntities g

/-! ### The priority arrays -/

/-- The first priority with a queued entity; the delimiter of the bitmap is `MAX_RT_PRIO`. -/
def schedFindFirstBit (q : RtRq τ) : ℤ :=
  match (List.range 100).find? fun i : ℕ => !(q.queue i).isEmpty with
  | some i => i
  | none => maxRtPrio

/-- `inc_rt_tasks` of an entity with the given priority. -/
def incRtTasks (prio : ℤ) (boosted : Bool) (q : RtRq τ) : RtRq τ :=
  { q with
    rtNrRunning := q.rtNrRunning + 1
    highestPrio := if prio < q.highestPrio then prio else q.highestPrio
    rtNrBoosted := if boosted then q.rtNrBoosted + 1 else q.rtNrBoosted }

def decRtTasks (prio : ℤ) (boosted : Bool) (q : RtRq τ) : RtRq τ :=
  { q with
    rtNrRunning := q.rtNrRunning - 1
    highestPrio :=
      if q.rtNrRunning - 1 ≠ 0 then
        if prio = q.highestPrio then schedFindFirstBit q else q.highestPrio
      else maxRtPrio
    rtNrBoosted := if boosted then q.rtNrBoosted - 1 else q.rtNrBoosted }

/-- A group without a queued entity, or one that is throttled, is not queued itself. -/
def rtSeQueueable (rt : RtRqs τ) : RtEntity τ → Bool
  | .task _ => true
  | .group g => !rtRqThrottled (rt.rq g) && (rt.rq g).rtNrRunning != 0

section PriorityArrays

variable [DecidableEq τ]

/-- `on_rt_rq`: whether the node of an entity is linked. -/
def onRtRq (rt : RtRqs τ) (ctl : τ → TaskControl) (e : RtEntity τ) : Bool :=
  (List.range 100).any fun i : ℕ => e ∈ (rt.rq (rtRqOfSe ctl e)).queue i

/-- `__enqueue_rt_entity`. -/
def enqueueOneRtEntity (rt : RtRqs τ) (ctl : τ → TaskControl) (e : RtEntity τ) (head : Bool) :
    RtRqs τ :=
  if rtSeQueueable rt e then
    let g := rtRqOfSe ctl e
    let prio := rtSePrio rt ctl e
    let queue := (rt.rq g).queue prio
    { rq := Function.update rt.rq g (incRtTasks prio (rtSeBoosted rt ctl e)
        { rt.rq g with
          queue := Function.update (rt.rq g).queue prio (if head then e :: queue else queue ++ [e]) })
      leafRtRqList :=
        if (rt.rq g).rtNrRunning = 0 then g :: rt.leafRtRqList else rt.leafRtRqList }
  else rt

/-- `__dequeue_rt_entity`. -/
def dequeueOneRtEntity (rt : RtRqs τ) (ctl : τ → TaskControl) (e : RtEntity τ) : RtRqs τ :=
  let g := rtRqOfSe ctl e
  let q := decRtTasks (rtSePrio rt ctl e) (rtSeBoosted rt ctl e)
    { rt.rq g with queue := fun i => ((rt.rq g).queue i).erase e }
  { rq := Function.update rt.rq g q
    leafRtRqList := if q.rtNrRunning = 0 then rt.leafRtRqList.erase g else rt.leafRtRqList }

/-- `dequeue_rt_stack`: the entity and those above it are taken off, from the top down, because
the priority of an upper one depends on the lower ones. -/
def dequeueRtStack (rt : RtRqs τ) (ctl : τ → TaskControl) (e : RtEntity τ) : RtRqs τ :=
  (forEachSchedRtEntity ctl e).foldr
    (fun e rt => if onRtRq rt ctl e then dequeueOneRtEntity rt ctl e else rt) rt

def enqueueRtEntity (rt : RtRqs τ) (ctl : τ → TaskControl) (e : RtEntity τ) (head : Bool) :
    RtRqs τ :=
  (forEachSchedRtEntity ctl e).foldl (fun rt e => enqueueOneRtEntity rt ctl e head)
    (dequeueRtStack rt ctl e)

/-- The loop of `dequeue_rt_entity`: a group that has an entity left is queued again. -/
def enqueueRemaining (rt : RtRqs τ) (ctl : τ → TaskControl) : RtEntity τ → RtRqs τ
  | .task _ => rt
  | .group g =>
    if (rt.rq g).rtNrRunning ≠ 0 then enqueueOneRtEntity rt ctl (.group g) false else rt

def dequeueRtEntity (rt : RtRqs τ) (ctl : τ → TaskControl) (e : RtEntity τ) : RtRqs τ :=
  (forEachSchedRtEntity ctl e).foldl (fun rt e => enqueueRemaining rt ctl e)
    (dequeueRtStack rt ctl e)

/-- `requeue_rt_entity` to the tail. -/
def requeueRtEntity (rt : RtRqs τ) (ctl : τ → TaskControl) (e : RtEntity τ) : RtRqs τ :=
  if onRtRq rt ctl e then
    let g := rtRqOfSe ctl e
    let prio := rtSePrio rt ctl e
    { rt with
      rq := Function.update rt.rq g
        { rt.rq g with
          queue := Function.update (rt.rq g).queue prio
            (((rt.rq g).queue prio).erase e ++ [e]) } }
  else rt

end PriorityArrays

/-! ### Bandwidth -/

/-- Write the run queue of a group. -/
def RtRqs.modify (rt : RtRqs τ) (g : RtGroup) (f : RtRq τ → RtRq τ) : RtRqs τ :=
  { rt with rq := Function.update rt.rq g (f (rt.rq g)) }

variable [DecidableEq τ]

/-- `sched_rt_rq_dequeue`; the root task group has no entity to dequeue. -/
def schedRtRqDequeue (rt : RtRqs τ) (ctl : τ → TaskControl) (g : RtGroup) : RtRqs τ :=
  if g ≠ [] ∧ onRtRq rt ctl (.group g) then dequeueRtEntity rt ctl (.group g) else rt

/-- `sched_rt_runtime_exceeded`. The runtime is also that of the bandwidth of the group: there is
no other processor to balance it with. -/
def schedRtRuntimeExceeded (rt : RtRqs τ) (ctl : τ → TaskControl) (g : RtGroup) :
    Bool × RtRqs τ :=
  if (rt.rq g).rtThrottled then (rtRqThrottled (rt.rq g), rt)
  else if (rt.rq g).rtPeriod ≤ (rt.rq g).rtRuntime then (false, rt)
  else if (rt.rq g).rtRuntime = runtimeInf then (false, rt)
  else if (rt.rq g).rtRuntime < (rt.rq g).rtTime then
    let rt := rt.modify g fun q =>
      if q.rtRuntime ≠ 0 then { q with rtThrottled := true } else { q with rtTime := 0 }
    if rtRqThrottled (rt.rq g) then (true, schedRtRqDequeue rt ctl g) else (false, rt)
  else (false, rt)

/-- `sched_rt_rq_enqueue`; the root task group has no entity to enqueue. -/
def schedRtRqEnqueue (s : Rq τ Q) (g : RtGroup) : Rq τ Q :=
  if (s.rt.rq g).rtNrRunning ≠ 0 then
    let s :=
      if g ≠ [] ∧ !onRtRq s.rt s.ctl (.group g) then
        { s with rt := enqueueRtEntity s.rt s.ctl (.group g) false }
      else s
    if (s.rt.rq g).highestPrio < (s.task s.curr).prio then s.reschedTask s.curr else s
  else s

/-- What `do_sched_rt_period_timer` does before it queues the group again: whether the group is
idle, whether to queue it, and the run queue with the new run time. -/
def rtReplenish (s : Rq τ Q) (g : RtGroup) (overrun : ℕ) : Bool × Bool × Rq τ Q :=
  let q := s.rt.rq g
  if q.rtTime ≠ 0 then
    let rtTime := q.rtTime - min q.rtTime (overrun * q.rtRuntime)
    let idle : Bool := rtTime = 0 ∧ q.rtNrRunning = 0
    if q.rtThrottled ∧ rtTime < q.rtRuntime then
      (idle, true,
        { s with
          rt := s.rt.modify g fun q => { q with rtTime := rtTime, rtThrottled := false }
          skipClockUpdate := if q.rtNrRunning ≠ 0 ∧ s.curr = s.idle then -1 else s.skipClockUpdate })
    else (idle, false, { s with rt := s.rt.modify g fun q => { q with rtTime := rtTime } })
  else if q.rtNrRunning ≠ 0 then (false, !rtRqThrottled q, s)
  else (true, false, s)

/-- `do_sched_rt_period_timer` of the bandwidth of a group, which returns whether the timer may
stop. -/
def doSchedRtPeriodTimer (K : Kernel τ Q) (s : Rq τ Q) (g : RtGroup) (overrun : ℕ) :
    Bool × Rq τ Q :=
  let (idle, enqueue, s) := rtReplenish s g overrun
  let stop : Bool :=
    !(s.rt.rq g).rtThrottled ∧ (!K.rtBandwidthEnabled ∨ (s.rt.rq g).rtRuntime = runtimeInf)
  (stop || idle, if enqueue then schedRtRqEnqueue s g else s)

/-! ### The callbacks -/

/-- The loop of `update_curr_rt` for the run queue of one group. -/
def chargeRtRq (delta : ℤ) (s : Rq τ Q) (g : RtGroup) : Rq τ Q :=
  if (s.rt.rq g).rtRuntime = runtimeInf then s
  else
    let (exceeded, rt) := schedRtRuntimeExceeded
      (s.rt.modify g fun q => { q with rtTime := q.rtTime + delta }) s.ctl g
    let s := { s with rt := rt }
    if exceeded then s.reschedTask s.curr else s

def updateCurrRt (K : Kernel τ Q) (s : Rq τ Q) : Rq τ Q :=
  if (s.task s.curr).schedClass ≠ .rt then s
  else
    let delta := deltaExec s
    let entities := forEachSchedRtEntity s.ctl (.task s.curr)
    let s := chargeCurr s
    if !K.rtBandwidthEnabled then s
    else (entities.map (rtRqOfSe s.ctl)).foldl (chargeRtRq delta) s

def enqueueTaskRt (s : Rq τ Q) (p : τ) (flags : EnqueueFlags) : Rq τ Q :=
  let s := s.modifyTask p fun p =>
    { p with rt := { p.rt with timeout := if flags.wakeup then 0 else p.rt.timeout } }
  { s with
    rt := enqueueRtEntity s.rt s.ctl (.task p) flags.head
    nrRunning := s.nrRunning + 1 }

def dequeueTaskRt (K : Kernel τ Q) (s : Rq τ Q) (p : τ) : Rq τ Q :=
  let s := updateCurrRt K s
  { s with
    rt := dequeueRtEntity s.rt s.ctl (.task p)
    nrRunning := s.nrRunning - 1 }

def requeueTaskRt (s : Rq τ Q) (p : τ) : Rq τ Q :=
  { s with
    rt := (forEachSchedRtEntity s.ctl (.task p)).foldl (fun rt e => requeueRtEntity rt s.ctl e) s.rt }

def yieldTaskRt (s : Rq τ Q) : Rq τ Q := requeueTaskRt s s.curr

def checkPreemptCurrRt (s : Rq τ Q) (p : τ) : Rq τ Q :=
  if (s.task p).prio < (s.task s.curr).prio then s.reschedTask s.curr else s

/-- The first entity of the best priority. -/
def pickNextRtEntity (q : RtRq τ) : Option (RtEntity τ) := (q.queue (schedFindFirstBit q)).head?

/-- The loop of `_pick_next_task_rt` from the run queue of a group on, which it leaves for that of a
group below. Each run queue it comes to is on `leaf_rt_rq_list`, which bounds the number of rounds. -/
def pickNextRtTask (rt : RtRqs τ) : ℕ → RtGroup → Option τ
  | 0, _ => none
  | n + 1, g =>
    match pickNextRtEntity (rt.rq g) with
    | none => none
    | some (.task p) => some p
    | some (.group h) => pickNextRtTask rt n h

/-- `pick_next_task_rt`. The bitmap of an empty array has only its delimiter set, which must not
happen when the counter is not zero. -/
def pickNextTaskRt (s : Rq τ Q) : Pick τ × Rq τ Q :=
  if (s.rt.rq []).rtNrRunning = 0 then (.none, s)
  else if rtRqThrottled (s.rt.rq []) then (.none, s)
  else
    match pickNextRtTask s.rt s.rt.leafRtRqList.length [] with
    | none => (.wild, s)
    | some p => (.task p, s.modifyTask p fun p =>
        { p with se := { p.se with execStart := s.clockTask } })

def putPrevTaskRt (K : Kernel τ Q) (s : Rq τ Q) : Rq τ Q := updateCurrRt K s

def setCurrTaskRt (s : Rq τ Q) : Rq τ Q :=
  s.modifyTask s.curr fun p => { p with se := { p.se with execStart := s.clockTask } }

/-- `watchdog` of `rt.c`. -/
def watchdogRt (hz : ℕ) (p : TaskStruct) : TaskStruct :=
  if p.rlim.rttimeSoft ≠ rlimInfinity then
    let timeout := p.rt.timeout + 1
    { p with
      rt := { p.rt with timeout := timeout }
      schedExp := if rttimeTicks hz p.rlim < timeout then p.se.sumExecRuntime else p.schedExp }
  else p

/-- The links of the node of an entity differ: it is on a list of two entities or more. -/
def hasCompany (rt : RtRqs τ) (ctl : τ → TaskControl) (e : RtEntity τ) : Bool :=
  onRtRq rt ctl e ∧ 1 < ((rt.rq (rtRqOfSe ctl e)).queue (rtSePrio rt ctl e)).length

def taskTickRt (K : Kernel τ Q) (s : Rq τ Q) (p : τ) : Rq τ Q :=
  let s := updateCurrRt K s
  let s := s.modifyTask p (watchdogRt K.hz)
  if (s.task p).policy ≠ .rr then s
  else
    let s := s.modifyTask p fun p => { p with rt := { p.rt with timeSlice := p.rt.timeSlice - 1 } }
    if (s.task p).rt.timeSlice ≠ 0 then s
    else
      let s := s.modifyTask p fun p =>
        { p with rt := { p.rt with timeSlice := UInt32.ofNat (rrTimeslice K.hz) } }
      if (forEachSchedRtEntity s.ctl (.task p)).any (hasCompany s.rt s.ctl) then
        (requeueTaskRt s p).reschedTask p
      else s

def getRrIntervalRt (hz : ℕ) (p : TaskStruct) : UInt32 :=
  if p.policy = .rr then UInt32.ofNat (rrTimeslice hz) else 0

def switchedToRt (s : Rq τ Q) (p : τ) : Rq τ Q :=
  if (s.task p).onRq ∧ s.curr ≠ p ∧ (s.task p).prio < (s.task s.curr).prio then
    s.reschedTask s.curr
  else s

def prioChangedRt (s : Rq τ Q) (p : τ) (oldprio : ℤ) : Rq τ Q :=
  if !(s.task p).onRq then s
  else if s.curr = p then
    if oldprio < (s.task p).prio then s.reschedTask p else s
  else if (s.task p).prio < (s.task s.curr).prio then s.reschedTask s.curr
  else s

end OsProject.Sched
