import Mathlib.Data.Set.Card
import OsProject.Sched.Completion

/-!
# The number of tasks in uninterruptible sleep

A task in uninterruptible sleep adds to the load of the system like a task that runs, unless it is
frozen. It is counted when it leaves the run queue to sleep, and no longer counted when it is put
back on it; the dequeue and enqueue around a change of class, priority or group do not count. The
functions of the core that move the counter are given here with it, over those of the run queue
alone, and a run of the scheduler is followed with the counter and the flags of the tasks.

## Main definitions

* `CountedRq` — a run queue with the counter, and the `PF_FROZEN` flags.
* `countedSystem` — the scheduler with the counter.

## Main results

* `countedExecOp_rq` — the counter does not change what the scheduler does.
* `nr_uninterruptible_exact` — in every reachable state the counter is the number of tasks that
  sleep uninterruptibly, and with `nr_running` the number of active tasks.

Source: `kernel/sched/core.c`, `include/linux/sched.h`.
-/

namespace OsProject.Sched

open Transition

variable {τ Q : Type*}

/-- A run queue with `nr_uninterruptible`, and the `PF_FROZEN` flags of the tasks. -/
structure CountedRq (τ Q : Type*) where
  rq : Rq τ Q
  nrUninterruptible : ℤ
  frozen : τ → Bool

/-- `task_contributes_to_load`. -/
def taskContributesToLoad (s : CountedRq τ Q) (p : τ) : Bool :=
  (s.rq.task p).state &&& taskUninterruptible ≠ 0 ∧ s.frozen p = false

namespace CountedRq

variable [DecidableEq τ] (K : Kernel τ Q)

/-- `activate_task`. -/
def activateTask (s : CountedRq τ Q) (p : τ) (flags : EnqueueFlags) : CountedRq τ Q :=
  let s :=
    if taskContributesToLoad s p then { s with nrUninterruptible := s.nrUninterruptible - 1 } else s
  { s with rq := Sched.activateTask K s.rq p flags }

/-- `deactivate_task`. -/
def deactivateTask (s : CountedRq τ Q) (p : τ) (sleep : Bool) : CountedRq τ Q :=
  let s :=
    if taskContributesToLoad s p then { s with nrUninterruptible := s.nrUninterruptible + 1 } else s
  { s with rq := Sched.deactivateTask K s.rq p sleep }

def ttwuActivate (s : CountedRq τ Q) (p : τ) (flags : EnqueueFlags) : CountedRq τ Q :=
  let s := s.activateTask K p flags
  { s with rq := s.rq.modifyCtl p fun p => { p with onRq := true } }

def ttwuDoWakeup (s : CountedRq τ Q) (p : τ) (flags : ℕ) : CountedRq τ Q :=
  { s with rq := Sched.ttwuDoWakeup K s.rq p flags }

/-- `try_to_wake_up`. -/
def tryToWakeUp (s : CountedRq τ Q) (p : τ) (mask flags : ℕ) : Bool × CountedRq τ Q :=
  if (s.rq.task p).state &&& mask = 0 then (false, s)
  else if (s.rq.task p).onRq then (true, s.ttwuDoWakeup K p flags)
  else (true, (s.ttwuActivate K p enqueueWakeup).ttwuDoWakeup K p 0)

/-- `try_to_wake_up_local`. -/
def tryToWakeUpLocal (s : CountedRq τ Q) (p : τ) : CountedRq τ Q :=
  if p = s.rq.curr then s
  else if (s.rq.task p).state &&& taskNormal = 0 then s
  else
    let s := if !(s.rq.task p).onRq then s.ttwuActivate K p enqueueWakeup else s
    s.ttwuDoWakeup K p 0

/-- `wake_up_new_task`. -/
def wakeUpNewTask (s : CountedRq τ Q) (p : τ) : CountedRq τ Q :=
  let s := s.activateTask K p {}
  { s with
    rq := checkPreemptCurr K (s.rq.modifyCtl p fun p => { p with onRq := true }) p wfFork }

/-- The part of `__schedule` that takes a task that is about to sleep off the run queue. -/
def schedulePrev (s : CountedRq τ Q) (preempt signalPending : Bool) (toWakeup : Option τ) :
    CountedRq τ Q :=
  let prev := s.rq.curr
  if (s.rq.task prev).state ≠ 0 ∧ !preempt then
    if signalPending then { s with rq := s.rq.modifyCtl prev fun p => { p with state := 0 } }
    else
      let s := s.deactivateTask K prev true
      let s := { s with rq := s.rq.modifyCtl prev fun p => { p with onRq := false } }
      match toWakeup with
      | some w => s.tryToWakeUpLocal K w
      | none => s
  else s

/-- `__schedule`, whose further parts do not touch the counter. -/
def schedule (s : CountedRq τ Q) (preempt signalPending : Bool) (toWakeup : Option τ) :
    Option (CountedRq τ Q) :=
  let n := (s.schedulePrev K preempt signalPending toWakeup).nrUninterruptible
  (Sched.schedule K s.rq preempt signalPending toWakeup).map fun rq =>
    { s with rq := rq, nrUninterruptible := n }

end CountedRq

/-! ### The steps -/

/-- A step of the scheduler, or of the freezer: the running task writes its own flags. -/
inductive CountedOp (τ : Type*)
  | sched (e : Event τ)
  | setFrozen (frozen : Bool)

section Steps

variable [DecidableEq τ]

/-- The effect of a step of the scheduler. A child starts with the flags of its parent. -/
def countedExecOp (K : Kernel τ Q) (s : CountedRq τ Q) : Op τ → Option (CountedRq τ Q)
  | .wakeUpNewTask p => some (s.wakeUpNewTask K p)
  | .tryToWakeUp p mask flags => some (s.tryToWakeUp K p mask flags).2
  | .schedule preempt signalPending toWakeup => s.schedule K preempt signalPending toWakeup
  | .fork child => (execOp K s.rq (.fork child)).map fun rq =>
      { s with rq := rq, frozen := Function.update s.frozen child (s.frozen s.rq.curr) }
  | op => (execOp K s.rq op).map fun rq => { s with rq := rq }

/-- The child of a fork is not in use, so that it does not sleep. -/
def CountedEnabled (s : CountedRq τ Q) (op : Op τ) : Prop :=
  Enabled s.rq op ∧
    match op with
    | .fork child => taskContributesToLoad s child = false
    | _ => True

instance (s : CountedRq τ Q) (op : Op τ) : Decidable (CountedEnabled s op) :=
  match op with
  | .fork _ => inferInstanceAs (Decidable (_ ∧ _ = _))
  | .wakeUpNewTask _ | .tryToWakeUp _ _ _ | .schedule _ _ _ | .schedulerTick | .schedYield
  | .setscheduler _ _ _ _ _ | .rtMutexAdjustPrio _ _ | .setUserNice _ _ | .schedMoveTask _ _
  | .schedRrGetInterval _ | .rtPeriodTimer _ _ | .setCurrentState _ | .writeTrace _ _ _ =>
    inferInstanceAs (Decidable (_ ∧ True))

def countedExec (K : Kernel τ Q) (s : CountedRq τ Q) : CountedOp τ → Option (CountedRq τ Q)
  | .sched e =>
    if CountedEnabled s e.op then countedExecOp K { s with rq := atTime s.rq e.now } e.op else none
  | .setFrozen frozen => some { s with frozen := Function.update s.frozen s.rq.curr frozen }

/-- After boot no task is in uninterruptible sleep. -/
structure CountedBoot (K : Kernel τ Q) (s : CountedRq τ Q) : Prop where
  boot : Boot K s.rq
  nrUninterruptible : s.nrUninterruptible = 0
  awake : ∀ t, taskContributesToLoad s t = false

def countedSystem (K : Kernel τ Q) : System (CountedRq τ Q) (CountedOp τ) :=
  .ofExec (CountedBoot K) (countedExec K)

/-! ### The counter does not change what the scheduler does -/

variable {K : Kernel τ Q} {s s' : CountedRq τ Q} {p : τ}

namespace CountedRq

@[simp]
theorem activateTask_rq (s : CountedRq τ Q) (p : τ) (flags : EnqueueFlags) :
    (s.activateTask K p flags).rq = Sched.activateTask K s.rq p flags := by
  rw [activateTask]
  split <;> rfl

@[simp]
theorem activateTask_frozen (s : CountedRq τ Q) (p : τ) (flags : EnqueueFlags) :
    (s.activateTask K p flags).frozen = s.frozen := by
  rw [activateTask]
  split <;> rfl

theorem activateTask_nrUninterruptible (s : CountedRq τ Q) (p : τ) (flags : EnqueueFlags) :
    (s.activateTask K p flags).nrUninterruptible =
      if taskContributesToLoad s p then s.nrUninterruptible - 1 else s.nrUninterruptible := by
  rw [activateTask]
  split <;> rfl

@[simp]
theorem deactivateTask_rq (s : CountedRq τ Q) (p : τ) (sleep : Bool) :
    (s.deactivateTask K p sleep).rq = Sched.deactivateTask K s.rq p sleep := by
  rw [deactivateTask]
  split <;> rfl

@[simp]
theorem deactivateTask_frozen (s : CountedRq τ Q) (p : τ) (sleep : Bool) :
    (s.deactivateTask K p sleep).frozen = s.frozen := by
  rw [deactivateTask]
  split <;> rfl

theorem deactivateTask_nrUninterruptible (s : CountedRq τ Q) (p : τ) (sleep : Bool) :
    (s.deactivateTask K p sleep).nrUninterruptible =
      if taskContributesToLoad s p then s.nrUninterruptible + 1 else s.nrUninterruptible := by
  rw [deactivateTask]
  split <;> rfl

@[simp]
theorem ttwuActivate_rq (s : CountedRq τ Q) (p : τ) (flags : EnqueueFlags) :
    (s.ttwuActivate K p flags).rq = Sched.ttwuActivate K s.rq p flags := by
  simp [ttwuActivate, Sched.ttwuActivate]

theorem tryToWakeUp_rq (s : CountedRq τ Q) (p : τ) (mask flags : ℕ) :
    (s.tryToWakeUp K p mask flags).2.rq = (Sched.tryToWakeUp K s.rq p mask flags).2 := by
  rw [tryToWakeUp, Sched.tryToWakeUp]
  split_ifs
  · rfl
  · rfl
  · simp [ttwuDoWakeup]

theorem tryToWakeUpLocal_rq (s : CountedRq τ Q) (p : τ) :
    (s.tryToWakeUpLocal K p).rq = Sched.tryToWakeUpLocal K s.rq p := by
  rw [tryToWakeUpLocal, Sched.tryToWakeUpLocal]
  split_ifs
  · rfl
  · rfl
  · simp [ttwuDoWakeup]
  · rfl

theorem wakeUpNewTask_rq (s : CountedRq τ Q) (p : τ) :
    (s.wakeUpNewTask K p).rq = Sched.wakeUpNewTask K s.rq p := by
  simp [wakeUpNewTask, Sched.wakeUpNewTask]

theorem schedulePrev_rq (s : CountedRq τ Q) (preempt signalPending : Bool)
    (toWakeup : Option τ) : (s.schedulePrev K preempt signalPending toWakeup).rq =
      Sched.schedulePrev K s.rq preempt signalPending toWakeup := by
  rw [schedulePrev, Sched.schedulePrev]
  dsimp only
  split_ifs
  · rfl
  · cases toWakeup with
    | none => simp
    | some w => simp [tryToWakeUpLocal_rq]
  · rfl

theorem tryToWakeUpLocal_frozen (s : CountedRq τ Q) (p : τ) :
    (s.tryToWakeUpLocal K p).frozen = s.frozen := by
  rw [tryToWakeUpLocal]
  split_ifs
  · rfl
  · rfl
  · exact activateTask_frozen (K := K) s p enqueueWakeup
  · rfl

theorem schedulePrev_frozen (s : CountedRq τ Q) (preempt signalPending : Bool)
    (toWakeup : Option τ) :
    (s.schedulePrev K preempt signalPending toWakeup).frozen = s.frozen := by
  rw [schedulePrev]
  dsimp only
  split_ifs
  · rfl
  · cases toWakeup with
    | none => exact deactivateTask_frozen (K := K) s s.rq.curr true
    | some w =>
      exact (tryToWakeUpLocal_frozen _ w).trans
        (deactivateTask_frozen (K := K) s s.rq.curr true)
  · rfl

theorem schedule_rq (s : CountedRq τ Q) (preempt signalPending : Bool) (toWakeup : Option τ) :
    (s.schedule K preempt signalPending toWakeup).map CountedRq.rq =
      Sched.schedule K s.rq preempt signalPending toWakeup := by
  simp [schedule, Function.comp_def]

end CountedRq

/-- A step with the counter does to the run queue what the step does. -/
theorem countedExecOp_rq (K : Kernel τ Q) (s : CountedRq τ Q) (op : Op τ) :
    (countedExecOp K s op).map CountedRq.rq = execOp K s.rq op := by
  cases op with
  | wakeUpNewTask p => simp [countedExecOp, execOp, CountedRq.wakeUpNewTask_rq]
  | tryToWakeUp p mask flags => simp [countedExecOp, execOp, CountedRq.tryToWakeUp_rq]
  | schedule preempt signalPending toWakeup =>
    exact CountedRq.schedule_rq s preempt signalPending toWakeup
  | _ => simp [countedExecOp, Function.comp_def]

/-! ### The counter is exact -/

/-- The task is off the run queue, in uninterruptible sleep and not frozen. -/
def SleepsUninterruptibly (s : CountedRq τ Q) (t : τ) : Prop :=
  (s.rq.task t).onRq = false ∧ taskContributesToLoad s t = true

/-- The counter is the number of tasks in uninterruptible sleep. -/
structure Counted (s : CountedRq τ Q) : Prop where
  finite : {t | SleepsUninterruptibly s t}.Finite
  count : s.nrUninterruptible = {t | SleepsUninterruptibly s t}.ncard

omit [DecidableEq τ]

theorem contributes_congr {t : τ} (hst : (s'.rq.ctl t).state = (s.rq.ctl t).state)
    (hfr : s'.frozen t = s.frozen t) : taskContributesToLoad s' t = taskContributesToLoad s t := by
  have hst' : (s'.rq.task t).state = (s.rq.task t).state := hst
  rw [taskContributesToLoad, taskContributesToLoad, hst', hfr]

theorem sleeps_congr {t : τ} (hon : (s'.rq.ctl t).onRq = (s.rq.ctl t).onRq)
    (hst : (s'.rq.ctl t).state = (s.rq.ctl t).state) (hfr : s'.frozen t = s.frozen t) :
    SleepsUninterruptibly s' t ↔ SleepsUninterruptibly s t := by
  have hon' : (s'.rq.task t).onRq = (s.rq.task t).onRq := hon
  rw [SleepsUninterruptibly, SleepsUninterruptibly, hon', contributes_congr hst hfr]

theorem not_contributes {t : τ} (hst : (s.rq.ctl t).state = 0) :
    taskContributesToLoad s t = false := by
  have hst' : (s.rq.task t).state = 0 := hst
  simp [taskContributesToLoad, hst']

theorem not_sleeps_of_state {t : τ} (hst : (s.rq.ctl t).state = 0) :
    ¬SleepsUninterruptibly s t := fun hs =>
  Bool.false_ne_true ((not_contributes hst).symm.trans hs.2)

theorem not_sleeps_of_onRq {t : τ} (hon : (s.rq.ctl t).onRq = true) :
    ¬SleepsUninterruptibly s t := fun hs => by
  have hon' : (s.rq.task t).onRq = true := hon
  rw [hs.1] at hon'
  cases hon'

namespace Counted

theorem congr (h : Counted s) (hn : s'.nrUninterruptible = s.nrUninterruptible)
    (hs : ∀ t, SleepsUninterruptibly s' t ↔ SleepsUninterruptibly s t) : Counted s' := by
  have hset : {t | SleepsUninterruptibly s' t} = {t | SleepsUninterruptibly s t} := Set.ext hs
  exact ⟨hset ▸ h.finite, by rw [hset, hn, h.count]⟩

/-- A task that sleeps is put back on the run queue. -/
theorem wake (h : Counted s) (hoff : (s.rq.ctl p).onRq = false)
    (hn : s'.nrUninterruptible =
      if taskContributesToLoad s p then s.nrUninterruptible - 1 else s.nrUninterruptible)
    (hp : ¬SleepsUninterruptibly s' p)
    (hne : ∀ t, t ≠ p → (SleepsUninterruptibly s' t ↔ SleepsUninterruptibly s t)) :
    Counted s' := by
  cases hc : taskContributesToLoad s p with
  | false =>
    refine h.congr (by rw [hn, hc]; rfl) fun t => ?_
    by_cases ht : t = p
    · subst ht
      exact iff_of_false hp fun hs => by rw [hs.2] at hc; cases hc
    · exact hne t ht
  | true =>
    have hmem : p ∈ {t | SleepsUninterruptibly s t} := ⟨hoff, hc⟩
    have hset : {t | SleepsUninterruptibly s' t} = {t | SleepsUninterruptibly s t} \ {p} := by
      ext t
      by_cases ht : t = p
      · subst ht; simpa using hp
      · simpa [ht] using hne t ht
    refine ⟨hset ▸ h.finite.sdiff, ?_⟩
    have hcard := Set.ncard_sdiff_singleton_add_one hmem h.finite
    rw [hset, hn, hc, if_pos rfl, h.count]
    omega

/-- A running task goes to sleep. -/
theorem sleep (h : Counted s) (hon : (s.rq.ctl p).onRq = true)
    (hn : s'.nrUninterruptible =
      if taskContributesToLoad s p then s.nrUninterruptible + 1 else s.nrUninterruptible)
    (hp : SleepsUninterruptibly s' p ↔ taskContributesToLoad s p = true)
    (hne : ∀ t, t ≠ p → (SleepsUninterruptibly s' t ↔ SleepsUninterruptibly s t)) :
    Counted s' := by
  have hnot : ¬SleepsUninterruptibly s p := not_sleeps_of_onRq hon
  have hmem : p ∉ {t | SleepsUninterruptibly s t} := hnot
  cases hc : taskContributesToLoad s p with
  | false =>
    refine h.congr (by rw [hn, hc]; rfl) fun t => ?_
    by_cases ht : t = p
    · subst ht
      exact iff_of_false (by rw [hp, hc]; exact Bool.false_ne_true) hnot
    · exact hne t ht
  | true =>
    have hset : {t | SleepsUninterruptibly s' t} = insert p {t | SleepsUninterruptibly s t} := by
      ext t
      by_cases ht : t = p
      · subst ht; simpa [hc] using hp
      · simpa [ht] using hne t ht
    refine ⟨hset ▸ h.finite.insert p, ?_⟩
    rw [hset, Set.ncard_insert_of_notMem hmem h.finite, hn, hc, if_pos rfl, h.count]
    rfl

end Counted

end Steps

section Steps

variable [DecidableEq τ] {K : Kernel τ Q} {s s' : CountedRq τ Q} {p : τ}

/-- A sleeping task is put on the run queue. -/
theorem Counted.of_activate (h : Counted s) (flags : EnqueueFlags)
    (hoff : (s.rq.ctl p).onRq = false) (hrq : s'.rq.ctl =
      Function.update s.rq.ctl p { s.rq.ctl p with onRq := true, state := 0 })
    (hn : s'.nrUninterruptible = (s.activateTask K p flags).nrUninterruptible)
    (hfr : s'.frozen = s.frozen) : Counted s' := by
  refine h.wake hoff (hn.trans (CountedRq.activateTask_nrUninterruptible s p flags)) ?_
    fun t ht => ?_
  · exact not_sleeps_of_onRq (by rw [hrq, Function.update_self])
  · have hctl : s'.rq.ctl t = s.rq.ctl t := by rw [hrq, Function.update_of_ne ht]
    exact sleeps_congr (by rw [hctl]) (by rw [hctl]) (by rw [hfr])

/-- Waking a task that is still on the run queue. -/
theorem Counted.of_ttwuDoWakeup (h : Counted s) (hon : (s.rq.ctl p).onRq = true) (flags : ℕ) :
    Counted (s.ttwuDoWakeup K p flags) := by
  obtain ⟨-, hctl, -⟩ := ttwuDoWakeup_spec K s.rq p flags
  refine h.congr rfl fun t => ?_
  by_cases ht : t = p
  · subst ht
    refine iff_of_false (not_sleeps_of_onRq ?_) (not_sleeps_of_onRq hon)
    rw [CountedRq.ttwuDoWakeup, hctl, Function.update_self]
    exact hon
  · have hctl' : (s.ttwuDoWakeup K p flags).rq.ctl t = s.rq.ctl t := by
      rw [CountedRq.ttwuDoWakeup, hctl, Function.update_of_ne ht]
    exact sleeps_congr (by rw [hctl']) (by rw [hctl']) rfl

/-- Waking a task that is off the run queue. -/
theorem Counted.of_ttwuActivate (h : Counted s) (hoff : (s.rq.ctl p).onRq = false)
    (hidle : (s.rq.ctl p).schedClass ≠ .idle)
    (hprio : (s.rq.ctl p).schedClass = .rt →
      0 ≤ (s.rq.ctl p).prio ∧ (s.rq.ctl p).prio < maxRtPrio) (flags : ℕ) :
    Counted ((s.ttwuActivate K p enqueueWakeup).ttwuDoWakeup K p flags) := by
  have hw : Wakes K s.rq (ttwuDoWakeup K (ttwuActivate K s.rq p enqueueWakeup) p flags) p :=
    wakes_ttwuActivate hoff hidle hprio
  refine h.of_activate (K := K) enqueueWakeup hoff ?_ rfl
    (CountedRq.activateTask_frozen (K := K) s p enqueueWakeup)
  rw [CountedRq.ttwuDoWakeup, CountedRq.ttwuActivate_rq]
  exact hw.ctl

theorem Counted.of_tryToWakeUp (h : Counted s) (hinv : Inv K s.rq) (p : τ) (mask flags : ℕ) :
    Counted (s.tryToWakeUp K p mask flags).2 := by
  rw [CountedRq.tryToWakeUp]
  split_ifs with hmask hon
  · exact h
  · exact h.of_ttwuDoWakeup hon flags
  · refine h.of_ttwuActivate (Bool.eq_false_iff.mpr hon) (hinv.schedClass_ne_idle fun hp => ?_)
      hinv.prio_lt 0
    -- the idle task does not sleep
    have hst : (s.rq.task p).state = 0 := by rw [hp]; exact hinv.idle_state
    exact hmask (by rw [hst, Nat.zero_and])

theorem Counted.of_tryToWakeUpLocal (h : Counted s)
    (hidle : (s.rq.ctl p).state ≠ 0 → (s.rq.ctl p).schedClass ≠ .idle)
    (hprio : (s.rq.ctl p).schedClass = .rt →
      0 ≤ (s.rq.ctl p).prio ∧ (s.rq.ctl p).prio < maxRtPrio) :
    Counted (s.tryToWakeUpLocal K p) := by
  rw [CountedRq.tryToWakeUpLocal]
  split_ifs with hcurr hmask hon
  · exact h
  · exact h
  · refine h.of_ttwuActivate (by simpa [Rq.ctl] using hon) (hidle fun h0 => hmask ?_) hprio 0
    have hst : (s.rq.task p).state = 0 := h0
    rw [hst, Nat.zero_and]
  · exact h.of_ttwuDoWakeup (by simpa [Rq.ctl] using hon) 0

theorem Counted.of_wakeUpNewTask (h : Counted s) (hinv : Inv K s.rq) (hp : p ≠ s.rq.idle)
    (hoff : (s.rq.ctl p).onRq = false) (hstate : (s.rq.ctl p).state = 0) :
    Counted (s.wakeUpNewTask K p) := by
  have hw := wakes_wakeUpNewTask (K := K) hoff hstate (hinv.schedClass_ne_idle hp) hinv.prio_lt
  refine h.of_activate (K := K) {} hoff ?_ rfl
    (CountedRq.activateTask_frozen (K := K) s p {})
  rw [CountedRq.wakeUpNewTask_rq]
  exact hw.ctl

/-- The first part of a context switch. -/
theorem Counted.of_schedulePrev (h : Counted s) (hinv : Inv K s.rq)
    (preempt signalPending : Bool) (toWakeup : Option τ) :
    Counted (s.schedulePrev K preempt signalPending toWakeup) := by
  rw [CountedRq.schedulePrev]
  dsimp only
  split
  · next hsleep =>
    have hstate : (s.rq.ctl s.rq.curr).state ≠ 0 := hsleep.1
    have hidle : s.rq.curr ≠ s.rq.idle := fun he => hstate (he ▸ hinv.idle_state)
    have hon : (s.rq.ctl s.rq.curr).onRq = true := hinv.curr.resolve_left hidle
    split
    · -- a pending signal keeps the task on the run queue
      refine h.congr rfl fun t => ?_
      by_cases ht : t = s.rq.curr
      · subst ht
        refine iff_of_false (not_sleeps_of_onRq ?_) (not_sleeps_of_onRq hon)
        rw [ctl_modifyCtl, Function.update_self]
        exact hon
      · exact sleeps_congr (by rw [ctl_modifyCtl, Function.update_of_ne ht])
          (by rw [ctl_modifyCtl, Function.update_of_ne ht]) rfl
    · obtain ⟨u, hu⟩ : ∃ u : CountedRq τ Q, u = { s.deactivateTask K s.rq.curr true with
          rq := (s.deactivateTask K s.rq.curr true).rq.modifyCtl s.rq.curr fun p =>
            { p with onRq := false } } := ⟨_, rfl⟩
      have hrq : u.rq = (deactivateTask K s.rq s.rq.curr true).modifyCtl s.rq.curr fun p =>
          { p with onRq := false } := by rw [hu]; simp
      have hdeq : Dequeues K s.rq (deactivateTask K s.rq s.rq.curr true) s.rq.curr :=
        dequeueTask_holds
      have hctl : u.rq.ctl =
          Function.update s.rq.ctl s.rq.curr { s.rq.ctl s.rq.curr with onRq := false } := by
        rw [hrq, ctl_modifyCtl, hdeq.ctl]
      have hfr : u.frozen = s.frozen := by
        rw [hu]; exact CountedRq.deactivateTask_frozen (K := K) s s.rq.curr true
      have hcounted : Counted u := by
        refine h.sleep hon (p := s.rq.curr) ?_ ?_ fun t ht => ?_
        · rw [hu]; exact CountedRq.deactivateTask_nrUninterruptible (K := K) s s.rq.curr true
        · have hoff : (u.rq.ctl s.rq.curr).onRq = false := by rw [hctl, Function.update_self]
          have hst : (u.rq.ctl s.rq.curr).state = (s.rq.ctl s.rq.curr).state := by
            rw [hctl, Function.update_self]
          rw [SleepsUninterruptibly, contributes_congr hst (by rw [hfr])]
          exact and_iff_right hoff
        · exact sleeps_congr (by rw [hctl, Function.update_of_ne ht])
            (by rw [hctl, Function.update_of_ne ht]) (by rw [hfr])
      rw [← hu]
      cases toWakeup with
      | none => exact hcounted
      | some w =>
        have hd : PrevDone K s.rq u.rq := hrq ▸ hinv.prevDone_deactivate hstate
        have hprio : (u.rq.ctl w).prio = (s.rq.ctl w).prio :=
          (hd.activity w) ▸ rfl
        refine hcounted.of_tryToWakeUpLocal (fun hne => ?_) ?_
        · rw [(hd.activity w).schedClass]
          refine hinv.schedClass_ne_idle fun hw => hne ?_
          rw [hw, hd.ctl_idle, hinv.idle_state]
        · rw [(hd.activity w).schedClass, hprio]
          exact hinv.prio_lt
  · exact h

/-- Every step keeps the counter exact. -/
theorem Counted.execOp (h : Counted s) (hinv : Inv K s.rq) {op : Op τ}
    (he : CountedEnabled s op) (hx : countedExecOp K s op = some s') : Counted s' := by
  obtain ⟨hen, hchild⟩ := he
  have hbase : Sched.execOp K s.rq op = some s'.rq := by rw [← countedExecOp_rq, hx]; rfl
  have hsame : op.isActivity = false → s'.nrUninterruptible = s.nrUninterruptible →
      s'.frozen = s.frozen → Counted s' := fun hop hn hfr => h.congr hn fun t => by
    obtain ⟨hon, hst⟩ := execOp_sameActivity hinv hen hbase hop t
    exact sleeps_congr hon hst (by rw [hfr])
  cases op with
  | fork child =>
    obtain ⟨-, -, -, -, hoff, hcurr⟩ := hen
    obtain rfl := Option.some.inj hx
    have hr : Rewrites K s.rq (fork K s.rq child) child fun _ => childCtl (s.rq.ctl s.rq.curr) :=
      rewrites_fork hcurr hoff
    have hzero : (childCtl (s.rq.ctl s.rq.curr)).state = 0 := by
      simp only [childCtl, forkedCtl]
      split_ifs <;> rfl
    refine h.congr rfl fun t => ?_
    by_cases ht : t = child
    · -- the child is new, before and after
      subst ht
      exact iff_of_false (not_sleeps_of_state (by rw [hr.ctl_self, hzero]))
        fun hs => Bool.false_ne_true (hchild.symm.trans hs.2)
    · have hctl := hr.ctl_of_ne ht
      exact sleeps_congr (by rw [hctl]) (by rw [hctl]) (Function.update_of_ne ht _ _)
  | wakeUpNewTask p =>
    obtain ⟨hp, hoff, hstate⟩ := hen
    obtain rfl := Option.some.inj hx
    exact h.of_wakeUpNewTask hinv hp hoff hstate
  | tryToWakeUp p mask flags =>
    obtain rfl := Option.some.inj hx
    exact h.of_tryToWakeUp hinv p mask flags
  | schedule preempt signalPending toWakeup =>
    obtain ⟨m, c, next, u, hm, -, -, hsched, hctl, -⟩ :=
      schedule_spec hinv preempt signalPending toWakeup
    obtain rfl : u = s'.rq := Option.some.inj (hsched.symm.trans hbase)
    obtain ⟨rq, -, hs'⟩ := Option.map_eq_some_iff.mp hx
    have hprev := h.of_schedulePrev (K := K) hinv preempt signalPending toWakeup
    have hctl' : s'.rq.ctl = (s.schedulePrev K preempt signalPending toWakeup).rq.ctl := by
      rw [hctl, hm, keeps_putPrevTask.ctl, CountedRq.schedulePrev_rq]
    have hfr : s'.frozen = (s.schedulePrev K preempt signalPending toWakeup).frozen := by
      rw [← hs', CountedRq.schedulePrev_frozen]
    exact hprev.congr (by rw [← hs']) fun t =>
      sleeps_congr (by rw [hctl']) (by rw [hctl']) (by rw [hfr])
  | setCurrentState state =>
    obtain rfl := Option.some.inj hx
    have hon : (s.rq.ctl s.rq.curr).onRq = true := hinv.curr.resolve_left hen
    refine h.congr rfl fun t => ?_
    by_cases ht : t = s.rq.curr
    · subst ht
      refine iff_of_false (not_sleeps_of_onRq ?_) (not_sleeps_of_onRq hon)
      rw [ctl_modifyCtl, Function.update_self]
      exact hon
    · exact sleeps_congr (by rw [ctl_modifyCtl, Function.update_of_ne ht])
        (by rw [ctl_modifyCtl, Function.update_of_ne ht]) rfl
  | _ =>
    obtain rfl := Option.some.inj hx
    exact hsame rfl rfl rfl

theorem counted_step_iff {op : CountedOp τ} :
    (countedSystem K).step s op s' ↔ countedExec K s op = some s' := Iff.rfl

/-- A run with the counter is a run of the scheduler. -/
theorem reachable_rq (h : Reachable (countedSystem K) s) : Reachable (system K) s.rq := by
  induction h with
  | init h => exact .init h.boot
  | @step s s' op _ hstep ih =>
    rw [counted_step_iff] at hstep
    cases op with
    | setFrozen frozen =>
      obtain rfl := Option.some.inj hstep
      exact ih
    | sched e =>
      rw [countedExec, Option.ite_none_right_eq_some] at hstep
      obtain ⟨⟨hen, -⟩, hx⟩ := hstep
      have hbase := countedExecOp_rq K { s with rq := atTime s.rq e.now } e.op
      rw [hx] at hbase
      exact ih.step (step_iff.mpr ⟨hen, hbase.symm⟩)

theorem counted_of_boot (h : CountedBoot K s) : Counted s := by
  have hset : {t | SleepsUninterruptibly s t} = ∅ := Set.eq_empty_iff_forall_notMem.mpr
    fun t (ht : SleepsUninterruptibly s t) => Bool.false_ne_true ((h.awake t).symm.trans ht.2)
  refine ⟨hset ▸ Set.finite_empty, ?_⟩
  rw [hset, h.nrUninterruptible, Set.ncard_empty]
  rfl

/-- The counter is exact in every reachable state. -/
theorem counted (h : Reachable (countedSystem K) s) : Counted s := by
  refine h.invariant (fun _ => counted_of_boot) fun s op s' hs hc hstep => ?_
  have hinv := reachable_inv (reachable_rq hs)
  rw [counted_step_iff] at hstep
  cases op with
  | setFrozen frozen =>
    -- the running task, whose flags these are, does not sleep
    obtain rfl := Option.some.inj hstep
    refine hc.congr rfl fun t => ?_
    by_cases ht : t = s.rq.curr
    · subst ht
      rcases hinv.curr with hidle | hon
      · have hst : (s.rq.ctl s.rq.curr).state = 0 := by rw [hidle]; exact hinv.idle_state
        exact iff_of_false (not_sleeps_of_state hst) (not_sleeps_of_state hst)
      · exact iff_of_false (not_sleeps_of_onRq hon) (not_sleeps_of_onRq hon)
    · exact sleeps_congr rfl rfl (Function.update_of_ne ht _ _)
  | sched e =>
    rw [countedExec, Option.ite_none_right_eq_some] at hstep
    obtain ⟨hen, hx⟩ := hstep
    have hc' : Counted { s with rq := atTime s.rq e.now } := hc.congr rfl fun _ => Iff.rfl
    refine hc'.execOp (hinv.atTime e.now) ?_ hx
    exact hen

/-- The task is on the run queue, or sleeps so that it adds to the load all the same. -/
def ActiveTask (s : CountedRq τ Q) (t : τ) : Prop :=
  (s.rq.task t).onRq = true ∨ SleepsUninterruptibly s t

/-- In every reachable state `nr_uninterruptible` is the number of tasks in uninterruptible sleep,
and `nr_running` and `nr_uninterruptible` together, which the load averages sample, are the number
of active tasks. -/
theorem nr_uninterruptible_exact (h : Reachable (countedSystem K) s) :
    {t | SleepsUninterruptibly s t}.Finite ∧
      s.nrUninterruptible = {t | SleepsUninterruptibly s t}.ncard ∧
      {t | ActiveTask s t}.Finite ∧
      s.rq.nrRunning + s.nrUninterruptible = {t | ActiveTask s t}.ncard := by
  obtain ⟨hfin, hcount⟩ := counted h
  obtain ⟨F, hF, hmem⟩ := (reachable_inv (reachable_rq h)).holds
  have hunion : {t | ActiveTask s t} = (F : Set τ) ∪ {t | SleepsUninterruptibly s t} := by
    ext t
    exact or_congr (hmem t).symm Iff.rfl
  have hdisj : Disjoint (F : Set τ) {t | SleepsUninterruptibly s t} :=
    Set.disjoint_left.mpr fun t ht => not_sleeps_of_onRq ((hmem t).mp ht)
  refine ⟨hfin, hcount, hunion ▸ F.finite_toSet.union hfin, ?_⟩
  rw [hunion, Set.ncard_union_eq hdisj F.finite_toSet hfin, Set.ncard_coe_finset, hF.nrRunning,
    hcount, Nat.cast_add]

/-! ### A reference run -/

/-- The reference configuration with the counter. -/
def referenceCounted : CountedRq ℕ (Arrivals ℕ) where
  rq := referenceBoot
  nrUninterruptible := 0
  frozen _ := false

theorem countedBoot_referenceCounted : CountedBoot (referenceKernel ℕ) referenceCounted where
  boot := boot_referenceBoot
  nrUninterruptible := rfl
  awake t := not_contributes (by by_cases h : t = 0 <;> simp [referenceCounted, referenceBoot,
    bootRq, Rq.ctl, h])

def referenceCountedRun (ops : List (CountedOp ℕ)) : Option (CountedRq ℕ (Arrivals ℕ)) :=
  execAll (countedExec (referenceKernel ℕ)) referenceCounted ops

theorem reachable_referenceCountedRun {ops : List (CountedOp ℕ)} {s : CountedRq ℕ (Arrivals ℕ)}
    (h : referenceCountedRun ops = some s) : Reachable (countedSystem (referenceKernel ℕ)) s :=
  (Reachable.init countedBoot_referenceCounted).run (run_of_execAll h)

/-- Task `1` goes into uninterruptible sleep, while task `2` runs and task `3` waits. -/
def oneAsleep : List (CountedOp ℕ) :=
  [.sched ⟨0, .wakeUpNewTask 1⟩, .sched ⟨0, reschedule⟩,
    .sched ⟨0, .setCurrentState taskUninterruptible⟩, .sched ⟨0, .schedule false false none⟩,
    .sched ⟨0, .wakeUpNewTask 2⟩, .sched ⟨0, reschedule⟩, .sched ⟨0, .wakeUpNewTask 3⟩]

theorem nr_uninterruptible_exact_oneAsleep :
    ∃ s, referenceCountedRun oneAsleep = some s ∧ s.rq.nrRunning = 2 ∧ s.nrUninterruptible = 1 ∧
      {t | SleepsUninterruptibly s t}.Finite ∧
      s.nrUninterruptible = {t | SleepsUninterruptibly s t}.ncard ∧
      {t | ActiveTask s t}.Finite ∧
      s.rq.nrRunning + s.nrUninterruptible = {t | ActiveTask s t}.ncard := by
  have hrun : referenceCountedRun oneAsleep =
      some ((referenceCountedRun oneAsleep).get (by decide +kernel)) := by simp
  exact ⟨_, hrun, by decide +kernel, by decide +kernel,
    nr_uninterruptible_exact (reachable_referenceCountedRun hrun)⟩

end Steps

end OsProject.Sched
