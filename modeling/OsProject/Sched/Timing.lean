import OsProject.Sched.Invariant

/-!
# Run time

The execution time of the running task is charged lazily: its entity holds the time of the last
charge, and each charge adds what has passed since. This module says what every operation of the
scheduler does to the clocks, to the task that runs and to the entities: time passes while the same
task runs in the same class, or the task is charged and hands the processor over.

## Main definitions

* `Timing` — what run time depends on.
* `Ran` — time passes while the same task runs in the same class.
* `HandsOver` — another task runs from now on, or the same one in another class.

## Main results

* `ran_schedulerTick`, `schedule_times` — ticks and context switches.
* `ran_withTaskOffRq`, `withTaskOffRq_times` — changes to queued tasks and to the running one.
-/

namespace OsProject.Sched

open Intrusive Transition

variable {τ Q : Type*} [DecidableEq τ] {K : Kernel τ Q} {s s' : Rq τ Q} {p : τ}

/-! ### What run time depends on -/

/-- The clocks, the task that runs, its class, and the entities that are charged. -/
structure Timing (τ : Type*) where
  schedClock : ℤ
  clock : ℤ
  clockTask : ℤ
  curr : τ
  currClass : SchedClass
  se : τ → SchedEntity

def Rq.timing (s : Rq τ Q) : Timing τ where
  schedClock := s.schedClock
  clock := s.clock
  clockTask := s.clockTask
  curr := s.curr
  currClass := (s.task s.curr).schedClass
  se t := (s.task t).se

/-- The task that runs is not a RAS task, or it has just been charged. -/
def Charged (m : Timing τ) : Prop :=
  m.currClass = .ras → (m.se m.curr).execStart = m.clockTask

/-- Time passes while the same task runs in the same class: the clock shows the same or the present
time, and of a RAS task what is charged and what is still to be charged add up. -/
structure Ran (m m' : Timing τ) : Prop where
  schedClock : m'.schedClock = m.schedClock
  curr : m'.curr = m.curr
  currClass : m'.currClass = m.currClass
  clock : (m'.clock = m.clock ∧ m'.clockTask = m.clockTask) ∨
    (m'.clock = m.schedClock ∧ m'.clockTask = m.clockTask + (m.schedClock - m.clock))
  se : ∀ t, t ≠ m.curr → m'.se t = m.se t
  charge : m.currClass = .ras → (m.se m.curr).execStart ≤ m.clockTask → m.clockTask ≤ m'.clockTask →
    (m'.se m.curr).execStart ≤ m'.clockTask ∧
      (m'.se m.curr).sumExecRuntime - (m'.se m.curr).execStart =
        (m.se m.curr).sumExecRuntime - (m.se m.curr).execStart

/-- From now on another task runs, or the same one in another class: both are charged. -/
structure HandsOver (m m' : Timing τ) : Prop where
  clockTask : m'.clockTask = m.clockTask
  sum : ∀ t, (m'.se t).sumExecRuntime = (m.se t).sumExecRuntime
  charged : Charged m
  charged' : Charged m'

namespace Ran

variable {m m' m'' : Timing τ}

omit [DecidableEq τ] in
theorem refl (m : Timing τ) : Ran m m where
  schedClock := rfl
  curr := rfl
  currClass := rfl
  clock := .inl ⟨rfl, rfl⟩
  se _ _ := rfl
  charge _ h _ := ⟨h, rfl⟩

omit [DecidableEq τ] in
theorem of_eq (h : m' = m) : Ran m m' := h ▸ .refl m

omit [DecidableEq τ] in
theorem trans (h : Ran m m') (h' : Ran m' m'') : Ran m m'' where
  schedClock := h'.schedClock.trans h.schedClock
  curr := h'.curr.trans h.curr
  currClass := h'.currClass.trans h.currClass
  clock := by
    have hs := h.schedClock
    rcases h.clock with ⟨hc, ht⟩ | ⟨hc, ht⟩ <;> rcases h'.clock with ⟨hc', ht'⟩ | ⟨hc', ht'⟩ <;> omega
  se t ht := (h'.se t (by rwa [h.curr])).trans (h.se t ht)
  charge hras hstamp hle := by
    have hs := h.schedClock
    -- the clock moves in one of the two parts at most
    have hmid : m.clockTask ≤ m'.clockTask ∧ m'.clockTask ≤ m''.clockTask := by
      rcases h.clock with ⟨hc, ht⟩ | ⟨hc, ht⟩ <;> rcases h'.clock with ⟨hc', ht'⟩ | ⟨hc', ht'⟩ <;>
        omega
    obtain ⟨hstamp', heq⟩ := h.charge hras hstamp hmid.1
    have hrest := h'.charge (h.currClass.trans hras) (by rwa [h.curr]) hmid.2
    rw [h.curr] at hrest
    exact ⟨hrest.1, hrest.2.trans heq⟩

end Ran

/-! ### Operations that leave it alone -/

section Unchanged

theorem timing_modifyTask {f : TaskStruct → TaskStruct} (hse : (f (s.task p)).se = (s.task p).se)
    (hc : p = s.curr → (f (s.task p)).schedClass = (s.task p).schedClass) :
    (s.modifyTask p f).timing = s.timing := by
  have htask : (fun t => ((s.modifyTask p f).task t).se) = fun t => (s.task t).se := by
    funext t
    by_cases ht : t = p
    · subst ht; simpa [Rq.modifyTask] using hse
    · simp [Rq.modifyTask, ht]
  have hclass : ((s.modifyTask p f).task s.curr).schedClass = (s.task s.curr).schedClass := by
    by_cases ht : s.curr = p
    · rw [ht]; simpa [Rq.modifyTask] using hc ht.symm
    · simp [Rq.modifyTask, ht]
  rw [Rq.timing, Rq.timing, htask]
  exact congrArg (Timing.mk _ _ _ _ · _) hclass

theorem timing_modifyCtl {f : TaskControl → TaskControl}
    (hc : p = s.curr → (f (s.ctl p)).schedClass = (s.ctl p).schedClass) :
    (s.modifyCtl p f).timing = s.timing := timing_modifyTask rfl hc

theorem timing_reschedTask : (s.reschedTask p).timing = s.timing := rfl

theorem timing_requeueTaskRt : (requeueTaskRt s p).timing = s.timing := rfl

theorem timing_applyEffect (e : ForeignEffect Q) : (s.applyEffect e).timing = s.timing := by
  rw [Rq.applyEffect]
  dsimp only
  split <;> rfl

theorem timing_requeueTaskRas : (requeueTaskRas s p).timing = s.timing := by
  rw [requeueTaskRas]
  split <;> rfl

theorem timing_classYieldTask : (classYieldTask K s).timing = s.timing := by
  rw [classYieldTask]
  split
  · rfl
  · exact timing_requeueTaskRas
  · exact timing_applyEffect _

theorem timing_checkPreemptCurrRas : (checkPreemptCurrRas s p).timing = s.timing := by
  have hweights : (updateWeight (updateWeight s p) s.curr).timing = s.timing :=
    (timing_modifyTask rfl fun _ => rfl).trans (timing_modifyTask rfl fun _ => rfl)
  rw [checkPreemptCurrRas]
  split <;> exact hweights

theorem timing_preemptCurr {flags : ℕ} : (preemptCurr K s p flags).timing = s.timing := by
  rw [preemptCurr]
  split
  · rw [classCheckPreemptCurr]
    split
    · rw [checkPreemptCurrRt]
      split <;> rfl
    · exact timing_checkPreemptCurrRas
    · exact timing_applyEffect _
  · split <;> rfl

theorem timing_checkPreemptCurr {flags : ℕ} : (checkPreemptCurr K s p flags).timing = s.timing := by
  rw [checkPreemptCurr]
  split <;> exact timing_preemptCurr

theorem timing_checkClassChanged {prevClass : SchedClass} {oldprio : ℤ} :
    (checkClassChanged K s p prevClass oldprio).timing = s.timing := by
  rw [checkClassChanged]
  split
  · have hfrom : (classSwitchedFrom K s prevClass p).timing = s.timing := by
      cases prevClass <;> rfl
    rw [← hfrom, classSwitchedTo]
    split
    · rw [switchedToRt]
      split <;> rfl
    · rw [switchedToRas]
      split <;> rfl
    · exact timing_applyEffect _
  · split
    · rw [classPrioChanged]
      split
      · rw [prioChangedRt]
        split_ifs <;> rfl
      · rfl
      · exact timing_applyEffect _
    · rfl

theorem timing_classTaskMoveGroup {onRq : Bool} :
    (classTaskMoveGroup K s p onRq).timing = s.timing := by
  rw [classTaskMoveGroup]
  split <;> rfl

theorem timing_schedRrGetInterval : (schedRrGetInterval K s p).2.timing = s.timing := by
  rw [schedRrGetInterval]
  split
  · rfl
  · exact timing_modifyTask rfl fun _ => rfl
  · rfl

theorem timing_schedRtRqEnqueue {g : RtGroup} : (schedRtRqEnqueue s g).timing = s.timing := by
  rw [schedRtRqEnqueue]
  dsimp only
  split_ifs <;> rfl

theorem timing_doSchedRtPeriodTimer {g : RtGroup} {overrun : ℕ} :
    (doSchedRtPeriodTimer K s g overrun).2.timing = s.timing := by
  have hm : (rtReplenish s g overrun).2.2.timing = s.timing := by
    rw [rtReplenish]
    dsimp only
    split_ifs <;> rfl
  rw [doSchedRtPeriodTimer_eq, ← hm]
  split
  · exact timing_schedRtRqEnqueue
  · rfl

end Unchanged

/-! ### Clock and charges -/

/-- What `update_rq_clock` reads and writes. -/
def Rq.clocks (s : Rq τ Q) : ℤ × ℤ × ℤ × ℤ :=
  (s.skipClockUpdate, s.schedClock, s.clock, s.clockTask)

omit [DecidableEq τ] in
theorem ran_updateRqClock : Ran s.timing (updateRqClock s).timing := by
  rw [updateRqClock]
  split
  · exact .refl _
  · refine ⟨rfl, rfl, rfl, .inr ⟨?_, rfl⟩, fun t ht => rfl, fun _ hstamp hle => ⟨?_, rfl⟩⟩
    · show s.clock + (s.schedClock - s.clock) = s.schedClock
      omega
    · exact hstamp.trans hle

omit [DecidableEq τ] in
/-- The clock is read only once at one time. -/
theorem updateRqClock_of_clocks {u : Rq τ Q} (h : u.clocks = (updateRqClock s).clocks) :
    updateRqClock u = u := by
  obtain ⟨hskip, hsched, hclock, -⟩ : u.skipClockUpdate = (updateRqClock s).skipClockUpdate ∧
      u.schedClock = (updateRqClock s).schedClock ∧ u.clock = (updateRqClock s).clock ∧
      u.clockTask = (updateRqClock s).clockTask := by
    simpa [Rq.clocks] using h
  rw [updateRqClock] at hskip hsched hclock
  by_cases hpos : 0 < s.skipClockUpdate
  · rw [if_pos hpos] at hskip
    rw [updateRqClock, if_pos (by omega)]
  · rw [if_neg hpos] at hskip hsched hclock
    have hdelta : u.schedClock - u.clock = 0 := by
      dsimp only at hsched hclock
      omega
    rw [updateRqClock, hdelta]
    simp only [Int.add_zero, ite_self]

/-- A charge leaves nothing to be charged. -/
theorem charged_chargeCurr : Charged (chargeCurr s).timing := fun _ => by
  simp [Rq.timing, chargeCurr, Rq.modifyTask]

theorem ran_chargeCurr : Ran s.timing (chargeCurr s).timing where
  schedClock := rfl
  curr := rfl
  currClass := by simp [Rq.timing, chargeCurr, Rq.modifyTask]
  clock := .inl ⟨rfl, rfl⟩
  se t ht := by
    have ht : t ≠ s.curr := ht
    simp [Rq.timing, chargeCurr, Rq.modifyTask, ht]
  charge _ hstamp _ := by
    have hstamp : (s.task s.curr).se.execStart ≤ s.clockTask := hstamp
    have hdelta : deltaExec s = s.clockTask - (s.task s.curr).se.execStart := by
      rw [deltaExec]
      exact if_neg (by omega)
    simp only [Rq.timing, chargeCurr, Rq.modifyTask, Function.update_self, hdelta]
    omega

theorem charged_updateCurrRas : Charged (updateCurrRas s).timing := by
  rw [updateCurrRas]
  split
  · next hc => exact fun hras => absurd hras hc
  · exact charged_chargeCurr

theorem ran_updateCurrRas : Ran s.timing (updateCurrRas s).timing := by
  rw [updateCurrRas]
  split
  · exact .refl _
  · exact ran_chargeCurr

theorem ran_updateCurrRt : Ran s.timing (updateCurrRt K s).timing := by
  rcases updateCurrRt_eq K s with h | ⟨rt, needResched, h⟩
  · exact .of_eq (by rw [h])
  · exact ran_chargeCurr.trans (.of_eq (by rw [h]; rfl))

theorem clocks_updateCurrRas : (updateCurrRas s).clocks = s.clocks := by
  rw [updateCurrRas]
  split <;> rfl

theorem clocks_updateCurrRt : (updateCurrRt K s).clocks = s.clocks := by
  rcases updateCurrRt_eq K s with h | ⟨rt, needResched, h⟩ <;> rw [h]
  rfl

/-! ### Queueing -/

theorem timing_enqueueTaskRt {flags : EnqueueFlags} :
    (enqueueTaskRt s p flags).timing = s.timing := by
  have hmodify : (s.modifyTask p fun p =>
      { p with rt := { p.rt with timeout := if flags.wakeup then 0 else p.rt.timeout } }).timing =
        s.timing := timing_modifyTask rfl fun _ => rfl
  exact hmodify

theorem timing_enqueueTaskRas {flags : EnqueueFlags} :
    (enqueueTaskRas K s p flags).timing = s.timing := by
  rw [enqueueTaskRas]
  simp only [rasSlice_eq]
  have hmodify : (s.modifyTask p fun p =>
      { p with ras :=
        { weight := calcRasWeight p, timeSlice := rasSlice K.hz p
          timeout := if flags.wakeup then 0 else p.ras.timeout } }).timing = s.timing :=
    timing_modifyTask rfl fun _ => rfl
  exact hmodify

theorem timing_enqueueTask {flags : EnqueueFlags} :
    (enqueueTask K s p flags).timing = (updateRqClock s).timing := by
  rw [enqueueTask]
  split
  · exact timing_enqueueTaskRt
  · exact timing_enqueueTaskRas
  · rfl

theorem ran_enqueueTask {flags : EnqueueFlags} :
    Ran s.timing (enqueueTask K s p flags).timing :=
  ran_updateRqClock.trans (.of_eq timing_enqueueTask)

theorem ran_dequeueTask {sleep : Bool} : Ran s.timing (dequeueTask K s p sleep).timing := by
  rw [dequeueTask]
  refine ran_updateRqClock.trans ?_
  split
  · exact ran_updateCurrRt.trans (.of_eq rfl)
  · exact ran_updateCurrRas.trans (.of_eq rfl)
  · exact .of_eq rfl

theorem charged_dequeueTask {sleep : Bool} (hc : (s.ctl p).schedClass = .ras) :
    Charged (dequeueTask K s p sleep).timing := by
  have hc : ((updateRqClock s).task p).schedClass = .ras := by rwa [updateRqClock_task]
  rw [dequeueTask, hc]
  exact charged_updateCurrRas

theorem clocks_dequeueTask {sleep : Bool} :
    (dequeueTask K s p sleep).clocks = (updateRqClock s).clocks := by
  rw [dequeueTask]
  split
  · exact clocks_updateCurrRt
  · exact clocks_updateCurrRas
  · rfl

theorem ran_classPutPrevTask : Ran s.timing (classPutPrevTask K s p).timing := by
  rw [classPutPrevTask]
  split
  · exact ran_updateCurrRt
  · exact ran_updateCurrRas.trans (.of_eq timing_requeueTaskRas)
  · exact .of_eq rfl

/-- The running task is charged when it is put aside. -/
theorem charged_classPutPrevTask : Charged (classPutPrevTask K s s.curr).timing := by
  intro hras
  have hclass : (s.task s.curr).schedClass = .ras :=
    (ran_classPutPrevTask (K := K) (p := s.curr)).currClass.symm.trans hras
  rw [classPutPrevTask, hclass] at hras ⊢
  rw [putPrevTaskRas, timing_requeueTaskRas] at hras ⊢
  exact charged_updateCurrRas hras

theorem clocks_classPutPrevTask : (classPutPrevTask K s p).clocks = s.clocks := by
  rw [classPutPrevTask]
  split
  · exact clocks_updateCurrRt
  · rw [putPrevTaskRas, requeueTaskRas]
    split <;> exact clocks_updateCurrRas
  · rfl

/-! ### Wakeups, ticks and context switches -/

theorem ran_ttwuActivate {flags : EnqueueFlags} : Ran s.timing (ttwuActivate K s p flags).timing :=
  ran_enqueueTask.trans (.of_eq (timing_modifyCtl fun _ => rfl))

theorem timing_ttwuDoWakeup {flags : ℕ} : (ttwuDoWakeup K s p flags).timing = s.timing :=
  (timing_modifyCtl fun _ => rfl).trans timing_checkPreemptCurr

theorem ran_tryToWakeUp {mask flags : ℕ} :
    Ran s.timing (tryToWakeUp K s p mask flags).2.timing := by
  rw [tryToWakeUp]
  split_ifs
  · exact .refl _
  · exact .of_eq timing_ttwuDoWakeup
  · exact ran_ttwuActivate.trans (.of_eq timing_ttwuDoWakeup)

theorem ran_tryToWakeUpLocal : Ran s.timing (tryToWakeUpLocal K s p).timing := by
  rw [tryToWakeUpLocal]
  split_ifs
  · exact .refl _
  · exact .refl _
  · exact ran_ttwuActivate.trans (.of_eq timing_ttwuDoWakeup)
  · exact .of_eq timing_ttwuDoWakeup

theorem ran_wakeUpNewTask : Ran s.timing (wakeUpNewTask K s p).timing :=
  ran_ttwuActivate.trans (.of_eq timing_checkPreemptCurr)

theorem ran_schedulePrev {preempt signalPending : Bool} {toWakeup : Option τ} :
    Ran s.timing (schedulePrev K s preempt signalPending toWakeup).timing := by
  have hoff : Ran s.timing ((deactivateTask K s s.curr true).modifyCtl s.curr fun p =>
      { p with onRq := false }).timing :=
    ran_dequeueTask.trans (.of_eq (timing_modifyCtl fun _ => rfl))
  rw [schedulePrev]
  dsimp only
  split_ifs
  · exact .of_eq (timing_modifyCtl fun _ => rfl)
  · cases toWakeup with
    | none => exact hoff
    | some w => exact hoff.trans ran_tryToWakeUpLocal
  · exact .refl _

/-- The clock is read, if at all, and the running task is charged when it is put aside. -/
theorem ran_putPrevTask : Ran s.timing (putPrevTask K s s.curr).timing ∧
    Charged (putPrevTask K s s.curr).timing := by
  rw [putPrevTask]
  split
  · have hcurr : (updateRqClock s).curr = s.curr := updateRqClock_curr s
    rw [← hcurr]
    exact ⟨ran_updateRqClock.trans ran_classPutPrevTask, charged_classPutPrevTask⟩
  · exact ⟨ran_classPutPrevTask, charged_classPutPrevTask⟩

theorem watchdogRas_se (hz : ℕ) (p : TaskStruct) : (watchdogRas hz p).se = p.se := by
  rw [watchdogRas]
  split <;> rfl

theorem watchdogRt_se (hz : ℕ) (p : TaskStruct) : (watchdogRt hz p).se = p.se := by
  rw [watchdogRt]
  split <;> rfl

theorem timing_countTick : (countTick K s p).timing = (updateCurrRas s).timing :=
  (timing_modifyTask rfl fun _ => rfl).trans (timing_modifyTask (watchdogRas_se _ _) fun _ =>
    congrArg TaskControl.schedClass (watchdogRas_ctl _ _))

/-- A tick does nothing to the run time of the task but to charge it. -/
theorem timing_taskTickRas : (taskTickRas K s p).timing = (updateCurrRas s).timing := by
  have hrefill : ((countTick K s p).modifyTask p (grantSlice K.hz)).timing = (updateCurrRas s).timing :=
    (timing_modifyTask rfl fun _ => rfl).trans timing_countTick
  rw [taskTickRas_eq]
  split_ifs
  · exact timing_countTick
  · exact timing_requeueTaskRas.trans hrefill
  · exact hrefill

theorem timing_taskTickRt : (taskTickRt K s p).timing = (updateCurrRt K s).timing := by
  have hwatch : ((updateCurrRt K s).modifyTask p (watchdogRt K.hz)).timing = (updateCurrRt K s).timing :=
    timing_modifyTask (watchdogRt_se _ _) fun _ => congrArg TaskControl.schedClass (watchdogRt_ctl _ _)
  have hslice : ∀ f : UInt32 → UInt32,
      (((updateCurrRt K s).modifyTask p (watchdogRt K.hz)).modifyTask p fun p =>
        { p with rt := { p.rt with timeSlice := f p.rt.timeSlice } }).timing =
          (updateCurrRt K s).timing := fun f =>
    (timing_modifyTask rfl fun _ => rfl).trans hwatch
  rw [taskTickRt]
  dsimp only
  split_ifs
  · exact hwatch
  · exact hslice fun n => n - 1
  · rw [timing_reschedTask, timing_requeueTaskRt]
    exact (timing_modifyTask rfl fun _ => rfl).trans (hslice fun n => n - 1)
  · exact (timing_modifyTask rfl fun _ => rfl).trans (hslice fun n => n - 1)

theorem ran_schedulerTick : Ran s.timing (schedulerTick K s).timing ∧
    Charged (schedulerTick K s).timing := by
  rw [schedulerTick, classTaskTick]
  split
  · next hc =>
    rw [timing_taskTickRt]
    have hran : Ran (updateRqClock s).timing (updateCurrRt K (updateRqClock s)).timing :=
      ran_updateCurrRt
    refine ⟨ran_updateRqClock.trans hran, fun hras => ?_⟩
    exact absurd (hc.symm.trans (hran.currClass.symm.trans hras)) (by decide)
  · rw [timing_taskTickRas]
    exact ⟨ran_updateRqClock.trans ran_updateCurrRas, charged_updateCurrRas⟩
  · next hc =>
    rw [timing_applyEffect]
    exact ⟨ran_updateRqClock, fun hras => absurd hras hc⟩

/-! ### Picks -/

/-- A pick charges nothing, and a RAS task that is picked is stamped. -/
structure StampsPick (s : Rq τ Q) (r : Pick τ × Rq τ Q) : Prop where
  clockTask : r.2.clockTask = s.clockTask
  sum : ∀ t, (r.2.task t).se.sumExecRuntime = (s.task t).se.sumExecRuntime
  stamped : ∀ p, r.1 = .task p → (s.ctl p).schedClass = .ras →
    (r.2.task p).se.execStart = s.clockTask

omit [DecidableEq τ] in
theorem StampsPick.trans {m : Rq τ Q} {o : Pick τ} {r : Pick τ × Rq τ Q} (h : StampsPick s (o, m))
    (hctl : m.ctl = s.ctl) (h' : StampsPick m r) : StampsPick s r where
  clockTask := h'.clockTask.trans h.clockTask
  sum t := (h'.sum t).trans (h.sum t)
  stamped p hp hc := (h'.stamped p hp (by rwa [hctl])).trans h.clockTask

/-- The entity of the task that is picked is stamped by both queueing classes. -/
theorem stampsPick_modifyTask : StampsPick s (.task p, s.modifyTask p fun p =>
    { p with se := { p.se with execStart := s.clockTask } }) where
  clockTask := rfl
  sum t := by
    by_cases ht : t = p
    · subst ht; simp [Rq.modifyTask]
    · simp [Rq.modifyTask, ht]
  stamped q hq _ := by
    obtain rfl : p = q := by simpa using hq
    simp [Rq.modifyTask]

variable {F : Finset τ}

theorem stampsPick_class (h : Holds K s F) (hidle : (s.ctl s.idle).schedClass = .idle)
    (c : SchedClass) : StampsPick s (classPickNextTask K s c) := by
  -- the classes outside the repository only give tasks of their own
  have hforeign : c ≠ .ras → ∀ p, (classPickNextTask K s c).1 = .task p →
      (s.ctl p).schedClass ≠ .ras := by
    intro hras p hp hc
    rcases classPickNextTask_spec (K := K) h c with ⟨hnone, -, -⟩ | ⟨q, hq, hpick⟩
    · rw [hnone] at hp
      cases hp
    · obtain rfl : q = p := by simpa [hq] using hp
      rcases hpick.mem with ⟨-, rfl⟩ | ⟨-, hc'⟩
      · rw [hidle] at hc
        cases hc
      · exact hras (hc'.symm.trans hc)
  cases c with
  | rt =>
    simp only [classPickNextTask, pickNextTaskRt]
    split_ifs
    · exact ⟨rfl, fun _ => rfl, fun _ hp => by cases hp⟩
    · exact ⟨rfl, fun _ => rfl, fun _ hp => by cases hp⟩
    · split
      · exact ⟨rfl, fun _ => rfl, fun _ hp => by cases hp⟩
      · exact stampsPick_modifyTask
  | ras =>
    simp only [classPickNextTask, pickNextTaskRas]
    split_ifs
    · exact ⟨rfl, fun _ => rfl, fun _ hp => by cases hp⟩
    · split
      · exact ⟨rfl, fun _ => rfl, fun _ hp => by cases hp⟩
      · exact stampsPick_modifyTask
  | idle => exact ⟨rfl, fun _ => rfl, fun p hp hc => absurd hc (hforeign (by decide) p hp)⟩
  | stop | fair =>
    refine ⟨?_, fun t => ?_, fun p hp hc => absurd hc (hforeign (by decide) p hp)⟩
    · simp only [classPickNextTask]
      split <;> rfl
    · simp only [classPickNextTask]
      split <;> rfl

theorem stampsPick_pickFrom {cs : List SchedClass} (h : Holds K s F)
    (hidle : (s.ctl s.idle).schedClass = .idle) : StampsPick s (pickFrom K s cs) := by
  induction cs generalizing s with
  | nil => exact ⟨rfl, fun _ => rfl, fun _ hp => by cases hp⟩
  | cons c cs ih =>
    have hacc : Accounts K s (classPickNextTask K s c).2 := accounts_classPickNextTask
    have hidle' : ((classPickNextTask K s c).2.ctl (classPickNextTask K s c).2.idle).schedClass =
        .idle := by rwa [hacc.ctl, hacc.idle]
    have hclass := stampsPick_class h hidle c
    rcases classPickNextTask_spec h c with ⟨hnone, -, -⟩ | ⟨p, hp, -⟩
    · rw [pickFrom_cons_none hnone]
      exact hclass.trans hacc.ctl (ih (hacc.holds h) hidle')
    · rw [pickFrom_cons_task hp]
      exact hclass

theorem stampsPick_pickNextTask (h : Holds K s F) (hidle : (s.ctl s.idle).schedClass = .idle) :
    StampsPick s (pickNextTask K s) := by
  by_cases hfast : s.nrRunning = s.cfs.hNrRunning
  · have hacc : Accounts K s (classPickNextTask K s .fair).2 := accounts_classPickNextTask
    have hidle' : ((classPickNextTask K s .fair).2.ctl
        (classPickNextTask K s .fair).2.idle).schedClass = .idle := by rwa [hacc.ctl, hacc.idle]
    have hclass := stampsPick_class h hidle .fair
    rcases classPickNextTask_spec h .fair with ⟨hnone, -, -⟩ | ⟨p, hp, -⟩
    · rw [pickNextTask_fast_none hfast hnone]
      exact hclass.trans hacc.ctl (stampsPick_pickFrom (hacc.holds h) hidle')
    · rw [pickNextTask_fast_task hfast hp]
      exact hclass
  · rw [pickNextTask, if_neg hfast]
    exact stampsPick_pickFrom h hidle

/-- A context switch charges the task that was running and stamps the task that runs next. -/
theorem schedule_times (h : Inv K s) {preempt signalPending : Bool} {toWakeup : Option τ}
    (hs : schedule K s preempt signalPending toWakeup = some s') :
    ∃ m, Ran s.timing m ∧ HandsOver m s'.timing := by
  have hprev : Ran s.timing (schedulePrev K s preempt signalPending toWakeup).timing :=
    ran_schedulePrev
  have hprevCurr : (schedulePrev K s preempt signalPending toWakeup).curr = s.curr := hprev.curr
  obtain ⟨m, hm⟩ : ∃ m, m = putPrevTask K
    (schedulePrev K s preempt signalPending toWakeup) s.curr := ⟨_, rfl⟩
  have hput := ran_putPrevTask (K := K) (s := schedulePrev K s preempt signalPending toWakeup)
  rw [hprevCurr, ← hm] at hput
  have hran : Ran s.timing m.timing := hprev.trans hput.1
  have hd : PrevDone K s m := by
    rw [hm]
    exact (h.prevDone preempt signalPending toWakeup).keeps keeps_putPrevTask
  obtain ⟨F, hF, -⟩ := hd.holds
  have hpick : StampsPick m (pickNextTask K m) :=
    stampsPick_pickNextTask hF (by rw [hd.idle, hd.ctl_idle]; exact h.idle_class)
  have hacc : Accounts K m (pickNextTask K m).2 := accounts_pickNextTask
  rw [schedule] at hs
  dsimp only at hs
  rw [← hm] at hs
  refine ⟨m.timing, hran, ?_⟩
  split at hs
  · next next u heq =>
    rw [heq] at hpick hacc
    have hstamp : ∀ c, (u.task next).schedClass = c → c = .ras →
        (u.task next).se.execStart = u.clockTask := by
      rintro c hc rfl
      rw [hpick.clockTask]
      exact hpick.stamped next rfl (by rw [← hacc.ctl]; exact hc)
    obtain rfl := Option.some.inj hs
    split
    · exact ⟨hpick.clockTask, hpick.sum, hput.2, hstamp _ rfl⟩
    · next hsame =>
      have hcurr : u.curr = next := hacc.curr.trans (hd.curr.trans (not_not.mp hsame))
      rw [← hcurr] at hstamp
      exact ⟨hpick.clockTask, hpick.sum, hput.2, hstamp _ rfl⟩
  · cases hs

/-! ### Changes to queued tasks -/

theorem se_modifyCtl {f : TaskControl → TaskControl} (t : τ) :
    ((s.modifyCtl p f).task t).se = (s.task t).se := by
  by_cases ht : t = p <;> simp [Rq.modifyCtl, Rq.modifyTask, ht]

/-- Changing a task that does not run, or one that stays in its class, passes as time of running.
The dequeue of a RAS task charges the one that runs. -/
theorem ran_withTaskOffRq {change : Rq τ Q → Rq τ Q} {flags : EnqueueFlags}
    (hchange : ∀ u : Rq τ Q, u.curr = s.curr →
      (change u).timing = u.timing ∧ (change u).clocks = u.clocks) :
    Ran s.timing (withTaskOffRq K s p false change flags).timing ∧
      ((s.task p).onRq = true → (s.task p).schedClass = .ras →
        Charged (withTaskOffRq K s p false change flags).timing) := by
  by_cases hon : (s.task p).onRq = true
  · have heq : withTaskOffRq K s p false change flags =
        enqueueTask K (change (dequeueTask K s p false)) p flags := by
      simp [withTaskOffRq, hon]
    have hdeq : Ran s.timing (dequeueTask K s p false).timing := ran_dequeueTask
    obtain ⟨htiming, hclocks⟩ := hchange (dequeueTask K s p false) hdeq.curr
    rw [heq, timing_enqueueTask, updateRqClock_of_clocks (hclocks.trans clocks_dequeueTask), htiming]
    exact ⟨hdeq, fun _ hras => charged_dequeueTask hras⟩
  · have heq : withTaskOffRq K s p false change flags = change s := by simp [withTaskOffRq, hon]
    rw [heq]
    exact ⟨.of_eq (hchange s rfl).1, fun h => absurd h hon⟩

theorem stamps_setCurrTask : Charged (classSetCurrTask K s).timing ∧
    (classSetCurrTask K s).clocks = s.clocks ∧ (classSetCurrTask K s).curr = s.curr ∧
    ∀ t, ((classSetCurrTask K s).task t).se.sumExecRuntime = (s.task t).se.sumExecRuntime := by
  -- the real-time class and the RAS class stamp the task alike
  have hstamp := stampsPick_modifyTask (s := s) (p := s.curr)
  rw [classSetCurrTask]
  split
  · exact ⟨fun _ => by simp [Rq.timing, setCurrTaskRt, Rq.modifyTask], rfl, rfl, hstamp.sum⟩
  · exact ⟨fun _ => by simp [Rq.timing, setCurrTaskRas, Rq.modifyTask], rfl, rfl, hstamp.sum⟩
  · next hc => exact ⟨fun hras => absurd hras hc, rfl, rfl, fun _ => rfl⟩

/-- The running task is charged before it changes and stamped after. -/
theorem withTaskOffRq_times {change : Rq τ Q → Rq τ Q} {flags : EnqueueFlags}
    (hon : (s.task s.curr).onRq = true)
    (hchange : ∀ u, (change u).clocks = u.clocks ∧ (change u).curr = u.curr ∧
      ∀ t, ((change u).task t).se = (u.task t).se) :
    ∃ m, Ran s.timing m ∧ HandsOver m (withTaskOffRq K s s.curr true change flags).timing := by
  obtain ⟨off, hoff⟩ : ∃ off, off = classPutPrevTask K (dequeueTask K s s.curr false) s.curr :=
    ⟨_, rfl⟩
  obtain ⟨changed, hchanged⟩ : ∃ changed, changed = classSetCurrTask K (change off) := ⟨_, rfl⟩
  have hdeq : Ran s.timing (dequeueTask K s s.curr false).timing := ran_dequeueTask
  have hdeqCurr : (dequeueTask K s s.curr false).curr = s.curr := hdeq.curr
  have hran : Ran s.timing off.timing := by
    rw [hoff]
    exact hdeq.trans ran_classPutPrevTask
  have hcharged : Charged off.timing := by
    have hput := charged_classPutPrevTask (K := K) (s := dequeueTask K s s.curr false)
    rw [hdeqCurr] at hput
    rwa [hoff]
  have hclocks : off.clocks = (updateRqClock s).clocks := by
    rw [hoff, clocks_classPutPrevTask, clocks_dequeueTask]
  obtain ⟨hclocks', hcurr, hse⟩ := hchange off
  obtain ⟨hcharged', hclocks'', hcurr', hsum⟩ := stamps_setCurrTask (K := K) (s := change off)
  rw [← hchanged] at hcharged' hclocks'' hcurr' hsum
  have hsame : changed.clocks = off.clocks := hclocks''.trans hclocks'
  have hend : (withTaskOffRq K s s.curr true change flags).timing = changed.timing := by
    rw [withTaskOffRq]
    simp only [hon, if_true, ← hoff, ← hchanged]
    rw [timing_enqueueTask, updateRqClock_of_clocks (hsame.trans hclocks)]
  rw [hend]
  refine ⟨off.timing, hran, ?_, fun t => (hsum t).trans ?_, hcharged, hcharged'⟩
  · exact congrArg (fun c => c.2.2.2) hsame
  · rw [hse]
    rfl

end OsProject.Sched
