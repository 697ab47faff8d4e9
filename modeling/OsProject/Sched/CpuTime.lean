import OsProject.Sched.Fifo
import OsProject.Sched.Timing

/-!
# Conservation of run time

The time at which a task is charged, or put on or taken off the processor, is always that of the
last charge of the task that runs, and so no interval is lost and none is charged twice.

## Main definitions

* `StepTimes` — a step is a time of running, and a handover at its end if there is one.
* `rasGain`, `rasTime` — what `update_curr_ras` charges in a step, and the time it stands for.
* `ledgerSystem` — the scheduler with a ledger of both.

## Main results

* `step_times` — every step but a fork is one of these.
* `cpu_time_conserved`.
-/

namespace OsProject.Sched

open Transition

variable {τ Q : Type*} [DecidableEq τ] {K : Kernel τ Q} {s s' : Rq τ Q} {p : τ}

/-! ### Steps -/

/-- A step, but for a fork, is a time of running with a handover at its end if there is one. -/
def StepTimes (m m' : Timing τ) : Prop := Ran m m' ∨ ∃ u, Ran m u ∧ HandsOver u m'

/-- The step calls `update_curr_ras`: it is a tick or a context switch, or dequeues a RAS task. -/
def UpdatesRas (K : Kernel τ Q) (s : Rq τ Q) : Op τ → Prop
  | .schedulerTick => True
  | .schedule .. => True
  | op => ∃ t, TakesOff K s op t ∧ (s.task t).schedClass = .ras

theorem updatesRas_atTime {op : Op τ} {now : ℤ} :
    UpdatesRas K (atTime s now) op ↔ UpdatesRas K s op := by
  cases op <;> exact Iff.rfl

/-- Changing the class of a task and telling the classes. -/
theorem changeClass_times {f : TaskControl → TaskControl} {flags : EnqueueFlags}
    {prevClass : SchedClass} {oldprio : ℤ} (hon : s.curr = p → (s.task p).onRq = true) :
    StepTimes s.timing (checkClassChanged K (withTaskOffRq K s p (s.curr = p)
      (fun s => s.modifyCtl p f) flags) p prevClass oldprio).timing ∧
    ((s.task p).onRq = true → (s.task p).schedClass = .ras →
      Charged (checkClassChanged K (withTaskOffRq K s p (s.curr = p)
        (fun s => s.modifyCtl p f) flags) p prevClass oldprio).timing) := by
  rw [timing_checkClassChanged]
  by_cases hp : s.curr = p
  · subst hp
    simp only [decide_true]
    obtain ⟨m, hran, hands⟩ : ∃ m, Ran s.timing m ∧ HandsOver m (withTaskOffRq K s s.curr true
        (fun u => u.modifyCtl s.curr f) flags).timing :=
      withTaskOffRq_times (hon rfl) fun u => ⟨rfl, rfl, se_modifyCtl⟩
    exact ⟨.inr ⟨m, hran, hands⟩, fun _ _ => hands.charged'⟩
  · simp only [hp, decide_false]
    have hchange : ∀ u : Rq τ Q, u.curr = s.curr →
        (u.modifyCtl p f).timing = u.timing ∧ (u.modifyCtl p f).clocks = u.clocks := fun u hu =>
      ⟨timing_modifyCtl fun hpu => absurd (hu.symm.trans hpu.symm) hp, rfl⟩
    exact ⟨.inl (ran_withTaskOffRq hchange).1, (ran_withTaskOffRq hchange).2⟩

theorem rtMutexSetprio_times (prio : ℤ) (hp : p ≠ s.idle)
    (hon : s.curr = p → (s.task p).onRq = true) :
    StepTimes s.timing (rtMutexSetprio K s p prio).timing ∧
      ((s.task p).onRq = true → (s.task p).schedClass = .ras →
        Charged (rtMutexSetprio K s p prio).timing) := by
  rw [rtMutexSetprio, if_neg hp]
  exact changeClass_times hon

theorem setUserNice_times {nice : ℤ} :
    Ran s.timing (setUserNice K s p nice).timing ∧
      (∀ t, TakesOff K s (.setUserNice p nice) t → (s.task t).schedClass = .ras →
        Charged (setUserNice K s p nice).timing) := by
  have hchange : ∀ u : Rq τ Q, u.curr = s.curr →
      (u.modifyCtl p (reniced nice)).timing = u.timing ∧
        (u.modifyCtl p (reniced nice)).clocks = u.clocks := fun u _ =>
    ⟨timing_modifyCtl fun _ => rfl, rfl⟩
  have hoff : Ran s.timing (withTaskOffRq K s p false (fun u => u.modifyCtl p (reniced nice)) {}).timing
      ∧ ((s.task p).onRq = true → (s.task p).schedClass = .ras →
        Charged (withTaskOffRq K s p false (fun u => u.modifyCtl p (reniced nice)) {}).timing) :=
    ran_withTaskOffRq hchange
  have hend : ∀ {c : Prop} [Decidable c] {u : Rq τ Q} {q : τ},
      (if c then u.reschedTask q else u).timing = u.timing := by
    intro c _ u q
    split <;> rfl
  rw [setUserNice]
  split
  · next hsame =>
    refine ⟨.refl _, fun t ht => ?_⟩
    obtain ⟨rfl, -, -, hnot⟩ := ht
    exact absurd hsame hnot
  · split
    · next hrt =>
      refine ⟨.of_eq (timing_modifyCtl fun _ => rfl), fun t ht => ?_⟩
      obtain ⟨rfl, -, hnot, -⟩ := ht
      exact absurd (hrt.symm.trans hnot) (by decide)
    · dsimp only
      rw [hend]
      refine ⟨hoff.1, fun t ht hras => ?_⟩
      obtain ⟨rfl, hon, -, -⟩ := ht
      exact hoff.2 hon hras

theorem schedMoveTask_times {tg : TaskGroup} (hon : s.curr = p → (s.task p).onRq = true) :
    StepTimes s.timing (schedMoveTask K s p tg).timing ∧
      ((s.task p).onRq = true → (s.task p).schedClass = .ras →
        Charged (schedMoveTask K s p tg).timing) := by
  have hchange : ∀ u : Rq τ Q,
      (classTaskMoveGroup K (u.modifyCtl p fun p => { p with schedTaskGroup := tg }) p
        (s.task p).onRq).timing = u.timing ∧
      (classTaskMoveGroup K (u.modifyCtl p fun p => { p with schedTaskGroup := tg }) p
        (s.task p).onRq).clocks = u.clocks := by
    intro u
    refine ⟨timing_classTaskMoveGroup.trans (timing_modifyCtl fun _ => rfl), ?_⟩
    rw [classTaskMoveGroup]
    split <;> rfl
  rw [schedMoveTask]
  by_cases hp : s.curr = p
  · subst hp
    simp only [decide_true]
    obtain ⟨m, hran, hands⟩ : ∃ m, Ran s.timing m ∧ HandsOver m (withTaskOffRq K s s.curr true
        (fun t => classTaskMoveGroup K (t.modifyCtl s.curr fun p => { p with schedTaskGroup := tg })
          s.curr (s.task s.curr).onRq) {}).timing :=
      withTaskOffRq_times (hon rfl) fun u => ⟨(hchange u).2, congrArg Timing.curr (hchange u).1,
        congrFun (congrArg Timing.se (hchange u).1)⟩
    exact ⟨.inr ⟨m, hran, hands⟩, fun _ _ => hands.charged'⟩
  · simp only [hp, decide_false]
    exact ⟨.inl (ran_withTaskOffRq fun u _ => hchange u).1,
      (ran_withTaskOffRq fun u _ => hchange u).2⟩

/-- What a step does to the run time. -/
theorem step_times (h : Inv K s) {op : Op τ} (he : Enabled s op) (hx : execOp K s op = some s')
    (hfork : ∀ child, op ≠ .fork child) :
    StepTimes s.timing s'.timing ∧ (UpdatesRas K s op → Charged s'.timing) := by
  have hon : ∀ {p}, p ≠ s.idle → s.curr = p → (s.task p).onRq = true := by
    rintro p hp rfl
    exact h.curr.resolve_left hp
  have hnot : (∀ t, ¬TakesOff K s op t) →
      (∃ t, TakesOff K s op t ∧ (s.task t).schedClass = .ras) → Charged s'.timing := by
    rintro hno ⟨t, ht, -⟩
    exact absurd ht (hno t)
  cases op with
  | fork child => exact absurd rfl (hfork child)
  | wakeUpNewTask p =>
    obtain rfl := Option.some.inj hx
    exact ⟨.inl ran_wakeUpNewTask, hnot fun _ => id⟩
  | tryToWakeUp p mask flags =>
    obtain rfl := Option.some.inj hx
    exact ⟨.inl ran_tryToWakeUp, hnot fun _ => id⟩
  | schedule preempt signalPending toWakeup =>
    obtain ⟨m, hran, hands⟩ := schedule_times h hx
    exact ⟨.inr ⟨m, hran, hands⟩, fun _ => hands.charged'⟩
  | schedulerTick =>
    obtain rfl := Option.some.inj hx
    exact ⟨.inl ran_schedulerTick.1, fun _ => ran_schedulerTick.2⟩
  | schedYield =>
    obtain rfl := Option.some.inj hx
    exact ⟨.inl (.of_eq timing_classYieldTask), hnot fun _ => id⟩
  | setscheduler caller p policy prio user =>
    obtain rfl := Option.some.inj hx
    rcases schedSetscheduler_cases K s caller p policy prio user with
      ⟨r, hcheck, hres⟩ | ⟨newPolicy, reset, hcheck, hres⟩
    · rw [hres]
      refine ⟨.inl (.refl _), ?_⟩
      rintro ⟨t, ⟨rfl, -, hok⟩, -⟩
      rw [hcheck] at hok
      cases hok
    · rw [hres]
      obtain ⟨hstep, hcharged⟩ := changeClass_times (hon he)
      refine ⟨hstep, ?_⟩
      rintro ⟨t, ⟨rfl, hq, -⟩, hras⟩
      exact hcharged hq hras
  | rtMutexAdjustPrio p waiter =>
    obtain rfl := Option.some.inj hx
    have hwrite : (s.modifyCtl p fun c => { c with piTopWaiter := waiter }).timing = s.timing :=
      timing_modifyCtl fun _ => rfl
    rw [rtMutexAdjustPrio_eq]
    split
    · next hne =>
      obtain ⟨hstep, hcharged⟩ := rtMutexSetprio_times (K := K)
        (s := s.modifyCtl p fun c => { c with piTopWaiter := waiter })
        (rtMutexGetprio { s.ctl p with piTopWaiter := waiter }) he.1 fun hc => by
          simpa [Rq.modifyCtl, Rq.modifyTask] using hon he.1 hc
      rw [hwrite] at hstep
      refine ⟨hstep, ?_⟩
      rintro ⟨t, ⟨rfl, hq, -⟩, hras⟩
      exact hcharged (by simpa [Rq.modifyCtl, Rq.modifyTask] using hq)
        (by simpa [Rq.modifyCtl, Rq.modifyTask] using hras)
    · next heq =>
      refine ⟨.inl (.of_eq hwrite), ?_⟩
      rintro ⟨t, ⟨rfl, -, hne⟩, -⟩
      exact absurd hne heq
  | setUserNice p nice =>
    obtain rfl := Option.some.inj hx
    refine ⟨.inl setUserNice_times.1, ?_⟩
    rintro ⟨t, ht, hras⟩
    exact setUserNice_times.2 t ht hras
  | schedMoveTask p tg =>
    obtain rfl := Option.some.inj hx
    obtain ⟨hstep, hcharged⟩ := schedMoveTask_times (hon he)
    refine ⟨hstep, ?_⟩
    rintro ⟨t, ⟨rfl, hq⟩, hras⟩
    exact hcharged hq hras
  | schedRrGetInterval p =>
    obtain rfl := Option.some.inj hx
    exact ⟨.inl (.of_eq timing_schedRrGetInterval), hnot fun _ => id⟩
  | rtPeriodTimer g overrun =>
    obtain rfl := Option.some.inj hx
    exact ⟨.inl (.of_eq timing_doSchedRtPeriodTimer), hnot fun _ => id⟩
  | setCurrentState state =>
    obtain rfl := Option.some.inj hx
    exact ⟨.inl (.of_eq (timing_modifyCtl fun _ => rfl)), hnot fun _ => id⟩
  | writeTrace p wcounts traceFlag =>
    obtain rfl := Option.some.inj hx
    exact ⟨.inl (.of_eq (timing_modifyTask rfl fun _ => rfl)), hnot fun _ => id⟩

/-- A fork writes the entity of the child and nothing else that run time depends on. -/
theorem fork_times (K : Kernel τ Q) (s : Rq τ Q) (child : τ) :
    (fork K s child).clockTask = s.clockTask ∧ (fork K s child).curr = s.curr ∧
      ∀ t, t ≠ child → (fork K s child).task t = s.task t := by
  obtain ⟨htask, hclock, hcurr⟩ := classTaskFork_eq K
    ((schedForkInit (dupTaskStruct s child) child).modifyCtl child
      (forkedCtl ((schedForkInit (dupTaskStruct s child) child).task s.curr).normalPrio)) child
  refine ⟨hclock, hcurr, fun t ht => (congrFun htask t).trans ?_⟩
  simp [schedForkInit, dupTaskStruct, Rq.modifyCtl, Rq.modifyTask, ht]

/-! ### The ledger -/

/-- The child of a fork. -/
def Op.forked : Op τ → Option τ
  | .fork child => some child
  | _ => none

/-- What a step charges to a RAS task. `update_curr_ras` charges only tasks of its class, and a
task that is charged by another class in its turn is not a RAS task at the start of the step. The
entity of a child is initialised, not charged. -/
def rasGain (s : Rq τ Q) (op : Op τ) (s' : Rq τ Q) (t : τ) : ℤ :=
  if (s.task t).schedClass = .ras ∧ op.forked ≠ some t then
    (s'.task t).se.sumExecRuntime - (s.task t).se.sumExecRuntime
  else 0

/-- The advance of the clock in a step while a RAS task is current. -/
def rasTime (s s' : Rq τ Q) (t : τ) : ℤ :=
  if t = s.curr ∧ (s.task t).schedClass = .ras then s'.clockTask - s.clockTask else 0

/-- The time since the last charge of the current RAS task. -/
def uncharged (s : Rq τ Q) (t : τ) : ℤ :=
  if t = s.curr ∧ (s.task t).schedClass = .ras then s.clockTask - (s.task t).se.execStart else 0

/-- The stamp of a RAS task that runs is not in the future. -/
def Stamped (s : Rq τ Q) : Prop :=
  (s.task s.curr).schedClass = .ras → (s.task s.curr).se.execStart ≤ s.clockTask

theorem uncharged_of_charged (h : Charged s.timing) (t : τ) : uncharged s t = 0 := by
  rw [uncharged]
  split
  · next hc =>
    obtain ⟨rfl, hras⟩ := hc
    have hstamp : (s.task s.curr).se.execStart = s.clockTask := h hras
    omega
  · rfl

/-- While the same task runs, what it gains and what it is still to be charged balance with the
time. -/
theorem Ran.balance (h : Ran s.timing s'.timing) (hs : Stamped s) (hle : s.clockTask ≤ s'.clockTask)
    {op : Op τ} (hfork : op.forked = none) :
    Stamped s' ∧ ∀ t, rasGain s op s' t + uncharged s' t = uncharged s t + rasTime s s' t := by
  have hcurr : s'.curr = s.curr := h.curr
  have hclass : (s'.task s'.curr).schedClass = (s.task s.curr).schedClass := h.currClass
  rw [hcurr] at hclass
  have hcharge : (s.task s.curr).schedClass = .ras →
      (s'.task s.curr).se.execStart ≤ s'.clockTask ∧
      (s'.task s.curr).se.sumExecRuntime - (s'.task s.curr).se.execStart =
        (s.task s.curr).se.sumExecRuntime - (s.task s.curr).se.execStart := fun hras =>
    h.charge hras (hs hras) hle
  refine ⟨fun hras => ?_, fun t => ?_⟩
  · rw [hcurr] at hras ⊢
    exact (hcharge (hclass.symm.trans hras)).1
  · rw [rasGain, uncharged, uncharged, rasTime, hcurr, hfork]
    by_cases ht : t = s.curr
    · subst ht
      by_cases hras : (s.task s.curr).schedClass = .ras
      · have := (hcharge hras).2
        simp only [hclass, hras, ne_eq, reduceCtorEq, not_false_eq_true, and_self, if_true]
        omega
      · simp [hclass, hras]
    · have hse : (s'.task t).se = (s.task t).se := h.se t ht
      simp [ht, hse]

/-- A handover leaves nothing to be charged, so that the gains are the time the task ran. -/
theorem HandsOver.balance {m : Timing τ} (h : HandsOver m s'.timing) (hran : Ran s.timing m)
    (hs : Stamped s) (hle : s.clockTask ≤ s'.clockTask) {op : Op τ} (hfork : op.forked = none) :
    Stamped s' ∧ ∀ t, rasGain s op s' t + uncharged s' t = uncharged s t + rasTime s s' t := by
  have hclock : s'.clockTask = m.clockTask := h.clockTask
  refine ⟨fun hras => ?_, fun t => ?_⟩
  · have hstamp : (s'.task s'.curr).se.execStart = s'.clockTask := h.charged' hras
    omega
  · have hsum : (s'.task t).se.sumExecRuntime = (m.se t).sumExecRuntime := h.sum t
    rw [uncharged_of_charged h.charged', rasGain, uncharged, rasTime, hfork]
    by_cases ht : t = s.curr
    · subst ht
      by_cases hras : (s.task s.curr).schedClass = .ras
      · have hcharge : _ ∧ (m.se s.curr).sumExecRuntime - (m.se s.curr).execStart =
            (s.task s.curr).se.sumExecRuntime - (s.task s.curr).se.execStart :=
          hran.charge hras (hs hras) (by rw [← hclock]; exact hle)
        have hstamp : (m.se m.curr).execStart = m.clockTask :=
          h.charged (hran.currClass.trans hras)
        rw [show m.curr = s.curr from hran.curr] at hstamp
        simp only [hras, ne_eq, reduceCtorEq, not_false_eq_true, and_self, if_true]
        omega
      · simp [hras]
    · have hse : m.se t = (s.task t).se := hran.se t ht
      rw [hse] at hsum
      simp [ht, hsum]

theorem balance_fork {child : τ} (hchild : child ≠ s.curr) (t : τ) :
    rasGain s (.fork child) (fork K s child) t + uncharged (fork K s child) t =
      uncharged s t + rasTime s (fork K s child) t := by
  obtain ⟨hclock, hcurr, htask⟩ := fork_times K s child
  by_cases ht : t = child
  · subst ht
    simp [rasGain, uncharged, rasTime, Op.forked, hcurr, hchild]
  · simp [rasGain, uncharged, rasTime, hcurr, hclock, htask t ht]

/-- What a task gains in a step, and what it is still to be charged, balance with the time it ran. -/
theorem step_balance (h : Inv K s) (hs : Stamped s) {op : Op τ} (he : Enabled s op)
    (hx : execOp K s op = some s') (hle : s.clockTask ≤ s'.clockTask) :
    Stamped s' ∧
      ∀ t, rasGain s op s' t + uncharged s' t = uncharged s t + rasTime s s' t := by
  by_cases hfork : ∃ child, op = .fork child
  · obtain ⟨child, rfl⟩ := hfork
    obtain ⟨-, -, -, -, -, hchild⟩ := he
    obtain rfl := Option.some.inj hx
    obtain ⟨hclock, hcurr, htask⟩ := fork_times K s child
    refine ⟨?_, balance_fork hchild⟩
    rw [Stamped, hcurr, hclock, htask _ hchild.symm]
    exact hs
  · have hforked : op.forked = none := by
      cases op with
      | fork child => exact absurd ⟨child, rfl⟩ hfork
      | _ => rfl
    rcases (step_times h he hx fun child hop => hfork ⟨child, hop⟩).1 with hran | ⟨m, hran, hands⟩
    · exact hran.balance hs hle hforked
    · exact hands.balance hran hs hle hforked

/-! ### Runs -/

/-- A state of the scheduler, with what each task has gained through `update_curr_ras` so far and
the time it has run as a RAS task. -/
structure Ledger (τ Q : Type*) where
  rq : Rq τ Q
  gained : τ → ℤ
  time : τ → ℤ

/-- The ledger at boot. -/
def Ledger.start (s : Rq τ Q) : Ledger τ Q where
  rq := s
  gained _ := 0
  time _ := 0

/-- A step, with its entries in the ledger, unless the clock runs backwards. -/
def ledgerExec (K : Kernel τ Q) (l : Ledger τ Q) (e : Event τ) : Option (Ledger τ Q) :=
  (exec K l.rq e).bind fun s =>
    if l.rq.clockTask ≤ s.clockTask then
      some
        { rq := s
          gained := fun t => l.gained t + rasGain l.rq e.op s t
          time := fun t => l.time t + rasTime l.rq s t }
    else none

/-- The scheduler with its ledger, over a clock that does not run backwards. -/
def ledgerSystem (K : Kernel τ Q) : System (Ledger τ Q) (Event τ) :=
  .ofExec (fun l => ∃ s, Boot K s ∧ l = .start s) (ledgerExec K)

theorem ledgerStep_iff {l l' : Ledger τ Q} {e : Event τ} :
    (ledgerSystem K).step l e l' ↔ (system K).step l.rq e l'.rq ∧
      l.rq.clockTask ≤ l'.rq.clockTask ∧
      l'.gained = (fun t => l.gained t + rasGain l.rq e.op l'.rq t) ∧
      l'.time = fun t => l.time t + rasTime l.rq l'.rq t := by
  change ledgerExec K l e = some l' ↔ exec K l.rq e = some l'.rq ∧ _
  rw [ledgerExec, Option.bind_eq_some_iff]
  constructor
  · rintro ⟨s, hs, hl⟩
    split at hl
    · next hle =>
      obtain rfl := Option.some.inj hl
      exact ⟨hs, hle, rfl, rfl⟩
    · cases hl
  · rintro ⟨hs, hle, hgained, htime⟩
    refine ⟨l'.rq, hs, ?_⟩
    rw [if_pos hle, ← hgained, ← htime]

/-- What is charged and what is still to be charged is the time the task ran. -/
def Balanced (l : Ledger τ Q) : Prop := ∀ t, l.gained t + uncharged l.rq t = l.time t

theorem ledger_step {l l' : Ledger τ Q} {e : Event τ} (h : Inv K l.rq) (hs : Stamped l.rq)
    (hb : Balanced l) (hstep : (ledgerSystem K).step l e l') :
    Inv K l'.rq ∧ Stamped l'.rq ∧ Balanced l' := by
  obtain ⟨hrq, hle, hgained, htime⟩ := ledgerStep_iff.mp hstep
  obtain ⟨he, hx, hinv⟩ := step_inv h hrq
  obtain ⟨hs', hbalance⟩ := step_balance hinv hs he hx hle
  refine ⟨(execOp_spec hinv he hx).1, hs', fun t => ?_⟩
  have := hb t
  have hstep : rasGain l.rq e.op l'.rq t + uncharged l'.rq t =
      uncharged l.rq t + rasTime l.rq l'.rq t := hbalance t
  simp only [hgained, htime]
  omega

/-- In every run over a clock that does not run backwards, what a task has gained through
`update_curr_ras` is the time for which it was current as a RAS task, but for what has passed since
the last charge. So the two are equal whenever the current RAS task has just been charged, as it is
by every tick, every context switch and every dequeue of a RAS task. -/
theorem cpu_time_conserved {l : Ledger τ Q} (h : Reachable (ledgerSystem K) l) :
    (∀ t, l.gained t + uncharged l.rq t = l.time t) ∧
      (Charged l.rq.timing → ∀ t, l.gained t = l.time t) ∧
      ∀ e l', (ledgerSystem K).step l e l' → UpdatesRas K l.rq e.op →
        ∀ t, l'.gained t = l'.time t := by
  have hall : Inv K l.rq ∧ Stamped l.rq ∧ Balanced l := by
    refine h.invariant (fun l hl => ?_) fun l e l' _ hl hstep => ledger_step hl.1 hl.2.1 hl.2.2 hstep
    obtain ⟨s, hboot, rfl⟩ := hl
    have hras : (s.task s.curr).schedClass ≠ .ras := by
      rw [hboot.curr, hboot.idle_class]
      decide
    refine ⟨inv_of_boot hboot, fun hc => absurd hc hras, fun t => ?_⟩
    have hcharged : Charged s.timing := fun hc => absurd hc hras
    exact (Int.zero_add _).trans (uncharged_of_charged hcharged t)
  obtain ⟨hinv, hs, hb⟩ := hall
  refine ⟨hb, fun hc t => ?_, fun e l' hstep hu t => ?_⟩
  · have := hb t
    rw [uncharged_of_charged hc] at this
    omega
  · have hb' := (ledger_step hinv hs hb hstep).2.2 t
    obtain ⟨he, hx, hinv'⟩ := step_inv hinv (ledgerStep_iff.mp hstep).1
    have hcharged : Charged l'.rq.timing := by
      refine (step_times hinv' he hx fun child hop => ?_).2 (updatesRas_atTime.mpr hu)
      rw [hop] at hu
      exact hu.choose_spec.1.elim
    rw [uncharged_of_charged hcharged] at hb'
    omega

/-- Two RAS tasks take turns. -/
def twoTurns : List (Event ℕ) :=
  [⟨0, setschedulerNocheck 1 6 0⟩, ⟨0, .wakeUpNewTask 1⟩, ⟨0, setschedulerNocheck 2 6 0⟩,
    ⟨0, .wakeUpNewTask 2⟩, ⟨10, reschedule⟩, ⟨25, .schedulerTick⟩, ⟨40, reschedule⟩,
    ⟨45, .schedulerTick⟩]

theorem cpu_time_conserved_twoTurns :
    ∃ l, execAll (ledgerExec (referenceKernel ℕ)) (.start referenceBoot) twoTurns = some l ∧
      l.time 1 = 40 ∧ l.time 2 = 5 ∧ (∀ t, l.gained t + uncharged l.rq t = l.time t) ∧
      (Charged l.rq.timing → ∀ t, l.gained t = l.time t) ∧
      ∀ e l', (ledgerSystem (referenceKernel ℕ)).step l e l' →
        UpdatesRas (referenceKernel ℕ) l.rq e.op → ∀ t, l'.gained t = l'.time t := by
  obtain ⟨l, hl⟩ : ∃ l, l = (execAll (ledgerExec (referenceKernel ℕ)) (.start referenceBoot)
      twoTurns).get (by decide +kernel) := ⟨_, rfl⟩
  have hrun : execAll (ledgerExec (referenceKernel ℕ)) (.start referenceBoot) twoTurns = some l := by
    simp [hl]
  have hreach : Reachable (ledgerSystem (referenceKernel ℕ)) l :=
    (Reachable.init (show (ledgerSystem _).init (.start referenceBoot) from
      ⟨_, boot_referenceBoot, rfl⟩)).run (run_of_execAll hrun)
  exact ⟨l, hrun, by rw [hl]; decide +kernel, by rw [hl]; decide +kernel,
    cpu_time_conserved hreach⟩

end OsProject.Sched
