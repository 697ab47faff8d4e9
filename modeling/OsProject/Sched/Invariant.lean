import OsProject.Sched.Pick

/-!
# The invariant of the scheduler

In every reachable state the run queue holds exactly the tasks that are marked as queued, the
current task is the idle task or one of them, and the control fields of each task agree. A step
changes the control fields of a task only in a few ways, listed by `CtlStep`; later invariants of
the control fields are proved by cases on it.

## Main definitions

* `Inv` — the invariant.
* `CtlStep` — what a step does to the control fields of one task.

## Main results

* `schedule_spec` — what a context switch does.
* `execOp_spec` — every step keeps the invariant, and changes control fields as listed.
* `reachable_inv` — the invariant holds in every reachable state.
* `exec_isSome` — no step from a reachable state crashes.
-/

namespace OsProject.Sched

open Intrusive Transition

variable {τ Q : Type*} [DecidableEq τ] {K : Kernel τ Q} {s s' : Rq τ Q} {F : Finset τ} {p : τ}

/-- The run queue holds the marked tasks, the current task is one of them or idle, and the control
fields agree. -/
structure Inv (K : Kernel τ Q) (s : Rq τ Q) : Prop where
  holds : ∃ F, Holds K s F ∧ ∀ t, t ∈ F ↔ (s.ctl t).onRq = true
  curr : s.curr = s.idle ∨ (s.ctl s.curr).onRq = true
  idle_class : (s.ctl s.idle).schedClass = .idle
  idle_onRq : (s.ctl s.idle).onRq = false
  idle_state : (s.ctl s.idle).state = 0
  idle_prio : maxRtPrio ≤ (s.ctl s.idle).prio
  idle_ne_stop : s.stop ≠ some s.idle
  stop_class : ∀ t, s.stop = some t → (s.ctl t).schedClass = .stop
  ctl : ∀ t, t ≠ s.idle → s.stop ≠ some t → CtlOk (s.ctl t)

namespace Inv

/-- Only the idle task is in the idle class. -/
theorem schedClass_ne_idle (h : Inv K s) (hp : p ≠ s.idle) : (s.ctl p).schedClass ≠ .idle := by
  by_cases hstop : s.stop = some p
  · rw [h.stop_class p hstop]; decide
  · exact (h.ctl p hp hstop).schedClass_ne_idle

/-- Only the stopper thread is in the stop class. -/
theorem stop_eq (h : Inv K s) (hc : (s.ctl p).schedClass = .stop) : s.stop = some p := by
  by_contra hstop
  by_cases hp : p = s.idle
  · rw [hp, h.idle_class] at hc; cases hc
  · exact (h.ctl p hp hstop).schedClass_ne_stop hc

/-- The tasks of the other classes have control fields that agree. -/
theorem ctlOk (h : Inv K s) (hidle : (s.ctl p).schedClass ≠ .idle)
    (hstop : (s.ctl p).schedClass ≠ .stop) : CtlOk (s.ctl p) :=
  h.ctl p (fun hp => hidle (hp ▸ h.idle_class)) fun hs => hstop (h.stop_class p hs)

/-- A real-time task has a real-time priority. -/
theorem prio_lt (h : Inv K s) (hc : (s.ctl p).schedClass = .rt) :
    0 ≤ (s.ctl p).prio ∧ (s.ctl p).prio < maxRtPrio :=
  (h.ctlOk (by simp [hc]) (by simp [hc])).prio_lt hc

/-- The invariant passes to states with the same tasks, when those that changed still agree. -/
theorem of_ctl (h : Inv K s) (hidle : s'.idle = s.idle) (hstop : s'.stop = s.stop)
    (hholds : ∃ F, Holds K s' F ∧ ∀ t, t ∈ F ↔ (s'.ctl t).onRq = true)
    (hcurr : s'.curr = s'.idle ∨ (s'.ctl s'.curr).onRq = true)
    (hctlIdle : s'.ctl s.idle = s.ctl s.idle)
    (hctlStop : ∀ t, s.stop = some t → (s'.ctl t).schedClass = (s.ctl t).schedClass)
    (hok : ∀ t, t ≠ s.idle → s.stop ≠ some t → CtlOk (s'.ctl t)) : Inv K s' where
  holds := hholds
  curr := hcurr
  idle_class := by rw [hidle, hctlIdle]; exact h.idle_class
  idle_onRq := by rw [hidle, hctlIdle]; exact h.idle_onRq
  idle_state := by rw [hidle, hctlIdle]; exact h.idle_state
  idle_prio := by rw [hidle, hctlIdle]; exact h.idle_prio
  idle_ne_stop := by rw [hidle, hstop]; exact h.idle_ne_stop
  stop_class t ht := by
    rw [hstop] at ht
    rw [hctlStop t ht]
    exact h.stop_class t ht
  ctl t ht hts := by
    rw [hidle] at ht
    rw [hstop] at hts
    exact hok t ht hts

theorem of_keeps (h : Inv K s) (hk : Keeps K s s') : Inv K s' := by
  obtain ⟨F, hF, hmem⟩ := h.holds
  refine h.of_ctl hk.idle hk.stop ⟨F, hk.holds F hF, by rwa [hk.ctl]⟩ ?_ (by rw [hk.ctl])
    (fun t _ => by rw [hk.ctl]) fun t ht hts => by rw [hk.ctl]; exact h.ctl t ht hts
  rw [hk.curr, hk.idle, hk.ctl]
  exact h.curr

theorem of_rewrites {f : TaskControl → TaskControl} (h : Inv K s) (hr : Rewrites K s s' p f)
    (hp : p ≠ s.idle) (hon : (f (s.ctl p)).onRq = (s.ctl p).onRq)
    (hok : s.stop ≠ some p → CtlOk (f (s.ctl p)))
    (hstop : s.stop = some p → (f (s.ctl p)).schedClass = (s.ctl p).schedClass) : Inv K s' := by
  obtain ⟨F, hF, hmem⟩ := h.holds
  have hmark : ∀ t, (s'.ctl t).onRq = (s.ctl t).onRq := by
    intro t
    by_cases ht : t = p
    · rw [ht, hr.ctl_self, hon]
    · rw [hr.ctl_of_ne ht]
  refine h.of_ctl hr.idle hr.stop ⟨F, hr.holds F (hmem p) hF, fun t => by rw [hmark]; exact hmem t⟩
    ?_ (hr.ctl_of_ne hp.symm) (fun t ht => ?_) fun t ht hts => ?_
  · rw [hr.curr, hr.idle, hmark]
    exact h.curr
  · by_cases htp : t = p
    · subst htp; rw [hr.ctl_self, hstop ht]
    · rw [hr.ctl_of_ne htp]
  · by_cases htp : t = p
    · subst htp; rw [hr.ctl_self]; exact hok hts
    · rw [hr.ctl_of_ne htp]; exact h.ctl t ht hts

theorem of_wakes (h : Inv K s) (hw : Wakes K s s' p) (hp : p ≠ s.idle) : Inv K s' := by
  obtain ⟨F, hF, hmem⟩ := h.holds
  have hself : s'.ctl p = { s.ctl p with onRq := true, state := 0 } := by
    rw [hw.ctl, Function.update_self]
  have hne : ∀ t, t ≠ p → s'.ctl t = s.ctl t := fun t ht => by
    rw [hw.ctl, Function.update_of_ne ht]
  refine h.of_ctl hw.idle hw.stop ⟨insert p F, hw.holds F (hmem p) hF, fun t => ?_⟩ ?_
    (hne _ hp.symm) (fun t _ => ?_) fun t ht hts => ?_
  · by_cases ht : t = p
    · subst ht; simp [hself]
    · rw [hne t ht, Finset.mem_insert, ← hmem t]
      simp [ht]
  · rw [hw.curr, hw.idle]
    by_cases hc : s.curr = p
    · exact .inr (by rw [hc, hself])
    · rw [hne _ hc]; exact h.curr
  · by_cases htp : t = p
    · subst htp; rw [hself]
    · rw [hne t htp]
  · by_cases htp : t = p
    · subst htp; exact (h.ctl t ht hts).congr (by rw [hself])
    · rw [hne t htp]; exact h.ctl t ht hts

end Inv

/-! ### Context switches -/

/-- Only the state and the mark of the task may differ. -/
def Activity (c c' : TaskControl) : Prop := c' = { c with state := c'.state, onRq := c'.onRq }

theorem Activity.refl (c : TaskControl) : Activity c c := rfl

theorem Activity.trans {c c' c'' : TaskControl} (h : Activity c c') (h' : Activity c' c'') :
    Activity c c'' := by
  rw [Activity] at *
  rw [h', h]

theorem Activity.schedClass {c c' : TaskControl} (h : Activity c c') :
    c'.schedClass = c.schedClass := by
  have := congrArg TaskControl.schedClass h
  exact this

/-- What the first part of a context switch does: the invariant holds but for the current task,
which may be off the run queue. -/
structure PrevDone (K : Kernel τ Q) (s s' : Rq τ Q) : Prop where
  holds : ∃ F, Holds K s' F ∧ ∀ t, t ∈ F ↔ (s'.ctl t).onRq = true
  curr : s'.curr = s.curr
  idle : s'.idle = s.idle
  stop : s'.stop = s.stop
  activity : ∀ t, Activity (s.ctl t) (s'.ctl t)
  ctl_idle : s'.ctl s.idle = s.ctl s.idle
  /-- Only the current task goes to sleep. -/
  stays : ∀ t, t ≠ s.curr → (s.ctl t).onRq = true → (s'.ctl t).onRq = true

theorem PrevDone.keeps {s'' : Rq τ Q} (h : PrevDone K s s') (hk : Keeps K s' s'') :
    PrevDone K s s'' where
  holds := by
    obtain ⟨F, hF, hmem⟩ := h.holds
    exact ⟨F, hk.holds F hF, by rwa [hk.ctl]⟩
  curr := hk.curr.trans h.curr
  idle := hk.idle.trans h.idle
  stop := hk.stop.trans h.stop
  activity := by rw [hk.ctl]; exact h.activity
  ctl_idle := by rw [hk.ctl]; exact h.ctl_idle
  stays := by rw [hk.ctl]; exact h.stays

/-- The current task goes to sleep. -/
theorem Inv.prevDone_deactivate (h : Inv K s) (hstate : (s.ctl s.curr).state ≠ 0) :
    PrevDone K s ((deactivateTask K s s.curr true).modifyCtl s.curr fun p =>
      { p with onRq := false }) := by
  obtain ⟨F, hF, hmem⟩ := h.holds
  have hidle : s.idle ≠ s.curr := fun he => hstate (he ▸ h.idle_state)
  have hon : (s.ctl s.curr).onRq = true := h.curr.resolve_left fun he => hidle he.symm
  have hdeq : Dequeues K s (deactivateTask K s s.curr true) s.curr := dequeueTask_holds
  have hctl : ((deactivateTask K s s.curr true).modifyCtl s.curr fun p =>
      { p with onRq := false }).ctl =
        Function.update s.ctl s.curr { s.ctl s.curr with onRq := false } := by
    rw [ctl_modifyCtl, hdeq.ctl]
  refine ⟨⟨F.erase s.curr, ?_, fun t => ?_⟩, hdeq.curr, hdeq.idle, hdeq.stop, fun t => ?_, ?_,
    fun t ht hon => ?_⟩
  · exact (hdeq.holds F ((hmem _).mpr hon) hF).modifyCtl fun _ => ⟨rfl, rfl, rfl, rfl⟩
  · rw [hctl, Finset.mem_erase, hmem]
    by_cases ht : t = s.curr
    · subst ht; simp
    · simp [ht]
  · rw [hctl]
    by_cases ht : t = s.curr
    · subst ht; simp [Activity]
    · rw [Function.update_of_ne ht]; exact .refl _
  · rw [hctl, Function.update_of_ne hidle]
  · rwa [hctl, Function.update_of_ne ht]

/-- A worker that goes to sleep wakes another one. -/
theorem PrevDone.tryToWakeUpLocal (h : Inv K s) (hd : PrevDone K s s') (w : τ) :
    PrevDone K s (tryToWakeUpLocal K s' w) := by
  obtain ⟨F, hF, hmem⟩ := hd.holds
  by_cases hw : w = s.idle
  · -- the idle task does not sleep
    have hzero : (s'.task w).state = 0 := by
      have := hd.ctl_idle
      rw [← hw] at this
      have hstate := congrArg TaskControl.state this
      rw [hw, h.idle_state, ← hw] at hstate
      exact hstate
    have : Sched.tryToWakeUpLocal K s' w = s' := by
      rw [Sched.tryToWakeUpLocal, hzero, Nat.zero_and]
      simp
    rwa [this]
  · have hclass := (hd.activity w).schedClass
    have hprio : (s'.ctl w).prio = (s.ctl w).prio := by
      have := congrArg TaskControl.prio (hd.activity w)
      exact this
    rcases wakes_tryToWakeUpLocal (K := K) (s := s') (p := w)
      (by rw [hclass]; exact h.schedClass_ne_idle hw)
      (by rw [hclass, hprio]; exact fun hc => h.prio_lt hc) with hsame | ⟨hstate, hcurr, hwakes⟩
    · rwa [hsame]
    · have hself : (Sched.tryToWakeUpLocal K s' w).ctl w =
          { s'.ctl w with onRq := true, state := 0 } := by rw [hwakes.ctl, Function.update_self]
      have hne : ∀ t, t ≠ w → (Sched.tryToWakeUpLocal K s' w).ctl t = s'.ctl t := fun t ht => by
        rw [hwakes.ctl, Function.update_of_ne ht]
      refine ⟨⟨insert w F, hwakes.holds F (hmem w) hF, fun t => ?_⟩, hwakes.curr.trans hd.curr,
        hwakes.idle.trans hd.idle, hwakes.stop.trans hd.stop, fun t => ?_, ?_, fun t ht hon => ?_⟩
      · by_cases ht : t = w
        · subst ht; simp [hself]
        · rw [hne t ht, Finset.mem_insert, ← hmem t]
          simp [ht]
      · by_cases ht : t = w
        · subst ht
          refine (hd.activity t).trans ?_
          rw [hself, Activity]
        · rw [hne t ht]; exact hd.activity t
      · rw [hne _ (Ne.symm hw)]; exact hd.ctl_idle
      · by_cases htw : t = w
        · subst htw; rw [hself]
        · rw [hne t htw]; exact hd.stays t ht hon

theorem Inv.prevDone (h : Inv K s) (preempt signalPending : Bool) (toWakeup : Option τ) :
    PrevDone K s (schedulePrev K s preempt signalPending toWakeup) := by
  obtain ⟨F, hF, hmem⟩ := h.holds
  have hsame : PrevDone K s s :=
    ⟨⟨F, hF, hmem⟩, rfl, rfl, rfl, fun _ => .refl _, rfl, fun _ _ => id⟩
  rw [schedulePrev]
  dsimp only
  split
  · next hsleep =>
    have hstate : (s.ctl s.curr).state ≠ 0 := hsleep.1
    have hidle : s.idle ≠ s.curr := fun he => hstate (he ▸ h.idle_state)
    split
    · refine ⟨⟨F, hF.modifyCtl fun _ => ⟨rfl, rfl, rfl, rfl⟩, fun t => ?_⟩, rfl, rfl, rfl, fun t => ?_, ?_,
        fun t ht hon => ?_⟩
      · rw [ctl_modifyCtl, hmem]
        by_cases ht : t = s.curr
        · subst ht; simp
        · simp [ht]
      · rw [ctl_modifyCtl]
        by_cases ht : t = s.curr
        · subst ht; simp [Activity]
        · rw [Function.update_of_ne ht]; exact .refl _
      · rw [ctl_modifyCtl, Function.update_of_ne hidle]
      · rwa [ctl_modifyCtl, Function.update_of_ne ht]
    · cases toWakeup with
      | none => exact h.prevDone_deactivate hstate
      | some w => exact (h.prevDone_deactivate hstate).tryToWakeUpLocal h w
  · exact hsame

theorem keeps_putPrevTask {prev : τ} : Keeps K s (putPrevTask K s prev) := by
  rw [putPrevTask]
  refine Keeps.trans ?_ keeps_classPutPrevTask
  split
  · exact accounts_updateRqClock.keeps
  · exact .refl K s

/-- The previous task of a context switch goes to the tail of the run list. -/
theorem RunList.putPrevTask {prev : τ} {l : List τ} (hl : RunList s l)
    (hc : (s.ctl prev).schedClass = .ras) : RunList (putPrevTask K s prev) (toTail l prev) := by
  have hput : ∀ u : Rq τ Q, Accounts K s u → RunList (classPutPrevTask K u prev) (toTail l prev) := by
    intro u hu
    have hcu : (u.task prev).schedClass = .ras := by rw [← hu.ctl] at hc; exact hc
    have hcharge : Accounts K u (updateCurrRas u) := accounts_updateCurrRas
    rw [classPutPrevTask, hcu]
    exact (hcharge.runList (hu.runList hl)).requeueTaskRas prev
  rw [Sched.putPrevTask]
  split
  · exact hput _ accounts_updateRqClock
  · exact hput s (.refl K s)

/-- A preempted task and a task that is not about to sleep stay on the run queue. -/
theorem schedulePrev_of_stays {preempt : Bool} (signalPending : Bool) (toWakeup : Option τ)
    (hstay : preempt = true ∨ (s.ctl s.curr).state = 0) :
    schedulePrev K s preempt signalPending toWakeup = s := by
  rw [schedulePrev]
  dsimp only
  split
  · next hsleep =>
    obtain ⟨hstate, hpre⟩ := hsleep
    rcases hstay with rfl | h0
    · cases hpre
    · exact absurd h0 hstate
  · rfl

/-- A context switch from a state of the invariant. It goes through a state `m`, in which the
previous task has been dealt with and a task `next` is picked from a class `c`; the state after
the switch holds the same tasks as `m`, with `next` as the current one. -/
theorem schedule_spec (h : Inv K s) (preempt signalPending : Bool) (toWakeup : Option τ) :
    ∃ m c next s', m = putPrevTask K (schedulePrev K s preempt signalPending toWakeup) s.curr ∧
      PrevDone K s m ∧ (∃ F, Holds K m F ∧ (∀ t, t ∈ F ↔ (m.ctl t).onRq = true) ∧ Holds K s' F ∧
        PickedFrom m F c next ∧ ∀ c', c'.rank < c.rank → Exhausted m F c') ∧
      schedule K s preempt signalPending toWakeup = some s' ∧ s'.ctl = m.ctl ∧ s'.curr = next ∧
      s'.idle = s.idle ∧ s'.stop = s.stop ∧ s'.rt = m.rt ∧ s'.ras = m.ras := by
  obtain ⟨m, hm⟩ : ∃ m, m = putPrevTask K
    (schedulePrev K s preempt signalPending toWakeup) s.curr := ⟨_, rfl⟩
  have hd : PrevDone K s m := by
    rw [hm]
    exact (h.prevDone preempt signalPending toWakeup).keeps keeps_putPrevTask
  obtain ⟨F, hF, hmem⟩ := hd.holds
  obtain ⟨c, next, hp, hpick, hall⟩ := pickNextTask_spec hF
  have hacc : Accounts K m (pickNextTask K m).2 := accounts_pickNextTask
  obtain ⟨s', hs'⟩ : ∃ s', schedule K s preempt signalPending toWakeup = some s' ∧
      s'.ctl = (pickNextTask K m).2.ctl ∧ s'.curr = next ∧ s'.idle = (pickNextTask K m).2.idle ∧
      s'.stop = (pickNextTask K m).2.stop ∧ s'.rt = (pickNextTask K m).2.rt ∧
      s'.ras = (pickNextTask K m).2.ras ∧ s'.cfs = (pickNextTask K m).2.cfs ∧
      s'.nrRunning = (pickNextTask K m).2.nrRunning := by
    have hpair : pickNextTask K m = (.task next, (pickNextTask K m).2) := Prod.ext hp rfl
    rw [schedule]
    dsimp only
    rw [← hm, hpair]
    dsimp only
    refine ⟨_, rfl, ?_⟩
    split
    · exact ⟨rfl, rfl, rfl, rfl, rfl, rfl, rfl, rfl⟩
    · next heq =>
      refine ⟨rfl, ?_, rfl, rfl, rfl, rfl, rfl, rfl⟩
      exact hacc.curr.trans (hd.curr.trans (not_not.mp heq))
  obtain ⟨hsched, hctl, hcurr, hidle, hstop, hrt', hras, hcfs, hnr⟩ := hs'
  refine ⟨m, c, next, s', hm, hd, ⟨F, hF, hmem, ?_, hpick, hall⟩, hsched, hctl.trans hacc.ctl, hcurr,
    hidle.trans (hacc.idle.trans hd.idle), hstop.trans (hacc.stop.trans hd.stop),
    hrt'.trans hacc.rt, hras.trans hacc.ras⟩
  refine (hacc.holds hF).congr (fun t _ => by rw [hctl]; exact ⟨rfl, rfl, rfl, rfl⟩)
    (fun l _ hl => by rwa [RunList, hras]) (by rw [hras]) hrt' hcfs hnr

theorem Inv.of_schedule (h : Inv K s) {preempt signalPending : Bool} {toWakeup : Option τ}
    (hs : schedule K s preempt signalPending toWakeup = some s') :
    Inv K s' ∧ ∀ t, Activity (s.ctl t) (s'.ctl t) := by
  obtain ⟨m, c, next, s'', -, hd, ⟨F, hF, hmem, hF', hpick, -⟩, hsched, hctl, hcurr, hidle, hstop,
    -, -⟩ := schedule_spec h preempt signalPending toWakeup
  obtain rfl : s'' = s' := Option.some.inj (hsched.symm.trans hs)
  refine ⟨h.of_ctl hidle hstop ⟨F, hF', by rwa [hctl]⟩ ?_ (by rw [hctl, hd.ctl_idle]) ?_ ?_, ?_⟩
  · rw [hcurr, hidle, hctl]
    rcases hpick.mem with ⟨-, hnext⟩ | ⟨hnext, -⟩
    · exact .inl (hnext.trans hd.idle)
    · exact .inr ((hmem next).mp hnext)
  · intro t _
    rw [hctl]
    exact (hd.activity t).schedClass
  · intro t ht hts
    rw [hctl]
    refine (h.ctl t ht hts).congr ?_
    have := hd.activity t
    rw [Activity] at this
    rw [this]
  · intro t
    rw [hctl]
    exact hd.activity t

/-! ### The real-time period timer -/

/-- What an expiry of the period timer of a group does: tasks and other classes are left alone, the
same real-time tasks are held, and at most the throttling of the group is lifted. Then the best
priority queued there is compared with that of the current task. -/
structure Replenished (s s' : Rq τ Q) (g : RtGroup) (overrun : ℕ) : Prop where
  task : s'.task = s.task
  curr : s'.curr = s.curr
  idle : s'.idle = s.idle
  stop : s'.stop = s.stop
  ras : s'.ras = s.ras
  cfs : s'.cfs = s.cfs
  nrRunning : s'.nrRunning = s.nrRunning
  needResched : ∀ t, s.needResched t = true → s'.needResched t = true
  holds : ∀ R, RtRqsHold s.rt s.ctl R → RtRqsHold s'.rt s.ctl R
  throttled : ∀ k, k ≠ g → s'.rt.throttled k = s.rt.throttled k
  lifted : s'.rt.throttled g = s.rt.throttled g ∨
    ((s.rt.rq g).rtTime ≠ 0 ∧
      (s.rt.rq g).rtTime - min (s.rt.rq g).rtTime (overrun * (s.rt.rq g).rtRuntime) <
        (s.rt.rq g).rtRuntime ∧
      ((s.rt.rq g).rtNrRunning ≠ 0 → (s.rt.rq g).highestPrio < (s.task s.curr).prio →
        s'.needResched s.curr = true))

/-- `sched_rt_rq_enqueue` queues the entity of the group where it belongs. -/
theorem schedRtRqEnqueue_rt (s : Rq τ Q) (g : RtGroup) : (schedRtRqEnqueue s g).rt =
    if (s.rt.rq g).rtNrRunning ≠ 0 ∧ g ≠ [] ∧ !onRtRq s.rt s.ctl (.group g) then
      enqueueRtEntity s.rt s.ctl (.group g) false
    else s.rt := by
  rw [schedRtRqEnqueue]
  dsimp only
  split_ifs <;> grind [Rq.reschedTask]

/-- What `sched_rt_rq_enqueue` leaves alone. -/
theorem schedRtRqEnqueue_same (s : Rq τ Q) (g : RtGroup) :
    (schedRtRqEnqueue s g).task = s.task ∧ (schedRtRqEnqueue s g).curr = s.curr ∧
    (schedRtRqEnqueue s g).idle = s.idle ∧ (schedRtRqEnqueue s g).stop = s.stop ∧
    (schedRtRqEnqueue s g).ras = s.ras ∧ (schedRtRqEnqueue s g).cfs = s.cfs ∧
    (schedRtRqEnqueue s g).nrRunning = s.nrRunning ∧
    ∀ t, s.needResched t = true → (schedRtRqEnqueue s g).needResched t = true := by
  rw [schedRtRqEnqueue]
  dsimp only
  split_ifs <;> refine ⟨rfl, rfl, rfl, rfl, rfl, rfl, rfl, fun t ht => ?_⟩
  all_goals simp [Rq.reschedTask, Function.update_apply, ht]

/-- `sched_rt_rq_enqueue` reschedules when the best priority of the group is better than that of the
current task. -/
theorem schedRtRqEnqueue_resched {g : RtGroup} (hn : (s.rt.rq g).rtNrRunning ≠ 0)
    (hlt : (s.rt.rq g).highestPrio < (s.task s.curr).prio) :
    (schedRtRqEnqueue s g).needResched s.curr = true := by
  rw [schedRtRqEnqueue, if_pos hn]
  dsimp only
  split
  · next hoff =>
    rw [if_pos (by dsimp only; rwa [RtRqsHold.rq_group hoff.1])]
    simp [Rq.reschedTask]
  · simp [Rq.reschedTask]

theorem throttled_schedRtRqEnqueue {g : RtGroup} :
    (schedRtRqEnqueue s g).rt.throttled = s.rt.throttled := by
  rw [schedRtRqEnqueue_rt]
  split
  · exact throttled_enqueueRtEntity ..
  · rfl

/-- The new run time of a group. -/
theorem rtReplenish_spec (s : Rq τ Q) (g : RtGroup) (overrun : ℕ) :
    Replenished s
      (if (rtReplenish s g overrun).2.1 then schedRtRqEnqueue (rtReplenish s g overrun).2.2 g
        else (rtReplenish s g overrun).2.2) g overrun := by
  obtain ⟨time, htime⟩ : ∃ time, time =
    (s.rt.rq g).rtTime - min (s.rt.rq g).rtTime (overrun * (s.rt.rq g).rtRuntime) := ⟨_, rfl⟩
  have hne : ∀ (f : RtRq τ → RtRq τ) k, k ≠ g →
      (s.rt.modify g f).throttled k = s.rt.throttled k := fun f k hk => by
    simp [RtRqs.throttled, RtRqs.modify, hk]
  rw [rtReplenish, ← htime]
  dsimp only
  split
  · next hused =>
    split
    · next hlift =>
      -- the throttling is lifted, and the group is queued again
      obtain ⟨m, hm⟩ : ∃ m : Rq τ Q, m = { s with
        rt := s.rt.modify g fun q => { q with rtTime := time, rtThrottled := false }
        skipClockUpdate :=
          if (s.rt.rq g).rtNrRunning ≠ 0 ∧ s.curr = s.idle then -1 else s.skipClockUpdate } :=
        ⟨_, rfl⟩
      have hself : m.rt.rq g = { s.rt.rq g with rtTime := time, rtThrottled := false } := by
        rw [hm]
        simp [RtRqs.modify]
      have hrt : m.rt = s.rt.modify g fun q => { q with rtTime := time, rtThrottled := false } := by
        rw [hm]
      have hctl : m.ctl = s.ctl := by rw [hm]; rfl
      rw [if_pos rfl, ← hm]
      obtain ⟨h₁, h₂, h₃, h₄, h₅, h₆, h₇, h₈⟩ := schedRtRqEnqueue_same m g
      refine ⟨by rw [h₁, hm], by rw [h₂, hm], by rw [h₃, hm], by rw [h₄, hm], by rw [h₅, hm],
        by rw [h₆, hm], by rw [h₇, hm], fun t ht => h₈ t (by rw [hm]; exact ht), fun R hR => ?_,
        fun k hk => ?_, .inr ⟨hused, htime ▸ hlift.2, fun hn hlt => ?_⟩⟩
      · rw [schedRtRqEnqueue_rt, hctl, hrt]
        exact RtRqsHold.enqueueLifted hR (fun _ => ⟨rfl, rfl, rfl, rfl⟩) (by simp [rtRqThrottled])
      · rw [throttled_schedRtRqEnqueue, hrt]
        exact hne _ k hk
      · have hcurr : m.curr = s.curr := by rw [hm]
        rw [← hcurr]
        refine schedRtRqEnqueue_resched (by rwa [hself]) ?_
        rw [hself, hm]
        exact hlt
    · rw [if_neg Bool.false_ne_true]
      refine ⟨rfl, rfl, rfl, rfl, rfl, rfl, rfl, fun _ => id, fun R hR => ?_,
        hne fun q => { q with rtTime := time }, .inl ?_⟩
      · exact RtRqsHold.modify (f := fun q => { q with rtTime := time }) hR
          (fun _ => ⟨rfl, rfl, rfl, rfl⟩) (by simp [groupQueued_iff, RtRqs.modify, rtRqThrottled])
      · simp [RtRqs.throttled, RtRqs.modify]
  · split
    · dsimp only
      split
      · obtain ⟨h₁, h₂, h₃, h₄, h₅, h₆, h₇, h₈⟩ := schedRtRqEnqueue_same s g
        refine ⟨h₁, h₂, h₃, h₄, h₅, h₆, h₇, h₈, fun R hR => ?_, fun k _ => ?_, .inl ?_⟩
        · rw [schedRtRqEnqueue_rt]
          exact RtRqsHold.enqueueGroup hR (fun p => Iff.rfl) (fun k _ => Iff.rfl) id
        · rw [throttled_schedRtRqEnqueue]
        · rw [throttled_schedRtRqEnqueue]
      · exact ⟨rfl, rfl, rfl, rfl, rfl, rfl, rfl, fun _ => id, fun _ => id, fun _ _ => rfl, .inl rfl⟩
    · rw [if_neg Bool.false_ne_true]
      exact ⟨rfl, rfl, rfl, rfl, rfl, rfl, rfl, fun _ => id, fun _ => id, fun _ _ => rfl, .inl rfl⟩

theorem doSchedRtPeriodTimer_eq (K : Kernel τ Q) (s : Rq τ Q) (g : RtGroup) (overrun : ℕ) :
    (doSchedRtPeriodTimer K s g overrun).2 =
      if (rtReplenish s g overrun).2.1 then schedRtRqEnqueue (rtReplenish s g overrun).2.2 g
      else (rtReplenish s g overrun).2.2 := rfl

theorem replenished (K : Kernel τ Q) (s : Rq τ Q) (g : RtGroup) (overrun : ℕ) :
    Replenished s (doSchedRtPeriodTimer K s g overrun).2 g overrun := by
  rw [doSchedRtPeriodTimer_eq]
  exact rtReplenish_spec s g overrun

omit [DecidableEq τ] in
theorem Replenished.ctl {g : RtGroup} {overrun : ℕ} (h : Replenished s s' g overrun) :
    s'.ctl = s.ctl := by funext t; rw [Rq.ctl, h.task, Rq.ctl]

theorem Inv.of_replenished {g : RtGroup} {overrun : ℕ} (h : Inv K s)
    (hr : Replenished s s' g overrun) : Inv K s' := by
  have hctl := hr.ctl
  obtain ⟨F, hF, hmem⟩ := h.holds
  refine h.of_ctl hr.idle hr.stop ⟨F, ?_, by rwa [hctl]⟩ ?_ (by rw [hctl]) (fun t _ => by rw [hctl])
    fun t ht hts => by rw [hctl]; exact h.ctl t ht hts
  · refine ⟨?_, ?_, ?_, hr.nrRunning.trans hF.nrRunning, ?_, ?_⟩
    · obtain ⟨l, hl, hmem, hn⟩ := hF.ras
      exact ⟨l, by rwa [RunList, hr.ras], by rwa [hctl], by rwa [hr.ras]⟩
    · rw [hctl]
      exact hr.holds _ hF.rt
    · rw [hr.cfs, hctl]
      exact hF.queued
    · rw [hr.cfs, hctl]
      exact hF.hNrRunning
    · rw [hctl]
      exact hF.idle
  · rw [hr.curr, hr.idle, hctl]
    exact h.curr

theorem Inv.of_rtPeriodTimer (h : Inv K s) (g : RtGroup) (overrun : ℕ) :
    Inv K (doSchedRtPeriodTimer K s g overrun).2 ∧
      (doSchedRtPeriodTimer K s g overrun).2.ctl = s.ctl ∧
      (doSchedRtPeriodTimer K s g overrun).2.curr = s.curr :=
  have hr := replenished K s g overrun
  ⟨h.of_replenished hr, hr.ctl, hr.curr⟩

/-! ### Steps -/

/-- What a step does to the control fields `c` of the task `t`. -/
inductive CtlStep (K : Kernel τ Q) (s : Rq τ Q) (op : Op τ) (t : τ) (c : TaskControl) :
    TaskControl → Prop
  /-- The task is woken, goes to sleep, or stays as it is. -/
  | activity {c' : TaskControl} (h : Activity c c') : CtlStep K s op t c c'
  | fork (h : op = .fork t) : CtlStep K s op t c (childCtl (s.ctl s.curr))
  | setscheduler {caller : Caller} {policy prio : ℤ} {user reset : Bool} {newPolicy : Policy}
      (h : op = .setscheduler caller t policy prio user)
      (hcheck : setschedulerCheck K s caller t policy prio user = .ok (newPolicy, reset)) :
      CtlStep K s op t c (setschedulerCtl newPolicy prio { c with schedResetOnFork := reset })
  | inherit {waiter : Option ℤ} (h : op = .rtMutexAdjustPrio t waiter) :
      CtlStep K s op t c (inherited waiter c)
  | staticPrio {nice : ℤ} (h : op = .setUserNice t nice) (hrt : rtPolicy c.policy = true) :
      CtlStep K s op t c { c with staticPrio := niceToPrio nice }
  | renice {nice : ℤ} (h : op = .setUserNice t nice) (hrt : rtPolicy c.policy = false) :
      CtlStep K s op t c (reniced nice c)
  | move {tg : TaskGroup} (h : op = .schedMoveTask t tg) :
      CtlStep K s op t c { c with schedTaskGroup := tg }

/-- A rewrite of one task, as a step of all tasks. -/
theorem Rewrites.ctlStep {f : TaskControl → TaskControl} {op : Op τ} (h : Rewrites K s s' p f)
    (hp : CtlStep K s op p (s.ctl p) (f (s.ctl p))) (t : τ) : CtlStep K s op t (s.ctl t) (s'.ctl t) := by
  by_cases ht : t = p
  · subst ht; rwa [h.ctl_self]
  · rw [h.ctl_of_ne ht]; exact .activity (.refl _)

theorem Wakes.ctlStep {op : Op τ} (h : Wakes K s s' p) (t : τ) :
    CtlStep K s op t (s.ctl t) (s'.ctl t) := by
  rw [h.ctl]
  by_cases ht : t = p
  · subst ht; rw [Function.update_self]; exact .activity rfl
  · rw [Function.update_of_ne ht]; exact .activity (.refl _)

/-- A step without effect on control fields. -/
theorem ctlStep_of_eq {op : Op τ} (h : s'.ctl = s.ctl) (t : τ) :
    CtlStep K s op t (s.ctl t) (s'.ctl t) := by
  rw [h]
  exact .activity (.refl _)

/-- Every step that the callers allow keeps the invariant, and changes the control fields of each
task in one of the ways listed; only a context switch changes the current task. -/
theorem execOp_spec (h : Inv K s) {op : Op τ} (he : Enabled s op)
    (hx : execOp K s op = some s') :
    Inv K s' ∧ (∀ t, CtlStep K s op t (s.ctl t) (s'.ctl t)) ∧
      ((∀ preempt signalPending toWakeup, op ≠ .schedule preempt signalPending toWakeup) →
        s'.curr = s.curr) := by
  cases op with
  | fork child =>
    obtain ⟨hidle, hstop, hci, hcs, hoff, hcurr⟩ := he
    obtain rfl := Option.some.inj hx
    have hr : Rewrites K s (fork K s child) child fun _ => childCtl (s.ctl s.curr) :=
      rewrites_fork hcurr hoff
    have hok : CtlOk (childCtl (s.ctl s.curr)) := (h.ctlOk hidle hstop).forked
    refine ⟨h.of_rewrites hr hci ?_ (fun _ => hok) fun hs => absurd hs hcs, hr.ctlStep (.fork rfl),
      fun _ => hr.curr⟩
    have : (childCtl (s.ctl s.curr)).onRq = false := by
      simp only [childCtl, forkedCtl]
      split_ifs <;> rfl
    exact this.trans (Eq.symm hoff)
  | wakeUpNewTask p =>
    obtain ⟨hp, hoff, hstate⟩ := he
    obtain rfl := Option.some.inj hx
    have hw : Wakes K s (wakeUpNewTask K s p) p :=
      wakes_wakeUpNewTask hoff hstate (h.schedClass_ne_idle hp) h.prio_lt
    exact ⟨h.of_wakes hw hp, hw.ctlStep, fun _ => hw.curr⟩
  | tryToWakeUp p mask flags =>
    obtain rfl := Option.some.inj hx
    by_cases hp : p = s.idle
    · have hsame : (tryToWakeUp K s p mask flags).2 = s := by
        have : (s.task p).state = 0 := hp ▸ h.idle_state
        rw [tryToWakeUp, this, Nat.zero_and]
        rfl
      rw [hsame]
      exact ⟨h, ctlStep_of_eq rfl, fun _ => rfl⟩
    · rcases wakes_tryToWakeUp (K := K) mask flags (h.schedClass_ne_idle hp)
        h.prio_lt with ⟨hsame, -⟩ | ⟨-, hw⟩
      · rw [hsame]
        exact ⟨h, ctlStep_of_eq rfl, fun _ => rfl⟩
      · exact ⟨h.of_wakes hw hp, hw.ctlStep, fun _ => hw.curr⟩
  | schedule preempt signalPending toWakeup =>
    obtain ⟨hinv, hact⟩ := h.of_schedule hx
    exact ⟨hinv, fun t => .activity (hact t), fun hne => absurd rfl (hne preempt signalPending toWakeup)⟩
  | schedulerTick =>
    obtain rfl := Option.some.inj hx
    have hk : Keeps K s (schedulerTick K s) := accounts_updateRqClock.keeps.trans keeps_classTaskTick
    exact ⟨h.of_keeps hk, ctlStep_of_eq hk.ctl, fun _ => hk.curr⟩
  | schedYield =>
    obtain rfl := Option.some.inj hx
    have hk : Keeps K s (schedYield K s) := keeps_classYieldTask
    exact ⟨h.of_keeps hk, ctlStep_of_eq hk.ctl, fun _ => hk.curr⟩
  | setscheduler caller p policy prio user =>
    obtain rfl := Option.some.inj hx
    rcases schedSetscheduler_cases K s caller p policy prio user with
      ⟨r, -, hres⟩ | ⟨newPolicy, reset, hcheck, hres⟩
    · rw [hres]
      exact ⟨h, ctlStep_of_eq rfl, fun _ => rfl⟩
    · obtain ⟨-, hvalid, -, hstop, -⟩ := setschedulerCheck_ok hcheck
      have hok := h.ctl p he hstop
      have hr := rewrites_changePolicy (K := K) hok reset hvalid
      rw [hres]
      exact ⟨h.of_rewrites hr he rfl (fun _ => hok.setscheduler reset hvalid)
        fun hs => absurd hs hstop, hr.ctlStep (.setscheduler rfl hcheck), fun _ => hr.curr⟩
  | rtMutexAdjustPrio p waiter =>
    obtain ⟨hp, hstop, hw⟩ := he
    obtain rfl := Option.some.inj hx
    have hok := h.ctl p hp hstop
    have hr : Rewrites K s (rtMutexAdjustPrio K s p waiter) p (inherited waiter) :=
      rewrites_rtMutexAdjustPrio hok hp hw
    refine ⟨h.of_rewrites hr hp ?_ (fun _ => hok.inherited hw) fun hs => absurd hs hstop,
      hr.ctlStep (.inherit rfl), fun _ => hr.curr⟩
    simp only [inherited]
    split <;> rfl
  | setUserNice p nice =>
    obtain rfl := Option.some.inj hx
    have hprio : ¬(nice < -20 ∨ 19 < nice) → rtPolicy (s.ctl p).policy = false →
        (s.ctl p).schedClass = .rt →
        0 ≤ (reniced nice (s.ctl p)).prio ∧ (reniced nice (s.ctl p)).prio < maxRtPrio :=
      fun hnice hrt hc => ((h.ctlOk (by simp [hc]) (by simp [hc])).reniced hrt hnice).prio_lt hc
    rcases rewrites_setUserNice (K := K) (h.schedClass_ne_idle he) hprio with
      hsame | ⟨hnice, hrt, hr⟩ | ⟨hnice, hrt, hr⟩
    · rw [hsame]
      exact ⟨h, ctlStep_of_eq rfl, fun _ => rfl⟩
    · exact ⟨h.of_rewrites hr he rfl (fun hstop => (h.ctl p he hstop).staticPrio hrt hnice)
        fun _ => rfl, hr.ctlStep (.staticPrio rfl hrt), fun _ => hr.curr⟩
    · exact ⟨h.of_rewrites hr he rfl (fun hstop => (h.ctl p he hstop).reniced hrt hnice)
        fun _ => rfl, hr.ctlStep (.renice rfl hrt), fun _ => hr.curr⟩
  | schedMoveTask p tg =>
    obtain rfl := Option.some.inj hx
    have hr : Rewrites K s (schedMoveTask K s p tg) p fun c => { c with schedTaskGroup := tg } :=
      rewrites_schedMoveTask (h.schedClass_ne_idle he) h.prio_lt
    exact ⟨h.of_rewrites hr he rfl (fun hstop => (h.ctl p he hstop).congr rfl) fun _ => rfl,
      hr.ctlStep (.move rfl), fun _ => hr.curr⟩
  | schedRrGetInterval p =>
    obtain rfl := Option.some.inj hx
    have hk : Keeps K s (schedRrGetInterval K s p).2 := accounts_schedRrGetInterval.keeps
    exact ⟨h.of_keeps hk, ctlStep_of_eq hk.ctl, fun _ => hk.curr⟩
  | rtPeriodTimer g overrun =>
    obtain rfl := Option.some.inj hx
    exact ⟨(h.of_rtPeriodTimer g overrun).1, ctlStep_of_eq (h.of_rtPeriodTimer g overrun).2.1,
      fun _ => (h.of_rtPeriodTimer g overrun).2.2⟩
  | setCurrentState state =>
    obtain rfl := Option.some.inj hx
    have hr : Rewrites K s (s.modifyCtl s.curr fun p => { p with state := state }) s.curr
        fun p => { p with state := state } := rewrites_modifyCtl ⟨rfl, rfl, rfl, rfl⟩
    exact ⟨h.of_rewrites hr he rfl (fun hstop => (h.ctl _ he hstop).congr rfl) fun _ => rfl,
      hr.ctlStep (.activity rfl), fun _ => hr.curr⟩
  | writeTrace p wcounts traceFlag =>
    obtain rfl := Option.some.inj hx
    have hk : Keeps K s (s.modifyTask p fun p =>
        { p with wcounts := wcounts, traceFlag := traceFlag }) :=
      (accounts_modifyTask fun _ => by rfl).keeps
    exact ⟨h.of_keeps hk, ctlStep_of_eq hk.ctl, fun _ => hk.curr⟩

/-- No step crashes. -/
theorem execOp_isSome (h : Inv K s) (op : Op τ) : (execOp K s op).isSome := by
  cases op with
  | schedule preempt signalPending toWakeup =>
    obtain ⟨m, c, next, s', -, -, -, hsched, -⟩ :=
      schedule_spec h preempt signalPending toWakeup
    rw [execOp, hsched]
    rfl
  | _ => rfl

/-! ### Reachable states -/

theorem Inv.atTime (h : Inv K s) (now : ℤ) : Inv K (atTime s now) := h.of_keeps accounts_atTime.keeps

theorem inv_of_boot (h : Boot K s) : Inv K s where
  holds := by
    refine ⟨∅, ⟨?_, ?_, ?_, ?_, ?_, by simp⟩, fun t => by simp [Rq.ctl, h.onRq t]⟩
    · obtain ⟨ras, hras, hself⟩ := h.ras
      refine ⟨[], ?_, by simp, by simp [hras, initRasRq]⟩
      rw [RunList, hras]
      exact Owns.init fun y hy => by
        cases y with
        | none => exact absurd rfl hy
        | some t => exact hself t
    · exact .of_boot h.rt_queue h.rtNrRunning h.rtNrBoosted h.highestPrio
    · intro t; simp [h.queued t]
    · simp [h.nrRunning]
    · simp [h.hNrRunning, inClass]
  curr := .inl h.curr
  idle_class := h.idle_class
  idle_onRq := h.onRq _
  idle_state := h.idle_state
  idle_prio := h.idle_prio
  idle_ne_stop := h.idle_ne_stop
  stop_class := h.stop_class
  ctl := h.ctl

/-- A step of the transition system, on the state with the clock of the event. -/
theorem step_inv (h : Inv K s) {e : Event τ} (hstep : (system K).step s e s') :
    Enabled (atTime s e.now) e.op ∧ execOp K (atTime s e.now) e.op = some s' ∧
      Inv K (atTime s e.now) := by
  obtain ⟨he, hx⟩ := step_iff.mp hstep
  refine ⟨?_, hx, h.atTime _⟩
  cases hop : e.op <;> rw [hop] at he <;> exact he

/-- The invariant holds in every reachable state. -/
theorem reachable_inv (h : Reachable (system K) s) : Inv K s := by
  refine h.invariant (fun s => inv_of_boot) fun s e s' _ hinv hstep => ?_
  obtain ⟨he, hx, hinv'⟩ := step_inv hinv hstep
  exact (execOp_spec hinv' he hx).1

/-- From a reachable state every step that the callers allow can be executed: `pick_next_task`
always returns a task. -/
theorem exec_isSome (h : Reachable (system K) s) {e : Event τ} (he : Enabled s e.op) :
    (exec K s e).isSome := by
  rw [exec, if_pos he]
  exact execOp_isSome ((reachable_inv h).atTime _) e.op

/-- What a step of the transition system does to the control fields of one task. -/
theorem step_ctlStep (h : Inv K s) {e : Event τ} (hstep : (system K).step s e s') (t : τ) :
    CtlStep K (atTime s e.now) e.op t (s.ctl t) (s'.ctl t) := by
  obtain ⟨he, hx, hinv⟩ := step_inv h hstep
  exact (execOp_spec hinv he hx).2.1 t

/-- The run list is what one finds by following the links from the list head. -/
theorem runList_of_chain (h : Reachable (system K) s) {l : List τ}
    (hl : Chain s.ras.links none (l.map some) none) : RunList s l := by
  obtain ⟨F, hF, -⟩ := (reachable_inv h).holds
  obtain ⟨l', hl', -, -⟩ := hF.ras
  have hmap : l'.map some = l.map some :=
    hl'.chain.unique hl hl'.head_notMem (by simp)
  rwa [RunList, ← hmap]

end OsProject.Sched
