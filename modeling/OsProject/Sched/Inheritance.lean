import OsProject.Sched.RunQueue

/-!
# Priority inheritance

A task that holds a lock and is boosted on behalf of a real-time waiter enters the real-time class
at the priority of the waiter, unless its policy is `SCHED_RAS`: then it stays in the RAS class and
any real-time task holds it back. A boosted task stays in the real-time class as long as it keeps a
waiter of that priority, whatever is done to its nice value or its policy, unless it is given
the policy `SCHED_RAS`.

## Main definitions

* `boost` — a real-time waiter makes `rt_mutex_setprio` raise the holder.
* `NotThrottled` — the task is boosted, or none of its groups is throttled.
* `NotHeldBack` — no task that the waiter outranks is picked before the holder.
* `Boosted` — what a holder without the policy `SCHED_RAS` keeps.

## Main results

* `boosted_holder_not_held_back`.
-/

namespace OsProject.Sched

open Transition

variable {τ Q : Type*} [DecidableEq τ] {K : Kernel τ Q} {s s' : Rq τ Q} {p t : τ} {prio : ℤ}

/-- A waiter of the given priority comes to be the first one for a lock of `p`, and
`rt_mutex_setprio` gives its priority to `p`. -/
def boost (K : Kernel τ Q) (s : Rq τ Q) (p : τ) (prio : ℤ) : Rq τ Q :=
  rtMutexSetprio K (s.modifyCtl p fun c => { c with piTopWaiter := some prio }) p prio

/-- A waiter that is better than the task itself boosts it in this way. -/
theorem rtMutexAdjustPrio_eq_boost (hprio : prio ≤ (s.ctl p).normalPrio)
    (hne : (s.ctl p).prio ≠ prio) : rtMutexAdjustPrio K s p (some prio) = boost K s p prio := by
  have hget : rtMutexGetprio { s.ctl p with piTopWaiter := some prio } = prio := min_eq_left hprio
  rw [rtMutexAdjustPrio_eq, hget, if_pos hne, boost]

/-- The task `t` is neither a fair task nor a RAS task that is not boosted, nor a real-time task of a
larger priority. -/
structure NotOutranked (s : Rq τ Q) (prio : ℤ) (t : τ) : Prop where
  fair : (s.task t).schedClass ≠ .fair
  ras : (s.task t).schedClass = .ras → rtTaskBoosted (s.ctl t) = true
  rt : (s.task t).schedClass = .rt → (s.task t).prio ≤ prio

/-- Throttling does not hold back the task: it runs at a priority that is not its own, or neither its
group nor one above it is throttled. -/
def NotThrottled (s : Rq τ Q) (p : τ) : Prop :=
  rtTaskBoosted (s.ctl p) = true ∨ RtEligible s.rt (s.ctl p)

instance (s : Rq τ Q) (p : τ) : Decidable (NotThrottled s p) :=
  inferInstanceAs (Decidable (_ ∨ _))

/-- While `p` is queued and not throttled, `pick_next_task` never returns a task that a waiter of the
given priority outranks, neither now nor in a context switch that leaves `p` queued. -/
def NotHeldBack (K : Kernel τ Q) (s : Rq τ Q) (p : τ) (prio : ℤ) : Prop :=
  ((s.task p).onRq = true → NotThrottled s p →
    ∀ t, (pickNextTask K s).1 = .task t → NotOutranked s prio t) ∧
  ∀ preempt signalPending toWakeup s', schedule K s preempt signalPending toWakeup = some s' →
    (s'.task p).onRq = true → NotThrottled s' p → NotOutranked s' prio s'.curr

/-- The step is taken while `p` is queued; it does not deboost `p`, whose first waiter keeps the
given priority or gets a better one, and it does not give `p` the policy `SCHED_RAS`. -/
def KeepsBoost (K : Kernel τ Q) (p : τ) (prio : ℤ) (s : Rq τ Q) (e : Event τ) : Prop :=
  (s.task p).onRq = true ∧
  match e.op with
  | .rtMutexAdjustPrio q waiter => q = p → ∃ w ∈ waiter, w ≤ prio
  | .setscheduler caller q policy n user =>
    q = p → ∀ reset, setschedulerCheck K s caller p policy n user ≠ .ok (.ras, reset)
  | _ => True

instance (s : Rq τ Q) (e : Event τ) : Decidable (KeepsBoost K p prio s e) := by
  dsimp only [KeepsBoost]
  refine @instDecidableAnd _ _ _ ?_
  split <;> infer_instance

/-- What a boosted holder keeps: it is in the real-time class, at the priority of its first waiter
or a better one. -/
structure Boosted (c : TaskControl) (prio : ℤ) : Prop where
  policy : c.policy ≠ .ras
  schedClass : c.schedClass = .rt
  prio_le : c.prio ≤ prio
  waiter : ∃ w ∈ c.piTopWaiter, w ≤ prio

theorem rtMutexGetprio_le {c : TaskControl} (hw : ∃ w ∈ c.piTopWaiter, w ≤ prio) :
    rtMutexGetprio c ≤ prio := by
  obtain ⟨w, hw, hle⟩ := hw
  rw [rtMutexGetprio, Option.mem_def.mp hw]
  exact (min_le_left ..).trans hle

theorem classFor_of_lt {policy : Policy} (hpol : policy ≠ .ras) {n : ℤ} (hn : n < maxRtPrio) :
    classFor policy n = .rt := by rw [classFor, if_neg hpol, if_pos (rtPrio_eq_true_iff.mpr hn)]

namespace Boosted

variable {c : TaskControl}

theorem setscheduler (h : Boosted c prio) (hrt : prio < maxRtPrio) {policy : Policy}
    (hpol : policy ≠ .ras) (n : ℤ) (reset : Bool) :
    Boosted (setschedulerCtl policy n { c with schedResetOnFork := reset }) prio := by
  have hle : (setschedulerCtl policy n { c with schedResetOnFork := reset }).prio ≤ prio :=
    rtMutexGetprio_le h.waiter
  exact ⟨hpol, classFor_of_lt hpol (hle.trans_lt hrt), hle, h.waiter⟩

theorem inherited (h : Boosted c prio) (hrt : prio < maxRtPrio) {waiter : Option ℤ}
    (hw : ∃ w ∈ waiter, w ≤ prio) : Boosted (inherited waiter c) prio := by
  have hle : rtMutexGetprio { c with piTopWaiter := waiter } ≤ prio := rtMutexGetprio_le hw
  rw [Sched.inherited]
  dsimp only
  split
  · exact ⟨h.policy, classFor_of_lt h.policy (hle.trans_lt hrt), hle, hw⟩
  · exact ⟨h.policy, h.schedClass, h.prio_le, hw⟩

theorem reniced (h : Boosted c prio) (hrt : prio < maxRtPrio) (nice : ℤ) :
    Boosted (reniced nice c) prio := by
  have hboost : rtPrio c.prio = true := rtPrio_eq_true_iff.mpr (h.prio_le.trans_lt hrt)
  refine ⟨h.policy, h.schedClass, ?_, h.waiter⟩
  simpa [Sched.reniced, effectivePrio, hboost] using h.prio_le

/-- Every step that does not deboost the holder keeps it boosted. -/
theorem step (h : Boosted (s.ctl p) prio) (hrt : prio < maxRtPrio) (hinv : Inv K s) {e : Event τ}
    (hok : KeepsBoost K p prio s e) (hstep : (system K).step s e s') :
    Boosted (s'.ctl p) prio := by
  obtain ⟨hon, hok⟩ := hok
  have hctl := step_ctlStep hinv hstep p
  obtain ⟨hen, -, -⟩ := step_inv hinv hstep
  generalize s'.ctl p = c' at hctl
  cases hctl with
  | activity hact =>
    rw [hact]
    exact ⟨h.policy, h.schedClass, h.prio_le, h.waiter⟩
  | fork hop =>
    -- the task structure of a queued task is not given to a child
    rw [hop] at hen
    obtain ⟨-, -, -, -, hoff, -⟩ := hen
    exact absurd (hon.symm.trans hoff) (by decide)
  | setscheduler hop hcheck =>
    rw [hop] at hok
    refine h.setscheduler hrt (fun hras => ?_) _ _
    rw [hras] at hcheck
    exact hok rfl _ hcheck
  | inherit hop =>
    rw [hop] at hok
    exact h.inherited hrt (hok rfl)
  | staticPrio _ _ => exact ⟨h.policy, h.schedClass, h.prio_le, h.waiter⟩
  | renice _ _ => exact h.reniced hrt _
  | move _ => exact ⟨h.policy, h.schedClass, h.prio_le, h.waiter⟩

end Boosted

/-- A queued real-time task that is not throttled is eligible. -/
theorem Holds.rtEligible {F : Finset τ} (h : Holds K s F) (hp : p ∈ F)
    (hc : (s.ctl p).schedClass = .rt) (hthr : NotThrottled s p) : RtEligible s.rt (s.ctl p) :=
  hthr.elim (h.rt.eligible_of_boosted (mem_inClass.mpr ⟨hp, hc⟩)) id

/-- A boosted holder is not held back. -/
theorem Inv.notHeldBack (h : Inv K s) (hb : Boosted (s.ctl p) prio) : NotHeldBack K s p prio := by
  have hpick : ∀ {m : Rq τ Q} {F : Finset τ} {c t}, Holds K m F → PickedFrom m F c t →
      (∀ c', c'.rank < c.rank → Exhausted m F c') → p ∈ F → NotThrottled m p →
      (m.ctl p).schedClass = .rt → (m.ctl p).prio ≤ prio →
      (m.ctl t).schedClass = .stop ∨ ((m.ctl t).schedClass = .rt ∧ (m.ctl t).prio ≤ prio) :=
    fun hF hpick hall hp hthr hc hle =>
      (hpick.of_rt hall hp hc (hF.rtEligible hp hc hthr)).imp_right
        fun ⟨ht, htle⟩ => ⟨ht, htle.trans hle⟩
  have hout : ∀ {m : Rq τ Q} {t}, (m.ctl t).schedClass = .stop ∨
      ((m.ctl t).schedClass = .rt ∧ (m.ctl t).prio ≤ prio) → NotOutranked m prio t := by
    rintro m t (hc | ⟨hc, hle⟩)
    · have hc : (m.task t).schedClass = .stop := hc
      exact ⟨by simp [hc], by simp [hc], by simp [hc]⟩
    · have hc : (m.task t).schedClass = .rt := hc
      exact ⟨by simp [hc], by simp [hc], fun _ => hle⟩
  constructor
  · intro hon hthr t ht
    obtain ⟨F, hF, hmem⟩ := h.holds
    obtain ⟨c, t', ht', hpicked, hall⟩ := pickNextTask_spec hF
    obtain rfl : t = t' := by rw [ht] at ht'; cases ht'; rfl
    exact hout (hpick hF hpicked hall ((hmem p).mpr hon) hthr hb.schedClass hb.prio_le)
  · intro preempt signalPending toWakeup s' hs' hon hthr
    obtain ⟨m, c, next, s'', -, hd, ⟨F, hF, hmem, -, hpicked, hall⟩, hsched, hctl, hcurr, -, -, hrt,
      -⟩ := schedule_spec h preempt signalPending toWakeup
    obtain rfl : s'' = s' := Option.some.inj (hsched.symm.trans hs')
    have hact := hd.activity p
    have hprio : (m.ctl p).prio = (s.ctl p).prio := (congrArg TaskControl.prio hact).trans rfl
    rw [NotThrottled, hrt, hctl] at hthr
    have hpF : p ∈ F := (hmem p).mpr (by rw [← hctl]; exact hon)
    have := hpick hF hpicked hall hpF hthr (hact.schedClass.trans hb.schedClass)
      (hprio.trans_le hb.prio_le)
    rw [← hctl, ← hcurr] at this
    exact hout this

/-- The state after a real-time waiter has boosted a task. -/
theorem Inv.boost (h : Inv K s) (hp : p ≠ s.idle) (hstop : s.stop ≠ some p)
    (hprio : 0 ≤ prio ∧ prio < maxRtPrio) :
    Inv K (boost K s p prio) ∧ (boost K s p prio).ctl p =
      { s.ctl p with
        piTopWaiter := some prio, prio := prio, schedClass := classFor (s.ctl p).policy prio } := by
  have hok := h.ctl p hp hstop
  have hwrite : Rewrites K s (s.modifyCtl p fun c => { c with piTopWaiter := some prio }) p
      fun c => { c with piTopWaiter := some prio } := rewrites_modifyCtl ⟨rfl, rfl, rfl, rfl⟩
  have hr : Rewrites K s (Sched.boost K s p prio) p fun c =>
      { c with piTopWaiter := some prio, prio := prio, schedClass := classFor c.policy prio } :=
    (hwrite.trans (rewrites_rtMutexSetprio hp hprio.1) rfl).congr rfl
  refine ⟨h.of_rewrites hr hp rfl (fun _ => ?_) fun hs => absurd hs hstop, hr.ctl_self⟩
  have hmax := hprio.2
  simp only [maxRtPrio] at hmax
  refine ⟨hok.normal, hok.rtPriority_pos, hok.rtPriority_lt, hok.staticPrio_mem,
    ⟨hprio.1, by dsimp only; omega⟩, ?_, ?_, .inl rfl⟩
  · rintro w hw
    obtain rfl := Option.some.inj (Option.mem_def.mp hw)
    exact ⟨hprio.1, by simp only [maxPrio, maxRtPrio]; omega⟩
  · rw [rtPrio_rtMutexGetprio]
    simp [rtPrio_eq_true_iff.mpr hprio.2]

/-- A queued task without the policy `SCHED_RAS` that is boosted on behalf of a real-time waiter is
not held back by tasks that the waiter outranks, in any state of any run in which it stays queued,
is not deboosted and is not given that policy. The stopper thread takes no locks. -/
theorem boosted_holder_not_held_back (h : Reachable (system K) s) (hon : (s.task p).onRq = true)
    (hstop : s.stop ≠ some p) (hpol : (s.task p).policy ≠ .ras)
    (hprio : 0 ≤ prio ∧ prio < maxRtPrio) {es : List (Event τ)}
    (hrun : Run ((system K).restrict (KeepsBoost K p prio)) (boost K s p prio) es s') :
    NotHeldBack K s' p prio := by
  have hidle : p ≠ s.idle := fun hp => by
    have hoff := (reachable_inv h).idle_onRq
    rw [← hp] at hoff
    exact absurd (hon.symm.trans hoff) (by decide)
  obtain ⟨hinv, hctl⟩ := (reachable_inv h).boost hidle hstop hprio
  have hboost : Boosted ((boost K s p prio).ctl p) prio := by
    rw [hctl]
    exact ⟨hpol, classFor_of_lt hpol hprio.2, le_refl prio, prio, rfl, le_refl prio⟩
  obtain ⟨hinv', hboost'⟩ : Inv K s' ∧ Boosted (s'.ctl p) prio := by
    refine hrun.invariant (P := fun s => Inv K s ∧ Boosted (s.ctl p) prio) ?_ ⟨hinv, hboost⟩
    rintro s e s' ⟨hinv, hb⟩ ⟨hok, hstep⟩
    obtain ⟨he, hx, hinv'⟩ := step_inv hinv hstep
    exact ⟨(execOp_spec hinv' he hx).1, hb.step hprio.2 hinv hok hstep⟩
  exact hinv'.notHeldBack hboost'

/-- A fair task, a RAS task and a real-time task of priority `98` are queued. -/
def mixedTasks : List (Op ℕ) :=
  [.wakeUpNewTask 1, reschedule, setschedulerNocheck 2 6 0, .wakeUpNewTask 2,
    setschedulerNocheck 3 1 1, .wakeUpNewTask 3]

/-- While the fair task is boosted it is given another policy, and ticks. -/
def boostedSteps : List (Event ℕ) :=
  [⟨0, setschedulerNocheck 1 3 0⟩, ⟨0, .schedulerTick⟩, ⟨0, reschedule⟩]

theorem boosted_holder_not_held_back_mixedTasks :
    ∃ s s', referenceRun mixedTasks = some s ∧
      Run ((system (referenceKernel ℕ)).restrict (KeepsBoost (referenceKernel ℕ) 1 10))
        (boost (referenceKernel ℕ) s 1 10) boostedSteps s' ∧
      s'.curr = 1 ∧ NotHeldBack (referenceKernel ℕ) s' 1 10 := by
  have hrun : referenceRun mixedTasks = some ((referenceRun mixedTasks).get (by decide +kernel)) := by
    simp
  have hsteps : Run ((system (referenceKernel ℕ)).restrict (KeepsBoost (referenceKernel ℕ) 1 10))
      (boost (referenceKernel ℕ) ((referenceRun mixedTasks).get (by decide +kernel)) 1 10)
      boostedSteps _ :=
    run_restrict_of_execAll (Option.some_get (by decide +kernel)).symm
  exact ⟨_, _, hrun, hsteps, by decide +kernel,
    boosted_holder_not_held_back (reachable_referenceRun hrun) (by decide +kernel)
      (by decide +kernel) (by decide +kernel) ⟨by decide, by decide⟩ hsteps⟩

/-- The RAS task is boosted to priority `10` and yet the real-time task of priority `98` is picked. -/
theorem not_boosted_holder_not_held_back :
    ¬ ∀ (s : Rq ℕ (Arrivals ℕ)) (p : ℕ) (prio : ℤ), Reachable (system (referenceKernel ℕ)) s →
      (s.task p).onRq = true → s.stop ≠ some p → 0 ≤ prio ∧ prio < maxRtPrio →
      NotHeldBack (referenceKernel ℕ) (boost (referenceKernel ℕ) s p prio) p prio := by
  intro h
  have hrun : referenceRun mixedTasks = some ((referenceRun mixedTasks).get (by decide +kernel)) := by
    simp
  have hpick := (h _ 2 10 (reachable_referenceRun hrun) (by decide +kernel) (by decide +kernel)
    ⟨by decide, by decide⟩).1 (by decide +kernel) (by decide +kernel) 3 (by decide +kernel)
  exact absurd (hpick.rt (by decide +kernel)) (by decide +kernel)

end OsProject.Sched
