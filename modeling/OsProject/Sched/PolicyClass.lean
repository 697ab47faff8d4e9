import OsProject.Sched.RunQueue

/-!
# Policy and class

`__setscheduler` and `rt_mutex_setprio` put a task into the RAS class exactly when its policy is
`SCHED_RAS`. `sched_fork` does not: the child of a RAS task keeps the policy and becomes a fair
task, because its priority is not real-time. A call that then asks for `SCHED_RAS` takes the
shortcut for calls that change nothing, which looks only at the policy. As long as no RAS task
forks, policy and class agree.

## Main results

* `policy_iff_class_of_no_ras_fork` — policy and class agree as long as no RAS task forks, and a
  fork of a RAS task breaks the agreement.
-/

namespace OsProject.Sched

open Transition

variable {τ Q : Type*} [DecidableEq τ] {K : Kernel τ Q} {s s' : Rq τ Q}

/-- A task has the policy `SCHED_RAS` if and only if it is in the RAS class. -/
def PolicyClassAgree (s : Rq τ Q) : Prop :=
  ∀ t, (s.task t).policy = .ras ↔ (s.task t).schedClass = .ras

/-- The child of a fork. -/
def forkChild : Op τ → Option τ
  | .fork child => some child
  | _ => none

/-- The step is not a fork of a task with the policy `SCHED_RAS`. -/
def NoRasFork (s : Rq τ Q) (e : Event τ) : Prop :=
  (forkChild e.op).isSome → (s.task s.curr).policy ≠ .ras

instance (s : Rq τ Q) (e : Event τ) : Decidable (NoRasFork s e) := by
  dsimp only [NoRasFork]
  infer_instance

theorem classFor_eq_ras_iff {policy : Policy} {prio : ℤ} :
    classFor policy prio = .ras ↔ policy = .ras := by
  rw [classFor]
  split_ifs <;> simp [*]

/-- A child has the policy of its parent or the default one, and the class of its parent or the
fair class. -/
theorem childCtl_cases (c : TaskControl) :
    ((childCtl c).policy = c.policy ∨ (childCtl c).policy = .normal) ∧
      ((childCtl c).schedClass = c.schedClass ∨ (childCtl c).schedClass = .fair) := by
  simp only [childCtl, forkedCtl]
  split_ifs <;> simp

/-- The child of a RAS task keeps the policy but is a fair task. -/
theorem childCtl_of_ras {c : TaskControl} (h : CtlOk c) (hp : c.policy = .ras) :
    (childCtl c).policy = .ras ∧ (childCtl c).schedClass = .fair := by
  have hrt : rtPolicy c.policy = false := by rw [hp]; rfl
  have hs := h.staticPrio_mem
  have hstatic : rtPrio c.staticPrio = false := rtPrio_eq_false_iff.mpr hs.1
  have hnormal : rtPrio c.normalPrio = false := by
    rw [h.normal, normalPrio, hrt]
    exact hstatic
  have hzero : rtPrio (niceToPrio 0) = false := rfl
  simp only [childCtl, forkedCtl, hrt, Bool.false_eq_true, if_false]
  split_ifs <;> simp_all

/-- Policy and class of a task agree after a step if they did before, and the step is no fork of a
RAS task. -/
theorem CtlStep.policy_iff {op : Op τ} {t : τ} {c c' : TaskControl} (h : CtlStep K s op t c c')
    (hc : c.policy = .ras ↔ c.schedClass = .ras)
    (hparent : op = .fork t →
      (s.ctl s.curr).policy ≠ .ras ∧ (s.ctl s.curr).schedClass ≠ .ras) :
    c'.policy = .ras ↔ c'.schedClass = .ras := by
  cases h with
  | activity h => rw [h]; exact hc
  | fork h =>
    obtain ⟨hpol, hclass⟩ := hparent h
    obtain ⟨hp, hcl⟩ := childCtl_cases (s.ctl s.curr)
    refine iff_of_false ?_ ?_
    · rcases hp with hp | hp <;> simp [hp, hpol]
    · rcases hcl with hcl | hcl <;> simp [hcl, hclass]
  | setscheduler h hcheck => exact classFor_eq_ras_iff.symm
  | inherit h =>
    rw [inherited]
    dsimp only
    split
    · exact classFor_eq_ras_iff.symm
    · exact hc
  | staticPrio h hrt => exact hc
  | renice h hrt => exact hc
  | move h => exact hc

/-- As long as no RAS task forks, policy and class agree, and they disagree after a step if and
only if it is such a fork. A call of `sched_setscheduler` for `SCHED_RAS` that returns zero then
leaves its target in the RAS class. -/
theorem policy_iff_class_of_no_ras_fork
    (h : Reachable ((system K).restrict NoRasFork) s) :
    PolicyClassAgree s ∧
    (∀ e s', (system K).step s e s' → (PolicyClassAgree s' ↔ NoRasFork s e)) ∧
    ∀ caller p policy user reset, p ≠ s.idle → requested (s.ctl p) policy = some (.ras, reset) →
      (schedSetscheduler K s caller p policy 0 user).1 = 0 →
      ((schedSetscheduler K s caller p policy 0 user).2.task p).schedClass = .ras := by
  have hkeep : ∀ s e s', Inv K s → PolicyClassAgree s → NoRasFork s e → (system K).step s e s' →
      PolicyClassAgree s' := by
    intro s e s' hinv hagree hok hstep t
    refine (step_ctlStep hinv hstep t).policy_iff (hagree t) fun hfork => ?_
    have hpol : (s.task s.curr).policy ≠ .ras := hok (by rw [hfork]; rfl)
    exact ⟨hpol, fun hc => hpol ((hagree s.curr).mpr hc)⟩
  have hagree : PolicyClassAgree s := by
    refine h.invariant (fun s (hs : Boot K s) => hs.policy_iff) fun s e s' hs hagree hstep => ?_
    exact hkeep s e s' (reachable_inv hs.of_restrict) hagree hstep.1 hstep.2
  have hinv := reachable_inv h.of_restrict
  refine ⟨hagree, fun e s' hstep => ⟨fun hagree' => ?_,
    fun hok => hkeep s e s' hinv hagree hok hstep⟩, fun caller p policy user reset hp hreq hzero => ?_⟩
  · -- the child of the fork would have the policy but not the class
    intro hsome hpol
    obtain ⟨child, hfork⟩ : ∃ child, e.op = .fork child := by
      cases hop : e.op with
      | fork child => exact ⟨child, rfl⟩
      | _ => rw [hop] at hsome; cases hsome
    obtain ⟨he, hx⟩ := step_iff.mp hstep
    rw [hfork] at he hx
    obtain ⟨hidle, hstop, -, -, hoff, hcurr⟩ := he
    obtain rfl := Option.some.inj hx
    have hr : Rewrites K (atTime s e.now) (fork K (atTime s e.now) child) child
        fun _ => childCtl (s.ctl s.curr) := rewrites_fork hcurr hoff
    obtain ⟨hpol', hclass'⟩ := childCtl_of_ras (hinv.ctlOk hidle hstop) hpol
    have hchild := hr.ctl_self
    have hras := (hagree' child).mp ((congrArg TaskControl.policy hchild).trans hpol')
    have hfair : ((fork K (atTime s e.now) child).task child).schedClass = .fair :=
      (congrArg TaskControl.schedClass hchild).trans hclass'
    rw [hfair] at hras
    cases hras
  · rcases schedSetscheduler_cases K s caller p policy 0 user with
      ⟨r, hcheck, hres⟩ | ⟨newPolicy, reset', hcheck, hres⟩
    · -- zero is returned without a change only when the policy is the same
      rw [hres] at hzero ⊢
      have hr : r = 0 := hzero
      subst hr
      rw [setschedulerCheck, hreq] at hcheck
      dsimp only at hcheck
      split_ifs at hcheck with hvalid hperm hsec hstop hsame hgroup <;>
        simp only [Except.error.injEq] at hcheck
      · simp [einval] at hcheck
      · simp [eperm] at hcheck
      · exact absurd hcheck hsec.2
      · simp [einval] at hcheck
      · have hpol : (s.ctl p).policy = .ras := by
          simp only [setschedulerNoChange, decide_eq_true_eq, Bool.decide_and, Bool.and_eq_true]
            at hsame
          exact hsame.1.symm
        exact (hagree p).mp hpol
      · simp [eperm] at hcheck
    · obtain ⟨hreq', hvalid, -, hstop, -⟩ := setschedulerCheck_ok hcheck
      have hnew : newPolicy = .ras := by
        rw [hreq] at hreq'
        simpa using (congrArg (Option.map Prod.fst) hreq').symm
      subst hnew
      have hr := rewrites_changePolicy (K := K) (hinv.ctl p hp hstop) reset' hvalid
      have hclass := congrArg TaskControl.schedClass hr.ctl_self
      rw [hres]
      exact hclass.trans (by simp [setschedulerCtl, classFor])

/-- A fair task forks, and its child becomes a RAS task. -/
def fairFork : List (Op ℕ) :=
  [.wakeUpNewTask 1, reschedule, .fork 2, .wakeUpNewTask 2, setschedulerNocheck 2 6 0]

theorem policy_iff_class_of_no_ras_fork_fairFork :
    ∃ s, referenceRunOk NoRasFork fairFork = some s ∧ (s.task 2).schedClass = .ras ∧
      PolicyClassAgree s ∧
      ∀ e s', (system (referenceKernel ℕ)).step s e s' → (PolicyClassAgree s' ↔ NoRasFork s e) :=
  have h : referenceRunOk NoRasFork fairFork =
      some ((referenceRunOk NoRasFork fairFork).get (by decide +kernel)) := by simp
  have hok := policy_iff_class_of_no_ras_fork (reachable_referenceRunOk h)
  ⟨_, h, by decide +kernel, hok.1, hok.2.1⟩

/-- A RAS task forks. -/
def rasFork : List (Op ℕ) :=
  [setschedulerNocheck 1 6 0, .wakeUpNewTask 1, reschedule, .fork 2]

/-- The child has the policy and is a fair task, and remains one when it asks for `SCHED_RAS`. -/
theorem not_policy_iff_class :
    (¬ ∀ s, Reachable (system (referenceKernel ℕ)) s → PolicyClassAgree s) ∧
    ∃ s, referenceRun rasFork = some s ∧
      (schedSetscheduler (referenceKernel ℕ) s {} 2 6 0 true).1 = 0 ∧
      ((schedSetscheduler (referenceKernel ℕ) s {} 2 6 0 true).2.task 2).schedClass = .fair := by
  have hrun : referenceRun rasFork = some ((referenceRun rasFork).get (by decide +kernel)) := by simp
  refine ⟨fun h => ?_, _, hrun, by decide +kernel, by decide +kernel⟩
  have hras := (h _ (reachable_referenceRun hrun) 2).mp (by decide +kernel)
  revert hras
  decide +kernel

end OsProject.Sched
