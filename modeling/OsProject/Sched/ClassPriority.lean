import OsProject.Sched.RunQueue

/-!
# Strict priority of the classes

A queued task of a class before that of the current task, which no throttled real-time group holds
up, should not wait without a reschedule being due. A wakeup compares classes, but the other paths
leave the decision to `switched_to` and `prio_changed` callbacks, which compare priorities or do
nothing. They overlook a waiting task when the current task leaves the real-time class for the RAS
class, when the current task is a RAS task with an inherited real-time priority, when a policy
change leaves a priority as it is that now counts as a boost and lifts the throttling of the groups,
and when a task moves out of a throttled group. In a run without these steps no task waits unnoticed.

## Main definitions

* `Waiting`, `ClassPriority` — the invariant.
* `Overlooks`, `TimerOverlooks`, `NoOversight` — the steps whose callbacks overlook a waiting task.

## Main results

* `class_priority_of_no_oversight`.
-/

namespace OsProject.Sched

open Transition

variable {τ Q : Type*} [DecidableEq τ] {K : Kernel τ Q} {s s' u : Rq τ Q} {p t : τ}
  {c : TaskControl}

/-- The task is queued in a class before that of the current task, and no group of it is throttled
if it is a real-time task. -/
structure Waiting (s : Rq τ Q) (t : τ) : Prop where
  onRq : (s.ctl t).onRq = true
  rank_lt : (s.ctl t).schedClass.rank < (s.ctl s.curr).schedClass.rank
  eligible : (s.ctl t).schedClass = .rt → RtEligible s.rt (s.ctl t)

/-- While a task waits, the current task is marked to be rescheduled. -/
def ClassPriority (s : Rq τ Q) : Prop := ∀ t, Waiting s t → s.needResched s.curr = true

/-! ### The steps that overlook a waiting task -/

/-- The real-time task `t` is eligible even if `p` is not counted: the bandwidth of each of its
groups is not used up, or another boosted task is queued below the group. -/
def EligibleWithout (s : Rq τ Q) (p t : τ) : Prop :=
  ∀ g ∈ (s.ctl t).schedTaskGroup.rtRq.tails, s.rt.throttled g = false ∨
    ∃ b ∈ rtTasks s.rt, b ≠ p ∧ rtTaskBoosted (s.ctl b) = true ∧
      g ∈ (s.ctl b).schedTaskGroup.rtRq.tails

/-- A change of the control fields of the queued task `p` to `c` is one whose callback overlooks a
waiting task: no reschedule is due, and

* the current task leaves the real-time class for the RAS class while another real-time task is
  queued that is eligible without it, or
* `p` comes to wait as a real-time task, eligible by its new groups or because it is boosted now,
  and no callback compares its priority with that of the current task, or the current one has a
  priority that is as good. -/
def Overlooks (s : Rq τ Q) (p : τ) (c : TaskControl) : Prop :=
  s.needResched s.curr = false ∧ (s.ctl p).onRq = true ∧
  if p = s.curr then
    (s.ctl p).schedClass = .rt ∧ c.schedClass = .ras ∧
      ∃ t ∈ rtTasks s.rt, t ≠ p ∧ EligibleWithout s p t
  else
    c.schedClass = .rt ∧ SchedClass.rt.rank < (s.ctl s.curr).schedClass.rank ∧
      (rtTaskBoosted c = true ∨ RtEligible s.rt c) ∧
      if (s.ctl p).schedClass = .rt then
        ¬RtEligible s.rt (s.ctl p) ∧ (c.prio = (s.ctl p).prio ∨ (s.ctl s.curr).prio ≤ c.prio)
      else
        (s.ctl s.curr).prio ≤ c.prio

/-- The period timer of the group lifts its throttling, none of the groups above it is throttled, no
reschedule is due, and the current task, of a later class, does not have a larger priority than the
best one queued in the group. -/
def TimerOverlooks (s : Rq τ Q) (g : RtGroup) (overrun : ℕ) : Prop :=
  s.needResched s.curr = false ∧ rtRqThrottled (s.rt.rq g) = true ∧
    (∀ k ∈ g.tails, k ≠ g → rtRqThrottled (s.rt.rq k) = false) ∧
    SchedClass.rt.rank < (s.ctl s.curr).schedClass.rank ∧ (s.rt.rq g).rtTime ≠ 0 ∧
    (s.rt.rq g).rtTime - min (s.rt.rq g).rtTime (overrun * (s.rt.rq g).rtRuntime) <
      (s.rt.rq g).rtRuntime ∧
    (s.rt.rq g).rtNrRunning ≠ 0 ∧ (s.ctl s.curr).prio ≤ (s.rt.rq g).highestPrio

/-- The task whose class, priority or group a step may change, with the control fields it gets. -/
def rewritten (K : Kernel τ Q) (s : Rq τ Q) : Op τ → Option (τ × TaskControl)
  | .setscheduler caller p policy prio user =>
    match setschedulerCheck K s caller p policy prio user with
    | .ok (newPolicy, reset) =>
      some (p, setschedulerCtl newPolicy prio { s.ctl p with schedResetOnFork := reset })
    | .error _ => none
  | .rtMutexAdjustPrio p waiter => some (p, inherited waiter (s.ctl p))
  | .schedMoveTask p tg => some (p, { s.ctl p with schedTaskGroup := tg })
  | _ => none

/-- The group whose real-time period timer expires, and the number of periods. -/
def timerExpiry : Op τ → Option (RtGroup × ℕ)
  | .rtPeriodTimer g overrun => some (g, overrun)
  | _ => none

/-- The step does not overlook a waiting task. -/
def NoOversight (K : Kernel τ Q) (s : Rq τ Q) (op : Op τ) : Prop :=
  (∀ x ∈ rewritten K s op, ¬ Overlooks s x.1 x.2) ∧
    ∀ x ∈ timerExpiry op, ¬ TimerOverlooks s x.1 x.2

instance (s : Rq τ Q) (p t : τ) : Decidable (EligibleWithout s p t) := by
  dsimp only [EligibleWithout]
  infer_instance

instance (s : Rq τ Q) (p : τ) (c : TaskControl) : Decidable (Overlooks s p c) := by
  dsimp only [Overlooks]
  infer_instance

instance (s : Rq τ Q) (g : RtGroup) (overrun : ℕ) : Decidable (TimerOverlooks s g overrun) := by
  dsimp only [TimerOverlooks]
  infer_instance

instance (s : Rq τ Q) (op : Op τ) : Decidable (NoOversight K s op) := by
  dsimp only [NoOversight]
  infer_instance

/-! ### Steps that touch one task -/

/-- The control fields of `p` become `c`, and no reschedule and no throttling is lost. -/
structure Touches (s s' : Rq τ Q) (p : τ) (c : TaskControl) : Prop where
  ctl : s'.ctl = Function.update s.ctl p c
  curr : s'.curr = s.curr
  needResched : s.needResched s.curr = true → s'.needResched s.curr = true
  rtThrottled : ∀ g, s.rt.throttled g = true → s'.rt.throttled g = true

theorem Rewrites.touches {f : TaskControl → TaskControl} (h : Rewrites K s s' p f) :
    Touches s s' p (f (s.ctl p)) := ⟨h.ctl, h.curr, h.needResched, h.rtThrottled⟩

theorem Wakes.touches (h : Wakes K s s' p) :
    Touches s s' p { s.ctl p with onRq := true, state := 0 } :=
  ⟨h.ctl, h.curr, h.needResched, h.rtThrottled⟩

theorem Keeps.touches (h : Keeps K s s') (p : τ) : Touches s s' p (s.ctl p) :=
  (h.rewrites p).touches

namespace Touches

theorem ctl_self (h : Touches s s' p c) : s'.ctl p = c := by rw [h.ctl, Function.update_self]

theorem ctl_of_ne (h : Touches s s' p c) (ht : t ≠ p) : s'.ctl t = s.ctl t := by
  rw [h.ctl, Function.update_of_ne ht]

/-- The throttling of a group is lifted only when `p` becomes a boosted real-time task below it. -/
theorem lifted {g : RtGroup} (h : Touches s s' p c) (hinv : Inv K s) (hinv' : Inv K s')
    (hthr : rtRqThrottled (s.rt.rq g) = true) (helig : rtRqThrottled (s'.rt.rq g) = false) :
    c.onRq = true ∧ c.schedClass = .rt ∧ rtTaskBoosted c = true ∧ g <:+ c.schedTaskGroup.rtRq := by
  obtain ⟨F, hF, hmem⟩ := hinv.holds
  obtain ⟨F', hF', hmem'⟩ := hinv'.holds
  simp only [rtRqThrottled, Bool.and_eq_true, beq_iff_eq] at hthr
  obtain ⟨t, ht, hb, hsuf⟩ := hF'.rt.exists_boosted_of_flag (h.rtThrottled g hthr.1) helig
  obtain ⟨ht, hc⟩ := mem_inClass.mp ht
  have hon := (hmem' t).mp ht
  by_cases htp : t = p
  · subst htp
    rw [h.ctl_self] at hon hc hb hsuf
    exact ⟨hon, hc, hb, hsuf⟩
  · rw [h.ctl_of_ne htp] at hon hc hb hsuf
    exact absurd hthr.2
      (hF.rt.boosted_of_mem (mem_inClass.mpr ⟨(hmem t).mpr hon, hc⟩) hb hsuf)

/-- Groups stay throttled unless `p` becomes a boosted real-time task. -/
theorem eligible_of_not_boosted {d : TaskControl} (h : Touches s s' p c) (hinv : Inv K s)
    (hinv' : Inv K s') (helig : RtEligible s'.rt d)
    (hb : ¬(c.onRq = true ∧ c.schedClass = .rt ∧ rtTaskBoosted c = true)) : RtEligible s.rt d := by
  by_contra hthr
  obtain ⟨g, hsuf, hg⟩ := not_rtEligible_iff.mp hthr
  obtain ⟨hon, hc, hboost, -⟩ := h.lifted hinv hinv' hg (rtEligible_iff.mp helig g hsuf)
  exact hb ⟨hon, hc, hboost⟩

/-- A task other than `p` that waits afterwards has waited before, unless `p` is the current task
or lifts the throttling. -/
theorem waiting_of_ne (h : Touches s s' p c) (hinv : Inv K s) (hinv' : Inv K s')
    (hp : p ≠ s.curr) (ht : t ≠ p) (hw : Waiting s' t) :
    Waiting s t ∨ (c.onRq = true ∧ c.schedClass = .rt ∧ rtTaskBoosted c = true ∧
      SchedClass.rt.rank < (s.ctl s.curr).schedClass.rank) := by
  obtain ⟨hon, hrank, helig⟩ := hw
  rw [h.curr, h.ctl_of_ne ht, h.ctl_of_ne hp.symm] at hrank
  rw [h.ctl_of_ne ht] at hon helig
  by_cases hwas : (s.ctl t).schedClass = .rt → RtEligible s.rt (s.ctl t)
  · exact .inl ⟨hon, hrank, hwas⟩
  · rw [Classical.not_imp] at hwas
    obtain ⟨hc, hthr⟩ := hwas
    by_contra hno
    refine hthr (h.eligible_of_not_boosted hinv hinv' (helig hc) fun hboost => ?_)
    exact hno (.inr ⟨hboost.1, hboost.2.1, hboost.2.2, by rwa [hc] at hrank⟩)

/-- When `p` keeps its mark, its class, and as a real-time task its group and its boost, the tasks
that wait are those that have waited. -/
theorem waiting_of_same (h : Touches s s' p c) (hinv : Inv K s) (hinv' : Inv K s')
    (hon : c.onRq = (s.ctl p).onRq) (hc : c.schedClass = (s.ctl p).schedClass)
    (hrt : c.schedClass = .rt → rtTaskBoosted c = rtTaskBoosted (s.ctl p) ∧
      c.schedTaskGroup = (s.ctl p).schedTaskGroup) (hw : Waiting s' t) :
    Waiting s t := by
  have hclass : ∀ t, (s'.ctl t).schedClass = (s.ctl t).schedClass := by
    intro t
    by_cases ht : t = p
    · rw [ht, h.ctl_self, hc]
    · rw [h.ctl_of_ne ht]
  have hmark : (s'.ctl t).onRq = (s.ctl t).onRq := by
    by_cases ht : t = p
    · rw [ht, h.ctl_self, hon]
    · rw [h.ctl_of_ne ht]
  refine ⟨hmark.symm.trans hw.onRq, ?_, fun htrt => ?_⟩
  · have := hw.rank_lt
    rwa [h.curr, hclass, hclass] at this
  · have hgroup : (s'.ctl t).schedTaskGroup = (s.ctl t).schedTaskGroup := by
      by_cases ht : t = p
      · rw [ht, h.ctl_self, (hrt (by rw [hc, ← ht, htrt])).2]
      · rw [h.ctl_of_ne ht]
    have helig := rtEligible_iff.mp (hw.eligible ((hclass t).trans htrt))
    rw [hgroup] at helig
    by_contra hthr
    obtain ⟨g, hsuf, hg⟩ := not_rtEligible_iff.mp hthr
    -- a boosted task below the group has been there before
    obtain ⟨hon', hc', hb', hsuf'⟩ := h.lifted hinv hinv' hg (helig g hsuf)
    obtain ⟨F, hF, hmem⟩ := hinv.holds
    rw [(hrt hc').1] at hb'
    rw [(hrt hc').2] at hsuf'
    rw [hon] at hon'
    rw [hc] at hc'
    simp only [rtRqThrottled, Bool.and_eq_true, beq_iff_eq] at hg
    exact hF.rt.boosted_of_mem (mem_inClass.mpr ⟨(hmem p).mpr hon', hc'⟩) hb' hsuf' hg.2

theorem classPriority_of_same (h : Touches s s' p c) (hinv : Inv K s) (hinv' : Inv K s')
    (hon : c.onRq = (s.ctl p).onRq) (hc : c.schedClass = (s.ctl p).schedClass)
    (hrt : c.schedClass = .rt → rtTaskBoosted c = rtTaskBoosted (s.ctl p) ∧
      c.schedTaskGroup = (s.ctl p).schedTaskGroup) (hpri : ClassPriority s) : ClassPriority s' := by
  intro t ht
  rw [h.curr]
  exact h.needResched (hpri t (h.waiting_of_same hinv hinv' hon hc hrt ht))

end Touches

/-! ### The callbacks after a change of class or priority -/

/-- What `check_class_changed` makes sure of after the control fields of the queued task `p` have
become `c`. -/
structure Reschedules (s s' : Rq τ Q) (p : τ) (c : TaskControl) : Prop where
  curr_fair : p = s.curr → c.schedClass = .fair → (s.ctl p).schedClass ≠ .fair →
    s'.needResched s.curr = true
  ras : p ≠ s.curr → c.schedClass = .ras → (s.ctl p).schedClass ≠ .ras →
    s'.needResched s.curr = true
  fair_idle : p ≠ s.curr → c.schedClass = .fair → (s.ctl p).schedClass ≠ .fair →
    (s.ctl s.curr).schedClass = .idle → s'.needResched s.curr = true
  rt : p ≠ s.curr → c.schedClass = .rt → c.prio < (s.ctl s.curr).prio →
    ((s.ctl p).schedClass = .rt → c.prio ≠ (s.ctl p).prio) → s'.needResched s.curr = true

omit [DecidableEq τ] in
/-- Only classes, priorities and the current task matter of the state before. -/
theorem Reschedules.congr (h : Reschedules u s' p c) (hcurr : u.curr = s.curr)
    (hctl : ∀ t, (u.ctl t).schedClass = (s.ctl t).schedClass ∧ (u.ctl t).prio = (s.ctl t).prio) :
    Reschedules s s' p c := by
  obtain ⟨h₁, h₂, h₃, h₄⟩ := h
  rw [hcurr, (hctl p).1] at h₁ h₂ h₃ h₄
  rw [(hctl s.curr).1] at h₃
  rw [(hctl s.curr).2, (hctl p).2] at h₄
  exact ⟨h₁, h₂, h₃, h₄⟩

theorem classSwitchedFrom_same (s : Rq τ Q) (prev : SchedClass) (p : τ) :
    (classSwitchedFrom K s prev p).task = s.task ∧ (classSwitchedFrom K s prev p).curr = s.curr := by
  cases prev <;> exact ⟨rfl, rfl⟩

theorem applyEffect_resched {e : ForeignEffect Q} (he : e.resched = true) :
    (s.applyEffect e).needResched s.curr = true := by
  simp [Rq.applyEffect, he, Rq.reschedTask]

/-- `switched_to` of each class, for a queued task. -/
theorem classSwitchedTo_resched (hon : (s.ctl p).onRq = true)
    (h : ((s.ctl p).schedClass = .fair ∧ (p = s.curr ∨ (s.ctl s.curr).schedClass = .idle)) ∨
      ((s.ctl p).schedClass = .ras ∧ p ≠ s.curr) ∨
      ((s.ctl p).schedClass = .rt ∧ p ≠ s.curr ∧ (s.ctl p).prio < (s.ctl s.curr).prio)) :
    (classSwitchedTo K s p).needResched s.curr = true := by
  rw [classSwitchedTo]
  rcases h with ⟨hc, hcurr⟩ | ⟨hc, hne⟩ | ⟨hc, hne, hlt⟩
  · have hc : (s.task p).schedClass = .fair := hc
    rw [hc]
    refine applyEffect_resched ?_
    rcases hcurr with rfl | hidle
    · exact K.switchedTo_curr s.view s.cfs.data hon
    · exact K.switchedTo_idle s.view p s.cfs.data hon hidle
  · have hc : (s.task p).schedClass = .ras := hc
    rw [hc]
    dsimp only
    rw [switchedToRas, if_pos ⟨hon, hne.symm⟩]
    simp [Rq.reschedTask]
  · have hc : (s.task p).schedClass = .rt := hc
    rw [hc]
    dsimp only
    rw [switchedToRt, if_pos ⟨hon, hne.symm, hlt⟩]
    simp [Rq.reschedTask]

/-- `prio_changed_rt` of a queued task other than the current one. -/
theorem classPrioChanged_resched {oldprio : ℤ} (hon : (s.ctl p).onRq = true)
    (hc : (s.ctl p).schedClass = .rt) (hne : p ≠ s.curr)
    (hlt : (s.ctl p).prio < (s.ctl s.curr).prio) :
    (classPrioChanged K s p oldprio).needResched s.curr = true := by
  have hc : (s.task p).schedClass = .rt := hc
  have hoff : ¬ ((!(s.task p).onRq) = true) := by
    have : (s.task p).onRq = true := hon
    simp [this]
  have hlt : (s.task p).prio < (s.task s.curr).prio := hlt
  rw [classPrioChanged, hc]
  dsimp only
  rw [prioChangedRt, if_neg hoff, if_neg hne.symm, if_pos hlt]
  simp [Rq.reschedTask]

/-- `check_class_changed` on the state `u` in which the change has been made. -/
theorem reschedules_checkClassChanged (hctl : u.ctl = Function.update s.ctl p c)
    (hcurr : u.curr = s.curr) (hon : c.onRq = true) :
    Reschedules s (checkClassChanged K u p (s.ctl p).schedClass (s.ctl p).prio) p c := by
  have hself : u.ctl p = c := by rw [hctl, Function.update_self]
  have hother : p ≠ s.curr → u.ctl s.curr = s.ctl s.curr := fun hne => by
    rw [hctl, Function.update_of_ne hne.symm]
  have hchanged : c.schedClass ≠ (s.ctl p).schedClass →
      (c.schedClass = .fair ∧ (p = s.curr ∨ (u.ctl s.curr).schedClass = .idle)) ∨
      (c.schedClass = .ras ∧ p ≠ s.curr) ∨
      (c.schedClass = .rt ∧ p ≠ s.curr ∧ c.prio < (u.ctl s.curr).prio) →
      (checkClassChanged K u p (s.ctl p).schedClass (s.ctl p).prio).needResched s.curr = true := by
    intro hne h
    obtain ⟨htask, hfrom⟩ := classSwitchedFrom_same (K := K) u (s.ctl p).schedClass p
    have hfctl : (classSwitchedFrom K u (s.ctl p).schedClass p).ctl = u.ctl := by
      funext t
      rw [Rq.ctl, htask, Rq.ctl]
    have hclass : (s.ctl p).schedClass ≠ (u.task p).schedClass := by
      have : (u.task p).schedClass = c.schedClass := congrArg TaskControl.schedClass hself
      rw [this]
      exact hne.symm
    rw [checkClassChanged, if_pos hclass, ← hcurr, ← hfrom]
    refine classSwitchedTo_resched ?_ ?_
    · rw [hfctl, hself, hon]
    · rw [hfctl, hself, hfrom, hcurr]
      exact h
  refine ⟨fun hp hc hne => ?_, fun hp hc hne => ?_, fun hp hc hne hidle => ?_,
    fun hp hc hlt hsame => ?_⟩
  · exact hchanged (by rw [hc]; exact hne.symm) (.inl ⟨hc, .inl hp⟩)
  · exact hchanged (by rw [hc]; exact hne.symm) (.inr (.inl ⟨hc, hp⟩))
  · exact hchanged (by rw [hc]; exact hne.symm) (.inl ⟨hc, .inr (by rw [hother hp, hidle])⟩)
  · by_cases hold : (s.ctl p).schedClass = .rt
    · -- the class stays, so that the callback for the new priority is called
      have hclass : ¬ ((s.ctl p).schedClass ≠ (u.task p).schedClass) := by
        have : (u.task p).schedClass = c.schedClass := congrArg TaskControl.schedClass hself
        rw [this, hc, hold]
        exact fun h => h rfl
      have hprio : (s.ctl p).prio ≠ (u.task p).prio := by
        have : (u.task p).prio = c.prio := congrArg TaskControl.prio hself
        rw [this]
        exact (hsame hold).symm
      rw [checkClassChanged, if_neg hclass, if_pos hprio, ← hcurr]
      refine classPrioChanged_resched ?_ ?_ (by rw [hcurr]; exact hp) ?_
      · rw [hself, hon]
      · rw [hself, hc]
      · rw [hself, hcurr, hother hp]
        exact hlt
    · exact hchanged (by rw [hc]; exact Ne.symm hold) (.inr (.inr ⟨hc, hp, by rwa [hother hp]⟩))

namespace Touches

/-- The current task changes: a task that waits afterwards has waited before, or the change is one
that is overlooked. -/
theorem waiting_curr (h : Touches s s' p c) (hinv : Inv K s) (hinv' : Inv K s')
    (hp : p = s.curr) (hon : (s.ctl p).onRq = true) (hstop : (s.ctl p).schedClass ≠ .stop)
    (hclear : s.needResched s.curr = false) (hw : Waiting s' t) :
    Waiting s t ∨ (c.schedClass = .fair ∧ (s.ctl p).schedClass ≠ .fair) ∨
      c.schedClass = .idle ∨ Overlooks s p c := by
  obtain ⟨hont, hrank, helig⟩ := hw
  rw [h.curr, ← hp, h.ctl_self] at hrank
  have ht : t ≠ p := by
    rintro rfl
    rw [h.ctl_self] at hrank
    exact lt_irrefl _ hrank
  rw [h.ctl_of_ne ht] at hont hrank helig
  by_cases hbefore : (s.ctl t).schedClass.rank < (s.ctl p).schedClass.rank
  · -- the task came first before, and only a real-time task could have been throttled
    refine .inl ⟨hont, by rwa [← hp], fun hc => ?_⟩
    refine h.eligible_of_not_boosted hinv hinv' (helig hc) fun hboost => ?_
    rw [hboost.2.1, hc] at hrank
    exact lt_irrefl _ hrank
  · right
    rw [not_lt] at hbefore
    cases hc : c.schedClass with
    | stop => rw [hc] at hrank; exact absurd hrank (Nat.not_lt_zero _)
    | rt =>
      rw [hc] at hrank
      cases hpc : (s.ctl p).schedClass <;> simp_all [SchedClass.rank]
    | fair =>
      refine .inl ⟨rfl, fun hpc => ?_⟩
      rw [hc] at hrank
      rw [hpc] at hbefore
      omega
    | idle => exact .inr (.inl rfl)
    | ras =>
      -- the current task was a real-time task, and so is the one that waits
      have hboth : (s.ctl p).schedClass = .rt ∧ (s.ctl t).schedClass = .rt := by
        rw [hc] at hrank
        cases hpc : (s.ctl p).schedClass <;> cases htc : (s.ctl t).schedClass <;>
          simp_all [SchedClass.rank]
      obtain ⟨hpc, htc⟩ := hboth
      obtain ⟨F, hF, hmem⟩ := hinv.holds
      have hrt : ∀ b, (s.ctl b).onRq = true → (s.ctl b).schedClass = .rt → b ∈ rtTasks s.rt :=
        fun b hb hbc => hF.rt.mem_rtTasks.mpr (mem_inClass.mpr ⟨(hmem b).mpr hb, hbc⟩)
      refine .inr (.inr ⟨hclear, hon, ?_⟩)
      rw [if_pos hp]
      refine ⟨hpc, hc, t, hrt t hont htc, ht, fun g hg => ?_⟩
      cases hflag : s.rt.throttled g with
      | false => exact .inl rfl
      | true =>
        have hg := (List.mem_tails ..).mp hg
        obtain ⟨F', hF', hmem'⟩ := hinv'.holds
        obtain ⟨b, hb, hboost, hsuf⟩ := hF'.rt.exists_boosted_of_flag (h.rtThrottled g hflag)
          (rtEligible_iff.mp (helig htc) g hg)
        obtain ⟨hb, hbc⟩ := mem_inClass.mp hb
        have hbp : b ≠ p := by
          rintro rfl
          rw [h.ctl_self, hc] at hbc
          cases hbc
        have hbon := (hmem' b).mp hb
        rw [h.ctl_of_ne hbp] at hbon hbc hboost hsuf
        exact .inr ⟨b, hrt b hbon hbc, hbp, hboost, (List.mem_tails ..).mpr hsuf⟩

/-- Another task changes: when a task waits afterwards, one has waited before, or the callbacks
reschedule, or the change is one that is overlooked. -/
theorem waiting_other (h : Touches s s' p c) (hinv : Inv K s) (hinv' : Inv K s')
    (hp : p ≠ s.curr) (hon : (s.ctl p).onRq = true) (hres : Reschedules s s' p c)
    (hstop : c.schedClass ≠ .stop) (hclear : s.needResched s.curr = false) (hw : Waiting s' t) :
    (∃ u, Waiting s u) ∨ s'.needResched s.curr = true ∨ Overlooks s p c := by
  -- `p` becomes an eligible real-time task
  have helig : c.schedClass = .rt → rtTaskBoosted c = true ∨ RtEligible s.rt c →
      SchedClass.rt.rank < (s.ctl s.curr).schedClass.rank →
      (∃ u, Waiting s u) ∨ s'.needResched s.curr = true ∨ Overlooks s p c := by
    intro hc hopen hrank
    by_cases hwas : (s.ctl p).schedClass = .rt ∧ RtEligible s.rt (s.ctl p)
    · exact .inl ⟨p, hon, by rwa [hwas.1], fun _ => hwas.2⟩
    · by_cases hlt : c.prio < (s.ctl s.curr).prio ∧
          ((s.ctl p).schedClass = .rt → c.prio ≠ (s.ctl p).prio)
      · exact .inr (.inl (hres.rt hp hc hlt.1 hlt.2))
      · refine .inr (.inr ⟨hclear, hon, ?_⟩)
        rw [if_neg hp]
        refine ⟨hc, hrank, hopen, ?_⟩
        split
        · next hpc =>
          refine ⟨fun he => hwas ⟨hpc, he⟩, ?_⟩
          by_contra hboth
          rw [not_or, not_le] at hboth
          exact hlt ⟨hboth.2, fun _ => hboth.1⟩
        · next hpc =>
          by_contra hle
          exact hlt ⟨not_le.mp hle, fun h => absurd h hpc⟩
  by_cases ht : t = p
  swap
  · rcases h.waiting_of_ne hinv hinv' hp ht hw with hw | ⟨-, hc, hb, hrank⟩
    · exact .inl ⟨t, hw⟩
    · exact helig hc (.inl hb) hrank
  -- the changed task itself waits
  subst ht
  obtain ⟨-, hrank, hopen⟩ := hw
  rw [h.curr, h.ctl_self, h.ctl_of_ne hp.symm] at hrank
  rw [h.ctl_self] at hopen
  have hsame : (s.ctl t).schedClass = c.schedClass → c.schedClass ≠ .rt → ∃ u, Waiting s u :=
    fun he hrt => ⟨t, hon, by rwa [he], fun hc => absurd (he.symm.trans hc) hrt⟩
  cases hc : c.schedClass with
  | stop => exact absurd hc hstop
  | rt =>
    rw [hc] at hrank
    refine helig hc ?_ hrank
    by_contra hno
    rw [not_or] at hno
    exact hno.2 (h.eligible_of_not_boosted hinv hinv' (hopen hc) fun hb => hno.1 hb.2.2)
  | ras =>
    by_cases hpc : (s.ctl t).schedClass = .ras
    · exact .inl (hsame (hpc.trans hc.symm) (by rw [hc]; decide))
    · exact .inr (.inl (hres.ras hp hc hpc))
  | fair =>
    by_cases hpc : (s.ctl t).schedClass = .fair
    · exact .inl (hsame (hpc.trans hc.symm) (by rw [hc]; decide))
    · have hidle : (s.ctl s.curr).schedClass = .idle := by
        rw [hc] at hrank
        cases hcurr : (s.ctl s.curr).schedClass <;> simp_all [SchedClass.rank]
      exact .inr (.inl (hres.fair_idle hp hc hpc hidle))
  | idle =>
    rw [hc] at hrank
    cases hcurr : (s.ctl s.curr).schedClass <;> simp_all [SchedClass.rank]

/-- A task that is not queued afterwards does not matter. -/
theorem classPriority_of_off (h : Touches s s' p c) (hinv : Inv K s) (hinv' : Inv K s')
    (hp : p ≠ s.curr) (hoff : c.onRq = false) (hpri : ClassPriority s) : ClassPriority s' := by
  intro t hw
  by_cases ht : t = p
  · have hont := hw.onRq
    rw [ht, h.ctl_self, hoff] at hont
    cases hont
  · rw [h.curr]
    rcases h.waiting_of_ne hinv hinv' hp ht hw with ht | ⟨honc, -⟩
    · exact h.needResched (hpri t ht)
    · rw [hoff] at honc
      cases honc

/-- A change of class or priority after which `check_class_changed` is called keeps the order of the
classes, unless it is one that is overlooked. -/
theorem classPriority_of_change (h : Touches s s' p c) (hinv : Inv K s) (hinv' : Inv K s')
    (hp : p ≠ s.idle) (hpstop : s.stop ≠ some p) (hmark : c.onRq = (s.ctl p).onRq) (hok : CtlOk c)
    (hres : (s.ctl p).onRq = true → Reschedules s s' p c) (hover : ¬ Overlooks s p c)
    (hpri : ClassPriority s) : ClassPriority s' := by
  by_cases hon : (s.ctl p).onRq = true
  swap
  · have hcurr : p ≠ s.curr := by
      rintro rfl
      exact hinv.curr.elim hp hon
    exact h.classPriority_of_off hinv hinv' hcurr (by rw [hmark]; simpa using hon) hpri
  intro t hw
  rw [h.curr]
  by_contra hno
  have hclear : s.needResched s.curr = false := Bool.eq_false_iff.mpr fun hr =>
    hno (h.needResched hr)
  have hquiet : ¬ Waiting s t := fun ht => hno (h.needResched (hpri t ht))
  by_cases hcurr : p = s.curr
  · have hstop : (s.ctl p).schedClass ≠ .stop := fun hc => hpstop (hinv.stop_eq hc)
    rcases h.waiting_curr hinv hinv' hcurr hon hstop hclear hw with ht | ⟨hc, hpc⟩ | hc | ho
    · exact hquiet ht
    · exact hno ((hres hon).curr_fair hcurr hc hpc)
    · exact hok.schedClass_ne_idle hc
    · exact hover ho
  · rcases h.waiting_other hinv hinv' hcurr hon (hres hon) hok.schedClass_ne_stop hclear hw with
      ⟨u, hu⟩ | hr | ho
    · exact hno (h.needResched (hpri u hu))
    · exact hno hr
    · exact hover ho

end Touches

/-! ### The operations of the core -/

/-- A woken task of an earlier class preempts the current one. -/
theorem ClassPriority.of_wakes (hpri : ClassPriority s) (hinv : Inv K s) (hinv' : Inv K s')
    (hp : p ≠ s.idle) (hw : Wakes K s s' p) : ClassPriority s' := by
  by_cases hrank : (s.ctl p).schedClass.rank < (s.ctl s.curr).schedClass.rank
  · intro t _
    rw [hw.curr]
    exact hw.preempts hrank
  · by_cases hcurr : p = s.curr
    · have hon : (s.ctl p).onRq = true := by
        rw [hcurr] at hp ⊢
        exact hinv.curr.resolve_left hp
      exact hw.touches.classPriority_of_same hinv hinv' hon.symm rfl (fun _ => ⟨rfl, rfl⟩) hpri
    · intro t hwait
      rw [hw.curr]
      by_cases ht : t = p
      · have hlt := hwait.rank_lt
        rw [ht, hw.touches.ctl_self, hw.curr, hw.touches.ctl_of_ne (Ne.symm hcurr)] at hlt
        exact absurd hlt hrank
      · rcases hw.touches.waiting_of_ne hinv hinv' hcurr ht hwait with ht | ⟨-, hc, -, hlt⟩
        · exact hw.needResched (hpri t ht)
        · have hc : (s.ctl p).schedClass = .rt := hc
          rw [hc] at hrank
          exact absurd hlt hrank

theorem ClassPriority.of_keeps (hpri : ClassPriority s) (hinv : Inv K s) (hk : Keeps K s s') :
    ClassPriority s' :=
  (hk.touches s.curr).classPriority_of_same hinv (hinv.of_keeps hk) rfl rfl (fun _ => ⟨rfl, rfl⟩) hpri

theorem reschedules_changePolicy (hok : CtlOk (s.ctl p)) {policy : Policy} {prio : ℤ} {reset : Bool}
    (hvalid : validParam (s.ctl p) policy prio = true) (hon : (s.ctl p).onRq = true) :
    Reschedules s (changePolicy K s p policy reset prio) p
      (setschedulerCtl policy prio { s.ctl p with schedResetOnFork := reset }) := by
  obtain ⟨u, hu, heq⟩ := changePolicy_eq (K := K) hok reset hvalid
  rw [heq]
  exact reschedules_checkClassChanged hu.ctl hu.curr hon

theorem reschedules_rtMutexSetprio {prio : ℤ} (hp : p ≠ s.idle) (hprio : 0 ≤ prio)
    (hon : (s.ctl p).onRq = true) :
    Reschedules s (rtMutexSetprio K s p prio) p
      { s.ctl p with schedClass := classFor (s.ctl p).policy prio, prio := prio } := by
  obtain ⟨u, hu, heq⟩ := rtMutexSetprio_eq (K := K) hp hprio
  rw [heq]
  exact reschedules_checkClassChanged hu.ctl hu.curr hon

theorem ClassPriority.of_setscheduler (hpri : ClassPriority s) (hinv : Inv K s)
    (hinv' : Inv K s') (hp : p ≠ s.idle) {caller : Caller} {policy prio : ℤ} {user : Bool}
    (hno : NoOversight K s (.setscheduler caller p policy prio user))
    (hs' : s' = (schedSetscheduler K s caller p policy prio user).2) : ClassPriority s' := by
  rcases schedSetscheduler_cases K s caller p policy prio user with
    ⟨r, -, hres⟩ | ⟨newPolicy, reset, hcheck, hres⟩
  · rw [hs', hres]
    exact hpri
  · obtain ⟨-, hvalid, -, hstop, -⟩ := setschedulerCheck_ok hcheck
    have hok := hinv.ctl p hp hstop
    have hr := rewrites_changePolicy (K := K) hok reset hvalid
    rw [hres] at hs'
    dsimp only at hs'
    rw [← hs'] at hr
    have hover : ¬ Overlooks s p
        (setschedulerCtl newPolicy prio { s.ctl p with schedResetOnFork := reset }) := by
      refine hno.1 (p, _) ?_
      rw [rewritten, hcheck]
      rfl
    refine hr.touches.classPriority_of_change hinv hinv' hp hstop rfl (hok.setscheduler reset hvalid)
      (fun hon => ?_) hover hpri
    rw [hs']
    exact reschedules_changePolicy hok hvalid hon

theorem ClassPriority.of_rtMutexAdjustPrio (hpri : ClassPriority s) (hinv : Inv K s)
    (hp : p ≠ s.idle) (hstop : s.stop ≠ some p) {waiter : Option ℤ}
    (hw : ∀ w ∈ waiter, 0 ≤ w ∧ w < maxPrio)
    (hno : ¬ Overlooks s p (inherited waiter (s.ctl p)))
    (hinv' : Inv K (rtMutexAdjustPrio K s p waiter)) :
    ClassPriority (rtMutexAdjustPrio K s p waiter) := by
  have hok := hinv.ctl p hp hstop
  have hr := rewrites_rtMutexAdjustPrio (K := K) hok hp hw
  by_cases hne : (s.ctl p).prio ≠ rtMutexGetprio { s.ctl p with piTopWaiter := waiter }
  · have hc : inherited waiter (s.ctl p) = { s.ctl p with
        piTopWaiter := waiter
        schedClass := classFor (s.ctl p).policy
          (rtMutexGetprio { s.ctl p with piTopWaiter := waiter })
        prio := rtMutexGetprio { s.ctl p with piTopWaiter := waiter } } := by
      rw [inherited, if_pos hne]
    refine hr.touches.classPriority_of_change hinv hinv' hp hstop (by rw [hc]) (hok.inherited hw)
      (fun hon => ?_) hno hpri
    have hprio : 0 ≤ rtMutexGetprio { s.ctl p with piTopWaiter := waiter } := by
      have := (hok.inherited hw).prio_mem
      rw [hc] at this
      exact this.1
    have hwrite : Rewrites K s (s.modifyCtl p fun c => { c with piTopWaiter := waiter }) p
        fun c => { c with piTopWaiter := waiter } := rewrites_modifyCtl ⟨rfl, rfl, rfl, rfl⟩
    have hres := reschedules_rtMutexSetprio (K := K)
      (s := s.modifyCtl p fun c => { c with piTopWaiter := waiter }) hp hprio
      (by rw [hwrite.ctl_self]; exact hon)
    rw [hwrite.ctl_self] at hres
    rw [hc, rtMutexAdjustPrio_eq, if_pos hne]
    refine hres.congr rfl fun t => ?_
    by_cases ht : t = p
    · rw [ht, hwrite.ctl_self]
      exact ⟨rfl, rfl⟩
    · rw [hwrite.ctl_of_ne ht]
      exact ⟨rfl, rfl⟩
  · have hc : inherited waiter (s.ctl p) = { s.ctl p with piTopWaiter := waiter } := by
      rw [inherited, if_neg hne]
    refine hr.touches.classPriority_of_same hinv hinv' ?_ ?_ ?_ hpri
    · rw [hc]
    · rw [hc]
    · rw [hc]
      exact fun _ => ⟨rfl, rfl⟩

theorem ClassPriority.of_setUserNice (hpri : ClassPriority s) (hinv : Inv K s) (hp : p ≠ s.idle)
    {nice : ℤ} (hinv' : Inv K (setUserNice K s p nice)) : ClassPriority (setUserNice K s p nice) := by
  have hprio : ¬(nice < -20 ∨ 19 < nice) → rtPolicy (s.ctl p).policy = false →
      (s.ctl p).schedClass = .rt →
      0 ≤ (reniced nice (s.ctl p)).prio ∧ (reniced nice (s.ctl p)).prio < maxRtPrio :=
    fun hnice hrt hc => ((hinv.ctlOk (by simp [hc]) (by simp [hc])).reniced hrt hnice).prio_lt hc
  rcases rewrites_setUserNice (K := K) (hinv.schedClass_ne_idle hp) hprio with
    hsame | ⟨hnice, hrt, hr⟩ | ⟨hnice, hrt, hr⟩
  · rwa [hsame]
  · exact hr.touches.classPriority_of_same hinv hinv' rfl rfl (fun _ => ⟨rfl, rfl⟩) hpri
  · refine hr.touches.classPriority_of_same hinv hinv' rfl rfl (fun hc => ?_) hpri
    -- a real-time task without a real-time policy is boosted, before and after
    have hc : (s.ctl p).schedClass = .rt := hc
    have hok := hinv.ctlOk (by simp [hc] : (s.ctl p).schedClass ≠ .idle) (by simp [hc])
    have hlt := (hok.prio_lt hc).2
    have hlt' := (hprio hnice hrt hc).2
    have hok' := hok.reniced hrt hnice
    have hn : ∀ {c : TaskControl}, CtlOk c → rtPolicy c.policy = false → c.prio < maxRtPrio →
        rtTaskBoosted c = true := by
      intro c hc hpol hlt
      have hs := hc.staticPrio_mem.1
      have hnormal : c.normalPrio = c.staticPrio := by rw [hc.normal, normalPrio, hpol]; rfl
      simp only [maxRtPrio] at hlt
      simp only [rtTaskBoosted, decide_eq_true_eq]
      omega
    exact ⟨by rw [hn hok hrt hlt, hn hok' hrt hlt'], rfl⟩

/-- A context switch picks a task of the first class that is not throttled. -/
theorem ClassPriority.of_schedule (hinv : Inv K s) {preempt signalPending : Bool}
    {toWakeup : Option τ} (hs : schedule K s preempt signalPending toWakeup = some s') :
    ClassPriority s' := by
  obtain ⟨m, c, next, s'', -, hd, ⟨F, hF, hmem, -, hpick, hall⟩, hsched, hctl, hcurr, -, -, hrt, -⟩ :=
    schedule_spec hinv preempt signalPending toWakeup
  obtain rfl : s'' = s' := Option.some.inj (hsched.symm.trans hs)
  intro t ⟨hon, hrank, helig⟩
  rw [hctl, hrt] at helig
  rw [hctl] at hon hrank
  rw [hcurr] at hrank
  have hnext : (m.ctl next).schedClass = c := by
    rcases hpick.mem with ⟨rfl, rfl⟩ | ⟨-, hc⟩
    · rw [hd.idle, hd.ctl_idle]
      exact hinv.idle_class
    · exact hc
  rw [hnext] at hrank
  obtain ⟨hc, hthr⟩ := hall _ hrank t ((hmem t).mpr hon) rfl
  exact absurd (helig hc) hthr

/-- A task changes its group without a callback. -/
theorem ClassPriority.of_schedMoveTask (hpri : ClassPriority s) (hinv : Inv K s) (hp : p ≠ s.idle)
    {tg : TaskGroup} (hno : ¬ Overlooks s p { s.ctl p with schedTaskGroup := tg })
    (hinv' : Inv K (schedMoveTask K s p tg)) : ClassPriority (schedMoveTask K s p tg) := by
  have hr : Rewrites K s (schedMoveTask K s p tg) p fun c => { c with schedTaskGroup := tg } :=
    rewrites_schedMoveTask (hinv.schedClass_ne_idle hp) hinv.prio_lt
  by_cases hc : (s.ctl p).schedClass = .rt
  · have hok := hinv.ctlOk (by simp [hc] : (s.ctl p).schedClass ≠ .idle) (by simp [hc])
    have hstop : s.stop ≠ some p := fun hs => by
      rw [hinv.stop_class p hs] at hc
      cases hc
    have hres : Reschedules s (schedMoveTask K s p tg) p { s.ctl p with schedTaskGroup := tg } :=
      ⟨fun _ h h' => absurd h h', fun _ h h' => absurd h h', fun _ h h' => absurd h h',
        fun _ _ _ hne => absurd rfl (hne hc)⟩
    exact hr.touches.classPriority_of_change hinv hinv' hp hstop rfl (hok.congr rfl)
      (fun _ => hres) hno hpri
  · exact hr.touches.classPriority_of_same hinv hinv' rfl rfl (fun h => absurd h hc) hpri

/-- The period timer compares the best priority of the group with that of the current task. -/
theorem ClassPriority.of_rtPeriodTimer (hpri : ClassPriority s) (hinv : Inv K s) {g : RtGroup}
    {overrun : ℕ} (hno : ¬ TimerOverlooks s g overrun) :
    ClassPriority (doSchedRtPeriodTimer K s g overrun).2 := by
  have hrep := replenished K s g overrun
  have hinv' := hinv.of_replenished hrep
  have hctl := hrep.ctl
  intro t ⟨hon, hrank, helig⟩
  rw [hctl] at hon hrank helig
  rw [hrep.curr] at hrank ⊢
  by_cases hwas : (s.ctl t).schedClass = .rt → RtEligible s.rt (s.ctl t)
  · exact hrep.needResched _ (hpri t ⟨hon, hrank, hwas⟩)
  rw [Classical.not_imp] at hwas
  obtain ⟨hc, hthr⟩ := hwas
  obtain ⟨F, hF, hmem⟩ := hinv.holds
  have ht : t ∈ inClass s.ctl F .rt := mem_inClass.mpr ⟨(hmem t).mpr hon, hc⟩
  have hopen := rtEligible_iff.mp (helig hc)
  -- the throttling of a group above the task is lifted, and so it is that of the timer
  have hlift : ∀ k, k <:+ (s.ctl t).schedTaskGroup.rtRq → rtRqThrottled (s.rt.rq k) = true →
      k = g ∧ (doSchedRtPeriodTimer K s g overrun).2.rt.throttled k ≠ s.rt.throttled k := by
    intro k hk hkthr
    have hsame : (doSchedRtPeriodTimer K s g overrun).2.rt.throttled k ≠ s.rt.throttled k := by
      intro heq
      simp only [rtRqThrottled, Bool.and_eq_true, beq_iff_eq] at hkthr
      obtain ⟨b, hb, hboost, hsuf⟩ :=
        (hrep.holds _ hF.rt).exists_boosted_of_flag (heq.trans hkthr.1) (hopen k hk)
      exact hF.rt.boosted_of_mem hb hboost hsuf hkthr.2
    exact ⟨by_contra fun hne => hsame (hrep.throttled k hne), hsame⟩
  obtain ⟨k, hk, hkthr⟩ := not_rtEligible_iff.mp hthr
  obtain ⟨rfl, hflag⟩ := hlift k hk hkthr
  have hrest : ∀ j, j <:+ (s.ctl t).schedTaskGroup.rtRq → j ≠ k →
      rtRqThrottled (s.rt.rq j) = false := fun j hj hne =>
    Bool.eq_false_iff.mpr fun hjthr => hne (hlift j hj hjthr).1
  obtain ⟨htime, hless, hresched⟩ := hrep.lifted.resolve_left hflag
  obtain ⟨hn, -⟩ := hF.rt.above_of_open hk
    (fun j hj hlt => hrest j hj fun he => absurd hlt (by simp [he])) (hF.rt.of_mem ht).1
  by_contra hclear
  have hclear : s.needResched s.curr = false := Bool.eq_false_iff.mpr fun hr =>
    hclear (hrep.needResched _ hr)
  refine hno ⟨hclear, hkthr, fun j hj => hrest j (((List.mem_tails ..).mp hj).trans hk),
    by rwa [hc] at hrank, htime, hless, hn, ?_⟩
  by_contra hlt
  exact absurd (hresched hn (not_le.mp hlt)) (by assumption)

/-- Every step that does not overlook a waiting task keeps the order of the classes. -/
theorem ClassPriority.step (hpri : ClassPriority s) (hinv : Inv K s) {op : Op τ}
    (hen : Enabled s op) (hno : NoOversight K s op) (hx : execOp K s op = some s') :
    ClassPriority s' := by
  have hinv' := (execOp_spec hinv hen hx).1
  cases op with
  | fork child =>
    obtain ⟨-, -, -, -, hoff, hcurr⟩ := hen
    obtain rfl := Option.some.inj hx
    have hr : Rewrites K s (fork K s child) child fun _ => childCtl (s.ctl s.curr) :=
      rewrites_fork hcurr hoff
    refine hr.touches.classPriority_of_off hinv hinv' hcurr ?_ hpri
    simp only [childCtl, forkedCtl]
    split_ifs <;> rfl
  | wakeUpNewTask p =>
    obtain ⟨hp, hoff, hstate⟩ := hen
    obtain rfl := Option.some.inj hx
    exact hpri.of_wakes hinv hinv' hp
      (wakes_wakeUpNewTask hoff hstate (hinv.schedClass_ne_idle hp) hinv.prio_lt)
  | tryToWakeUp p mask flags =>
    obtain rfl := Option.some.inj hx
    by_cases hp : p = s.idle
    · have hsame : (tryToWakeUp K s p mask flags).2 = s := by
        have : (s.task p).state = 0 := hp ▸ hinv.idle_state
        rw [tryToWakeUp, this, Nat.zero_and]
        rfl
      rwa [hsame]
    · rcases wakes_tryToWakeUp (K := K) mask flags (hinv.schedClass_ne_idle hp) hinv.prio_lt with
        ⟨hsame, -⟩ | ⟨-, hw⟩
      · rwa [hsame]
      · exact hpri.of_wakes hinv hinv' hp hw
  | schedule preempt signalPending toWakeup => exact .of_schedule hinv hx
  | schedulerTick =>
    obtain rfl := Option.some.inj hx
    exact hpri.of_keeps hinv (accounts_updateRqClock.keeps.trans keeps_classTaskTick)
  | schedYield =>
    obtain rfl := Option.some.inj hx
    exact hpri.of_keeps hinv keeps_classYieldTask
  | setscheduler caller p policy prio user =>
    exact hpri.of_setscheduler hinv hinv' hen hno (Option.some.inj hx).symm
  | rtMutexAdjustPrio p waiter =>
    obtain ⟨hp, hstop, hw⟩ := hen
    obtain rfl := Option.some.inj hx
    exact hpri.of_rtMutexAdjustPrio hinv hp hstop hw (hno.1 _ rfl) hinv'
  | setUserNice p nice =>
    obtain rfl := Option.some.inj hx
    exact hpri.of_setUserNice hinv hen hinv'
  | schedMoveTask p tg =>
    obtain rfl := Option.some.inj hx
    exact hpri.of_schedMoveTask hinv hen (hno.1 _ rfl) hinv'
  | schedRrGetInterval p =>
    obtain rfl := Option.some.inj hx
    exact hpri.of_keeps hinv accounts_schedRrGetInterval.keeps
  | rtPeriodTimer g overrun =>
    obtain rfl := Option.some.inj hx
    exact hpri.of_rtPeriodTimer hinv (hno.2 _ rfl)
  | setCurrentState state =>
    obtain rfl := Option.some.inj hx
    have hr : Rewrites K s (s.modifyCtl s.curr fun p => { p with state := state }) s.curr
        fun p => { p with state := state } := rewrites_modifyCtl ⟨rfl, rfl, rfl, rfl⟩
    exact hr.touches.classPriority_of_same hinv hinv' rfl rfl (fun _ => ⟨rfl, rfl⟩) hpri
  | writeTrace p wcounts traceFlag =>
    obtain rfl := Option.some.inj hx
    have hk : Keeps K s (s.modifyTask p fun p =>
        { p with wcounts := wcounts, traceFlag := traceFlag }) :=
      (accounts_modifyTask fun _ => by rfl).keeps
    exact hpri.of_keeps hinv hk

/-- In every state of every run whose steps do not overlook a waiting task, the current task is
marked to be rescheduled while a queued task of an earlier class waits. -/
theorem class_priority_of_no_oversight
    (h : Reachable ((system K).restrict fun s e => NoOversight K s e.op) s) : ClassPriority s := by
  refine h.invariant (fun s (hs : Boot K s) t ht => ?_) fun s e s' hreach hpri hstep => ?_
  · have hon := ht.onRq
    rw [Rq.ctl, hs.onRq] at hon
    cases hon
  · obtain ⟨hno, hstep⟩ := hstep
    obtain ⟨hen, hx, hinv⟩ := step_inv (reachable_inv hreach.of_restrict) hstep
    have hpri' : ClassPriority (atTime s e.now) :=
      hpri.of_keeps (reachable_inv hreach.of_restrict) accounts_atTime.keeps
    have hsame : rewritten K (atTime s e.now) e.op = rewritten K s e.op := by cases e.op <;> rfl
    exact hpri'.step hinv hen ⟨hsame ▸ hno.1, hno.2⟩ hx

/-- A RAS task runs when a real-time task is woken. -/
def wokenRt : List (Op ℕ) :=
  [setschedulerNocheck 1 6 0, .wakeUpNewTask 1, reschedule, setschedulerNocheck 2 1 50,
    .wakeUpNewTask 2]

theorem class_priority_of_no_oversight_wokenRt :
    ∃ s, referenceRunOk (fun s e => NoOversight (referenceKernel ℕ) s e.op) wokenRt = some s ∧
      Waiting s 2 ∧ ClassPriority s := by
  have hrun : referenceRunOk (fun s e => NoOversight (referenceKernel ℕ) s e.op) wokenRt =
      some ((referenceRunOk (fun s e => NoOversight (referenceKernel ℕ) s e.op) wokenRt).get
        (by decide +kernel)) := by simp
  exact ⟨_, hrun, ⟨by decide +kernel, by decide +kernel, by decide +kernel⟩,
    class_priority_of_no_oversight (reachable_referenceRunOk hrun)⟩

/-- Of two real-time tasks the one that runs becomes a RAS task. -/
def demotedCurr : List (Op ℕ) :=
  [.wakeUpNewTask 1, reschedule, setschedulerNocheck 1 1 50, setschedulerNocheck 2 1 50,
    .wakeUpNewTask 2, setschedulerNocheck 1 6 0]

/-- The other real-time task waits, and no reschedule is due. -/
theorem not_class_priority :
    ¬ ∀ s, Reachable (system (referenceKernel ℕ)) s → ClassPriority s := by
  intro h
  have hrun : referenceRun demotedCurr = some ((referenceRun demotedCurr).get (by decide +kernel)) :=
    by simp
  have hresched := h _ (reachable_referenceRun hrun) 2
    ⟨by decide +kernel, by decide +kernel, by decide +kernel⟩
  revert hresched
  decide +kernel

end OsProject.Sched
