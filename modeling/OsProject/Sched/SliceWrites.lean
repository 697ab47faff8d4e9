import OsProject.Sched.Fifo
import OsProject.Sched.Interval
import OsProject.Sched.SliceRule

/-!
# How long slices last

A slice is granted when its task is queued in the RAS class, when it expires, and when its task is
queried; the ticks of its task count it down. All other parts of the scheduler leave it alone, so
that it lasts as many ticks of its task as it was granted.

## Main definitions

* `GrantsOnly` — an operation writes slices only by granting them, and only to some tasks.
* `ChargedTick` — a tick counts the slice of a task down.
* `MayGrant` — a step may grant a task a slice.

## Main results

* `sliceStep_execOp` — what the steps of the scheduler do to the slices.
* `slices_last_as_granted` — slices are within their bounds, and expire at the tick they are due.

Source: `kernel/sched/ras.c`, `kernel/sched/core.c`.
-/

namespace OsProject.Sched

open Intrusive Transition

variable {τ Q : Type*}

/-- The slices of all tasks. -/
def Rq.slices (s : Rq τ Q) (t : τ) : UInt32 := (s.task t).ras.timeSlice

variable [DecidableEq τ] {K : Kernel τ Q} {s s' s'' : Rq τ Q} {p t : τ}

/-! ### Functions that leave the slices alone -/

section Unchanged

omit [DecidableEq τ] in
/-- An operation that neither reads nor writes weights and slices. -/
theorem slices_of_withSlices {f : Rq τ Q → Rq τ Q}
    (hf : ∀ s r, f (s.withSlices r) = (f s).withSlices r) (s : Rq τ Q) :
    (f s).slices = s.slices := by
  have hself := hf s fun t => ((s.task t).ras.weight, (s.task t).ras.timeSlice)
  rw [withSlices_self] at hself
  rw [hself]
  rfl

theorem slices_modifyTask {f : TaskStruct → TaskStruct} :
    (s.modifyTask p f).slices = Function.update s.slices p (f (s.task p)).ras.timeSlice := by
  funext t
  by_cases ht : t = p
  · subst ht
    simp [Rq.slices, Rq.modifyTask]
  · simp [Rq.slices, Rq.modifyTask, ht]

theorem slices_modifyCtl (f : TaskControl → TaskControl) : (s.modifyCtl p f).slices = s.slices :=
  slices_of_withSlices (f := fun s => s.modifyCtl p f) (fun _ _ => modifyCtl_withSlices f) s

theorem slices_updateWeight : (updateWeight s p).slices = s.slices := by
  have hself : s.slices p = (s.task p).ras.timeSlice := rfl
  rw [updateWeight, slices_modifyTask]
  dsimp only
  rw [← hself, Function.update_eq_self]

theorem slices_applyEffect (e : ForeignEffect Q) : (s.applyEffect e).slices = s.slices :=
  slices_of_withSlices (f := fun s => s.applyEffect e) (fun _ _ => applyEffect_withSlices e) s

theorem slices_checkPreemptCurr {flags : ℕ} : (checkPreemptCurr K s p flags).slices = s.slices := by
  have hweights : (updateWeight (updateWeight s p) s.curr).slices = s.slices :=
    slices_updateWeight.trans slices_updateWeight
  have hras : (checkPreemptCurrRas s p).slices = s.slices := by
    rw [checkPreemptCurrRas]
    split <;> exact hweights
  have hpreempt : (preemptCurr K s p flags).slices = s.slices := by
    rw [preemptCurr]
    split
    · rw [classCheckPreemptCurr]
      split
      · exact slices_of_withSlices (f := fun s => checkPreemptCurrRt s p)
          (fun _ _ => checkPreemptCurrRt_withSlices) s
      · exact hras
      · exact slices_applyEffect _
    · split <;> rfl
  rw [checkPreemptCurr]
  split <;> exact hpreempt

/-- A tick counts the slice down. -/
theorem slices_countTick : (countTick K s p).slices =
    Function.update s.slices p (s.slices p - 1) := by
  have hcurr : (updateCurrRas s).slices = s.slices :=
    slices_of_withSlices (fun _ _ => updateCurrRas_withSlices) s
  have hwatch : ((updateCurrRas s).modifyTask p (watchdogRas K.hz)).slices = s.slices := by
    rw [slices_modifyTask, watchdogRas_timeSlice, ← hcurr]
    exact Function.update_eq_self p _
  have hslice : (((updateCurrRas s).modifyTask p (watchdogRas K.hz)).task p).ras.timeSlice =
      s.slices p := congrFun hwatch p
  rw [countTick, slices_modifyTask, hwatch]
  dsimp only
  rw [hslice]

/-- A tick of a RAS task, before the task expires. -/
theorem slices_taskTickRas (hleft : (s.task p).ras.timeSlice - 1 ≠ 0) :
    (taskTickRas K s p).slices = Function.update s.slices p (s.slices p - 1) := by
  rw [taskTickRas_eq, if_pos hleft, slices_countTick]

/-- A tick at which a RAS task expires. -/
theorem slices_taskTickRas_expired (hleft : (s.task p).ras.timeSlice - 1 = 0) :
    (taskTickRas K s p).slices = Function.update s.slices p (rasSlice K.hz (s.task p)) := by
  have hgrant : ((countTick K s p).modifyTask p (grantSlice K.hz)).slices =
      Function.update s.slices p (rasSlice K.hz (s.task p)) := by
    rw [slices_modifyTask, slices_countTick, Function.update_idem, grantSlice]
    dsimp only
    rw [countTick_rasSlice]
  rw [taskTickRas_eq, if_neg (not_not.mpr hleft), ← hgrant]
  split
  · exact slices_of_withSlices (f := fun s => (requeueTaskRas s p).reschedTask p)
      (fun _ _ => by rw [requeueTaskRas_withSlices, reschedTask_withSlices]) _
  · rfl

end Unchanged

/-! ### Operations that grant slices -/

/-- What an operation does to the slices of the tasks that are queued in the RAS class after it: a
task keeps its slice, or is one of `G` and is granted one. -/
def GrantsOnly (K : Kernel τ Q) (G : τ → Prop) (s s' : Rq τ Q) : Prop :=
  ∀ t, Granted s' t →
    (Granted s t ∧ s'.slices t = s.slices t) ∨ (G t ∧ ∃ p, s'.slices t = rasSlice K.hz p)

namespace GrantsOnly

variable {G H : τ → Prop}

theorem refl (K : Kernel τ Q) (G : τ → Prop) (s : Rq τ Q) : GrantsOnly K G s s :=
  fun _ ht => .inl ⟨ht, rfl⟩

theorem trans (h : GrantsOnly K G s s') (h' : GrantsOnly K G s' s'') : GrantsOnly K G s s'' := by
  intro t ht
  rcases h' t ht with ⟨ht', hs⟩ | hgrant
  · rw [hs]
    exact h t ht'
  · exact .inr hgrant

theorem mono (h : GrantsOnly K G s s') (hGH : ∀ t, G t → H t) : GrantsOnly K H s s' :=
  fun t ht => (h t ht).imp_right fun hG => ⟨hGH t hG.1, hG.2⟩

/-- An operation that leaves the slices alone and queues no RAS task. -/
theorem of_slices (hslices : s'.slices = s.slices) (hgranted : ∀ t, Granted s' t → Granted s t) :
    GrantsOnly K G s s' :=
  fun t ht => .inl ⟨hgranted t ht, congrFun hslices t⟩

/-- An operation that leaves slices and control fields alone. -/
theorem of_ctl (hslices : s'.slices = s.slices) (hctl : s'.ctl = s.ctl) : GrantsOnly K G s s' :=
  of_slices hslices fun t => Granted.of_ctl (congrFun hctl t)

theorem modifyCtl {f : TaskControl → TaskControl}
    (hon : (f (s.ctl p)).onRq = true → (s.ctl p).onRq = true)
    (hclass : (f (s.ctl p)).schedClass = (s.ctl p).schedClass) :
    GrantsOnly K G s (s.modifyCtl p f) :=
  of_slices (slices_modifyCtl f) fun _ => Granted.of_modifyCtl hon hclass

/-- An enqueue grants a slice to a task that is queued in the RAS class. -/
theorem enqueueTask (flags : EnqueueFlags) : (∀ t, t ≠ p →
      (Sched.enqueueTask K s p flags).slices t = s.slices t) ∧
    ((s.ctl p).schedClass = .ras → ∃ q, (Sched.enqueueTask K s p flags).slices p =
      rasSlice K.hz q) := by
  have hclock : (updateRqClock s).slices = s.slices :=
    slices_of_withSlices (fun _ _ => updateRqClock_withSlices) s
  have hclass : (s.ctl p).schedClass = ((updateRqClock s).task p).schedClass := by
    rw [updateRqClock_task]
    rfl
  rw [Sched.enqueueTask, hclass]
  cases ((updateRqClock s).task p).schedClass with
  | rt =>
    have hrt := slices_of_withSlices (f := fun s => enqueueTaskRt s p flags)
      (fun _ _ => enqueueTaskRt_withSlices flags) (updateRqClock s)
    exact ⟨fun t _ => congrFun (hrt.trans hclock) t, fun hras => by cases hras⟩
  | ras =>
    refine ⟨fun t ht => ?_, fun _ => ⟨_, enqueueTaskRas_timeSlice K _ p flags⟩⟩
    rw [← hclock, enqueueTaskRas]
    simp [Rq.slices, Rq.modifyTask, ht]
  | stop | fair | idle =>
    exact ⟨fun t _ => congrFun hclock t, fun hras => by cases hras⟩

/-- Queueing a task that is not queued. -/
theorem ttwuActivate (flags : EnqueueFlags) (hoff : (s.task p).onRq = false) :
    GrantsOnly K (fun t => t = p ∧ ¬Granted s t) s (Sched.ttwuActivate K s p flags) := by
  obtain ⟨hother, hself⟩ := GrantsOnly.enqueueTask (K := K) (s := s) (p := p) flags
  have hmark : (Sched.ttwuActivate K s p flags).slices = (Sched.enqueueTask K s p flags).slices :=
    slices_modifyCtl _
  have hctl : (Sched.ttwuActivate K s p flags).ctl =
      Function.update s.ctl p { s.ctl p with onRq := true } := by
    rw [Sched.ttwuActivate, ctl_modifyCtl, activateTask, enqueueTask_ctl]
  intro t ht
  rw [hmark]
  by_cases htp : t = p
  · subst htp
    have hras := ht.2
    rw [hctl, Function.update_self] at hras
    exact .inr ⟨⟨rfl, fun hgranted => by cases hoff.symm.trans hgranted.1⟩, hself hras⟩
  · exact .inl ⟨ht.of_ctl (by rw [hctl, Function.update_of_ne htp]), hother t htp⟩

theorem checkPreemptCurr {flags : ℕ} : GrantsOnly K G s (Sched.checkPreemptCurr K s p flags) :=
  of_ctl slices_checkPreemptCurr (accounts_checkPreemptCurr (K := K)).ctl

theorem ttwuDoWakeup {flags : ℕ} : GrantsOnly K G s (Sched.ttwuDoWakeup K s p flags) :=
  checkPreemptCurr.trans (modifyCtl id rfl)

/-- Only a task that is not queued is queued when it wakes up. -/
theorem tryToWakeUp {mask flags : ℕ} :
    GrantsOnly K (fun t => t = p ∧ ¬Granted s t) s (Sched.tryToWakeUp K s p mask flags).2 := by
  rw [Sched.tryToWakeUp]
  split_ifs with hstate hon
  · exact refl K _ s
  · exact ttwuDoWakeup
  · exact (ttwuActivate _ (Bool.eq_false_iff.mpr hon)).trans ttwuDoWakeup

theorem tryToWakeUpLocal :
    GrantsOnly K (fun t => t ≠ s.curr ∧ ¬Granted s t) s (Sched.tryToWakeUpLocal K s p) := by
  rw [Sched.tryToWakeUpLocal]
  split_ifs with hcurr hstate hoff
  · exact refl K _ s
  · exact refl K _ s
  · have hqueued : GrantsOnly K (fun t => t ≠ s.curr ∧ ¬Granted s t) s
        (Sched.ttwuActivate K s p enqueueWakeup) :=
      (ttwuActivate _ (by simpa using hoff)).mono fun t ht => ⟨ht.1 ▸ hcurr, ht.2⟩
    exact hqueued.trans ttwuDoWakeup
  · exact ttwuDoWakeup

theorem wakeUpNewTask (hoff : (s.task p).onRq = false) :
    GrantsOnly K (fun t => t = p ∧ ¬Granted s t) s (Sched.wakeUpNewTask K s p) :=
  (ttwuActivate {} hoff).trans checkPreemptCurr

/-- A task is queued again after a change. -/
theorem withTaskOffRq {running : Bool} {change : Rq τ Q → Rq τ Q} {flags : EnqueueFlags}
    {f : TaskControl → TaskControl}
    (hchange : ∀ s r, change (s.withSlices r) = (change s).withSlices r)
    (hctl : ∀ s, (change s).ctl = (s.modifyCtl p f).ctl)
    (hon : ∀ c, (f c).onRq = c.onRq) :
    GrantsOnly K (fun t => t = p ∧ (s.task t).onRq = true) s
      (Sched.withTaskOffRq K s p running change flags) := by
  obtain ⟨changed, hchanged, hself, hend⟩ :=
    exists_changed_withSlices (K := K) running flags hchange hctl
  have hslices : (changed s).slices = s.slices := slices_of_withSlices hchanged s
  obtain ⟨hother, hqueued⟩ := GrantsOnly.enqueueTask (K := K) (s := changed s) (p := p)
    flags
  rw [hend]
  intro t ht
  by_cases htp : t = p
  · subst htp
    split at ht
    · next hon' =>
      rw [Granted, enqueueTask_ctl] at ht
      rw [if_pos hon']
      exact .inr ⟨⟨rfl, hon'⟩, hqueued ht.2⟩
    · next hoff =>
      have honRq := ht.1
      rw [hself, Function.update_self, hon] at honRq
      exact absurd honRq hoff
  · have hctl' : (changed s).ctl t = s.ctl t := by rw [hself, Function.update_of_ne htp]
    split at ht
    · next hon' =>
      rw [if_pos hon', hother t htp, hslices]
      exact .inl ⟨ht.of_ctl (by rw [enqueueTask_ctl, hctl']), rfl⟩
    · next hoff =>
      rw [if_neg hoff, hslices]
      exact .inl ⟨ht.of_ctl hctl', rfl⟩

/-! ### Context switches and changes -/

theorem schedulePrev {preempt signalPending : Bool} {toWakeup : Option τ} :
    GrantsOnly K (fun t => ¬Granted s t) s
      (Sched.schedulePrev K s preempt signalPending toWakeup) := by
  rw [Sched.schedulePrev]
  dsimp only
  split_ifs
  · exact modifyCtl id rfl
  · obtain ⟨d, hd⟩ : ∃ d, d = (deactivateTask K s s.curr true).modifyCtl s.curr fun p =>
        { p with onRq := false } := ⟨_, rfl⟩
    have hctl : d.ctl = Function.update s.ctl s.curr { s.ctl s.curr with onRq := false } := by
      rw [hd, ctl_modifyCtl, deactivateTask, dequeueTask_holds.ctl]
    have hcurr : d.curr = s.curr := by
      rw [hd]
      exact dequeueTask_holds.curr
    have hslices : d.slices = s.slices := by
      have hdeq : (deactivateTask K s s.curr true).slices = s.slices :=
        slices_of_withSlices (f := fun u => dequeueTask K u s.curr true)
          (fun _ _ => dequeueTask_withSlices true) s
      rw [hd, slices_modifyCtl, hdeq]
    have hoff : GrantsOnly K (fun t => ¬Granted s t) s d := by
      refine of_slices hslices fun t ht => ?_
      by_cases htc : t = s.curr
      · rw [htc, Granted, hctl, Function.update_self] at ht
        cases ht.1
      · exact ht.of_ctl (by rw [hctl, Function.update_of_ne htc])
    rw [← hd]
    cases toWakeup with
    | none => exact hoff
    | some w =>
      refine hoff.trans (tryToWakeUpLocal.mono fun t ht hgranted => ht.2 ?_)
      rw [hcurr] at ht
      exact hgranted.of_ctl (by rw [hctl, Function.update_of_ne ht.1])
  · exact refl K _ s

theorem schedule {preempt signalPending : Bool} {toWakeup : Option τ}
    (hs : Sched.schedule K s preempt signalPending toWakeup = some s') :
    GrantsOnly K (fun t => ¬Granted s t) s s' := by
  have hput (s : Rq τ Q) (p : τ) (G : τ → Prop) : GrantsOnly K G s (Sched.putPrevTask K s p) := by
    refine of_ctl ?_ keeps_putPrevTask.ctl
    refine slices_of_withSlices (f := fun s => Sched.putPrevTask K s p) (fun s r => ?_) s
    rw [Sched.putPrevTask, Sched.putPrevTask, ← classPutPrevTask_withSlices, withSlices_ite,
      ← updateRqClock_withSlices]
    rfl
  have hpick (s : Rq τ Q) (G : τ → Prop) : GrantsOnly K G s (pickNextTask K s).2 :=
    of_ctl (slices_of_withSlices (f := fun s => (pickNextTask K s).2)
      (fun _ _ => by rw [pickNextTask_withSlices]) s) accounts_pickNextTask.ctl
  rw [Sched.schedule] at hs
  dsimp only at hs
  split at hs
  · next next u heq =>
    have hu : GrantsOnly K (fun t => ¬Granted s t) s u := by
      have hp := hpick
        (Sched.putPrevTask K (Sched.schedulePrev K s preempt signalPending toWakeup) s.curr)
        fun t => ¬Granted s t
      rw [heq] at hp
      exact (schedulePrev.trans (hput _ _ _)).trans hp
    obtain rfl := Option.some.inj hs
    refine hu.trans (of_ctl ?_ ?_) <;> split <;> rfl
  · cases hs

theorem checkClassChanged {prevClass : SchedClass} {oldprio : ℤ} :
    GrantsOnly K G s (Sched.checkClassChanged K s p prevClass oldprio) :=
  of_ctl (slices_of_withSlices (f := fun s => Sched.checkClassChanged K s p prevClass oldprio)
    (fun _ _ => checkClassChanged_withSlices prevClass oldprio) s) accounts_checkClassChanged.ctl

theorem changePolicy {policy : Policy} {reset : Bool} {prio : ℤ} :
    GrantsOnly K (fun t => t = p ∧ (s.task t).onRq = true) s
      (Sched.changePolicy K s p policy reset prio) :=
  (withTaskOffRq (f := fun c => setschedulerCtl policy prio { c with schedResetOnFork := reset })
    (fun _ _ => modifyCtl_withSlices _) (fun _ => rfl) fun _ => rfl).trans checkClassChanged

theorem rtMutexSetprio {prio : ℤ} :
    GrantsOnly K (fun t => t = p ∧ (s.task t).onRq = true) s
      (Sched.rtMutexSetprio K s p prio) := by
  rw [Sched.rtMutexSetprio]
  split
  · exact refl K _ s
  · exact (withTaskOffRq
      (f := fun c => { c with schedClass := classFor c.policy prio, prio := prio })
      (fun _ _ => modifyCtl_withSlices _) (fun _ => rfl) fun _ => rfl).trans checkClassChanged

end GrantsOnly

/-! ### Steps -/

/-- The tasks that a step may grant a slice, but for a tick: those that it queues, and the one that
is queried. -/
def MayGrant (K : Kernel τ Q) (s : Rq τ Q) (op : Op τ) (t : τ) : Prop :=
  ¬Granted s t ∨ TakesOff K s op t ∨ op = .schedRrGetInterval t

theorem grantsOnly_execOp (h : Inv K s) {op : Op τ} (he : Enabled s op) (hx : execOp K s op = some s')
    (htick : op ≠ .schedulerTick) : GrantsOnly K (MayGrant K s op) s s' := by
  cases op with
  | fork child =>
    obtain ⟨-, -, -, -, hoff, hcurr⟩ := he
    obtain rfl := Option.some.inj hx
    intro t ht
    obtain ⟨hne, hgranted⟩ := ht.of_fork hcurr hoff
    exact .inl ⟨hgranted, fork_timeSlice hne⟩
  | wakeUpNewTask p =>
    obtain ⟨-, hoff, -⟩ := he
    obtain rfl := Option.some.inj hx
    exact (GrantsOnly.wakeUpNewTask hoff).mono fun _ ht => .inl ht.2
  | tryToWakeUp p mask flags =>
    obtain rfl := Option.some.inj hx
    exact GrantsOnly.tryToWakeUp.mono fun _ ht => .inl ht.2
  | schedule preempt signalPending toWakeup => exact (GrantsOnly.schedule hx).mono fun _ => .inl
  | schedulerTick => exact absurd rfl htick
  | schedYield =>
    obtain rfl := Option.some.inj hx
    exact .of_ctl (slices_of_withSlices (fun _ _ => classYieldTask_withSlices) s)
      (keeps_classYieldTask (K := K)).ctl
  | setscheduler caller p policy prio user =>
    obtain rfl := Option.some.inj hx
    rcases schedSetscheduler_cases K s caller p policy prio user with
      ⟨r, -, hres⟩ | ⟨newPolicy, reset, hcheck, hres⟩
    · rw [hres]
      exact .refl K _ s
    · rw [hres]
      refine GrantsOnly.changePolicy.mono fun t ht => .inr (.inl ⟨ht.1, ht.2, ?_⟩)
      rw [ht.1, hcheck]
      rfl
  | rtMutexAdjustPrio p waiter =>
    obtain rfl := Option.some.inj hx
    have hwrite : GrantsOnly K (MayGrant K s (.rtMutexAdjustPrio p waiter)) s
        (s.modifyCtl p fun c => { c with piTopWaiter := waiter }) := .modifyCtl id rfl
    show GrantsOnly K _ s (rtMutexAdjustPrio K s p waiter)
    rw [rtMutexAdjustPrio_eq]
    split
    · next hne =>
      refine hwrite.trans (GrantsOnly.rtMutexSetprio.mono fun t ht => .inr (.inl ?_))
      obtain ⟨rfl, hon⟩ := ht
      have hon' : ((s.modifyCtl t fun c => { c with piTopWaiter := waiter }).ctl t).onRq = true := hon
      rw [ctl_modifyCtl, Function.update_self] at hon'
      exact ⟨rfl, hon', hne⟩
    · exact hwrite
  | setUserNice p nice =>
    obtain rfl := Option.some.inj hx
    show GrantsOnly K _ s (setUserNice K s p nice)
    rw [setUserNice]
    split
    · exact .refl K _ s
    · next hnice =>
      split
      · exact .modifyCtl id rfl
      · next hrt =>
        have hoff : GrantsOnly K (MayGrant K s (.setUserNice p nice)) s
            (withTaskOffRq K s p false (fun s => s.modifyCtl p (reniced nice)) {}) := by
          refine (GrantsOnly.withTaskOffRq (f := reniced nice) (fun _ _ => modifyCtl_withSlices _)
            (fun _ => rfl) fun _ => rfl).mono fun t ht => .inr (.inl ?_)
          obtain ⟨rfl, hon⟩ := ht
          exact ⟨rfl, hon, by simpa using hrt, hnice⟩
        dsimp only
        split
        · exact hoff.trans (.of_ctl rfl rfl)
        · exact hoff
  | schedMoveTask p tg =>
    obtain rfl := Option.some.inj hx
    refine (GrantsOnly.withTaskOffRq (f := fun c => { c with schedTaskGroup := tg }) (fun s r => ?_)
      (fun s => accounts_classTaskMoveGroup.ctl) fun _ => rfl).mono fun t ht => .inr (.inl ht)
    rw [modifyCtl_withSlices, classTaskMoveGroup_withSlices]
  | schedRrGetInterval p =>
    obtain rfl := Option.some.inj hx
    have hctl : (schedRrGetInterval K s p).2.ctl = s.ctl := accounts_schedRrGetInterval.ctl
    intro t ht
    have hgranted : Granted s t := ht.of_ctl (congrFun hctl t)
    rw [schedRrGetInterval]
    cases hclass : (s.task p).schedClass with
    | ras =>
      dsimp only
      rw [getRrIntervalRas_eq, slices_modifyTask]
      by_cases htp : t = p
      · subst htp
        exact .inr ⟨.inr (.inr rfl), s.task t, Function.update_self ..⟩
      · exact .inl ⟨hgranted, Function.update_of_ne htp ..⟩
    | rt | stop | fair | idle => exact .inl ⟨hgranted, rfl⟩
  | rtPeriodTimer g overrun =>
    obtain rfl := Option.some.inj hx
    exact .of_ctl (slices_of_withSlices (f := fun s => (doSchedRtPeriodTimer K s g overrun).2)
      (fun _ _ => doSchedRtPeriodTimer_withSlices g overrun) s) (h.of_rtPeriodTimer g overrun).2.1
  | setCurrentState state =>
    obtain rfl := Option.some.inj hx
    exact .modifyCtl id rfl
  | writeTrace p wcounts traceFlag =>
    obtain rfl := Option.some.inj hx
    refine .of_ctl ?_ (ctl_modifyTask s p _ rfl)
    rw [slices_modifyTask]
    exact Function.update_eq_self p s.slices

/-! ### Ticks -/

omit [DecidableEq τ] in
/-- A tick is charged to a task when the task runs in the RAS class. -/
def ChargedTick (s : Rq τ Q) : Op τ → τ → Prop
  | .schedulerTick, t => s.curr = t ∧ (s.task t).schedClass = .ras
  | _, _ => False

instance (s : Rq τ Q) (op : Op τ) (t : τ) : Decidable (ChargedTick s op t) :=
  match op with
  | .schedulerTick => inferInstanceAs (Decidable (_ ∧ _))
  | .fork _ | .wakeUpNewTask _ | .tryToWakeUp _ _ _ | .schedule _ _ _ | .schedYield
  | .setscheduler _ _ _ _ _ | .rtMutexAdjustPrio _ _ | .setUserNice _ _ | .schedMoveTask _ _
  | .schedRrGetInterval _ | .rtPeriodTimer _ _ | .setCurrentState _ | .writeTrace _ _ _ =>
    .isFalse id

omit [DecidableEq τ] in
/-- The tick at which the slice of the running task is used up is the one at which it expires. -/
theorem ChargedTick.expires_iff {op : Op τ} (h : ChargedTick s op t) :
    expires s op = some t ↔ s.slices t - 1 = 0 := by
  cases op with
  | schedulerTick =>
    obtain ⟨rfl, hc⟩ := h
    rw [expires, Rq.slices]
    simp [hc]
  | _ => exact h.elim

/-- A task that a tick is charged to is queued. -/
theorem ChargedTick.granted {op : Op τ} (h : ChargedTick s op t) (hinv : Inv K s) : Granted s t := by
  cases op with
  | schedulerTick =>
    obtain ⟨rfl, hc⟩ := h
    refine ⟨hinv.curr.resolve_left fun hidle => ?_, hc⟩
    have hclass := hinv.idle_class
    rw [← hidle] at hclass
    cases hc.symm.trans hclass
  | _ => exact h.elim

/-- What a step does to the slice of a task that is queued in the RAS class after it. -/
inductive SliceStep (K : Kernel τ Q) (s : Rq τ Q) (op : Op τ) (t : τ) : UInt32 → Prop
  | kept (h : Granted s t) (hc : ¬ChargedTick s op t) : SliceStep K s op t (s.slices t)
  | counted (h : Granted s t) (hc : ChargedTick s op t) (hx : expires s op ≠ some t) :
      SliceStep K s op t (s.slices t - 1)
  | granted (p : TaskStruct) (h : MayGrant K s op t ∨ expires s op = some t) :
      SliceStep K s op t (rasSlice K.hz p)

/-- A tick counts down or renews the slice of the running task. -/
theorem sliceStep_schedulerTick (hgranted : Granted (schedulerTick K s) t) :
    SliceStep K s .schedulerTick t ((schedulerTick K s).slices t) := by
  have hk : Keeps K s (schedulerTick K s) := accounts_updateRqClock.keeps.trans keeps_classTaskTick
  have hclock : (updateRqClock s).slices = s.slices :=
    slices_of_withSlices (fun _ _ => updateRqClock_withSlices) s
  have ht : Granted s t := hgranted.of_ctl (congrFun hk.ctl t)
  have htick : (schedulerTick K s).slices = (classTaskTick K (updateRqClock s)).slices := rfl
  rw [htick, classTaskTick, updateRqClock_curr, updateRqClock_task]
  cases hc : (s.task s.curr).schedClass with
  | ras =>
    have hcharged (htc : t = s.curr) : ChargedTick s .schedulerTick t := ⟨htc.symm, htc ▸ hc⟩
    have hother (htc : t ≠ s.curr) : SliceStep K s .schedulerTick t (s.slices t) :=
      .kept ht fun hcharge => htc hcharge.1.symm
    by_cases hleft : (s.task s.curr).ras.timeSlice - 1 = 0
    · dsimp only
      rw [slices_taskTickRas_expired (by rwa [updateRqClock_task]), updateRqClock_task, hclock]
      by_cases htc : t = s.curr
      · subst htc
        rw [Function.update_self]
        exact .granted _ (.inr ((hcharged rfl).expires_iff.mpr hleft))
      · rw [Function.update_of_ne htc]
        exact hother htc
    · dsimp only
      rw [slices_taskTickRas (by rwa [updateRqClock_task]), hclock]
      by_cases htc : t = s.curr
      · subst htc
        rw [Function.update_self]
        exact .counted ht (hcharged rfl) (mt (hcharged rfl).expires_iff.mp hleft)
      · rw [Function.update_of_ne htc]
        exact hother htc
  | rt | stop | fair | idle =>
    have hnot : ¬ChargedTick s .schedulerTick t := fun hcharge => by
      have hras := hcharge.2
      rw [← hcharge.1, hc] at hras
      cases hras
    have hslices : ∀ u : Rq τ Q, u.slices = s.slices → SliceStep K s .schedulerTick t (u.slices t) :=
      fun u hu => by
        rw [hu]
        exact .kept ht hnot
    refine hslices _ (Eq.trans ?_ hclock)
    first
      | exact slices_applyEffect _
      | exact slices_of_withSlices (f := fun u => taskTickRt K u s.curr)
          (fun _ _ => taskTickRt_withSlices) _

theorem sliceStep_execOp (h : Inv K s) {op : Op τ} (he : Enabled s op)
    (hx : execOp K s op = some s') (ht : Granted s' t) : SliceStep K s op t (s'.slices t) := by
  by_cases htick : op = .schedulerTick
  · subst htick
    obtain rfl := Option.some.inj hx
    exact sliceStep_schedulerTick ht
  · rcases grantsOnly_execOp h he hx htick t ht with ⟨hgranted, hs⟩ | ⟨hmay, p, hs⟩
    · rw [hs]
      refine .kept hgranted fun hcharge => ?_
      cases op with
      | schedulerTick => exact htick rfl
      | _ => exact hcharge.elim
    · rw [hs]
      exact .granted p (.inl hmay)

/-! ### Runs -/

/-- The slices of the queued RAS tasks are within the bounds. -/
def SlicesOk (K : Kernel τ Q) (s : Rq τ Q) : Prop :=
  ∀ t, Granted s t → 1 ≤ (s.slices t).toNat ∧
    (s.slices t).toNat ≤ rasFgTimeslice K.hz + 10 * rasIncTime K.hz

/-- Taking one from a slice that has a tick does not wrap. -/
theorem toNat_sub_one {x : UInt32} (hx : 1 ≤ x.toNat) : (x - 1).toNat + 1 = x.toNat := by
  rw [UInt32.toNat_sub_of_le x 1 (UInt32.le_iff_toNat_le.mpr hx), UInt32.toNat_one]
  omega

theorem SlicesOk.execOp (hok : SlicesOk K s) (h : Inv K s) {op : Op τ} (he : Enabled s op)
    (hx : execOp K s op = some s') : SlicesOk K s' := by
  intro t ht
  generalize hu : s'.slices t = u
  have hstep := sliceStep_execOp h he hx ht
  rw [hu] at hstep
  cases hstep with
  | kept hgranted _ => exact hok t hgranted
  | counted hgranted hc hexp =>
    obtain ⟨hone, hle⟩ := hok t hgranted
    have hsub := toNat_sub_one hone
    have hne : (s.slices t - 1).toNat ≠ 0 := fun h0 =>
      hexp (hc.expires_iff.mpr (UInt32.toNat_inj.mp h0))
    omega
  | granted p _ => exact rasSlice_bounds K p

theorem reachable_slicesOk (h : Reachable (system K) s) : SlicesOk K s := by
  refine h.invariant (fun s hboot t ht => ?_) fun s e s' hs hok hstep => ?_
  · cases (hboot.onRq t).symm.trans ht.1
  · obtain ⟨he, hx, hinv⟩ := step_inv (reachable_inv hs) hstep
    exact SlicesOk.execOp (s := atTime s e.now) hok hinv he hx

omit [DecidableEq τ] in
theorem Granted.congr (h : Granted s t) (hctl : s'.ctl t = s.ctl t) : Granted s' t :=
  h.of_ctl hctl.symm

theorem Granted.of_wakes (h : Granted s t) (hw : Wakes K s s' p) : Granted s' t := by
  by_cases htp : t = p
  · subst htp
    rw [Granted, hw.ctl, Function.update_self]
    exact ⟨rfl, h.2⟩
  · exact h.congr (by rw [hw.ctl, Function.update_of_ne htp])

theorem Granted.of_rewrites {f : TaskControl → TaskControl} (h : Granted s t)
    (hr : Rewrites K s s' p f)
    (hf : t = p → (f (s.ctl t)).onRq = (s.ctl t).onRq ∧
      (f (s.ctl t)).schedClass = (s.ctl t).schedClass) : Granted s' t := by
  by_cases htp : t = p
  · obtain ⟨hon, hclass⟩ := hf htp
    subst htp
    rw [Granted, hr.ctl_self, hon, hclass]
    exact h
  · exact h.congr (hr.ctl_of_ne htp)

/-- The previous task of a context switch stays queued unless it goes to sleep. -/
theorem Granted.schedule {preempt signalPending : Bool} {toWakeup : Option τ} (ht : Granted s t)
    (h : Inv K s) (hs : Sched.schedule K s preempt signalPending toWakeup = some s')
    (hoff : ¬TakesOff K s (.schedule preempt signalPending toWakeup) t) : Granted s' t := by
  obtain ⟨m, c, next, s'', hm, hd, -, hs'', hctl, -⟩ := schedule_spec h preempt signalPending toWakeup
  obtain rfl := Option.some.inj (hs''.symm.trans hs)
  rw [Granted, hctl]
  refine ⟨?_, (hd.activity t).schedClass.trans ht.2⟩
  by_cases htc : t = s.curr
  · subst htc
    have hprev : ((schedulePrev K s preempt signalPending toWakeup).ctl s.curr).onRq = true := by
      rw [schedulePrev]
      dsimp only
      split
      · next hsleep =>
        split
        · rw [ctl_modifyCtl, Function.update_self]
          exact ht.1
        · next hsignal =>
          exact absurd ⟨rfl, hsleep.1, by simpa using hsleep.2, by simpa using hsignal⟩ hoff
      · exact ht.1
    rw [hm, keeps_putPrevTask.ctl]
    exact hprev
  · exact hd.stays t htc ht.1

/-- A task that is not taken off the run queue stays queued in the RAS class. -/
theorem Granted.execOp (ht : Granted s t) (h : Inv K s) {op : Op τ} (he : Enabled s op)
    (hx : execOp K s op = some s') (hoff : ¬TakesOff K s op t) : Granted s' t := by
  have hon : (s.task t).onRq = true := ht.1
  cases op with
  | fork child =>
    obtain ⟨-, -, -, -, hchild, hcurr⟩ := he
    obtain rfl := Option.some.inj hx
    have hne : t ≠ child := by
      rintro rfl
      cases hon.symm.trans hchild
    exact ht.congr ((rewrites_fork hcurr hchild).ctl_of_ne hne)
  | wakeUpNewTask p =>
    obtain ⟨hp, hnew, hstate⟩ := he
    obtain rfl := Option.some.inj hx
    exact ht.of_wakes
      (wakes_wakeUpNewTask hnew hstate (h.schedClass_ne_idle hp) h.prio_lt)
  | tryToWakeUp p mask flags =>
    obtain rfl := Option.some.inj hx
    by_cases hp : p = s.idle
    · have hstate : (s.task p).state = 0 := hp ▸ h.idle_state
      rw [tryToWakeUp, hstate, Nat.zero_and]
      exact ht
    · rcases wakes_tryToWakeUp (K := K) mask flags (h.schedClass_ne_idle hp) h.prio_lt with
        ⟨hsame, -⟩ | ⟨-, hw⟩
      · rwa [hsame]
      · exact ht.of_wakes hw
  | schedule preempt signalPending toWakeup => exact ht.schedule h hx hoff
  | setscheduler caller p policy prio user =>
    obtain rfl := Option.some.inj hx
    rcases schedSetscheduler_cases K s caller p policy prio user with
      ⟨r, -, hres⟩ | ⟨newPolicy, reset, hcheck, hres⟩
    · rwa [hres]
    · obtain ⟨-, hvalid, -, hstop, -⟩ := setschedulerCheck_ok hcheck
      rw [hres]
      refine ht.of_rewrites (rewrites_changePolicy (h.ctl p he hstop) reset hvalid) fun htp => ?_
      refine absurd ⟨htp, hon, ?_⟩ hoff
      rw [htp, hcheck]
      rfl
  | rtMutexAdjustPrio p waiter =>
    obtain ⟨hp, hstop, hw⟩ := he
    obtain rfl := Option.some.inj hx
    refine ht.of_rewrites (rewrites_rtMutexAdjustPrio (h.ctl p hp hstop) hp hw) fun htp => ?_
    have hprio : ¬(s.ctl t).prio ≠ rtMutexGetprio { s.ctl t with piTopWaiter := waiter } :=
      fun hne => hoff ⟨htp, hon, hne⟩
    rw [inherited, if_neg hprio]
    exact ⟨rfl, rfl⟩
  | setUserNice p nice =>
    obtain rfl := Option.some.inj hx
    have hprio : ¬(nice < -20 ∨ 19 < nice) → rtPolicy (s.ctl p).policy = false →
        (s.ctl p).schedClass = .rt →
        0 ≤ (reniced nice (s.ctl p)).prio ∧ (reniced nice (s.ctl p)).prio < maxRtPrio :=
      fun hnice hrt hc => ((h.ctlOk (by simp [hc]) (by simp [hc])).reniced hrt hnice).prio_lt hc
    rcases rewrites_setUserNice (K := K) (h.schedClass_ne_idle he) hprio with
      hsame | ⟨-, -, hr⟩ | ⟨-, -, hr⟩
    · rwa [hsame]
    · exact ht.of_rewrites hr fun _ => ⟨rfl, rfl⟩
    · exact ht.of_rewrites hr fun _ => ⟨rfl, rfl⟩
  | schedMoveTask p tg =>
    obtain rfl := Option.some.inj hx
    exact ht.of_rewrites (rewrites_schedMoveTask (h.schedClass_ne_idle he) h.prio_lt)
      fun _ => ⟨rfl, rfl⟩
  | schedulerTick =>
    obtain rfl := Option.some.inj hx
    have hk : Keeps K s (schedulerTick K s) := accounts_updateRqClock.keeps.trans keeps_classTaskTick
    exact ht.congr (congrFun hk.ctl t)
  | schedYield =>
    obtain rfl := Option.some.inj hx
    exact ht.congr (congrFun (keeps_classYieldTask (K := K)).ctl t)
  | schedRrGetInterval p =>
    obtain rfl := Option.some.inj hx
    exact ht.congr (congrFun (accounts_schedRrGetInterval (K := K)).ctl t)
  | rtPeriodTimer g overrun =>
    obtain rfl := Option.some.inj hx
    exact ht.congr (congrFun (h.of_rtPeriodTimer g overrun).2.1 t)
  | setCurrentState state =>
    obtain rfl := Option.some.inj hx
    refine ht.of_rewrites (K := K) (p := s.curr) (f := fun p => { p with state := state })
      (rewrites_modifyCtl ⟨rfl, rfl, rfl, rfl⟩) fun _ => ⟨rfl, rfl⟩
  | writeTrace p wcounts traceFlag =>
    obtain rfl := Option.some.inj hx
    exact ht.congr (congrFun (ctl_modifyTask s p _ rfl) t)

/-- The steps that neither take a task off the run queue nor query it. -/
def Undisturbed (K : Kernel τ Q) (t : τ) (s : Rq τ Q) (op : Op τ) : Prop :=
  ¬TakesOff K s op t ∧ op ≠ .schedRrGetInterval t

instance (op : Op τ) (t : τ) : Decidable (op = .schedRrGetInterval t) :=
  match op with
  | .schedRrGetInterval p => decidable_of_iff (p = t) ⟨congrArg _, Op.schedRrGetInterval.inj⟩
  | .fork _ | .wakeUpNewTask _ | .tryToWakeUp _ _ _ | .schedule _ _ _ | .schedulerTick
  | .schedYield | .setscheduler _ _ _ _ _ | .rtMutexAdjustPrio _ _ | .setUserNice _ _
  | .schedMoveTask _ _ | .rtPeriodTimer _ _ | .setCurrentState _ | .writeTrace _ _ _ =>
    .isFalse nofun

instance (s : Rq τ Q) (op : Op τ) (t : τ) : Decidable (Undisturbed K t s op) :=
  inferInstanceAs (Decidable (_ ∧ _))

/-- The ticks of a run that are charged to a task. -/
def chargedTicks (K : Kernel τ Q) (t : τ) : Rq τ Q → List (Event τ) → ℕ
  | _, [] => 0
  | s, e :: es => (if ChargedTick s e.op t then 1 else 0) +
      (exec K s e).elim 0 fun s' => chargedTicks K t s' es

/-- A charged tick before the last takes one from the slice, and other steps leave it alone. -/
theorem slices_exec {e : Event τ} (hs : Reachable (system K) s) (ht : Granted s t)
    (hx : exec K s e = some s') (hquiet : Undisturbed K t s e.op) (hexp : expires s e.op ≠ some t) :
    Granted s' t ∧
      (s'.slices t).toNat + (if ChargedTick s e.op t then 1 else 0) = (s.slices t).toNat := by
  obtain ⟨hoff, hquery⟩ := hquiet
  obtain ⟨he, hx, hinv⟩ := step_inv (reachable_inv hs) hx
  have ht' : Granted s' t :=
    Granted.execOp (s := atTime s e.now) ht hinv he hx (mt takesOff_atTime.mp hoff)
  have hcharged : ChargedTick (atTime s e.now) e.op t ↔ ChargedTick s e.op t := by
    cases e.op <;> exact Iff.rfl
  have hexpires : expires (atTime s e.now) e.op = expires s e.op := by cases e.op <;> rfl
  refine ⟨ht', ?_⟩
  generalize hu : s'.slices t = u
  have hstep := sliceStep_execOp hinv he hx ht'
  rw [hu] at hstep
  cases hstep with
  | kept _ hc =>
    rw [if_neg (mt hcharged.mpr hc)]
    rfl
  | counted _ hc _ =>
    rw [if_pos (hcharged.mp hc)]
    exact toNat_sub_one (reachable_slicesOk hs t ht).1
  | granted p hmay =>
    rw [hexpires] at hmay
    rcases hmay with (hnot | htakes | hq) | hx
    · exact absurd ht hnot
    · exact absurd (takesOff_atTime.mp htakes) hoff
    · exact absurd hq hquery
    · exact absurd hx hexp

/-- The ticks that are charged to a task come off its slice. -/
theorem slices_add_chargedTicks {es : List (Event τ)} {u : Rq τ Q} (hs : Reachable (system K) s)
    (ht : Granted s t) (hrun : execAll (exec K) s es = some u)
    (hquiet : Along (exec K) (fun s e => Undisturbed K t s e.op ∧ expires s e.op ≠ some t) s es) :
    (u.slices t).toNat + chargedTicks K t s es = (s.slices t).toNat := by
  induction es generalizing s with
  | nil =>
    obtain rfl := Option.some.inj hrun
    rfl
  | cons e es ih =>
    obtain ⟨s', hx, hrest⟩ := Option.bind_eq_some_iff.mp hrun
    obtain ⟨⟨hundisturbed, hexp⟩, hquiet⟩ := hquiet
    obtain ⟨ht', hstep⟩ := slices_exec hs ht hx hundisturbed hexp
    have hcount := ih (hs.step hx) ht' hrest (hquiet s' hx)
    rw [chargedTicks, hx, Option.elim_some]
    omega

/-- In every reachable state the slices of the queued RAS tasks are within the bounds, so that a tick
does not wrap. A slice lasts as many ticks of its task as it has when it is granted, or at any other
point: as long as the task is neither taken off the run queue nor queried, a tick is the first at
which it expires exactly when the ticks that were charged to it add up to the slice. -/
theorem slices_last_as_granted (K : Kernel τ Q) :
    (∀ s, Reachable (system K) s → ∀ t, Granted s t → 1 ≤ (s.slices t).toNat ∧
      (s.slices t).toNat ≤ rasFgTimeslice K.hz + 10 * rasIncTime K.hz) ∧
    (∀ s, Reachable (system K) s → ∀ op t, ChargedTick s op t →
      (s.slices t - 1).toNat + 1 = (s.slices t).toNat) ∧
    ∀ s, Reachable (system K) s → ∀ t, Granted s t → ∀ es u, execAll (exec K) s es = some u →
      Along (exec K) (fun s e => Undisturbed K t s e.op ∧ expires s e.op ≠ some t) s es →
      ∀ op, ChargedTick u op t →
        (expires u op = some t ↔ chargedTicks K t s es + 1 = (s.slices t).toNat) := by
  refine ⟨fun s hs => reachable_slicesOk hs, fun s hs op t hc => ?_,
    fun s hs t ht es u hrun hquiet op hc => ?_⟩
  · exact toNat_sub_one (reachable_slicesOk hs t (hc.granted (reachable_inv hs))).1
  · have hcount := slices_add_chargedTicks hs ht hrun hquiet
    have hu : Reachable (system K) u := hs.run (run_of_execAll hrun)
    have hsub := toNat_sub_one (reachable_slicesOk hu t (hc.granted (reachable_inv hu))).1
    rw [hc.expires_iff, ← UInt32.toNat_inj, UInt32.toNat_zero]
    omega

/-- The first task has a slice of three ticks. It runs for a tick, yields to the other task for a
tick, and runs for another tick. -/
def interruptedTurn : List (Event ℕ) :=
  [⟨1, .schedulerTick⟩, ⟨1, .schedYield⟩, ⟨1, reschedule⟩, ⟨2, .schedulerTick⟩, ⟨2, .schedYield⟩,
    ⟨2, reschedule⟩, ⟨3, .schedulerTick⟩]

theorem slices_last_as_granted_interruptedTurn : ∃ s u, referenceRun shortTurn = some s ∧
    execAll (exec (referenceKernel ℕ)) s interruptedTurn = some u ∧
    (1 ≤ (s.slices 1).toNat ∧ (s.slices 1).toNat ≤ rasFgTimeslice 100 + 10 * rasIncTime 100) ∧
    (s.slices 1 - 1).toNat + 1 = (s.slices 1).toNat ∧
    (s.slices 1).toNat = 3 ∧ expires u .schedulerTick = some 1 := by
  obtain ⟨s, hs⟩ : ∃ s, s = (referenceRun shortTurn).get (by decide +kernel) := ⟨_, rfl⟩
  have hrun : referenceRun shortTurn = some s := by simp [hs]
  obtain ⟨u, hu⟩ : ∃ u, u = (execAll (exec (referenceKernel ℕ)) s interruptedTurn).get
      (by rw [hs]; decide +kernel) := ⟨_, rfl⟩
  have hturn : execAll (exec (referenceKernel ℕ)) s interruptedTurn = some u := by simp [hu]
  obtain ⟨v, hv⟩ : ∃ v, execAll (fun s e => if Undisturbed (referenceKernel ℕ) 1 s e.op ∧
      expires s e.op ≠ some 1 then exec (referenceKernel ℕ) s e else none) s interruptedTurn =
        some v := Option.isSome_iff_exists.mp (by rw [hs]; decide +kernel)
  have hgranted : Granted s 1 := ⟨by rw [hs]; decide +kernel, by rw [hs]; decide +kernel⟩
  have hcharged : ChargedTick u .schedulerTick 1 := by
    rw [hu]
    subst hs
    decide +kernel
  obtain ⟨hbounds, hwrap, hlast⟩ := slices_last_as_granted (referenceKernel ℕ)
  have hreach := reachable_referenceRun hrun
  have hslice : (s.slices 1).toNat = 3 := by rw [hs]; decide +kernel
  refine ⟨s, u, hrun, hturn, hbounds s hreach 1 hgranted,
    hwrap s hreach .schedulerTick 1 (by rw [hs]; decide +kernel), hslice,
    (hlast s hreach 1 hgranted interruptedTurn u hturn (along_of_execAll hv) _ hcharged).mpr ?_⟩
  rw [hslice, hs]
  decide +kernel

end OsProject.Sched
