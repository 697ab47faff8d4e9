import OsProject.Sched.Invariant

/-!
# What depends on slices and weights

The scheduler reads the slice of a RAS task when the task ticks, and nowhere else; a weight is always
computed anew before it is compared. So a state with other weights and slices in some entities, of
tasks that will be granted a slice before they run as RAS tasks, goes through the same steps.

## Main definitions

* `Rq.withSlices` — the same state with other weights and slices.
* `Alike` — two states that differ only in weights, and in slices of tasks outside a set.

## Main results

* `Alike.execOp` — a step of the scheduler from two such states.
-/

namespace OsProject.Sched

open Intrusive Transition

variable {τ Q : Type*}

/-- The entity of a task with another weight and slice. -/
def TaskStruct.withSlice (p : TaskStruct) (r : ℕ × UInt32) : TaskStruct :=
  { p with ras := { p.ras with weight := r.1, timeSlice := r.2 } }

/-- The state with other weights and slices. -/
def Rq.withSlices (s : Rq τ Q) (r : τ → ℕ × UInt32) : Rq τ Q :=
  { s with task := fun t => (s.task t).withSlice (r t) }

variable [DecidableEq τ] {K : Kernel τ Q} {s s' s'' : Rq τ Q} {p : τ}
  {r : τ → ℕ × UInt32}

/-! ### Operations that neither read nor write them -/

section Commute

omit [DecidableEq τ] in
theorem withSlices_schedClass :
    ((s.withSlices r).task p).schedClass = (s.task p).schedClass := rfl

omit [DecidableEq τ] in
theorem withSlices_curr : (s.withSlices r).curr = s.curr := rfl

/-- A write to a task that changes its weight and slice by `g`, whatever they are. -/
theorem modifyTask_withSlices_update {f : TaskStruct → TaskStruct} {g : ℕ × UInt32 → ℕ × UInt32}
    (hf : ∀ q, f ((s.task p).withSlice q) = (f (s.task p)).withSlice (g q)) :
    (s.withSlices r).modifyTask p f =
      (s.modifyTask p f).withSlices (Function.update r p (g (r p))) := by
  rw [Rq.modifyTask, Rq.modifyTask, Rq.withSlices, Rq.withSlices]
  congr 1
  funext t
  by_cases ht : t = p
  · subst ht
    simp only [Function.update_self]
    exact hf _
  · simp only [Function.update_of_ne ht]

theorem modifyTask_withSlices {f : TaskStruct → TaskStruct}
    (hf : ∀ q, f ((s.task p).withSlice q) = (f (s.task p)).withSlice q) :
    (s.withSlices r).modifyTask p f = (s.modifyTask p f).withSlices r := by
  rw [modifyTask_withSlices_update (g := id) hf, id, Function.update_eq_self]

theorem modifyCtl_withSlices (f : TaskControl → TaskControl) :
    (s.withSlices r).modifyCtl p f = (s.modifyCtl p f).withSlices r :=
  modifyTask_withSlices fun _ => rfl

theorem reschedTask_withSlices : (s.withSlices r).reschedTask p = (s.reschedTask p).withSlices r :=
  rfl

omit [DecidableEq τ] in
theorem withSlices_ite {c : Prop} [Decidable c] :
    (if c then s else s').withSlices r = if c then s.withSlices r else s'.withSlices r :=
  apply_ite (Rq.withSlices · r) c s s'

theorem applyEffect_withSlices (e : ForeignEffect Q) :
    (s.withSlices r).applyEffect e = (s.applyEffect e).withSlices r := by
  rw [Rq.applyEffect, Rq.applyEffect, withSlices_ite]
  rfl

omit [DecidableEq τ] in
theorem updateRqClock_withSlices :
    updateRqClock (s.withSlices r) = (updateRqClock s).withSlices r := by
  rw [updateRqClock, updateRqClock, withSlices_ite]
  rfl

theorem chargeCurr_withSlices : chargeCurr (s.withSlices r) = (chargeCurr s).withSlices r :=
  modifyTask_withSlices fun _ => rfl

theorem updateCurrRas_withSlices :
    updateCurrRas (s.withSlices r) = (updateCurrRas s).withSlices r := by
  rw [updateCurrRas, updateCurrRas, chargeCurr_withSlices, withSlices_ite]
  rfl

theorem chargeRtRq_withSlices (delta : ℤ) (g : RtGroup) :
    chargeRtRq delta (s.withSlices r) g = (chargeRtRq delta s g).withSlices r := by
  rw [chargeRtRq, chargeRtRq, withSlices_ite]
  dsimp only
  rw [withSlices_ite]
  rfl

theorem foldl_chargeRtRq_withSlices (delta : ℤ) (gs : List RtGroup) :
    gs.foldl (chargeRtRq delta) (s.withSlices r) =
      (gs.foldl (chargeRtRq delta) s).withSlices r := by
  induction gs generalizing s with
  | nil => rfl
  | cons g gs ih => rw [List.foldl_cons, List.foldl_cons, chargeRtRq_withSlices, ih]

theorem updateCurrRt_withSlices :
    updateCurrRt K (s.withSlices r) = (updateCurrRt K s).withSlices r := by
  rw [updateCurrRt, updateCurrRt, chargeCurr_withSlices]
  dsimp only
  rw [foldl_chargeRtRq_withSlices]
  simp only [withSlices_ite]
  rfl

theorem enqueueTaskRt_withSlices (flags : EnqueueFlags) :
    enqueueTaskRt (s.withSlices r) p flags = (enqueueTaskRt s p flags).withSlices r := by
  rw [enqueueTaskRt, enqueueTaskRt, modifyTask_withSlices fun _ => rfl]
  rfl

theorem dequeueTaskRt_withSlices :
    dequeueTaskRt K (s.withSlices r) p = (dequeueTaskRt K s p).withSlices r := by
  rw [dequeueTaskRt, dequeueTaskRt, updateCurrRt_withSlices]
  rfl

theorem dequeueTaskRas_withSlices :
    dequeueTaskRas (s.withSlices r) p = (dequeueTaskRas s p).withSlices r := by
  rw [dequeueTaskRas, dequeueTaskRas, updateCurrRas_withSlices]
  rfl

theorem dequeueTask_withSlices (sleep : Bool) :
    dequeueTask K (s.withSlices r) p sleep = (dequeueTask K s p sleep).withSlices r := by
  rw [dequeueTask, dequeueTask, updateRqClock_withSlices, withSlices_schedClass]
  cases ((updateRqClock s).task p).schedClass with
  | rt => exact dequeueTaskRt_withSlices
  | ras => exact dequeueTaskRas_withSlices
  | stop | fair | idle => rfl

theorem requeueTaskRas_withSlices :
    requeueTaskRas (s.withSlices r) p = (requeueTaskRas s p).withSlices r := by
  rw [requeueTaskRas, requeueTaskRas, withSlices_ite]
  rfl

theorem requeueTaskRt_withSlices :
    requeueTaskRt (s.withSlices r) p = (requeueTaskRt s p).withSlices r := rfl

theorem classPutPrevTask_withSlices :
    classPutPrevTask K (s.withSlices r) p = (classPutPrevTask K s p).withSlices r := by
  rw [classPutPrevTask, classPutPrevTask, withSlices_schedClass]
  cases (s.task p).schedClass with
  | rt => exact updateCurrRt_withSlices
  | ras =>
    dsimp only
    rw [putPrevTaskRas, putPrevTaskRas, updateCurrRas_withSlices, requeueTaskRas_withSlices]
  | stop | fair | idle => rfl

theorem classSetCurrTask_withSlices :
    classSetCurrTask K (s.withSlices r) = (classSetCurrTask K s).withSlices r := by
  rw [classSetCurrTask, classSetCurrTask, withSlices_curr, withSlices_schedClass]
  cases (s.task s.curr).schedClass with
  | rt => exact modifyTask_withSlices fun _ => rfl
  | ras => exact modifyTask_withSlices fun _ => rfl
  | stop | fair | idle => rfl

theorem classYieldTask_withSlices :
    classYieldTask K (s.withSlices r) = (classYieldTask K s).withSlices r := by
  rw [classYieldTask, classYieldTask, withSlices_curr, withSlices_schedClass]
  cases (s.task s.curr).schedClass with
  | rt => exact requeueTaskRt_withSlices
  | ras => exact requeueTaskRas_withSlices
  | stop | fair | idle => exact applyEffect_withSlices _

theorem checkPreemptCurrRt_withSlices :
    checkPreemptCurrRt (s.withSlices r) p = (checkPreemptCurrRt s p).withSlices r := by
  rw [checkPreemptCurrRt, checkPreemptCurrRt, withSlices_ite]
  rfl

theorem taskTickRt_withSlices :
    taskTickRt K (s.withSlices r) p = (taskTickRt K s p).withSlices r := by
  have hwatch (s : Rq τ Q) : (s.withSlices r).modifyTask p (watchdogRt K.hz) =
      (s.modifyTask p (watchdogRt K.hz)).withSlices r := by
    refine modifyTask_withSlices fun q => ?_
    simp only [watchdogRt, apply_ite (TaskStruct.withSlice · q)]
    rfl
  have hslice (s : Rq τ Q) (f : UInt32 → UInt32) :
      ((s.withSlices r).modifyTask p fun p =>
        { p with rt := { p.rt with timeSlice := f p.rt.timeSlice } }) =
      (s.modifyTask p fun p =>
        { p with rt := { p.rt with timeSlice := f p.rt.timeSlice } }).withSlices r :=
    modifyTask_withSlices fun _ => rfl
  rw [taskTickRt, taskTickRt, updateCurrRt_withSlices]
  simp only [hwatch, hslice _ (· - 1), hslice _ fun _ => UInt32.ofNat (rrTimeslice K.hz),
    requeueTaskRt_withSlices, reschedTask_withSlices, withSlices_ite]
  rfl

theorem classSwitchedFrom_withSlices (c : SchedClass) :
    classSwitchedFrom K (s.withSlices r) c p = (classSwitchedFrom K s c p).withSlices r := by
  cases c <;> rfl

theorem classSwitchedTo_withSlices :
    classSwitchedTo K (s.withSlices r) p = (classSwitchedTo K s p).withSlices r := by
  rw [classSwitchedTo, classSwitchedTo, withSlices_schedClass]
  cases (s.task p).schedClass with
  | rt =>
    dsimp only
    rw [switchedToRt, switchedToRt, withSlices_ite]
    rfl
  | ras =>
    dsimp only
    rw [switchedToRas, switchedToRas, withSlices_ite]
    rfl
  | stop | fair | idle => exact applyEffect_withSlices _

theorem classPrioChanged_withSlices (oldprio : ℤ) :
    classPrioChanged K (s.withSlices r) p oldprio =
      (classPrioChanged K s p oldprio).withSlices r := by
  rw [classPrioChanged, classPrioChanged, withSlices_schedClass]
  cases (s.task p).schedClass with
  | rt =>
    dsimp only
    rw [prioChangedRt, prioChangedRt]
    simp only [withSlices_ite]
    rfl
  | ras => rfl
  | stop | fair | idle => exact applyEffect_withSlices _

theorem checkClassChanged_withSlices (prevClass : SchedClass) (oldprio : ℤ) :
    checkClassChanged K (s.withSlices r) p prevClass oldprio =
      (checkClassChanged K s p prevClass oldprio).withSlices r := by
  rw [checkClassChanged, checkClassChanged, classSwitchedFrom_withSlices,
    classSwitchedTo_withSlices, classPrioChanged_withSlices]
  simp only [withSlices_ite]
  rfl

theorem classTaskMoveGroup_withSlices (onRq : Bool) :
    classTaskMoveGroup K (s.withSlices r) p onRq =
      (classTaskMoveGroup K s p onRq).withSlices r := by
  rw [classTaskMoveGroup, classTaskMoveGroup, withSlices_schedClass]
  cases (s.task p).schedClass <;> rfl

theorem classTaskFork_withSlices :
    classTaskFork K (s.withSlices r) p = (classTaskFork K s p).withSlices r := by
  rw [classTaskFork, classTaskFork, withSlices_schedClass]
  cases (s.task p).schedClass with
  | rt | ras => rfl
  | stop | fair | idle => exact applyEffect_withSlices _

theorem doSchedRtPeriodTimer_withSlices (g : RtGroup) (overrun : ℕ) :
    (doSchedRtPeriodTimer K (s.withSlices r) g overrun).2 =
      (doSchedRtPeriodTimer K s g overrun).2.withSlices r := by
  have henqueue (s : Rq τ Q) :
      schedRtRqEnqueue (s.withSlices r) g = (schedRtRqEnqueue s g).withSlices r := by
    have hresched (s : Rq τ Q) :
        (if ((s.withSlices r).rt.rq g).highestPrio <
            ((s.withSlices r).task (s.withSlices r).curr).prio then
          (s.withSlices r).reschedTask (s.withSlices r).curr else s.withSlices r) =
        (if (s.rt.rq g).highestPrio < (s.task s.curr).prio then s.reschedTask s.curr
          else s).withSlices r := by
      rw [withSlices_ite]
      rfl
    rw [schedRtRqEnqueue, schedRtRqEnqueue, withSlices_ite]
    refine if_congr Iff.rfl ?_ rfl
    by_cases hoff : g ≠ [] ∧ !onRtRq s.rt s.ctl (.group g)
    · simp only [show (s.withSlices r).rt = s.rt from rfl,
        show (s.withSlices r).ctl = s.ctl from rfl, if_pos hoff]
      exact hresched { s with rt := enqueueRtEntity s.rt s.ctl (.group g) false }
    · simp only [show (s.withSlices r).rt = s.rt from rfl,
        show (s.withSlices r).ctl = s.ctl from rfl, if_neg hoff]
      exact hresched s
  have hreplenish : rtReplenish (s.withSlices r) g overrun =
      Prod.map id (Prod.map id (Rq.withSlices · r)) (rtReplenish s g overrun) := by
    rw [rtReplenish, rtReplenish]
    simp only [apply_ite (Prod.map id (Prod.map id (Rq.withSlices · r)))]
    rfl
  rw [doSchedRtPeriodTimer, doSchedRtPeriodTimer, hreplenish]
  dsimp only [Prod.map]
  rw [henqueue, withSlices_ite]
  rfl

/-- A class picks the same task. -/
theorem classPickNextTask_withSlices (c : SchedClass) :
    classPickNextTask K (s.withSlices r) c =
      ((classPickNextTask K s c).1, (classPickNextTask K s c).2.withSlices r) := by
  have hstamp (s : Rq τ Q) (p : τ) : ((s.withSlices r).modifyTask p fun p =>
      { p with se := { p.se with execStart := s.clockTask } }) =
      (s.modifyTask p fun p =>
        { p with se := { p.se with execStart := s.clockTask } }).withSlices r :=
    modifyTask_withSlices fun _ => rfl
  have hrt : (s.withSlices r).rt = s.rt := rfl
  have hras : (s.withSlices r).ras = s.ras := rfl
  have hview : (s.withSlices r).view = s.view := rfl
  have hcfs : (s.withSlices r).cfs = s.cfs := rfl
  cases c with
  | rt =>
    rw [classPickNextTask, classPickNextTask, pickNextTaskRt, pickNextTaskRt, hrt]
    split_ifs
    · rfl
    · rfl
    · cases pickNextRtTask s.rt s.rt.leafRtRqList.length [] with
      | none => rfl
      | some p => exact Prod.ext rfl (hstamp s p)
  | ras =>
    rw [classPickNextTask, classPickNextTask, pickNextTaskRas, pickNextTaskRas, hras]
    split_ifs
    · rfl
    · cases s.ras.links.next none with
      | none => rfl
      | some p => exact Prod.ext rfl (hstamp s p)
  | idle => rfl
  | stop =>
    unfold classPickNextTask
    rw [hview, hcfs]
    dsimp only
    rcases K.pickNextTask .stop s.view s.cfs.data with ⟨_ | p, d⟩ <;> rfl
  | fair =>
    unfold classPickNextTask
    rw [hview, hcfs]
    dsimp only
    rcases K.pickNextTask .fair s.view s.cfs.data with ⟨_ | p, d⟩ <;> rfl

theorem pickFrom_withSlices (cs : List SchedClass) :
    pickFrom K (s.withSlices r) cs = ((pickFrom K s cs).1, (pickFrom K s cs).2.withSlices r) := by
  induction cs generalizing s with
  | nil => rfl
  | cons c cs ih =>
    rw [pickFrom, pickFrom, classPickNextTask_withSlices]
    rcases classPickNextTask K s c with ⟨_ | p | _, s⟩
    · exact ih
    · rfl
    · rfl

theorem pickNextTask_withSlices :
    pickNextTask K (s.withSlices r) = ((pickNextTask K s).1, (pickNextTask K s).2.withSlices r) := by
  rw [pickNextTask, pickNextTask]
  by_cases hfair : s.nrRunning = s.cfs.hNrRunning
  · have hfair' : (s.withSlices r).nrRunning = (s.withSlices r).cfs.hNrRunning := hfair
    rw [if_pos hfair', if_pos hfair, classPickNextTask_withSlices]
    rcases classPickNextTask K s .fair with ⟨_ | p | _, s⟩
    · exact pickFrom_withSlices _
    · rfl
    · rfl
  · have hfair' : ¬(s.withSlices r).nrRunning = (s.withSlices r).cfs.hNrRunning := hfair
    rw [if_neg hfair', if_neg hfair, pickFrom_withSlices]

end Commute

/-! ### Two states -/

/-- Two states that differ only in weights, and in slices of tasks outside `A`. -/
def AlikeOn (A : τ → Prop) (s s' : Rq τ Q) : Prop :=
  ∃ r, s' = s.withSlices r ∧ ∀ t, A t → (r t).2 = (s.task t).ras.timeSlice

/-- The tasks that are queued in the RAS class. -/
def Granted (s : Rq τ Q) (t : τ) : Prop :=
  (s.ctl t).onRq = true ∧ (s.ctl t).schedClass = .ras

/-- Two states that differ only in weights, and in slices of tasks that are not queued in the RAS
class. -/
def Alike (s s' : Rq τ Q) : Prop := AlikeOn (Granted s) s s'

section

variable {A B : τ → Prop}

omit [DecidableEq τ]

theorem withSlices_self (s : Rq τ Q) :
    s.withSlices (fun t => ((s.task t).ras.weight, (s.task t).ras.timeSlice)) = s := rfl

theorem withSlices_withSlices (s : Rq τ Q) (q r : τ → ℕ × UInt32) :
    (s.withSlices q).withSlices r = s.withSlices r := rfl

namespace AlikeOn

theorem refl (A : τ → Prop) (s : Rq τ Q) : AlikeOn A s s :=
  ⟨_, (withSlices_self s).symm, fun _ _ => rfl⟩

theorem symm (h : AlikeOn A s s') : AlikeOn A s' s := by
  obtain ⟨r, rfl, hslice⟩ := h
  exact ⟨_, (withSlices_self s).symm, fun t ht => (hslice t ht).symm⟩

theorem trans (h : AlikeOn A s s') (h' : AlikeOn A s' s'') : AlikeOn A s s'' := by
  obtain ⟨r, rfl, hslice⟩ := h
  obtain ⟨r', rfl, hslice'⟩ := h'
  exact ⟨r', rfl, fun t ht => (hslice' t ht).trans (hslice t ht)⟩

theorem mono (h : AlikeOn A s s') (hBA : ∀ t, B t → A t) : AlikeOn B s s' := by
  obtain ⟨r, hr, hslice⟩ := h
  exact ⟨r, hr, fun t ht => hslice t (hBA t ht)⟩

/-- An operation that neither reads nor writes weights and slices. -/
theorem map {f : Rq τ Q → Rq τ Q} (hf : ∀ s r, f (s.withSlices r) = (f s).withSlices r)
    (h : AlikeOn A s s') : AlikeOn A (f s) (f s') := by
  obtain ⟨r, rfl, hslice⟩ := h
  refine ⟨r, hf s r, fun t ht => (hslice t ht).trans ?_⟩
  -- with its own weights and slices the state is as it is
  have hself := hf s fun t => ((s.task t).ras.weight, (s.task t).ras.timeSlice)
  rw [withSlices_self] at hself
  rw [hself]
  rfl

theorem ctl (h : AlikeOn A s s') : s'.ctl = s.ctl := by
  obtain ⟨r, rfl, -⟩ := h
  rfl

theorem curr (h : AlikeOn A s s') : s'.curr = s.curr := by
  obtain ⟨r, rfl, -⟩ := h
  rfl

theorem timeSlice {t : τ} (h : AlikeOn A s s') (ht : A t) :
    (s'.task t).ras.timeSlice = (s.task t).ras.timeSlice := by
  obtain ⟨r, rfl, hslice⟩ := h
  exact hslice t ht

end AlikeOn

end

/-! ### Operations that write weights and slices -/

section Write

variable {A B : τ → Prop}

/-- A write that changes weight and slice of a task by `g`, whatever they are. -/
theorem AlikeOn.write {f : TaskStruct → TaskStruct} {g : ℕ × UInt32 → ℕ × UInt32}
    (hf : ∀ q, f ((s.task p).withSlice q) = (f (s.task p)).withSlice (g q))
    (hA : ∀ t, B t → t ≠ p → A t)
    (hp : B p → ∀ q : ℕ × UInt32, (A p → q.2 = (s.task p).ras.timeSlice) →
      (g q).2 = (f (s.task p)).ras.timeSlice)
    (h : AlikeOn A s s') : AlikeOn B (s.modifyTask p f) (s'.modifyTask p f) := by
  obtain ⟨r, rfl, hslice⟩ := h
  refine ⟨_, modifyTask_withSlices_update hf, fun t ht => ?_⟩
  by_cases htp : t = p
  · subst htp
    simpa [Rq.modifyTask] using hp ht (r t) (hslice t)
  · simp only [Rq.modifyTask, Function.update_of_ne htp]
    exact hslice t (hA t ht htp)

/-- A write of a new weight and a new slice. -/
theorem AlikeOn.grant {f : TaskStruct → TaskStruct} (hf : ∀ t q, f (t.withSlice q) = f t)
    (h : AlikeOn A s s') : AlikeOn (fun t => A t ∨ t = p) (s.modifyTask p f) (s'.modifyTask p f) :=
  h.write (g := fun _ => ((f (s.task p)).ras.weight, (f (s.task p)).ras.timeSlice))
    (fun q => hf _ q) (fun _ ht htp => ht.resolve_right htp) fun _ _ _ => rfl

/-- A write of a new weight. -/
theorem AlikeOn.updateWeight (h : AlikeOn A s s') :
    AlikeOn A (Sched.updateWeight s p) (Sched.updateWeight s' p) :=
  h.write (g := fun q => (calcRasWeight (s.task p), q.2)) (fun _ => rfl) (fun _ ht _ => ht)
    fun hp _ hq => hq hp

/-- A tick takes one from a slice. -/
theorem AlikeOn.decrement (h : AlikeOn A s s') :
    AlikeOn A
      (s.modifyTask p fun p => { p with ras := { p.ras with timeSlice := p.ras.timeSlice - 1 } })
      (s'.modifyTask p fun p => { p with ras := { p.ras with timeSlice := p.ras.timeSlice - 1 } }) :=
  h.write (g := fun q => (q.1, q.2 - 1)) (fun _ => rfl) (fun _ ht _ => ht)
    fun hp _ hq => congrArg (· - 1) (hq hp)

/-! ### Queues, wakeups and ticks -/

theorem AlikeOn.enqueueTask {flags : EnqueueFlags} (h : AlikeOn A s s') :
    AlikeOn (fun t => A t ∨ (t = p ∧ (s.ctl p).schedClass = .ras)) (Sched.enqueueTask K s p flags)
      (Sched.enqueueTask K s' p flags) := by
  have hclock := h.map (f := updateRqClock) fun _ _ => updateRqClock_withSlices
  have hc : ((updateRqClock s).task p).schedClass = (s.ctl p).schedClass := by
    rw [updateRqClock_task]
    rfl
  have hc' : ((updateRqClock s').task p).schedClass = (s.ctl p).schedClass := by
    rw [updateRqClock_task]
    exact congrArg (fun c => (c p).schedClass) h.ctl
  have hrest (hne : (s.ctl p).schedClass ≠ .ras) :
      ∀ t, A t ∨ (t = p ∧ (s.ctl p).schedClass = .ras) → A t := fun t ht =>
    ht.resolve_right fun hras => hne hras.2
  rw [Sched.enqueueTask, Sched.enqueueTask, hc, hc']
  cases hclass : (s.ctl p).schedClass with
  | rt =>
    rw [hclass] at hrest
    exact (hclock.map (f := fun s => enqueueTaskRt s p flags)
      fun _ _ => enqueueTaskRt_withSlices flags).mono (hrest (by decide))
  | ras =>
    refine AlikeOn.mono (AlikeOn.map (f := fun s => { s with
      ras :=
        { links :=
            if flags.head then listAdd s.ras.links (some p) none
            else listAddTail s.ras.links (some p) none
          rasNrRunning := s.ras.rasNrRunning + 1 }
      nrRunning := s.nrRunning + 1 }) (fun _ _ => rfl) (hclock.grant (p := p) fun _ _ => rfl)) ?_
    exact fun t ht => ht.imp id fun htp => htp.1
  | stop | fair | idle =>
    rw [hclass] at hrest
    exact (hclock.map (f := fun s => enqueueTaskForeign K s _ p flags) fun _ _ => rfl).mono
      (hrest (by decide))

theorem AlikeOn.checkPreemptCurrRas (h : AlikeOn A s s') :
    AlikeOn A (Sched.checkPreemptCurrRas s p) (Sched.checkPreemptCurrRas s' p) := by
  have hcalc (t : τ) : calcRasWeight (s'.task t) = calcRasWeight (s.task t) := by
    obtain ⟨r, rfl, -⟩ := h
    rfl
  have hweights : AlikeOn A (Sched.updateWeight (Sched.updateWeight s p) s.curr)
      (Sched.updateWeight (Sched.updateWeight s' p) s.curr) := h.updateWeight.updateWeight
  rw [checkPreemptCurrRas_eq, checkPreemptCurrRas_eq, h.curr, hcalc, hcalc]
  split
  · exact hweights.map (f := fun s' => s'.reschedTask s.curr) fun _ _ => reschedTask_withSlices
  · exact hweights

theorem AlikeOn.preemptCurr {flags : ℕ} (h : AlikeOn A s s') :
    AlikeOn A (Sched.preemptCurr K s p flags) (Sched.preemptCurr K s' p flags) := by
  have hclass (t : τ) : (s'.task t).schedClass = (s.task t).schedClass :=
    congrArg (fun c => (c t).schedClass) h.ctl
  rw [Sched.preemptCurr, Sched.preemptCurr, h.curr, hclass, hclass]
  split_ifs
  · rw [classCheckPreemptCurr, classCheckPreemptCurr, h.curr, hclass]
    cases (s.task s.curr).schedClass with
    | rt => exact h.map (f := fun s => checkPreemptCurrRt s p) fun _ _ => checkPreemptCurrRt_withSlices
    | ras => exact h.checkPreemptCurrRas
    | stop | fair | idle =>
      exact h.map (f := fun s => s.applyEffect (K.checkPreemptCurr _ s.view p flags s.cfs.data))
        fun _ _ => applyEffect_withSlices _
  · exact h.map (f := fun s' => s'.reschedTask s.curr) fun _ _ => reschedTask_withSlices
  · exact h

theorem AlikeOn.checkPreemptCurr {flags : ℕ} (h : AlikeOn A s s') :
    AlikeOn A (Sched.checkPreemptCurr K s p flags) (Sched.checkPreemptCurr K s' p flags) :=
  h.preemptCurr.map (f := fun s =>
    if (s.task s.curr).onRq ∧ s.needResched s.curr then { s with skipClockUpdate := 1 } else s)
    fun s r => (apply_ite (Rq.withSlices · r) _ { s with skipClockUpdate := 1 } s).symm

/-- A tick of a RAS task, whose slice is the same in both states. -/
theorem AlikeOn.taskTickRas (h : AlikeOn A s s') (hp : A p) :
    AlikeOn A (Sched.taskTickRas K s p) (Sched.taskTickRas K s' p) := by
  have hcount : AlikeOn A (countTick K s p) (countTick K s' p) := by
    refine AlikeOn.decrement (AlikeOn.map (f := fun s => s.modifyTask p (watchdogRas K.hz))
      (fun s r => modifyTask_withSlices fun q => ?_)
      (h.map (f := updateCurrRas) fun _ _ => updateCurrRas_withSlices))
    simp only [watchdogRas, apply_ite (TaskStruct.withSlice · q)]
    rfl
  have hgrant : AlikeOn A ((countTick K s p).modifyTask p (grantSlice K.hz))
      ((countTick K s' p).modifyTask p (grantSlice K.hz)) :=
    (hcount.grant (p := p) fun _ _ => rfl).mono fun _ ht => .inl ht
  have hras : s'.ras = s.ras := by
    obtain ⟨r, rfl, -⟩ := h
    rfl
  rw [taskTickRas_eq, taskTickRas_eq, h.timeSlice hp, hras]
  split_ifs
  · exact hcount
  · exact hgrant.map (f := fun s => (requeueTaskRas s p).reschedTask p) fun s r => by
      rw [requeueTaskRas_withSlices, reschedTask_withSlices]
  · exact hgrant

end Write

/-! ### Operations that grant slices -/

section Grant

variable {t : τ}

omit [DecidableEq τ] in
theorem Granted.of_ctl (hctl : s'.ctl t = s.ctl t) (h : Granted s' t) : Granted s t := by
  rwa [Granted, hctl] at h

theorem Granted.of_modifyCtl {f : TaskControl → TaskControl}
    (hon : (f (s.ctl p)).onRq = true → (s.ctl p).onRq = true)
    (hclass : (f (s.ctl p)).schedClass = (s.ctl p).schedClass)
    (h : Granted (s.modifyCtl p f) t) : Granted s t := by
  rw [Granted, ctl_modifyCtl] at h
  by_cases htp : t = p
  · subst htp
    rw [Function.update_self] at h
    exact ⟨hon h.1, hclass ▸ h.2⟩
  · rwa [Function.update_of_ne htp] at h

omit [DecidableEq τ] in
/-- An operation that neither reads nor writes weights and slices, and queues no RAS task. -/
theorem Alike.map {f : Rq τ Q → Rq τ Q} (h : Alike s s')
    (hf : ∀ s r, f (s.withSlices r) = (f s).withSlices r)
    (hgranted : ∀ t, Granted (f s) t → Granted s t) : Alike (f s) (f s') :=
  (AlikeOn.map hf h).mono hgranted

omit [DecidableEq τ] in
theorem Alike.refl (s : Rq τ Q) : Alike s s := AlikeOn.refl _ s

omit [DecidableEq τ] in
theorem Alike.symm (h : Alike s s') : Alike s' s :=
  (AlikeOn.symm h).mono fun _ => Granted.of_ctl (congrFun (AlikeOn.ctl h) _)

omit [DecidableEq τ] in
theorem Alike.trans (h : Alike s s') (h' : Alike s' s'') : Alike s s'' :=
  AlikeOn.trans h (h'.mono fun _ => Granted.of_ctl (congrFun (AlikeOn.ctl h.symm) _))

omit [DecidableEq τ] in
/-- An operation that changes no control fields. -/
theorem Alike.map_of_ctl {f : Rq τ Q → Rq τ Q} (h : Alike s s')
    (hf : ∀ s r, f (s.withSlices r) = (f s).withSlices r) (hctl : (f s).ctl = s.ctl) :
    Alike (f s) (f s') :=
  h.map hf fun _ => Granted.of_ctl (congrFun hctl _)

theorem Alike.ttwuActivate {flags : EnqueueFlags} (h : Alike s s') :
    Alike (Sched.ttwuActivate K s p flags) (Sched.ttwuActivate K s' p flags) := by
  have hqueued : AlikeOn (fun t => Granted s t ∨ (t = p ∧ (s.ctl p).schedClass = .ras))
      (Sched.enqueueTask K s p flags) (Sched.enqueueTask K s' p flags) := AlikeOn.enqueueTask h
  refine (hqueued.map (f := fun s => s.modifyCtl p fun p => { p with onRq := true })
    fun _ _ => modifyCtl_withSlices _).mono fun t ht => ?_
  by_cases htp : t = p
  · subst htp
    have hras := ht.2
    rw [Sched.ttwuActivate, ctl_modifyCtl, Function.update_self] at hras
    rw [activateTask, enqueueTask_ctl] at hras
    exact .inr ⟨rfl, hras⟩
  · refine .inl (Granted.of_ctl ?_ ht)
    rw [Sched.ttwuActivate, ctl_modifyCtl, Function.update_of_ne htp, activateTask, enqueueTask_ctl]

theorem Alike.checkPreemptCurr {flags : ℕ} (h : Alike s s') :
    Alike (Sched.checkPreemptCurr K s p flags) (Sched.checkPreemptCurr K s' p flags) :=
  (AlikeOn.checkPreemptCurr h).mono fun _ =>
    Granted.of_ctl (congrFun (accounts_checkPreemptCurr (K := K)).ctl _)

theorem Alike.setState {state : ℕ} (h : Alike s s') :
    Alike (s.modifyCtl p fun p => { p with state := state })
      (s'.modifyCtl p fun p => { p with state := state }) :=
  h.map (f := fun s => s.modifyCtl p fun p => { p with state := state })
    (fun _ _ => modifyCtl_withSlices _) fun _ => Granted.of_modifyCtl id rfl

theorem Alike.ttwuDoWakeup {flags : ℕ} (h : Alike s s') :
    Alike (Sched.ttwuDoWakeup K s p flags) (Sched.ttwuDoWakeup K s' p flags) :=
  h.checkPreemptCurr.setState

theorem Alike.tryToWakeUp {mask flags : ℕ} (h : Alike s s') :
    Alike (Sched.tryToWakeUp K s p mask flags).2 (Sched.tryToWakeUp K s' p mask flags).2 := by
  have hstate : (s'.task p).state = (s.task p).state := congrArg (fun c => (c p).state) h.ctl
  have hon : (s'.task p).onRq = (s.task p).onRq := congrArg (fun c => (c p).onRq) h.ctl
  rw [Sched.tryToWakeUp, Sched.tryToWakeUp, hstate, hon]
  split_ifs
  · exact h
  · exact h.ttwuDoWakeup
  · exact h.ttwuActivate.ttwuDoWakeup

theorem Alike.tryToWakeUpLocal (h : Alike s s') :
    Alike (Sched.tryToWakeUpLocal K s p) (Sched.tryToWakeUpLocal K s' p) := by
  have hstate : (s'.task p).state = (s.task p).state := congrArg (fun c => (c p).state) h.ctl
  have hon : (s'.task p).onRq = (s.task p).onRq := congrArg (fun c => (c p).onRq) h.ctl
  rw [Sched.tryToWakeUpLocal, Sched.tryToWakeUpLocal, hstate, hon, AlikeOn.curr h]
  split_ifs
  · exact h
  · exact h
  · exact h.ttwuActivate.ttwuDoWakeup
  · exact h.ttwuDoWakeup

theorem Alike.wakeUpNewTask (h : Alike s s') :
    Alike (Sched.wakeUpNewTask K s p) (Sched.wakeUpNewTask K s' p) := by
  have hqueued : Alike (Sched.ttwuActivate K s p {}) (Sched.ttwuActivate K s' p {}) := h.ttwuActivate
  exact hqueued.checkPreemptCurr

/-- A tick of the current task, which holds the same slice in both states. -/
theorem Alike.classTaskTick (h : Alike s s')
    (hcurr : (s.task s.curr).schedClass = .ras → (s.ctl s.curr).onRq = true) :
    Alike (Sched.classTaskTick K s) (Sched.classTaskTick K s') := by
  have hclass : (s'.task s.curr).schedClass = (s.task s.curr).schedClass :=
    congrArg (fun c => (c s.curr).schedClass) (AlikeOn.ctl h)
  have hkeeps : (Sched.classTaskTick K s).ctl = s.ctl := keeps_classTaskTick.ctl
  refine AlikeOn.mono (A := Granted s) ?_ fun t => Granted.of_ctl (congrFun hkeeps t)
  rw [Sched.classTaskTick, Sched.classTaskTick, AlikeOn.curr h, hclass]
  cases hc : (s.task s.curr).schedClass with
  | rt => exact AlikeOn.map (f := fun t => taskTickRt K t s.curr) (fun _ _ => taskTickRt_withSlices) h
  | ras => exact AlikeOn.taskTickRas h ⟨hcurr hc, hc⟩
  | stop | fair | idle =>
    exact AlikeOn.map (f := fun t => t.applyEffect (K.taskTick _ t.view s.curr t.cfs.data))
      (fun _ _ => applyEffect_withSlices _) h

theorem Alike.schedulerTick (h : Alike s s')
    (hcurr : (s.ctl s.curr).schedClass = .ras → (s.ctl s.curr).onRq = true) :
    Alike (Sched.schedulerTick K s) (Sched.schedulerTick K s') := by
  have hclock : (updateRqClock s).ctl = s.ctl := (accounts_updateRqClock (K := K)).ctl
  refine Alike.classTaskTick (h.map_of_ctl (fun _ _ => updateRqClock_withSlices) hclock) ?_
  rw [updateRqClock_curr, updateRqClock_task, hclock]
  exact hcurr

end Grant

/-! ### Context switches -/

section Switch

theorem Alike.schedYield (h : Alike s s') :
    Alike (Sched.schedYield K s) (Sched.schedYield K s') :=
  h.map_of_ctl (fun _ _ => classYieldTask_withSlices) keeps_classYieldTask.ctl

theorem Alike.deactivate {sleep : Bool} (h : Alike s s') :
    Alike ((deactivateTask K s p sleep).modifyCtl p fun p => { p with onRq := false })
      ((deactivateTask K s' p sleep).modifyCtl p fun p => { p with onRq := false }) := by
  have hdeq : Alike (deactivateTask K s p sleep) (deactivateTask K s' p sleep) :=
    h.map_of_ctl (f := fun s => dequeueTask K s p sleep)
      (fun _ _ => dequeueTask_withSlices sleep) dequeueTask_holds.ctl
  refine hdeq.map (f := fun s => s.modifyCtl p fun p => { p with onRq := false })
    (fun _ _ => modifyCtl_withSlices _) fun _ => Granted.of_modifyCtl (fun hon => ?_) rfl
  cases hon

theorem Alike.schedulePrev {preempt signalPending : Bool} {toWakeup : Option τ} (h : Alike s s') :
    Alike (Sched.schedulePrev K s preempt signalPending toWakeup)
      (Sched.schedulePrev K s' preempt signalPending toWakeup) := by
  have hstate : (s'.task s.curr).state = (s.task s.curr).state :=
    congrArg (fun c => (c s.curr).state) (AlikeOn.ctl h)
  rw [Sched.schedulePrev, Sched.schedulePrev, AlikeOn.curr h]
  simp only [hstate]
  split_ifs
  · exact h.setState
  · cases toWakeup with
    | none => exact h.deactivate
    | some w => exact h.deactivate.tryToWakeUpLocal
  · exact h

theorem Alike.putPrevTask (h : Alike s s') :
    Alike (Sched.putPrevTask K s p) (Sched.putPrevTask K s' p) := by
  refine h.map_of_ctl (f := fun s => Sched.putPrevTask K s p) (fun s r => ?_) keeps_putPrevTask.ctl
  rw [Sched.putPrevTask, Sched.putPrevTask, ← classPutPrevTask_withSlices, withSlices_ite,
    ← updateRqClock_withSlices]
  rfl

/-- Both states pick the same task. -/
theorem Alike.schedule {preempt signalPending : Bool} {toWakeup : Option τ} (h : Alike s s') :
    Option.Rel Alike (Sched.schedule K s preempt signalPending toWakeup)
      (Sched.schedule K s' preempt signalPending toWakeup) := by
  obtain ⟨m, hm⟩ : ∃ m, m = Sched.putPrevTask K
      (Sched.schedulePrev K s preempt signalPending toWakeup) s.curr := ⟨_, rfl⟩
  obtain ⟨m', hm'⟩ : ∃ m', m' = Sched.putPrevTask K
      (Sched.schedulePrev K s' preempt signalPending toWakeup) s.curr := ⟨_, rfl⟩
  have halike : Alike m m' := by
    rw [hm, hm']
    exact h.schedulePrev.putPrevTask
  have hpick : (pickNextTask K m').1 = (pickNextTask K m).1 := by
    obtain ⟨r, rfl, -⟩ := halike
    rw [pickNextTask_withSlices]
  have hnext : Alike (pickNextTask K m).2 (pickNextTask K m').2 :=
    halike.map_of_ctl (f := fun s => (pickNextTask K s).2)
      (fun s r => by rw [pickNextTask_withSlices]) accounts_pickNextTask.ctl
  have hpair : pickNextTask K m = ((pickNextTask K m).1, (pickNextTask K m).2) := rfl
  have hpair' : pickNextTask K m' = ((pickNextTask K m).1, (pickNextTask K m').2) :=
    Prod.ext hpick rfl
  rw [Sched.schedule, Sched.schedule, AlikeOn.curr h, ← hm, ← hm']
  rw [hpair, hpair']
  cases (pickNextTask K m).1 with
  | task next =>
    refine .some ?_
    refine hnext.map_of_ctl (f := fun t => if s.curr ≠ next then { t with
      needResched := Function.update t.needResched s.curr false
      skipClockUpdate := 0
      nrSwitches := t.nrSwitches + 1
      curr := next } else { t with
      needResched := Function.update t.needResched s.curr false
      skipClockUpdate := 0 }) (fun t r => ?_) ?_
    · rw [withSlices_ite]
      rfl
    · split_ifs <;> rfl
  | none => exact .none
  | wild => exact .none

end Switch

/-! ### Changes of class, priority and group -/

section Change

/-- A change around which a task is taken off the run queue ends with the enqueue of the task, and
neither reads nor writes weights and slices before. -/
theorem exists_changed_withSlices {change : Rq τ Q → Rq τ Q} {f : TaskControl → TaskControl}
    (running : Bool) (flags : EnqueueFlags)
    (hchange : ∀ s r, change (s.withSlices r) = (change s).withSlices r)
    (hctl : ∀ s, (change s).ctl = (s.modifyCtl p f).ctl) :
    ∃ changed : Rq τ Q → Rq τ Q,
      (∀ s r, changed (s.withSlices r) = (changed s).withSlices r) ∧
      (∀ s, (changed s).ctl = Function.update s.ctl p (f (s.ctl p))) ∧
      ∀ s, Sched.withTaskOffRq K s p running change flags =
        if (s.task p).onRq then Sched.enqueueTask K (changed s) p flags else changed s := by
  have hoff (s : Rq τ Q) (r : τ → ℕ × UInt32) :
      offRq K (s.withSlices r) p running = (offRq K s p running).withSlices r := by
    rw [offRq, offRq]
    simp only [withSlices_ite, ← dequeueTask_withSlices, ← classPutPrevTask_withSlices]
    rfl
  refine ⟨fun t => if running then classSetCurrTask K (change (offRq K t p running))
    else change (offRq K t p running), fun s r => ?_, fun s => ?_, fun s => rfl⟩
  · simp only [hoff, hchange, classSetCurrTask_withSlices, withSlices_ite]
  · have hset : (if running then classSetCurrTask K (change (offRq K s p running))
        else change (offRq K s p running)).ctl = (change (offRq K s p running)).ctl := by
      split_ifs
      · exact (accounts_classSetCurrTask (K := K)).ctl
      · rfl
    rw [hset, hctl, ctl_modifyCtl, (offRq_holds running).1.ctl]

/-- The dequeue and enqueue around a change grant a slice to a task that is queued in the RAS class
afterwards. -/
theorem Alike.withTaskOffRq {running : Bool} {change : Rq τ Q → Rq τ Q} {flags : EnqueueFlags}
    {f : TaskControl → TaskControl} (h : Alike s s')
    (hchange : ∀ s r, change (s.withSlices r) = (change s).withSlices r)
    (hctl : ∀ s, (change s).ctl = (s.modifyCtl p f).ctl)
    (hon : ∀ c, (f c).onRq = c.onRq) :
    Alike (Sched.withTaskOffRq K s p running change flags)
      (Sched.withTaskOffRq K s' p running change flags) := by
  obtain ⟨changed, hchanged, hself, hend⟩ :=
    exists_changed_withSlices (K := K) running flags hchange hctl
  have hon' : (s'.task p).onRq = (s.task p).onRq :=
    congrArg (fun c => (c p).onRq) (AlikeOn.ctl h)
  have halike : AlikeOn (Granted s) (changed s) (changed s') := AlikeOn.map hchanged h
  have hother {t : τ} (htp : t ≠ p) (u : Rq τ Q) (hu : u.ctl = (changed s).ctl) :
      Granted u t → Granted s t :=
    Granted.of_ctl (by rw [hu, hself, Function.update_of_ne htp])
  rw [hend, hend, hon']
  split
  · refine halike.enqueueTask.mono fun t ht => ?_
    by_cases htp : t = p
    · refine .inr ⟨htp, ?_⟩
      have hras := ht.2
      rwa [enqueueTask_ctl, htp] at hras
    · exact .inl (hother htp _ (enqueueTask_ctl flags) ht)
  · next hoffRq =>
    refine halike.mono fun t ht => ?_
    by_cases htp : t = p
    · -- the task is off the run queue
      have honRq := ht.1
      rw [hself, htp, Function.update_self, hon] at honRq
      exact absurd honRq hoffRq
    · exact hother htp _ rfl ht

theorem Alike.checkClassChanged {prevClass : SchedClass} {oldprio : ℤ} (h : Alike s s') :
    Alike (Sched.checkClassChanged K s p prevClass oldprio)
      (Sched.checkClassChanged K s' p prevClass oldprio) :=
  h.map_of_ctl (f := fun s => Sched.checkClassChanged K s p prevClass oldprio)
    (fun _ _ => checkClassChanged_withSlices prevClass oldprio) accounts_checkClassChanged.ctl

theorem Alike.rtMutexSetprio {prio : ℤ} (h : Alike s s') :
    Alike (Sched.rtMutexSetprio K s p prio) (Sched.rtMutexSetprio K s' p prio) := by
  have hidle : s'.idle = s.idle := by
    obtain ⟨r, rfl, -⟩ := h
    rfl
  have hctl : s'.ctl p = s.ctl p := congrFun (AlikeOn.ctl h) p
  have hprio : (s'.task p).prio = (s.task p).prio := congrArg TaskControl.prio hctl
  have hclass : (s'.task p).schedClass = (s.task p).schedClass :=
    congrArg TaskControl.schedClass hctl
  rw [Sched.rtMutexSetprio, Sched.rtMutexSetprio, hidle]
  split
  · exact h
  · dsimp only
    rw [hprio, hclass, AlikeOn.curr h]
    exact Alike.checkClassChanged (h.withTaskOffRq (fun _ _ => modifyCtl_withSlices _)
      (fun _ => rfl) fun _ => rfl)

theorem Alike.rtMutexAdjustPrio {waiter : Option ℤ} (h : Alike s s') :
    Alike (Sched.rtMutexAdjustPrio K s p waiter) (Sched.rtMutexAdjustPrio K s' p waiter) := by
  have hwrite : Alike (s.modifyCtl p fun c => { c with piTopWaiter := waiter })
      (s'.modifyCtl p fun c => { c with piTopWaiter := waiter }) :=
    h.map (f := fun s => s.modifyCtl p fun c => { c with piTopWaiter := waiter })
      (fun _ _ => modifyCtl_withSlices _) fun _ => Granted.of_modifyCtl id rfl
  rw [rtMutexAdjustPrio_eq, rtMutexAdjustPrio_eq, AlikeOn.ctl h]
  split
  · exact hwrite.rtMutexSetprio
  · exact hwrite

theorem Alike.setUserNice {nice : ℤ} (h : Alike s s') :
    Alike (Sched.setUserNice K s p nice) (Sched.setUserNice K s' p nice) := by
  have hctl : s'.ctl p = s.ctl p := congrFun (AlikeOn.ctl h) p
  have hstatic : (s'.task p).staticPrio = (s.task p).staticPrio :=
    congrArg TaskControl.staticPrio hctl
  have hpolicy : (s'.task p).policy = (s.task p).policy := congrArg TaskControl.policy hctl
  have hprio : (s'.task p).prio = (s.task p).prio := congrArg TaskControl.prio hctl
  have hon : (s'.task p).onRq = (s.task p).onRq := congrArg TaskControl.onRq hctl
  have hoff : Alike (Sched.withTaskOffRq K s p false (fun s => s.modifyCtl p (reniced nice)) {})
      (Sched.withTaskOffRq K s' p false (fun s => s.modifyCtl p (reniced nice)) {}) :=
    h.withTaskOffRq (fun _ _ => modifyCtl_withSlices _) (fun _ => rfl) fun _ => rfl
  have hdelta : ∀ u u' : Rq τ Q, Alike u u' → (u'.task p).prio = (u.task p).prio := fun u u' hu =>
    congrArg (fun c => (c p).prio) (AlikeOn.ctl hu)
  rw [Sched.setUserNice, Sched.setUserNice, hstatic, hpolicy]
  split_ifs
  · exact h
  · exact h.map (f := fun s => s.modifyCtl p fun p => { p with staticPrio := niceToPrio nice })
      (fun _ _ => modifyCtl_withSlices _) fun _ => Granted.of_modifyCtl id rfl
  · dsimp only
    rw [hon, hprio, hdelta _ _ hoff, AlikeOn.curr hoff]
    split
    · exact hoff.map_of_ctl (f := fun t => t.reschedTask _) (fun _ _ => reschedTask_withSlices) rfl
    · exact hoff

theorem Alike.schedSetscheduler {caller : Caller} {policy prio : ℤ} {user : Bool}
    (h : Alike s s') :
    Alike (Sched.schedSetscheduler K s caller p policy prio user).2
      (Sched.schedSetscheduler K s' caller p policy prio user).2 := by
  -- the checks read no weights and slices
  have hcheck : setschedulerCheck K s' caller p policy prio user =
      setschedulerCheck K s caller p policy prio user := by
    obtain ⟨r, rfl, -⟩ := h
    rfl
  have hctl : s'.ctl p = s.ctl p := congrFun (AlikeOn.ctl h) p
  have hprio : (s'.task p).prio = (s.task p).prio := congrArg TaskControl.prio hctl
  have hclass : (s'.task p).schedClass = (s.task p).schedClass :=
    congrArg TaskControl.schedClass hctl
  rw [Sched.schedSetscheduler, Sched.schedSetscheduler, hcheck]
  cases setschedulerCheck K s caller p policy prio user with
  | error r => exact h
  | ok choice =>
    dsimp only
    rw [changePolicy, changePolicy, hprio, hclass, AlikeOn.curr h]
    exact Alike.checkClassChanged (h.withTaskOffRq (fun _ _ => modifyCtl_withSlices _)
      (fun _ => rfl) fun _ => rfl)

theorem Alike.schedMoveTask {tg : TaskGroup} (h : Alike s s') :
    Alike (Sched.schedMoveTask K s p tg) (Sched.schedMoveTask K s' p tg) := by
  have hon : (s'.task p).onRq = (s.task p).onRq :=
    congrArg (fun c => (c p).onRq) (AlikeOn.ctl h)
  rw [Sched.schedMoveTask, Sched.schedMoveTask, AlikeOn.curr h, hon]
  refine h.withTaskOffRq (f := fun c => { c with schedTaskGroup := tg }) (fun s r => ?_)
    (fun s => accounts_classTaskMoveGroup.ctl) fun _ => rfl
  rw [modifyCtl_withSlices, classTaskMoveGroup_withSlices]

end Change

/-! ### The other steps -/

section Step

/-- A child has the weight and the slice of its parent. -/
theorem fork_withSlices (child : τ) : Sched.fork K (s.withSlices r) child =
    (Sched.fork K s child).withSlices (Function.update r child (r s.curr)) := by
  have hdup : dupTaskStruct (s.withSlices r) child =
      (dupTaskStruct s child).withSlices (Function.update r child (r s.curr)) := by
    rw [dupTaskStruct, dupTaskStruct, Rq.withSlices, Rq.withSlices]
    congr 1
    funext t
    by_cases ht : t = child
    · subst ht
      simp only [Function.update_self]
      rfl
    · simp only [Function.update_of_ne ht]
  have hinit (s : Rq τ Q) (r : τ → ℕ × UInt32) :
      schedForkInit (s.withSlices r) child = (schedForkInit s child).withSlices r := by
    rw [schedForkInit, schedForkInit, modifyTask_withSlices fun _ => rfl]
    rfl
  rw [Sched.fork, Sched.fork, schedFork, schedFork, hdup, hinit, modifyCtl_withSlices,
    ← classTaskFork_withSlices]
  rfl

/-- The slices of the other tasks stay. -/
theorem fork_timeSlice {child t : τ} (ht : t ≠ child) :
    ((Sched.fork K s child).task t).ras.timeSlice = (s.task t).ras.timeSlice := by
  have hself := fork_withSlices (K := K) (s := s) child
    (r := fun t => ((s.task t).ras.weight, (s.task t).ras.timeSlice))
  rw [withSlices_self] at hself
  rw [hself]
  simp only [Rq.withSlices, TaskStruct.withSlice, Function.update_of_ne ht]

/-- A child is not queued. -/
theorem childCtl_onRq (c : TaskControl) : (childCtl c).onRq = false := by
  rw [childCtl, forkedCtl]
  split_ifs <;> rfl

theorem Granted.of_fork {child t : τ} (hchild : child ≠ s.curr)
    (hoff : (s.ctl child).onRq = false) (ht : Granted (Sched.fork K s child) t) :
    t ≠ child ∧ Granted s t := by
  have hctl : (Sched.fork K s child).ctl =
      Function.update s.ctl child (childCtl (s.ctl s.curr)) := (rewrites_fork hchild hoff).ctl
  have hne : t ≠ child := by
    rintro rfl
    have hon := ht.1
    rw [hctl, Function.update_self, childCtl_onRq] at hon
    cases hon
  exact ⟨hne, Granted.of_ctl (by rw [hctl, Function.update_of_ne hne]) ht⟩

/-- A child does not use its slice before it is queued. -/
theorem Alike.fork {child : τ} (h : Alike s s') (hchild : child ≠ s.curr)
    (hoff : (s.ctl child).onRq = false) :
    Alike (Sched.fork K s child) (Sched.fork K s' child) := by
  obtain ⟨r, rfl, hslice⟩ := h
  refine ⟨_, fork_withSlices child, fun t ht => ?_⟩
  obtain ⟨hne, hgranted⟩ := ht.of_fork hchild hoff
  rw [fork_timeSlice hne, Function.update_of_ne hne]
  exact hslice t hgranted

theorem Alike.rtPeriodTimer {g : RtGroup} {overrun : ℕ} (h : Alike s s') (hinv : Inv K s) :
    Alike (doSchedRtPeriodTimer K s g overrun).2 (doSchedRtPeriodTimer K s' g overrun).2 :=
  h.map_of_ctl (f := fun s => (doSchedRtPeriodTimer K s g overrun).2)
    (fun _ _ => doSchedRtPeriodTimer_withSlices g overrun) (hinv.of_rtPeriodTimer g overrun).2.1

/-- A query grants the same slice in both states. -/
theorem Alike.schedRrGetInterval (h : Alike s s') :
    Alike (Sched.schedRrGetInterval K s p).2 (Sched.schedRrGetInterval K s' p).2 := by
  have hclass : (s'.task p).schedClass = (s.task p).schedClass :=
    congrArg (fun c => (c p).schedClass) (AlikeOn.ctl h)
  have hctl : (Sched.schedRrGetInterval K s p).2.ctl = s.ctl := accounts_schedRrGetInterval.ctl
  refine AlikeOn.mono (A := Granted s) ?_ fun t => Granted.of_ctl (congrFun hctl t)
  rw [Sched.schedRrGetInterval, Sched.schedRrGetInterval, hclass]
  cases (s.task p).schedClass with
  | rt => exact h
  | ras =>
    simp only [getRrIntervalRas_eq]
    exact (AlikeOn.grant (f := grantSlice K.hz) (fun _ _ => rfl) h).mono fun _ ht => .inl ht
  | stop | fair | idle => exact h

/-- A step from two such states does the same in both. -/
theorem Alike.execOp {op : Op τ} (h : Alike s s') (hinv : Inv K s) (henabled : Enabled s op) :
    Option.Rel Alike (Sched.execOp K s op) (Sched.execOp K s' op) := by
  cases op with
  | fork child => exact .some (h.fork henabled.2.2.2.2.2 henabled.2.2.2.2.1)
  | wakeUpNewTask p => exact .some h.wakeUpNewTask
  | tryToWakeUp p mask flags => exact .some h.tryToWakeUp
  | schedule preempt signalPending toWakeup => exact h.schedule
  | schedulerTick =>
    refine .some (h.schedulerTick fun hras => hinv.curr.resolve_left fun hidle => ?_)
    rw [hidle, hinv.idle_class] at hras
    cases hras
  | schedYield => exact .some h.schedYield
  | setscheduler caller p policy prio user => exact .some h.schedSetscheduler
  | rtMutexAdjustPrio p waiter => exact .some h.rtMutexAdjustPrio
  | setUserNice p nice => exact .some h.setUserNice
  | schedMoveTask p tg => exact .some h.schedMoveTask
  | schedRrGetInterval p => exact .some h.schedRrGetInterval
  | rtPeriodTimer g overrun => exact .some (h.rtPeriodTimer hinv)
  | setCurrentState state =>
    rw [Sched.execOp, Sched.execOp, AlikeOn.curr h]
    exact .some h.setState
  | writeTrace p wcounts traceFlag =>
    have hctl : (s.modifyTask p fun p =>
        { p with wcounts := wcounts, traceFlag := traceFlag }).ctl = s.ctl :=
      ctl_modifyTask s p _ rfl
    exact .some (h.map_of_ctl (f := fun s => s.modifyTask p fun p =>
      { p with wcounts := wcounts, traceFlag := traceFlag })
      (fun _ _ => modifyTask_withSlices fun _ => rfl) hctl)

end Step

end OsProject.Sched
