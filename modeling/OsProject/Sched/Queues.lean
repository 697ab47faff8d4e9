import OsProject.Sched.RtEligible
import OsProject.Sched.Step

/-!
# What the run queue holds

The data of the run queue *holds* a finite set of tasks when each of them is queued exactly once,
in the queue of its class, no other task is queued anywhere, and every counter is the number of
tasks it counts. Enqueueing a task adds it to the set and dequeueing removes it; every other
callback only keeps accounts or moves a task within its queue.

## Main definitions

* `RunList`, `Holds` — the run queue holds a set of tasks.
* `Quiet` — the control fields and the current task stay, and no reschedule is lost.
* `Accounts`, `Keeps` — the queues stay the same, or hold the same tasks.

## Main results

* `enqueueTask_holds`, `dequeueTask_holds`.
* `accounts_pickNextTask`, `keeps_classPutPrevTask`, `keeps_classTaskTick`, and the lemmas on the
  other callbacks.
-/

namespace OsProject.Sched

open Intrusive

variable {τ Q : Type*}

/-! ### Tasks by class -/

/-- The tasks of `F` in a class. -/
def inClass (ctl : τ → TaskControl) (F : Finset τ) (c : SchedClass) : Finset τ :=
  F.filter fun t => (ctl t).schedClass = c

section InClass

variable {ctl ctl' : τ → TaskControl} {F : Finset τ} {c : SchedClass} {p t : τ}

@[simp]
theorem mem_inClass : t ∈ inClass ctl F c ↔ t ∈ F ∧ (ctl t).schedClass = c := by simp [inClass]

theorem inClass_congr (h : ∀ t ∈ F, (ctl' t).schedClass = (ctl t).schedClass) :
    inClass ctl' F c = inClass ctl F c := Finset.filter_congr fun t ht => by rw [h t ht]

variable [DecidableEq τ]

theorem inClass_insert_of_ne (h : (ctl p).schedClass ≠ c) :
    inClass ctl (insert p F) c = inClass ctl F c := by
  rw [inClass, Finset.filter_insert, if_neg h, inClass]

theorem inClass_insert (h : (ctl p).schedClass = c) :
    inClass ctl (insert p F) c = insert p (inClass ctl F c) := by
  rw [inClass, Finset.filter_insert, if_pos h, inClass]

theorem inClass_erase (ctl : τ → TaskControl) (F : Finset τ) (c : SchedClass) (p : τ) :
    inClass ctl (F.erase p) c = (inClass ctl F c).erase p := Finset.filter_erase _ _ _

theorem inClass_erase_of_ne (h : (ctl p).schedClass ≠ c) :
    inClass ctl (F.erase p) c = inClass ctl F c := by
  rw [inClass_erase, Finset.erase_eq_of_notMem fun hm => h (mem_inClass.mp hm).2]

end InClass

/-! ### The run queue -/

/-- The tasks on the RAS run list, in order. -/
def RunList (s : Rq τ Q) (l : List τ) : Prop := Owns s.ras.links none (l.map some)

theorem RunList.unique {s : Rq τ Q} {l l' : List τ} (h : RunList s l) (h' : RunList s l') :
    l = l' := List.map_injective_iff.mpr (Option.some_injective τ) (Ring.unique h.toRing h'.toRing)

/-- The run queue holds the tasks of `F`, each in the queue of its class. -/
structure Holds [DecidableEq τ] (K : Kernel τ Q) (s : Rq τ Q) (F : Finset τ) : Prop where
  ras : ∃ l, RunList s l ∧ (∀ t, t ∈ l ↔ t ∈ inClass s.ctl F .ras) ∧
    s.ras.rasNrRunning = l.length
  rt : RtRqsHold s.rt s.ctl (inClass s.ctl F .rt)
  queued : ∀ t, K.queued s.cfs.data t =
    if t ∈ F ∧ (s.ctl t).schedClass ≠ .rt ∧ (s.ctl t).schedClass ≠ .ras then
      some (s.ctl t).schedClass
    else none
  nrRunning : s.nrRunning = F.card
  hNrRunning : s.cfs.hNrRunning = (inClass s.ctl F .fair).card
  idle : ∀ t ∈ F, (s.ctl t).schedClass ≠ .idle

section Control

variable [DecidableEq τ]

theorem ctl_modifyCtl (s : Rq τ Q) (p : τ) (f : TaskControl → TaskControl) :
    (s.modifyCtl p f).ctl = Function.update s.ctl p (f (s.ctl p)) := by
  funext t
  by_cases h : t = p
  · subst h; simp [Rq.ctl, Rq.modifyCtl, Rq.modifyTask]
  · simp [Rq.ctl, Rq.modifyCtl, Rq.modifyTask, h]

theorem ctl_modifyTask (s : Rq τ Q) (p : τ) (f : TaskStruct → TaskStruct)
    (hf : (f (s.task p)).toTaskControl = s.ctl p) : (s.modifyTask p f).ctl = s.ctl := by
  funext t
  by_cases h : t = p
  · subst h; simpa [Rq.ctl, Rq.modifyTask] using hf
  · simp [Rq.ctl, Rq.modifyTask, h]

end Control

/-- The control fields and the current task are as before; a reschedule that is due stays due and
a used up bandwidth of a group stays used up. -/
structure Quiet (s s' : Rq τ Q) : Prop where
  ctl : s'.ctl = s.ctl
  curr : s'.curr = s.curr
  idle : s'.idle = s.idle
  stop : s'.stop = s.stop
  needResched : ∀ t, s.needResched t = true → s'.needResched t = true
  rtThrottled : ∀ g, s.rt.throttled g = true → s'.rt.throttled g = true

namespace Quiet

variable {s s' s'' : Rq τ Q}

theorem refl (s : Rq τ Q) : Quiet s s := ⟨rfl, rfl, rfl, rfl, fun _ => id, fun _ => id⟩

theorem trans (h : Quiet s s') (h' : Quiet s' s'') : Quiet s s'' where
  ctl := h'.ctl.trans h.ctl
  curr := h'.curr.trans h.curr
  idle := h'.idle.trans h.idle
  stop := h'.stop.trans h.stop
  needResched t ht := h'.needResched t (h.needResched t ht)
  rtThrottled g ht := h'.rtThrottled g (h.rtThrottled g ht)

end Quiet

variable [DecidableEq τ]

/-- A quiet step after which every queue and counter is as before. -/
structure Accounts (K : Kernel τ Q) (s s' : Rq τ Q) : Prop extends Quiet s s' where
  ras : s'.ras = s.ras
  rt : s'.rt = s.rt
  queued : K.queued s'.cfs.data = K.queued s.cfs.data
  nrRunning : s'.nrRunning = s.nrRunning
  hNrRunning : s'.cfs.hNrRunning = s.cfs.hNrRunning

/-- A quiet step after which the run queue holds the same tasks. -/
structure Keeps (K : Kernel τ Q) (s s' : Rq τ Q) : Prop extends Quiet s s' where
  holds : ∀ F, Holds K s F → Holds K s' F

section Steps

variable {K : Kernel τ Q} {s s' s'' : Rq τ Q} {F : Finset τ} {p : τ}

theorem Accounts.refl (K : Kernel τ Q) (s : Rq τ Q) : Accounts K s s :=
  ⟨.refl s, rfl, rfl, rfl, rfl, rfl⟩

theorem Accounts.trans (h : Accounts K s s') (h' : Accounts K s' s'') : Accounts K s s'' where
  toQuiet := h.toQuiet.trans h'.toQuiet
  ras := h'.ras.trans h.ras
  rt := h'.rt.trans h.rt
  queued := h'.queued.trans h.queued
  nrRunning := h'.nrRunning.trans h.nrRunning
  hNrRunning := h'.hNrRunning.trans h.hNrRunning

theorem Accounts.runList {l : List τ} (h : Accounts K s s') (hl : RunList s l) : RunList s' l := by
  rwa [RunList, h.ras]

theorem Accounts.holds (h : Accounts K s s') (hs : Holds K s F) : Holds K s' F where
  ras := by
    obtain ⟨l, hl, hmem, hn⟩ := hs.ras
    exact ⟨l, h.runList hl, by rwa [h.ctl], by rwa [h.ras]⟩
  rt := by
    rw [h.ctl, h.rt]
    exact hs.rt
  queued t := by rw [h.queued, h.ctl, hs.queued t]
  nrRunning := by rw [h.nrRunning, hs.nrRunning]
  hNrRunning := by rw [h.hNrRunning, h.ctl, hs.hNrRunning]
  idle t ht := by rw [h.ctl]; exact hs.idle t ht

theorem Accounts.keeps (h : Accounts K s s') : Keeps K s s' := ⟨h.toQuiet, fun _ => h.holds⟩

theorem Keeps.refl (K : Kernel τ Q) (s : Rq τ Q) : Keeps K s s := (Accounts.refl K s).keeps

theorem Keeps.trans (h : Keeps K s s') (h' : Keeps K s' s'') : Keeps K s s'' :=
  ⟨h.toQuiet.trans h'.toQuiet, fun F hs => h'.holds F (h.holds F hs)⟩

/-! ### Keeping accounts -/

theorem accounts_modifyTask {f : TaskStruct → TaskStruct}
    (hf : ∀ t, (f t).toTaskControl = t.toTaskControl) : Accounts K s (s.modifyTask p f) :=
  ⟨⟨ctl_modifyTask s p f (hf _), rfl, rfl, rfl, fun _ => id, fun _ => id⟩, rfl, rfl, rfl, rfl, rfl⟩

theorem accounts_reschedTask : Accounts K s (s.reschedTask p) := by
  refine ⟨⟨rfl, rfl, rfl, rfl, fun t ht => ?_, fun _ => id⟩, rfl, rfl, rfl, rfl, rfl⟩
  by_cases h : t = p
  · simp [Rq.reschedTask, h]
  · simpa [Rq.reschedTask, h] using ht

theorem accounts_setData {d : Q} (hd : K.queued d = K.queued s.cfs.data) :
    Accounts K s (s.setData d) :=
  ⟨⟨rfl, rfl, rfl, rfl, fun _ => id, fun _ => id⟩, rfl, rfl, hd, rfl, rfl⟩

theorem accounts_applyEffect {e : ForeignEffect Q} (he : K.queued e.data = K.queued s.cfs.data) :
    Accounts K s (s.applyEffect e) := by
  have hdata : Accounts K s { s with
      cfs := { s.cfs with data := e.data }
      skipClockUpdate := if e.skipClock then 1 else s.skipClockUpdate } :=
    ⟨⟨rfl, rfl, rfl, rfl, fun _ => id, fun _ => id⟩, rfl, rfl, he, rfl, rfl⟩
  rw [Rq.applyEffect]
  split
  · exact hdata.trans accounts_reschedTask
  · exact hdata

theorem accounts_atTime {now : ℤ} : Accounts K s (atTime s now) :=
  ⟨⟨rfl, rfl, rfl, rfl, fun _ => id, fun _ => id⟩, rfl, rfl, rfl, rfl, rfl⟩

theorem accounts_updateRqClock : Accounts K s (updateRqClock s) := by
  rw [updateRqClock]
  split
  · exact .refl K s
  · exact ⟨⟨rfl, rfl, rfl, rfl, fun _ => id, fun _ => id⟩, rfl, rfl, rfl, rfl, rfl⟩

theorem accounts_chargeCurr : Accounts K s (chargeCurr s) := accounts_modifyTask fun _ => by rfl

theorem accounts_updateCurrRas : Accounts K s (updateCurrRas s) := by
  rw [updateCurrRas]
  split
  · exact .refl K s
  · exact accounts_chargeCurr

theorem updateCurrRas_ras (s : Rq τ Q) : (updateCurrRas s).ras = s.ras := by
  rw [updateCurrRas]
  split <;> rfl

/-- The real-time run queues are written, and hold the same tasks. -/
theorem keeps_withRt {rt : RtRqs τ} (hthr : ∀ g, s.rt.throttled g = true → rt.throttled g = true)
    (hrt : ∀ R, RtRqsHold s.rt s.ctl R → RtRqsHold rt s.ctl R) : Keeps K s { s with rt := rt } :=
  ⟨⟨rfl, rfl, rfl, rfl, fun _ => id, hthr⟩, fun _ h =>
    ⟨h.ras, hrt _ h.rt, h.queued, h.nrRunning, h.hNrRunning, h.idle⟩⟩

theorem keeps_chargeRtRq {delta : ℤ} {g : RtGroup} : Keeps K s (chargeRtRq delta s g) := by
  rw [chargeRtRq]
  split
  · exact .refl K s
  · dsimp only
    have hadd : ∀ R, RtRqsHold s.rt s.ctl R →
        RtRqsHold (s.rt.modify g fun q => { q with rtTime := q.rtTime + delta }) s.ctl R := fun R h =>
      h.modify (fun _ => ⟨rfl, rfl, rfl, rfl⟩) (by simp [groupQueued_iff, RtRqs.modify, rtRqThrottled])
    have hcharge : Keeps K s { s with
        rt := (schedRtRuntimeExceeded
          (s.rt.modify g fun q => { q with rtTime := q.rtTime + delta }) s.ctl g).2 } :=
      keeps_withRt (fun k hk => throttled_schedRtRuntimeExceeded
          (throttled_modify (f := fun q => { q with rtTime := q.rtTime + delta }) (fun _ hq => hq) hk))
        fun R h => (hadd R h).schedRtRuntimeExceeded g
    split
    · exact hcharge.trans accounts_reschedTask.keeps
    · exact hcharge

theorem keeps_foldl_chargeRtRq {delta : ℤ} {gs : List RtGroup} :
    Keeps K s (gs.foldl (chargeRtRq delta) s) := by
  induction gs generalizing s with
  | nil => exact .refl K s
  | cons g gs ih => exact keeps_chargeRtRq.trans ih

theorem keeps_updateCurrRt : Keeps K s (updateCurrRt K s) := by
  rw [updateCurrRt]
  split
  · exact .refl K s
  · dsimp only
    split
    · exact accounts_chargeCurr.keeps
    · exact accounts_chargeCurr.keeps.trans keeps_foldl_chargeRtRq

/-- The run times of groups are charged in the real-time run queues alone. -/
theorem foldl_chargeRtRq_eq (delta : ℤ) (gs : List RtGroup) (s : Rq τ Q) :
    ∃ rt needResched, gs.foldl (chargeRtRq delta) s = { s with rt, needResched } := by
  induction gs generalizing s with
  | nil => exact ⟨s.rt, s.needResched, rfl⟩
  | cons g gs ih =>
    have hone : ∃ rt needResched, chargeRtRq delta s g = { s with rt, needResched } := by
      rw [chargeRtRq]
      dsimp only
      split_ifs
      · exact ⟨s.rt, s.needResched, rfl⟩
      · exact ⟨_, _, rfl⟩
      · exact ⟨_, s.needResched, rfl⟩
    obtain ⟨rt, needResched, hone⟩ := hone
    obtain ⟨rt', needResched', hrest⟩ := ih (chargeRtRq delta s g)
    exact ⟨rt', needResched', by rw [List.foldl_cons, hrest, hone]⟩

/-- `update_curr_rt` charges the current task, and then only the real-time run queues. -/
theorem updateCurrRt_eq (K : Kernel τ Q) (s : Rq τ Q) :
    updateCurrRt K s = s ∨
      ∃ rt needResched, updateCurrRt K s = { chargeCurr s with rt, needResched } := by
  rw [updateCurrRt]
  split
  · exact .inl rfl
  · dsimp only
    split
    · exact .inr ⟨_, _, rfl⟩
    · exact .inr (foldl_chargeRtRq_eq ..)

theorem updateCurrRt_ras : (updateCurrRt K s).ras = s.ras := by
  rcases updateCurrRt_eq K s with h | ⟨rt, needResched, h⟩ <;> rw [h]
  rfl

theorem accounts_setCurr :
    Accounts K s (s.modifyTask s.curr fun p =>
      { p with se := { p.se with execStart := s.clockTask } }) :=
  accounts_modifyTask fun _ => by rfl

theorem accounts_classSetCurrTask : Accounts K s (classSetCurrTask K s) := by
  rw [classSetCurrTask]
  split
  · exact accounts_setCurr
  · exact accounts_setCurr
  · exact accounts_setData (K.queued_setCurrTask ..)

/-- The weights that the RAS class compares are computed from the write counts. -/
theorem checkPreemptCurrRas_eq (s : Rq τ Q) (p : τ) :
    checkPreemptCurrRas s p =
      if calcRasWeight (s.task s.curr) < calcRasWeight (s.task p) then
        (updateWeight (updateWeight s p) s.curr).reschedTask s.curr
      else updateWeight (updateWeight s p) s.curr := by
  have hself : ((updateWeight (updateWeight s p) s.curr).task s.curr).ras.weight =
      calcRasWeight (s.task s.curr) := by
    by_cases he : s.curr = p
    · simp [updateWeight, Rq.modifyTask, he, calcRasWeight]
    · simp [updateWeight, Rq.modifyTask, he]
  have hother : ((updateWeight (updateWeight s p) s.curr).task p).ras.weight =
      calcRasWeight (s.task p) := by
    by_cases he : p = s.curr
    · simp [updateWeight, Rq.modifyTask, ← he, calcRasWeight]
    · simp [updateWeight, Rq.modifyTask, he]
  have hcurr : (updateWeight (updateWeight s p) s.curr).curr = s.curr := rfl
  rw [checkPreemptCurrRas]
  simp only [hcurr, hself, hother]

theorem accounts_checkPreemptCurrRas : Accounts K s (checkPreemptCurrRas s p) := by
  have hweights : Accounts K s (updateWeight (updateWeight s p) s.curr) :=
    (accounts_modifyTask fun _ => by rfl).trans (accounts_modifyTask fun _ => by rfl)
  rw [checkPreemptCurrRas]
  split
  · exact hweights.trans accounts_reschedTask
  · exact hweights

theorem accounts_classCheckPreemptCurr {flags : ℕ} :
    Accounts K s (classCheckPreemptCurr K s p flags) := by
  rw [classCheckPreemptCurr]
  split
  · rw [checkPreemptCurrRt]
    split
    · exact accounts_reschedTask
    · exact .refl K s
  · exact accounts_checkPreemptCurrRas
  · exact accounts_applyEffect (K.queued_checkPreemptCurr ..)

theorem accounts_skipClock (n : ℤ) : Accounts K s { s with skipClockUpdate := n } :=
  ⟨⟨rfl, rfl, rfl, rfl, fun _ => id, fun _ => id⟩, rfl, rfl, rfl, rfl, rfl⟩

theorem accounts_preemptCurr {flags : ℕ} : Accounts K s (preemptCurr K s p flags) := by
  rw [preemptCurr]
  split_ifs
  · exact accounts_classCheckPreemptCurr
  · exact accounts_reschedTask
  · exact .refl K s

theorem accounts_checkPreemptCurr {flags : ℕ} : Accounts K s (checkPreemptCurr K s p flags) := by
  rw [checkPreemptCurr]
  split
  · exact accounts_preemptCurr.trans (accounts_skipClock 1)
  · exact accounts_preemptCurr

theorem accounts_classSwitchedFrom {c : SchedClass} : Accounts K s (classSwitchedFrom K s c p) := by
  cases c with
  | rt => exact .refl K s
  | ras => exact .refl K s
  | stop | fair | idle => exact accounts_setData (K.queued_switchedFrom ..)

theorem accounts_classSwitchedTo : Accounts K s (classSwitchedTo K s p) := by
  rw [classSwitchedTo]
  split
  · rw [switchedToRt]
    split
    · exact accounts_reschedTask
    · exact .refl K s
  · rw [switchedToRas]
    split
    · exact accounts_reschedTask
    · exact .refl K s
  · exact accounts_applyEffect (K.queued_switchedTo ..)

theorem accounts_classPrioChanged {oldprio : ℤ} :
    Accounts K s (classPrioChanged K s p oldprio) := by
  rw [classPrioChanged]
  split
  · rw [prioChangedRt]
    split_ifs
    all_goals first | exact accounts_reschedTask | exact .refl K s
  · exact .refl K s
  · exact accounts_applyEffect (K.queued_prioChanged ..)

theorem accounts_checkClassChanged {c : SchedClass} {oldprio : ℤ} :
    Accounts K s (checkClassChanged K s p c oldprio) := by
  rw [checkClassChanged]
  split_ifs
  · exact accounts_classSwitchedFrom.trans accounts_classSwitchedTo
  · exact accounts_classPrioChanged
  · exact .refl K s

theorem accounts_classTaskMoveGroup {onRq : Bool} :
    Accounts K s (classTaskMoveGroup K s p onRq) := by
  rw [classTaskMoveGroup]
  split
  · exact .refl K s
  · exact .refl K s
  · exact accounts_setData (K.queued_taskMoveGroup ..)

theorem accounts_classTaskFork : Accounts K s (classTaskFork K s p) := by
  rw [classTaskFork]
  split
  · exact .refl K s
  · exact .refl K s
  · exact accounts_applyEffect (K.queued_taskFork ..)

theorem accounts_schedRrGetInterval : Accounts K s (schedRrGetInterval K s p).2 := by
  rw [schedRrGetInterval]
  split
  · exact Accounts.refl K s
  · simp only [getRrIntervalRas]
    exact accounts_modifyTask fun _ => by rfl
  · exact Accounts.refl K s

/-! ### Picking a task -/

theorem accounts_classPickNextTask {c : SchedClass} : Accounts K s (classPickNextTask K s c).2 := by
  cases c with
  | rt =>
    simp only [classPickNextTask, pickNextTaskRt]
    split_ifs
    · exact Accounts.refl K s
    · exact Accounts.refl K s
    · split
      · exact Accounts.refl K s
      · dsimp only
        exact accounts_modifyTask fun _ => by rfl
  | ras =>
    simp only [classPickNextTask, pickNextTaskRas]
    split_ifs
    · exact Accounts.refl K s
    · split
      · exact Accounts.refl K s
      · dsimp only
        exact accounts_modifyTask fun _ => by rfl
  | idle => exact accounts_setData (K.queued_pickNextTask ..)
  | stop =>
    have := K.queued_pickNextTask .stop s.view s.cfs.data
    simp only [classPickNextTask]
    split <;> exact accounts_setData (by simp_all)
  | fair =>
    have := K.queued_pickNextTask .fair s.view s.cfs.data
    simp only [classPickNextTask]
    split <;> exact accounts_setData (by simp_all)

theorem accounts_pickFrom : ∀ {cs : List SchedClass} {s : Rq τ Q}, Accounts K s (pickFrom K s cs).2
  | [], s => .refl K s
  | c :: cs, s => by
    have hpick : Accounts K s (classPickNextTask K s c).2 := accounts_classPickNextTask
    rw [pickFrom]
    split
    · next s' h =>
      rw [h] at hpick
      exact hpick.trans accounts_pickFrom
    · exact hpick

theorem accounts_pickNextTask : Accounts K s (pickNextTask K s).2 := by
  have hpick : Accounts K s (classPickNextTask K s .fair).2 := accounts_classPickNextTask
  rw [pickNextTask]
  split
  · split
    · next s' h =>
      rw [h] at hpick
      exact hpick.trans accounts_pickFrom
    · exact hpick
  · exact accounts_pickFrom

/-! ### Moving a task within its queue -/

omit [DecidableEq τ] in
theorem mem_map_some {p : τ} {l : List τ} : some p ∈ l.map some ↔ p ∈ l := by simp

theorem RunList.onRasRq_iff {l : List τ} (h : RunList s l) : onRasRq s p = true ↔ p ∈ l := by
  have := Owns.listEmpty_iff h (Option.some_ne_none p)
  rw [mem_map_some] at this
  rw [onRasRq, Bool.not_eq_true', Bool.eq_false_iff, ne_eq, this, not_not]

/-- The run list after a task has been moved to its tail. -/
def toTail (l : List τ) (p : τ) : List τ := if p ∈ l then l.erase p ++ [p] else l

theorem mem_toTail {l : List τ} {p t : τ} : t ∈ toTail l p ↔ t ∈ l := by
  rw [toTail]
  split
  · next h =>
    by_cases ht : t = p
    · simp [ht, h]
    · simp [ht, List.mem_erase_of_ne ht]
  · exact Iff.rfl

theorem length_toTail {l : List τ} {p : τ} : (toTail l p).length = l.length := by
  rw [toTail]
  split
  · next h =>
    have := List.length_pos_of_mem h
    simp only [List.length_append, List.length_erase_of_mem h, List.length_singleton]
    omega
  · rfl

theorem RunList.requeueTaskRas {l : List τ} (h : RunList s l) (p : τ) :
    RunList (requeueTaskRas s p) (toTail l p) := by
  rw [Sched.requeueTaskRas, toTail]
  by_cases hp : p ∈ l
  · rw [if_pos (h.onRasRq_iff.mpr hp), if_pos hp]
    obtain ⟨l₁, l₂, -, rfl, he⟩ := List.exists_erase_eq hp
    have ho : Owns s.ras.links none (l₁.map some ++ some p :: l₂.map some) := by
      simpa [RunList] using h
    simpa [RunList, he] using ho.listMoveTail
  · rwa [if_neg fun hon => hp (h.onRasRq_iff.mp hon), if_neg hp]

theorem keeps_requeueTaskRas : Keeps K s (requeueTaskRas s p) := by
  have hquiet : Quiet s (requeueTaskRas s p) := by
    rw [requeueTaskRas]
    split
    · exact ⟨rfl, rfl, rfl, rfl, fun _ => id, fun _ => id⟩
    · exact .refl s
  refine ⟨hquiet, fun F h => ?_⟩
  obtain ⟨l, hl, hmem, hn⟩ := h.ras
  have hras : ∃ l, RunList (requeueTaskRas s p) l ∧
      (∀ t, t ∈ l ↔ t ∈ inClass (requeueTaskRas s p).ctl F .ras) ∧
      (requeueTaskRas s p).ras.rasNrRunning = l.length := by
    refine ⟨toTail l p, hl.requeueTaskRas p, fun t => ?_, ?_⟩
    · rw [mem_toTail, hmem, hquiet.ctl]
    · rw [length_toTail, ← hn, requeueTaskRas]
      split <;> rfl
  rw [requeueTaskRas] at hras ⊢
  split at hras
  · next hon => rw [if_pos hon]; exact ⟨hras, h.rt, h.queued, h.nrRunning, h.hNrRunning, h.idle⟩
  · next hon => rwa [if_neg hon]

theorem keeps_requeueTaskRt : Keeps K s (requeueTaskRt s p) := by
  refine keeps_withRt (fun g hg => ?_) fun R h => h.requeue _
  rwa [foldl_keeps (φ := RtRqs.throttled) (fun rt e => throttled_requeueRtEntity rt s.ctl e)]

theorem keeps_classPutPrevTask : Keeps K s (classPutPrevTask K s p) := by
  rw [classPutPrevTask]
  split
  · exact keeps_updateCurrRt
  · exact accounts_updateCurrRas.keeps.trans keeps_requeueTaskRas
  · exact (accounts_setData (K.queued_putPrevTask ..)).keeps

theorem keeps_classYieldTask : Keeps K s (classYieldTask K s) := by
  rw [classYieldTask]
  split
  · exact keeps_requeueTaskRt
  · exact keeps_requeueTaskRas
  · exact (accounts_applyEffect (K.queued_yieldTask ..)).keeps

omit [DecidableEq τ] in
theorem watchdogRas_ctl (hz : ℕ) (p : TaskStruct) :
    (watchdogRas hz p).toTaskControl = p.toTaskControl := by
  rw [watchdogRas]; split <;> rfl

omit [DecidableEq τ] in
theorem watchdogRt_ctl (hz : ℕ) (p : TaskStruct) :
    (watchdogRt hz p).toTaskControl = p.toTaskControl := by
  rw [watchdogRt]; split <;> rfl

omit [DecidableEq τ] in
theorem watchdogRas_timeSlice (hz : ℕ) (p : TaskStruct) :
    (watchdogRas hz p).ras.timeSlice = p.ras.timeSlice := by
  rw [watchdogRas]; split <;> rfl

theorem updateCurrRas_task_ras (s : Rq τ Q) (t : τ) :
    ((updateCurrRas s).task t).ras = (s.task t).ras := by
  rw [updateCurrRas]
  split
  · rfl
  · by_cases ht : t = s.curr
    · subst ht; simp [chargeCurr, Rq.modifyTask]
    · simp [chargeCurr, Rq.modifyTask, ht]

/-- A task with a new slice. -/
def grantSlice (hz : ℕ) (p : TaskStruct) : TaskStruct :=
  { p with ras := { p.ras with weight := calcRasWeight p, timeSlice := rasSlice hz p } }

omit [DecidableEq τ] in
/-- The slice by the group and the weight, as the three functions that grant one spell it. -/
theorem rasSlice_eq (hz : ℕ) (p : TaskStruct) :
    (if taskGroupPath p = "/" then
        UInt32.ofNat (rasFgTimeslice hz + calcRasWeight p * rasIncTime hz)
      else if taskGroupPath p = "/bg_non_interactive" then
        UInt32.ofNat (rasBgTimeslice hz + calcRasWeight p * rasIncTime hz)
      else UInt32.ofNat (rasBgTimeslice hz + calcRasWeight p * rasIncTime hz)) = rasSlice hz p := by
  rw [rasSlice]
  split_ifs <;> rfl

/-- What a tick does before it looks at the slice. -/
def countTick (K : Kernel τ Q) (s : Rq τ Q) (p : τ) : Rq τ Q :=
  ((updateCurrRas s).modifyTask p (watchdogRas K.hz)).modifyTask p fun p =>
    { p with ras := { p.ras with timeSlice := p.ras.timeSlice - 1 } }

theorem accounts_countTick : Accounts K s (countTick K s p) :=
  (accounts_updateCurrRas.trans (accounts_modifyTask (watchdogRas_ctl K.hz))).trans
    (accounts_modifyTask fun _ => by rfl)

theorem accounts_grantSlice : Accounts K s (s.modifyTask p (grantSlice K.hz)) :=
  accounts_modifyTask fun _ => rfl

/-- A tick counts the slice of the task down. A task whose slice has expired gets a new one, and
goes to the tail when it does not have the run list to itself. -/
theorem taskTickRas_eq (K : Kernel τ Q) (s : Rq τ Q) (p : τ) :
    taskTickRas K s p =
      if (s.task p).ras.timeSlice - 1 ≠ 0 then countTick K s p
      else if s.ras.links.prev none ≠ s.ras.links.next none then
        (requeueTaskRas ((countTick K s p).modifyTask p (grantSlice K.hz)) p).reschedTask p
      else (countTick K s p).modifyTask p (grantSlice K.hz) := by
  have hslice : ((countTick K s p).task p).ras.timeSlice = (s.task p).ras.timeSlice - 1 := by
    simp [countTick, Rq.modifyTask, watchdogRas_timeSlice, updateCurrRas_task_ras]
  have hras : (countTick K s p).ras = s.ras := (accounts_countTick (K := K)).ras
  rw [taskTickRas]
  simp only [rasSlice_eq]
  rw [← hslice, ← hras]
  rfl

/-- A query grants a slice and returns it. -/
theorem getRrIntervalRas_eq (K : Kernel τ Q) (s : Rq τ Q) (p : τ) :
    getRrIntervalRas K s p = (rasSlice K.hz (s.task p), s.modifyTask p (grantSlice K.hz)) := by
  have hgrant : (getRrIntervalRas K s p).2 = s.modifyTask p (grantSlice K.hz) := by
    rw [getRrIntervalRas]
    simp only [rasSlice_eq]
    rfl
  have hslice : ((s.modifyTask p (grantSlice K.hz)).task p).ras.timeSlice =
      rasSlice K.hz (s.task p) := by
    simp [Rq.modifyTask, grantSlice]
  refine Prod.ext ?_ hgrant
  rw [← hslice, ← hgrant]
  rfl

theorem keeps_taskTickRas : Keeps K s (taskTickRas K s p) := by
  have hrefill : Keeps K s ((countTick K s p).modifyTask p (grantSlice K.hz)) :=
    (accounts_countTick.trans accounts_grantSlice).keeps
  rw [taskTickRas_eq]
  split_ifs
  · exact accounts_countTick.keeps
  · exact (hrefill.trans keeps_requeueTaskRas).trans accounts_reschedTask.keeps
  · exact hrefill

theorem keeps_taskTickRt : Keeps K s (taskTickRt K s p) := by
  have htick : Keeps K s ((updateCurrRt K s).modifyTask p (watchdogRt K.hz)) :=
    keeps_updateCurrRt.trans (accounts_modifyTask (watchdogRt_ctl K.hz)).keeps
  have hslice : ∀ f : UInt32 → UInt32, Keeps K s
      (((updateCurrRt K s).modifyTask p (watchdogRt K.hz)).modifyTask p fun p =>
        { p with rt := { p.rt with timeSlice := f p.rt.timeSlice } }) := fun f =>
    htick.trans (accounts_modifyTask fun _ => by rfl).keeps
  have hgrant : Keeps K s
      ((((updateCurrRt K s).modifyTask p (watchdogRt K.hz)).modifyTask p fun p =>
        { p with rt := { p.rt with timeSlice := p.rt.timeSlice - 1 } }).modifyTask p fun p =>
          { p with rt := { p.rt with timeSlice := UInt32.ofNat (rrTimeslice K.hz) } }) :=
    (hslice fun n => n - 1).trans (accounts_modifyTask fun _ => by rfl).keeps
  rw [taskTickRt]
  simp only []
  split_ifs
  · exact htick
  · exact hslice fun n => n - 1
  · exact (hgrant.trans keeps_requeueTaskRt).trans accounts_reschedTask.keeps
  · exact hgrant

theorem keeps_classTaskTick : Keeps K s (classTaskTick K s) := by
  rw [classTaskTick]
  split
  · exact keeps_taskTickRt
  · exact keeps_taskTickRas
  · exact (accounts_applyEffect (K.queued_taskTick ..)).keeps

/-! ### Enqueueing and dequeueing -/

/-- A step that enqueues `p`: quiet, and `p` joins the tasks held. -/
structure Enqueues (K : Kernel τ Q) (s s' : Rq τ Q) (p : τ) : Prop extends Quiet s s' where
  holds : ∀ F, p ∉ F → Holds K s F → Holds K s' (insert p F)

/-- A step that dequeues `p`: quiet, and `p` leaves the tasks held. -/
structure Dequeues (K : Kernel τ Q) (s s' : Rq τ Q) (p : τ) : Prop extends Quiet s s' where
  holds : ∀ F, p ∈ F → Holds K s F → Holds K s' (F.erase p)

theorem Accounts.enqueues (h : Accounts K s s') (h' : Enqueues K s' s'' p) : Enqueues K s s'' p :=
  ⟨h.toQuiet.trans h'.toQuiet, fun F hp hs => h'.holds F hp (h.holds hs)⟩

theorem Keeps.dequeues (h : Keeps K s s') (h' : Dequeues K s' s'' p) : Dequeues K s s'' p :=
  ⟨h.toQuiet.trans h'.toQuiet, fun F hp hs => h'.holds F hp (h.holds F hs)⟩

/-- The parts of the run queue after an enqueue. -/
theorem Holds.insert_of (h : Holds K s F) (hp : p ∉ F) (hq : Quiet s s')
    (hidle : (s.ctl p).schedClass ≠ .idle)
    (hras : ∃ l, RunList s' l ∧ (∀ t, t ∈ l ↔ t ∈ inClass s.ctl (insert p F) .ras) ∧
      s'.ras.rasNrRunning = l.length)
    (hrt : RtRqsHold s'.rt s.ctl (inClass s.ctl (insert p F) .rt))
    (hqueued : K.queued s'.cfs.data =
      if (s.ctl p).schedClass = .rt ∨ (s.ctl p).schedClass = .ras then K.queued s.cfs.data
      else Function.update (K.queued s.cfs.data) p (some (s.ctl p).schedClass))
    (hn : s'.nrRunning = s.nrRunning + 1)
    (hhn : s'.cfs.hNrRunning =
      if (s.ctl p).schedClass = .fair then s.cfs.hNrRunning + 1 else s.cfs.hNrRunning) :
    Holds K s' (insert p F) where
  ras := by rwa [hq.ctl]
  rt := by rwa [hq.ctl]
  queued t := by
    rw [hqueued, hq.ctl]
    by_cases hc : (s.ctl p).schedClass = .rt ∨ (s.ctl p).schedClass = .ras
    · rw [if_pos hc, h.queued t]
      by_cases ht : t = p
      · subst ht
        rcases hc with hc | hc <;> simp [hc]
      · simp [ht]
    · rw [if_neg hc]
      by_cases ht : t = p
      · subst ht
        simp [not_or.mp hc]
      · simp [ht, h.queued t]
  nrRunning := by
    rw [hn, h.nrRunning, Finset.card_insert_of_notMem hp]
    push_cast
    rfl
  hNrRunning := by
    rw [hhn, hq.ctl, h.hNrRunning]
    split
    · next hc =>
      rw [inClass_insert hc, Finset.card_insert_of_notMem (by simp [hp])]
      push_cast
      rfl
    · next hc => rw [inClass_insert_of_ne hc]
  idle t ht := by
    rw [hq.ctl]
    rcases Finset.mem_insert.mp ht with rfl | ht
    · exact hidle
    · exact h.idle t ht

/-- The parts of the run queue after a dequeue. -/
theorem Holds.erase_of (h : Holds K s F) (hp : p ∈ F) (hq : Quiet s s')
    (hras : ∃ l, RunList s' l ∧ (∀ t, t ∈ l ↔ t ∈ inClass s.ctl (F.erase p) .ras) ∧
      s'.ras.rasNrRunning = l.length)
    (hrt : RtRqsHold s'.rt s.ctl (inClass s.ctl (F.erase p) .rt))
    (hqueued : K.queued s'.cfs.data =
      if (s.ctl p).schedClass = .rt ∨ (s.ctl p).schedClass = .ras then K.queued s.cfs.data
      else Function.update (K.queued s.cfs.data) p none)
    (hn : s'.nrRunning = s.nrRunning - 1)
    (hhn : s'.cfs.hNrRunning =
      if (s.ctl p).schedClass = .fair then s.cfs.hNrRunning - 1 else s.cfs.hNrRunning) :
    Holds K s' (F.erase p) where
  ras := by rwa [hq.ctl]
  rt := by rwa [hq.ctl]
  queued t := by
    rw [hqueued, hq.ctl]
    by_cases hc : (s.ctl p).schedClass = .rt ∨ (s.ctl p).schedClass = .ras
    · rw [if_pos hc, h.queued t]
      by_cases ht : t = p
      · subst ht
        rcases hc with hc | hc <;> simp [hc]
      · simp [ht]
    · rw [if_neg hc]
      by_cases ht : t = p
      · subst ht
        simp [not_or.mp hc]
      · simp [ht, h.queued t]
  nrRunning := by
    have := Finset.card_erase_add_one hp
    rw [hn, h.nrRunning]
    omega
  hNrRunning := by
    rw [hhn, hq.ctl, h.hNrRunning]
    split
    · next hc =>
      have := Finset.card_erase_add_one (mem_inClass.mpr ⟨hp, hc⟩)
      rw [inClass_erase]
      omega
    · next hc => rw [inClass_erase_of_ne hc]
  idle t ht := by rw [hq.ctl]; exact h.idle t (Finset.mem_of_mem_erase ht)

/-- The RAS run list after an enqueue of another class. -/
theorem Holds.ras_insert_of_ne (h : Holds K s F) (hc : (s.ctl p).schedClass ≠ .ras) :
    ∃ l, RunList s l ∧ (∀ t, t ∈ l ↔ t ∈ inClass s.ctl (insert p F) .ras) ∧
      s.ras.rasNrRunning = l.length := by
  rw [inClass_insert_of_ne hc]
  exact h.ras

/-- The RAS run list after a dequeue of another class. -/
theorem Holds.ras_erase_of_ne (h : Holds K s F) (hc : (s.ctl p).schedClass ≠ .ras) :
    ∃ l, RunList s l ∧ (∀ t, t ∈ l ↔ t ∈ inClass s.ctl (F.erase p) .ras) ∧
      s.ras.rasNrRunning = l.length := by
  rw [inClass_erase_of_ne hc]
  exact h.ras

theorem enqueues_enqueueTaskRt {flags : EnqueueFlags} (hc : (s.ctl p).schedClass = .rt)
    (hprio : 0 ≤ (s.ctl p).prio ∧ (s.ctl p).prio < maxRtPrio) :
    Enqueues K s (enqueueTaskRt s p flags) p := by
  have htimeout : Accounts K s (s.modifyTask p fun p =>
      { p with rt := { p.rt with timeout := if flags.wakeup then 0 else p.rt.timeout } }) :=
    accounts_modifyTask fun _ => by rfl
  rw [← htimeout.ctl] at hc hprio
  rw [enqueueTaskRt]
  refine htimeout.enqueues ?_
  generalize s.modifyTask p _ = s at hc hprio
  have hq : Quiet s { s with
      rt := enqueueRtEntity s.rt s.ctl (.task p) flags.head, nrRunning := s.nrRunning + 1 } :=
    ⟨rfl, rfl, rfl, rfl, fun _ => id, fun g hg => by rwa [throttled_enqueueRtEntity]⟩
  refine ⟨hq, fun F hp h => h.insert_of hp hq (by simp [hc]) ?_ ?_ (by simp [hc]) rfl (by simp [hc])⟩
  · exact h.ras_insert_of_ne (by simp [hc])
  · rw [inClass_insert hc]
    exact h.rt.enqueueRtEntity (by simp [hp]) hprio flags.head

theorem dequeues_dequeueTaskRt (hc : (s.ctl p).schedClass = .rt) :
    Dequeues K s (dequeueTaskRt K s p) p := by
  have hcurr : Keeps K s (updateCurrRt K s) := keeps_updateCurrRt
  rw [← hcurr.ctl] at hc
  rw [dequeueTaskRt]
  refine hcurr.dequeues ?_
  generalize updateCurrRt K s = s at hc
  have hq : Quiet s { s with
      rt := dequeueRtEntity s.rt s.ctl (.task p), nrRunning := s.nrRunning - 1 } :=
    ⟨rfl, rfl, rfl, rfl, fun _ => id, fun g hg => by rwa [throttled_dequeueRtEntity]⟩
  refine ⟨hq, fun F hp h => h.erase_of hp hq ?_ ?_ (by simp [hc]) rfl (by simp [hc])⟩
  · exact h.ras_erase_of_ne (by simp [hc])
  · rw [inClass_erase]
    exact h.rt.dequeueRtEntity (mem_inClass.mpr ⟨hp, hc⟩)

/-- A task is put in front of the run list or at its end. -/
theorem RunList.enqueueTaskRas {l : List τ} (h : RunList s l) (hp : p ∉ l) (K : Kernel τ Q)
    (flags : EnqueueFlags) :
    RunList (enqueueTaskRas K s p flags) (if flags.head then p :: l else l ++ [p]) := by
  have hp' : some p ∉ none :: l.map some := by simp [hp]
  rw [RunList, Sched.enqueueTaskRas]
  cases flags.head
  · simpa [Rq.modifyTask] using Owns.listAddTail h hp'
  · simpa [Rq.modifyTask] using Owns.listAdd h hp'

/-- A task leaves the run list. -/
theorem RunList.dequeueTaskRas {l : List τ} (h : RunList s l) (hp : p ∈ l) :
    RunList (dequeueTaskRas s p) (l.erase p) := by
  have h' : RunList (updateCurrRas s) l := by
    rwa [RunList, updateCurrRas_ras]
  rw [RunList, Sched.dequeueTaskRas]
  simp only [h'.onRasRq_iff.mpr hp, if_true]
  obtain ⟨l₁, l₂, -, rfl, he⟩ := List.exists_erase_eq hp
  have ho : Owns (updateCurrRas s).ras.links none (l₁.map some ++ some p :: l₂.map some) := by
    simpa [RunList] using h'
  simpa [he] using ho.listDelInit

theorem enqueueTaskRas_ctl (K : Kernel τ Q) (s : Rq τ Q) (p : τ) (flags : EnqueueFlags) :
    (enqueueTaskRas K s p flags).ctl = s.ctl := by
  funext t
  by_cases ht : t = p
  · subst ht; simp [enqueueTaskRas, Rq.ctl, Rq.modifyTask]
  · simp [enqueueTaskRas, Rq.ctl, Rq.modifyTask, ht]

theorem enqueues_enqueueTaskRas {flags : EnqueueFlags} (hc : (s.ctl p).schedClass = .ras) :
    Enqueues K s (enqueueTaskRas K s p flags) p := by
  have hq : Quiet s (enqueueTaskRas K s p flags) :=
    ⟨enqueueTaskRas_ctl K s p flags, rfl, rfl, rfl, fun _ => id, fun _ => id⟩
  refine ⟨hq, fun F hp h => h.insert_of hp hq (by simp [hc]) ?_ ?_ (by simp [hc]; rfl) rfl
    (by simp [hc]; rfl)⟩
  · obtain ⟨l, hl, hmem, hn⟩ := h.ras
    have hpl : p ∉ l := fun hm => hp (mem_inClass.mp ((hmem p).mp hm)).1
    refine ⟨_, hl.enqueueTaskRas hpl K flags, fun t => ?_, ?_⟩
    · rw [inClass_insert hc, Finset.mem_insert, ← hmem]
      cases flags.head <;> simp [or_comm]
    · have : (enqueueTaskRas K s p flags).ras.rasNrRunning = s.ras.rasNrRunning + 1 := rfl
      rw [this, hn]
      cases flags.head <;> simp
  · rw [inClass_insert_of_ne (by simp [hc])]
    exact h.rt

theorem dequeues_dequeueTaskRas (hc : (s.ctl p).schedClass = .ras) :
    Dequeues K s (dequeueTaskRas s p) p := by
  have hcurr : Accounts K s (updateCurrRas s) := accounts_updateCurrRas
  have hq : Quiet s (dequeueTaskRas s p) :=
    hcurr.toQuiet.trans ⟨rfl, rfl, rfl, rfl, fun _ => id, fun _ => id⟩
  refine ⟨hq, fun F hp h => h.erase_of hp hq ?_ ?_ ?_ ?_ ?_⟩
  · obtain ⟨l, hl, hmem, hn⟩ := h.ras
    have hpl : p ∈ l := (hmem p).mpr (mem_inClass.mpr ⟨hp, hc⟩)
    have hnd : l.Nodup := List.Nodup.of_map some hl.nodup_tail
    refine ⟨_, hl.dequeueTaskRas hpl, fun t => ?_, ?_⟩
    · rw [inClass_erase, Finset.mem_erase, ← hmem, hnd.mem_erase_iff]
    · have hpos := List.length_pos_of_mem hpl
      rw [Sched.dequeueTaskRas]
      simp only [(hcurr.runList hl).onRasRq_iff.mpr hpl, if_true, hcurr.ras, hn,
        List.length_erase_of_mem hpl]
      omega
  · rw [inClass_erase_of_ne (by simp [hc])]
    have := (hcurr.holds h).rt
    rw [hcurr.ctl] at this
    exact this
  · rw [if_pos (.inr hc)]
    exact hcurr.queued
  · exact congrArg (· - 1) hcurr.nrRunning
  · rw [if_neg (by simp [hc])]
    exact hcurr.hNrRunning

theorem enqueues_enqueueTaskForeign {flags : EnqueueFlags} (hrt : (s.ctl p).schedClass ≠ .rt)
    (hras : (s.ctl p).schedClass ≠ .ras) (hidle : (s.ctl p).schedClass ≠ .idle) :
    Enqueues K s (enqueueTaskForeign K s (s.ctl p).schedClass p flags) p := by
  have hq : Quiet s (enqueueTaskForeign K s (s.ctl p).schedClass p flags) :=
    ⟨rfl, rfl, rfl, rfl, fun _ => id, fun _ => id⟩
  refine ⟨hq, fun F hp h => h.insert_of hp hq hidle (h.ras_insert_of_ne hras) ?_ ?_ rfl rfl⟩
  · rw [inClass_insert_of_ne hrt]
    exact h.rt
  · rw [if_neg (not_or.mpr ⟨hrt, hras⟩)]
    exact K.queued_enqueueTask ..

theorem dequeues_dequeueTaskForeign {sleep : Bool} (hrt : (s.ctl p).schedClass ≠ .rt)
    (hras : (s.ctl p).schedClass ≠ .ras) :
    Dequeues K s (dequeueTaskForeign K s (s.ctl p).schedClass p sleep) p := by
  have hq : Quiet s (dequeueTaskForeign K s (s.ctl p).schedClass p sleep) :=
    ⟨rfl, rfl, rfl, rfl, fun _ => id, fun _ => id⟩
  refine ⟨hq, fun F hp h => h.erase_of hp hq (h.ras_erase_of_ne hras) ?_ ?_ rfl rfl⟩
  · rw [inClass_erase_of_ne hrt]
    exact h.rt
  · rw [if_neg (not_or.mpr ⟨hrt, hras⟩)]
    exact K.queued_dequeueTask ..

/-- Enqueueing a task puts it in the queue of its class. -/
theorem enqueueTask_holds {flags : EnqueueFlags} (hidle : (s.ctl p).schedClass ≠ .idle)
    (hprio : (s.ctl p).schedClass = .rt → 0 ≤ (s.ctl p).prio ∧ (s.ctl p).prio < maxRtPrio) :
    Enqueues K s (enqueueTask K s p flags) p := by
  have hclock : Accounts K s (updateRqClock s) := accounts_updateRqClock
  rw [← hclock.ctl] at hidle hprio
  rw [enqueueTask]
  refine hclock.enqueues ?_
  generalize updateRqClock s = s at hidle hprio
  split
  · next hc => exact enqueues_enqueueTaskRt hc (hprio hc)
  · next hc => exact enqueues_enqueueTaskRas hc
  · next hrt hras => exact enqueues_enqueueTaskForeign hrt hras hidle

/-- Enqueueing a task changes no control fields, whatever its class and priority. -/
theorem enqueueTask_ctl (flags : EnqueueFlags) : (enqueueTask K s p flags).ctl = s.ctl := by
  have hclock : (updateRqClock s).ctl = s.ctl := (accounts_updateRqClock (K := K)).ctl
  rw [enqueueTask]
  refine Eq.trans ?_ hclock
  split
  · rw [enqueueTaskRt]
    exact ctl_modifyTask (updateRqClock s) p
      (fun p => { p with rt := { p.rt with timeout := if flags.wakeup then 0 else p.rt.timeout } }) rfl
  · exact enqueueTaskRas_ctl K _ p flags
  · rfl

/-- Dequeueing a task takes it off the queue of its class. -/
theorem dequeueTask_holds {sleep : Bool} : Dequeues K s (dequeueTask K s p sleep) p := by
  have hclock : Accounts K s (updateRqClock s) := accounts_updateRqClock
  rw [dequeueTask]
  refine hclock.keeps.dequeues ?_
  generalize updateRqClock s = s
  split
  · next hc => exact dequeues_dequeueTaskRt hc
  · next hc => exact dequeues_dequeueTaskRas hc
  · next hrt hras => exact dequeues_dequeueTaskForeign hrt hras

end Steps

end OsProject.Sched
