import OsProject.Sched.Queues

/-!
# What the operations of the core do

Each operation of the core changes the control fields of at most one task, apart from a context
switch, and leaves the run queue holding the tasks that are marked as queued. The dequeue and
enqueue around a change of class or priority put the task into the queue of its new class.

## Main definitions

* `Rewrites` — one task's control fields are rewritten while it is off the run queue.
* `Wakes` — one task is woken.

## Main results

* `withTaskOffRq_rewrites` and the specifications of the operations built on it.
* `wakes_tryToWakeUp`, `wakes_wakeUpNewTask`, `rewrites_fork`.
-/

namespace OsProject.Sched

open Intrusive

variable {τ Q : Type*} [DecidableEq τ] {K : Kernel τ Q} {s s' s'' : Rq τ Q} {F : Finset τ} {p : τ}

/-! ### Rewriting control fields -/

/-- What the run queue holds depends on the queues, the counters and, for the tasks held, on their
classes, priorities and groups. -/
theorem Holds.congr (h : Holds K s F)
    (hctl : ∀ t ∈ F, (s'.ctl t).schedClass = (s.ctl t).schedClass ∧
      (s'.ctl t).prio = (s.ctl t).prio ∧ (s'.ctl t).normalPrio = (s.ctl t).normalPrio ∧
      (s'.ctl t).schedTaskGroup = (s.ctl t).schedTaskGroup)
    (hrun : ∀ l, (∀ t ∈ l, t ∈ F) → RunList s l → RunList s' l)
    (hrasNr : s'.ras.rasNrRunning = s.ras.rasNrRunning) (hrt : s'.rt = s.rt)
    (hcfs : s'.cfs = s.cfs) (hnr : s'.nrRunning = s.nrRunning) : Holds K s' F := by
  have hin : ∀ c, inClass s'.ctl F c = inClass s.ctl F c := fun c =>
    inClass_congr fun t ht => (hctl t ht).1
  refine ⟨?_, ?_, fun t => ?_, hnr.trans h.nrRunning, ?_, fun t ht => ?_⟩
  · obtain ⟨l, hl, hmem, hn⟩ := h.ras
    refine ⟨l, hrun l (fun t ht => (mem_inClass.mp ((hmem t).mp ht)).1) hl, ?_, hrasNr.trans hn⟩
    rwa [hin]
  · rw [hin, hrt]
    exact h.rt.congr_ctl fun t ht => (hctl t (mem_inClass.mp ht).1).2
  · rw [hcfs, h.queued t]
    by_cases ht : t ∈ F
    · rw [(hctl t ht).1]
    · simp [ht]
  · rw [hcfs, hin]; exact h.hNrRunning
  · rw [(hctl t ht).1]; exact h.idle t ht

/-- Writing control fields, as long as those of a queued task keep its class, priorities and
group. -/
theorem Holds.modifyCtl {f : TaskControl → TaskControl} (h : Holds K s F)
    (hf : p ∈ F → (f (s.ctl p)).schedClass = (s.ctl p).schedClass ∧
      (f (s.ctl p)).prio = (s.ctl p).prio ∧ (f (s.ctl p)).normalPrio = (s.ctl p).normalPrio ∧
      (f (s.ctl p)).schedTaskGroup = (s.ctl p).schedTaskGroup) :
    Holds K (s.modifyCtl p f) F := by
  refine h.congr (fun t ht => ?_) (fun _ _ => id) rfl rfl rfl rfl
  rw [ctl_modifyCtl]
  by_cases htp : t = p
  · subst htp; simpa using hf ht
  · simp [htp]

/-- The control fields of `p` are rewritten by `f`. A run queue that holds `p` exactly when it is
marked as queued holds the same tasks afterwards, and the current task stays marked for
rescheduling. -/
structure Rewrites (K : Kernel τ Q) (s s' : Rq τ Q) (p : τ) (f : TaskControl → TaskControl) :
    Prop where
  ctl : s'.ctl = Function.update s.ctl p (f (s.ctl p))
  curr : s'.curr = s.curr
  idle : s'.idle = s.idle
  stop : s'.stop = s.stop
  needResched : s.needResched s.curr = true → s'.needResched s.curr = true
  rtThrottled : ∀ g, s.rt.throttled g = true → s'.rt.throttled g = true
  holds : ∀ F, (p ∈ F ↔ (s.ctl p).onRq = true) → Holds K s F → Holds K s' F

theorem Rewrites.ctl_self {f : TaskControl → TaskControl} (h : Rewrites K s s' p f) :
    s'.ctl p = f (s.ctl p) := by rw [h.ctl, Function.update_self]

theorem Rewrites.ctl_of_ne {f : TaskControl → TaskControl} (h : Rewrites K s s' p f) {t : τ}
    (ht : t ≠ p) : s'.ctl t = s.ctl t := by rw [h.ctl, Function.update_of_ne ht]

theorem Keeps.rewrites (h : Keeps K s s') (p : τ) : Rewrites K s s' p id where
  ctl := by rw [h.ctl, id, Function.update_eq_self]
  curr := h.curr
  idle := h.idle
  stop := h.stop
  needResched := h.needResched _
  rtThrottled := h.rtThrottled
  holds F _ := h.holds F

theorem Rewrites.keeps {f : TaskControl → TaskControl} (h : Rewrites K s s' p f)
    (h' : Keeps K s' s'') : Rewrites K s s'' p f where
  ctl := h'.ctl.trans h.ctl
  curr := h'.curr.trans h.curr
  idle := h'.idle.trans h.idle
  stop := h'.stop.trans h.stop
  needResched hr := h'.needResched _ (h.needResched hr)
  rtThrottled g ht := h'.rtThrottled g (h.rtThrottled g ht)
  holds F hF hs := h'.holds F (h.holds F hF hs)

/-- Two rewrites of a task, the first of which does not touch its mark. -/
theorem Rewrites.trans {f g : TaskControl → TaskControl} (h : Rewrites K s s' p f)
    (h' : Rewrites K s' s'' p g) (hf : (f (s.ctl p)).onRq = (s.ctl p).onRq) :
    Rewrites K s s'' p (g ∘ f) where
  ctl := by rw [h'.ctl, h.ctl_self, h.ctl, Function.update_idem, Function.comp_apply]
  curr := h'.curr.trans h.curr
  idle := h'.idle.trans h.idle
  stop := h'.stop.trans h.stop
  needResched hr := by
    rw [← h.curr]
    exact h'.needResched (by rw [h.curr]; exact h.needResched hr)
  rtThrottled g ht := h'.rtThrottled g (h.rtThrottled g ht)
  holds F hF hs := h'.holds F (by rw [h.ctl_self, hf]; exact hF) (h.holds F hF hs)

/-- Writing control fields without leaving the queue, which must not change class, priorities or
group. -/
theorem rewrites_modifyCtl {f : TaskControl → TaskControl}
    (hf : (f (s.ctl p)).schedClass = (s.ctl p).schedClass ∧
      (f (s.ctl p)).prio = (s.ctl p).prio ∧ (f (s.ctl p)).normalPrio = (s.ctl p).normalPrio ∧
      (f (s.ctl p)).schedTaskGroup = (s.ctl p).schedTaskGroup) :
    Rewrites K s (s.modifyCtl p f) p f where
  ctl := ctl_modifyCtl s p f
  curr := rfl
  idle := rfl
  stop := rfl
  needResched := id
  rtThrottled _ := id
  holds _ _ h := h.modifyCtl fun _ => hf

/-- The run queue without the task `p`, which `withTaskOffRq` changes there. -/
def offRq (K : Kernel τ Q) (s : Rq τ Q) (p : τ) (running : Bool) : Rq τ Q :=
  let s := if (s.task p).onRq then dequeueTask K s p false else s
  if running then classPutPrevTask K s p else s

/-- The state with the changed task, from which the task is queued again if it was queued. -/
theorem exists_changed {change : Rq τ Q → Rq τ Q} {f : TaskControl → TaskControl}
    (running : Bool) (flags : EnqueueFlags)
    (hchange : ∀ s, Accounts K (s.modifyCtl p f) (change s)) :
    ∃ changed, Accounts K ((offRq K s p running).modifyCtl p f) changed ∧
      withTaskOffRq K s p running change flags =
        if (s.task p).onRq then enqueueTask K changed p flags else changed := by
  refine ⟨if running then classSetCurrTask K (change (offRq K s p running))
    else change (offRq K s p running), ?_, rfl⟩
  split
  · exact (hchange _).trans accounts_classSetCurrTask
  · exact hchange _

theorem offRq_holds (running : Bool) : Quiet s (offRq K s p running) ∧
    ∀ F, (p ∈ F ↔ (s.ctl p).onRq = true) → Holds K s F →
      Holds K (offRq K s p running) (F.erase p) := by
  have hdeq : Quiet s (if (s.task p).onRq then dequeueTask K s p false else s) ∧
      ∀ F, (p ∈ F ↔ (s.ctl p).onRq = true) → Holds K s F →
        Holds K (if (s.task p).onRq then dequeueTask K s p false else s) (F.erase p) := by
    split
    · next hon =>
      exact ⟨dequeueTask_holds.toQuiet, fun F hF hs => dequeueTask_holds.holds F (hF.mpr hon) hs⟩
    · next hon =>
      refine ⟨.refl s, fun F hF hs => ?_⟩
      rwa [Finset.erase_eq_of_notMem fun hp => hon (hF.mp hp)]
  rw [offRq]
  split
  · exact ⟨hdeq.1.trans keeps_classPutPrevTask.toQuiet,
      fun F hF hs => keeps_classPutPrevTask.holds _ (hdeq.2 F hF hs)⟩
  · exact hdeq

/-- Changing a task off the run queue: whatever class and priority the change gives it, the task
is then queued there if it was queued before. -/
theorem withTaskOffRq_rewrites {running : Bool} {change : Rq τ Q → Rq τ Q}
    {flags : EnqueueFlags} {f : TaskControl → TaskControl}
    (hchange : ∀ s, Accounts K (s.modifyCtl p f) (change s))
    (hidle : (f (s.ctl p)).schedClass ≠ .idle)
    (hprio : (f (s.ctl p)).schedClass = .rt →
      0 ≤ (f (s.ctl p)).prio ∧ (f (s.ctl p)).prio < maxRtPrio) :
    Rewrites K s (withTaskOffRq K s p running change flags) p f := by
  -- the state with the task off the run queue
  obtain ⟨hoffQuiet, hoffHolds⟩ := offRq_holds (K := K) (s := s) (p := p) running
  obtain ⟨changed, hacc, hend⟩ := exists_changed (K := K) (s := s) running flags hchange
  have hctl : changed.ctl = Function.update s.ctl p (f (s.ctl p)) := by
    rw [hacc.ctl, ctl_modifyCtl, hoffQuiet.ctl]
  have hself : changed.ctl p = f (s.ctl p) := by rw [hctl, Function.update_self]
  have hholds : ∀ F, (p ∈ F ↔ (s.ctl p).onRq = true) → Holds K s F →
      Holds K changed (F.erase p) := fun F hF hs =>
    hacc.holds ((hoffHolds F hF hs).modifyCtl fun hp => absurd hp (Finset.notMem_erase p F))
  have henq : Enqueues K changed (enqueueTask K changed p flags) p :=
    enqueueTask_holds (by rwa [hself]) (by rwa [hself])
  have hquiet : Quiet changed (withTaskOffRq K s p running change flags) := by
    rw [hend]
    split
    · exact henq.toQuiet
    · exact .refl changed
  refine ⟨hquiet.ctl.trans hctl, ?_, ?_, ?_, fun hr => ?_, fun g ht => ?_, fun F hF hs => ?_⟩
  · exact hquiet.curr.trans (hacc.curr.trans hoffQuiet.curr)
  · exact hquiet.idle.trans (hacc.idle.trans hoffQuiet.idle)
  · exact hquiet.stop.trans (hacc.stop.trans hoffQuiet.stop)
  · exact hquiet.needResched _ (hacc.needResched _ (hoffQuiet.needResched _ hr))
  · exact hquiet.rtThrottled g (hacc.rtThrottled g (hoffQuiet.rtThrottled g ht))
  · rw [hend]
    split
    · next hon =>
      have := henq.holds (F.erase p) (Finset.notMem_erase p F) (hholds F hF hs)
      rwa [Finset.insert_erase (hF.mpr hon)] at this
    · next hon =>
      have := hholds F hF hs
      rwa [Finset.erase_eq_of_notMem fun hp => hon (hF.mp hp)] at this

/-! ### Changes of priority, policy and group -/

theorem Rewrites.congr {f g : TaskControl → TaskControl} (h : Rewrites K s s' p f)
    (hfg : f (s.ctl p) = g (s.ctl p)) : Rewrites K s s' p g :=
  { h with ctl := by rw [h.ctl, hfg] }

theorem Rewrites.refl (K : Kernel τ Q) (s : Rq τ Q) (p : τ) : Rewrites K s s p id :=
  (Keeps.refl K s).rewrites p

/-- `__sched_setscheduler` writes the fields of the task and calls `check_class_changed`. -/
theorem changePolicy_eq (hok : CtlOk (s.ctl p)) {policy : Policy} {prio : ℤ} (reset : Bool)
    (hvalid : validParam (s.ctl p) policy prio = true) :
    ∃ u, Rewrites K s u p (fun c => setschedulerCtl policy prio { c with schedResetOnFork := reset }) ∧
      changePolicy K s p policy reset prio =
        checkClassChanged K u p (s.ctl p).schedClass (s.ctl p).prio := by
  have hok' := hok.setscheduler reset hvalid
  exact ⟨_, withTaskOffRq_rewrites (fun _ => .refl ..) hok'.schedClass_ne_idle hok'.prio_lt, rfl⟩

theorem rewrites_changePolicy (hok : CtlOk (s.ctl p)) {policy : Policy} {prio : ℤ} (reset : Bool)
    (hvalid : validParam (s.ctl p) policy prio = true) :
    Rewrites K s (changePolicy K s p policy reset prio) p
      fun c => setschedulerCtl policy prio { c with schedResetOnFork := reset } := by
  obtain ⟨u, hu, heq⟩ := changePolicy_eq (K := K) hok reset hvalid
  rw [heq]
  exact hu.keeps accounts_checkClassChanged.keeps

/-- The checks let only valid parameters through, and never for the stopper thread. -/
theorem setschedulerCheck_ok {caller : Caller} {policy prio : ℤ} {user reset : Bool}
    {newPolicy : Policy}
    (h : setschedulerCheck K s caller p policy prio user = .ok (newPolicy, reset)) :
    requested (s.ctl p) policy = some (newPolicy, reset) ∧
    validParam (s.ctl p) newPolicy prio = true ∧
    (user = true → caller.capSysNice = false →
      unprivilegedMay caller (s.task p) newPolicy reset prio = true) ∧
    s.stop ≠ some p ∧ setschedulerNoChange (s.ctl p) newPolicy prio = false := by
  rw [setschedulerCheck] at h
  split at h
  · cases h
  · next policy' reset' hreq =>
    split_ifs at h with hvalid hperm hsec hstop hsame hgroup
    cases h
    refine ⟨hreq, by simpa using hvalid, fun huser hcap => ?_, hstop, by simpa using hsame⟩
    simpa [huser, hcap] using hperm

/-- A call of `sched_setscheduler` is refused or changes the policy. -/
theorem schedSetscheduler_cases (K : Kernel τ Q) (s : Rq τ Q) (caller : Caller) (p : τ)
    (policy prio : ℤ) (user : Bool) :
    (∃ r, setschedulerCheck K s caller p policy prio user = .error r ∧
      schedSetscheduler K s caller p policy prio user = (r, s)) ∨
    ∃ newPolicy reset,
      setschedulerCheck K s caller p policy prio user = .ok (newPolicy, reset) ∧
      schedSetscheduler K s caller p policy prio user =
        (0, changePolicy K s p newPolicy reset prio) := by
  rw [schedSetscheduler]
  split
  · next r h => exact .inl ⟨r, h, rfl⟩
  · next newPolicy reset h => exact .inr ⟨newPolicy, reset, h, rfl⟩

/-- `rt_mutex_setprio` writes the fields of the task and calls `check_class_changed`. -/
theorem rtMutexSetprio_eq {prio : ℤ} (hp : p ≠ s.idle) (hprio : 0 ≤ prio) :
    ∃ u, Rewrites K s u p
        (fun c => { c with schedClass := classFor c.policy prio, prio := prio }) ∧
      rtMutexSetprio K s p prio =
        checkClassChanged K u p (s.ctl p).schedClass (s.ctl p).prio := by
  rw [rtMutexSetprio, if_neg hp]
  refine ⟨_, withTaskOffRq_rewrites (fun _ => .refl ..) ?_ fun hc => ⟨hprio, ?_⟩, rfl⟩
  · dsimp only [classFor]
    split_ifs <;> decide
  · dsimp only [classFor] at hc
    split_ifs at hc with _ hrt
    exact rtPrio_eq_true_iff.mp hrt

theorem rewrites_rtMutexSetprio {prio : ℤ} (hp : p ≠ s.idle) (hprio : 0 ≤ prio) :
    Rewrites K s (rtMutexSetprio K s p prio) p
      fun c => { c with schedClass := classFor c.policy prio, prio := prio } := by
  obtain ⟨u, hu, heq⟩ := rtMutexSetprio_eq (K := K) hp hprio
  rw [heq]
  exact hu.keeps accounts_checkClassChanged.keeps

/-- `__rt_mutex_adjust_prio` in terms of the fields of the task before. -/
theorem rtMutexAdjustPrio_eq (K : Kernel τ Q) (s : Rq τ Q) (p : τ) (waiter : Option ℤ) :
    rtMutexAdjustPrio K s p waiter =
      if (s.ctl p).prio ≠ rtMutexGetprio { s.ctl p with piTopWaiter := waiter } then
        rtMutexSetprio K (s.modifyCtl p fun c => { c with piTopWaiter := waiter }) p
          (rtMutexGetprio { s.ctl p with piTopWaiter := waiter })
      else s.modifyCtl p fun c => { c with piTopWaiter := waiter } := by
  have hself : (s.modifyCtl p fun c => { c with piTopWaiter := waiter }).ctl p =
      { s.ctl p with piTopWaiter := waiter } := by rw [ctl_modifyCtl, Function.update_self]
  have hprio : ((s.modifyCtl p fun c => { c with piTopWaiter := waiter }).task p).prio =
      (s.ctl p).prio := (congrArg TaskControl.prio hself).trans rfl
  rw [rtMutexAdjustPrio]
  simp only [hprio, hself]

theorem rewrites_rtMutexAdjustPrio {waiter : Option ℤ} (hok : CtlOk (s.ctl p)) (hp : p ≠ s.idle)
    (hw : ∀ w ∈ waiter, 0 ≤ w ∧ w < maxPrio) :
    Rewrites K s (rtMutexAdjustPrio K s p waiter) p (inherited waiter) := by
  have hwrite : Rewrites K s (s.modifyCtl p fun c => { c with piTopWaiter := waiter }) p
      fun c => { c with piTopWaiter := waiter } := rewrites_modifyCtl ⟨rfl, rfl, rfl, rfl⟩
  rw [rtMutexAdjustPrio_eq]
  split
  · next hne =>
    have hmem : 0 ≤ rtMutexGetprio { s.ctl p with piTopWaiter := waiter } := by
      have := (CtlOk.of_getprio (c := { s.ctl p with piTopWaiter := waiter }) hok.normal
        hok.rtPriority_pos hok.rtPriority_lt hok.staticPrio_mem hw).prio_mem
      exact this.1
    refine (hwrite.trans (rewrites_rtMutexSetprio hp hmem) rfl).congr ?_
    rw [Function.comp_apply, inherited, if_pos hne]
  · next heq => exact hwrite.congr (by rw [inherited, if_neg heq])

theorem rewrites_setUserNice {nice : ℤ} (hidle : (s.ctl p).schedClass ≠ .idle)
    (hprio : ¬(nice < -20 ∨ 19 < nice) → rtPolicy (s.ctl p).policy = false →
      (s.ctl p).schedClass = .rt →
      0 ≤ (reniced nice (s.ctl p)).prio ∧ (reniced nice (s.ctl p)).prio < maxRtPrio) :
    setUserNice K s p nice = s ∨
    (¬(nice < -20 ∨ 19 < nice) ∧ rtPolicy (s.ctl p).policy = true ∧
      Rewrites K s (setUserNice K s p nice) p fun c => { c with staticPrio := niceToPrio nice }) ∨
    (¬(nice < -20 ∨ 19 < nice) ∧ rtPolicy (s.ctl p).policy = false ∧
      Rewrites K s (setUserNice K s p nice) p (reniced nice)) := by
  rw [setUserNice]
  split
  · exact .inl rfl
  · next hnice =>
    have hnice : ¬(nice < -20 ∨ 19 < nice) := fun h => hnice (.inr h)
    split
    · next hrt => exact .inr (.inl ⟨hnice, hrt, rewrites_modifyCtl ⟨rfl, rfl, rfl, rfl⟩⟩)
    · next hrt =>
      have hrt : rtPolicy (s.ctl p).policy = false := Bool.eq_false_iff.mpr hrt
      have hoff : Rewrites K s
          (withTaskOffRq K s p false (fun s => s.modifyCtl p (reniced nice)) {}) p (reniced nice) :=
        withTaskOffRq_rewrites (fun _ => .refl ..) hidle (hprio hnice hrt)
      refine .inr (.inr ⟨hnice, hrt, ?_⟩)
      dsimp only
      split
      · exact hoff.keeps accounts_reschedTask.keeps
      · exact hoff

theorem rewrites_schedMoveTask {tg : TaskGroup} (hidle : (s.ctl p).schedClass ≠ .idle)
    (hprio : (s.ctl p).schedClass = .rt → 0 ≤ (s.ctl p).prio ∧ (s.ctl p).prio < maxRtPrio) :
    Rewrites K s (schedMoveTask K s p tg) p fun c => { c with schedTaskGroup := tg } :=
  withTaskOffRq_rewrites (fun _ => accounts_classTaskMoveGroup) hidle hprio

/-! ### Forks -/

theorem rewrites_fork {child : τ} (hchild : child ≠ s.curr)
    (hoff : (s.ctl child).onRq = false) :
    Rewrites K s (fork K s child) child fun _ => childCtl (s.ctl s.curr) := by
  obtain ⟨t, ht⟩ : ∃ t, t = schedForkInit (dupTaskStruct s child) child := ⟨_, rfl⟩
  have hcopy : t.ctl = Function.update s.ctl child
      { s.ctl s.curr with piTopWaiter := none, onRq := false } := by
    funext u
    by_cases hu : u = child
    · subst hu; simp [ht, schedForkInit, dupTaskStruct, Rq.ctl, Rq.modifyTask]
    · simp [ht, schedForkInit, dupTaskStruct, Rq.ctl, Rq.modifyTask, hu]
  have hcurr : (t.task t.curr).normalPrio = (s.ctl s.curr).normalPrio := by
    have hne : s.curr ≠ child := hchild.symm
    simp [ht, schedForkInit, dupTaskStruct, Rq.ctl, Rq.modifyTask, hne]
  have hholds : ∀ F, child ∉ F → Holds K s F → Holds K t F := by
    intro F hF h
    refine h.congr (fun u hu => ?_) (fun l hl hrun => ?_) (by rw [ht]; rfl) (by rw [ht]; rfl)
      (by rw [ht]; rfl) (by rw [ht]; rfl)
    · have hne : u ≠ child := fun he => hF (he ▸ hu)
      simp [hcopy, hne]
    · have hmem : some child ∉ none :: l.map some := by simpa using fun hm => hF (hl child hm)
      rw [ht]
      exact Owns.copyNode_initListHead hrun hmem
  obtain ⟨u, hu⟩ : ∃ u, u = t.modifyCtl child (forkedCtl (t.task t.curr).normalPrio) := ⟨_, rfl⟩
  have heffect : Accounts K u (fork K s child) := by
    have hfork : fork K s child = classTaskFork K u child := by rw [hu, ht]; rfl
    rw [hfork]
    exact accounts_classTaskFork
  have hctl : u.ctl = Function.update s.ctl child (childCtl (s.ctl s.curr)) := by
    rw [hu, ctl_modifyCtl, hcopy, Function.update_idem, Function.update_self, hcurr, childCtl]
  refine ⟨heffect.ctl.trans hctl, ?_, ?_, ?_, fun hr => ?_, fun g hr => ?_, fun F hF h => ?_⟩
  · rw [heffect.curr, hu, ht]; rfl
  · rw [heffect.idle, hu, ht]; rfl
  · rw [heffect.stop, hu, ht]; rfl
  · refine heffect.needResched _ ?_
    rw [hu, ht]
    simpa [Rq.modifyCtl, Rq.modifyTask, schedForkInit, dupTaskStruct, hchild.symm] using hr
  · refine heffect.rtThrottled g ?_
    rw [hu, ht]
    exact hr
  · have hnot : child ∉ F := fun hm => by rw [hF.mp hm] at hoff; cases hoff
    refine heffect.holds ?_
    rw [hu]
    exact (hholds F hnot h).modifyCtl fun hm => absurd hm hnot

/-! ### Wakeups -/

/-- The task `p` is woken: it is queued, marked as queued and running, and the other tasks are as
before. When its class comes before that of the current task, a reschedule is due. -/
structure Wakes (K : Kernel τ Q) (s s' : Rq τ Q) (p : τ) : Prop where
  ctl : s'.ctl = Function.update s.ctl p { s.ctl p with onRq := true, state := 0 }
  curr : s'.curr = s.curr
  idle : s'.idle = s.idle
  stop : s'.stop = s.stop
  needResched : s.needResched s.curr = true → s'.needResched s.curr = true
  rtThrottled : ∀ g, s.rt.throttled g = true → s'.rt.throttled g = true
  preempts : (s.ctl p).schedClass.rank < (s.ctl s.curr).schedClass.rank →
    s'.needResched s.curr = true
  holds : ∀ F, (p ∈ F ↔ (s.ctl p).onRq = true) → Holds K s F → Holds K s' (insert p F)

/-- The loop of `check_preempt_curr` compares the places of the classes in the chain. -/
theorem preemptsIn_forEachClass {c c' : SchedClass} :
    preemptsIn c c' forEachClass = true ↔ c'.rank < c.rank := by
  cases c <;> cases c' <;> decide

/-- A task of a class before that of the current task preempts it. -/
theorem checkPreemptCurr_rank {flags : ℕ}
    (h : (s.ctl p).schedClass.rank < (s.ctl s.curr).schedClass.rank) :
    (checkPreemptCurr K s p flags).needResched s.curr = true := by
  have hne : (s.task p).schedClass ≠ (s.task s.curr).schedClass := fun he =>
    absurd (congrArg SchedClass.rank he) (Nat.ne_of_lt h)
  have hloop : preemptsIn (s.task s.curr).schedClass (s.task p).schedClass forEachClass = true :=
    preemptsIn_forEachClass.mpr h
  have hpre : preemptCurr K s p flags = s.reschedTask s.curr := by
    rw [preemptCurr, if_neg hne, if_pos hloop]
  have hset : (s.reschedTask s.curr).needResched s.curr = true := by simp [Rq.reschedTask]
  rw [checkPreemptCurr]
  simp only [hpre]
  split
  · exact hset
  · exact hset

/-- The state that `ttwu_do_wakeup` and `wake_up_new_task` check for preemption: the task has been
queued and marked. -/
theorem ttwuActivate_spec (flags : EnqueueFlags) (hoff : (s.ctl p).onRq = false)
    (hidle : (s.ctl p).schedClass ≠ .idle)
    (hprio : (s.ctl p).schedClass = .rt → 0 ≤ (s.ctl p).prio ∧ (s.ctl p).prio < maxRtPrio) :
    Enqueues K s (activateTask K s p flags) p ∧
    (ttwuActivate K s p flags).ctl = Function.update s.ctl p { s.ctl p with onRq := true } ∧
    ∀ F, (p ∈ F ↔ (s.ctl p).onRq = true) → Holds K s F →
      Holds K (ttwuActivate K s p flags) (insert p F) := by
  have henq : Enqueues K s (activateTask K s p flags) p := enqueueTask_holds hidle hprio
  refine ⟨henq, ?_, fun F hF h => ?_⟩
  · rw [ttwuActivate, ctl_modifyCtl, henq.ctl]
  · have hnot : p ∉ F := fun hm => by rw [hF.mp hm] at hoff; cases hoff
    exact (henq.holds F hnot h).modifyCtl fun _ => ⟨rfl, rfl, rfl, rfl⟩

/-- A task that has been queued preempts the current one when its class comes first. -/
theorem ttwuActivate_rank {f : EnqueueFlags} {flags : ℕ} (hoff : (s.ctl p).onRq = false)
    (hidle : (s.ctl p).schedClass ≠ .idle)
    (hprio : (s.ctl p).schedClass = .rt → 0 ≤ (s.ctl p).prio ∧ (s.ctl p).prio < maxRtPrio)
    (hrank : (s.ctl p).schedClass.rank < (s.ctl s.curr).schedClass.rank) :
    (checkPreemptCurr K (ttwuActivate K s p f) p flags).needResched s.curr = true := by
  obtain ⟨henq, hctl, -⟩ := ttwuActivate_spec (K := K) f hoff hidle hprio
  have hclass : ∀ t, ((ttwuActivate K s p f).ctl t).schedClass = (s.ctl t).schedClass := by
    intro t
    rw [hctl]
    by_cases ht : t = p
    · rw [ht, Function.update_self]
    · rw [Function.update_of_ne ht]
  have hcurr : (ttwuActivate K s p f).curr = s.curr := henq.curr
  rw [← hcurr]
  refine checkPreemptCurr_rank ?_
  rw [hclass, hclass, hcurr]
  exact hrank

/-- `ttwu_do_wakeup` of a queued task. -/
theorem ttwuDoWakeup_spec (K : Kernel τ Q) (s : Rq τ Q) (p : τ) (flags : ℕ) :
    Accounts K s (checkPreemptCurr K s p flags) ∧
    (ttwuDoWakeup K s p flags).ctl = Function.update s.ctl p { s.ctl p with state := 0 } ∧
    ∀ F, Holds K s F → Holds K (ttwuDoWakeup K s p flags) F := by
  have hcheck : Accounts K s (checkPreemptCurr K s p flags) := accounts_checkPreemptCurr
  refine ⟨hcheck, ?_, fun F h => (hcheck.holds h).modifyCtl fun _ => ⟨rfl, rfl, rfl, rfl⟩⟩
  rw [ttwuDoWakeup, ctl_modifyCtl, hcheck.ctl]

/-- Waking a task that is still queued. -/
theorem wakes_ttwuDoWakeup {flags : ℕ} (hon : (s.ctl p).onRq = true) :
    Wakes K s (ttwuDoWakeup K s p flags) p := by
  obtain ⟨hcheck, hctl, hholds⟩ := ttwuDoWakeup_spec K s p flags
  refine ⟨?_, hcheck.curr, hcheck.idle, hcheck.stop, hcheck.needResched _, hcheck.rtThrottled,
    checkPreemptCurr_rank, fun F hF h => ?_⟩
  · rw [hctl, ← hon]
  · rw [Finset.insert_eq_of_mem (hF.mpr hon)]
    exact hholds F h

/-- Waking a task that is not queued. -/
theorem wakes_ttwuActivate {flags : ℕ} (hoff : (s.ctl p).onRq = false)
    (hidle : (s.ctl p).schedClass ≠ .idle)
    (hprio : (s.ctl p).schedClass = .rt → 0 ≤ (s.ctl p).prio ∧ (s.ctl p).prio < maxRtPrio) :
    Wakes K s (ttwuDoWakeup K (ttwuActivate K s p enqueueWakeup) p flags) p := by
  obtain ⟨henq, hctl, hholds⟩ := ttwuActivate_spec (K := K) enqueueWakeup hoff hidle hprio
  obtain ⟨hcheck, hctl', hholds'⟩ :=
    ttwuDoWakeup_spec K (ttwuActivate K s p enqueueWakeup) p flags
  refine ⟨?_, hcheck.curr.trans henq.curr, hcheck.idle.trans henq.idle,
    hcheck.stop.trans henq.stop, fun hr => hcheck.needResched _ (henq.needResched _ hr),
    fun g ht => hcheck.rtThrottled g (henq.rtThrottled g ht), ttwuActivate_rank hoff hidle hprio,
    fun F hF h => hholds' _ (hholds F hF h)⟩
  rw [hctl', hctl, Function.update_idem, Function.update_self]

theorem wakes_tryToWakeUp (mask flags : ℕ) (hidle : (s.ctl p).schedClass ≠ .idle)
    (hprio : (s.ctl p).schedClass = .rt → 0 ≤ (s.ctl p).prio ∧ (s.ctl p).prio < maxRtPrio) :
    ((tryToWakeUp K s p mask flags).2 = s ∧ (s.ctl p).state &&& mask = 0) ∨
      ((s.ctl p).state ≠ 0 ∧ Wakes K s (tryToWakeUp K s p mask flags).2 p) := by
  rw [tryToWakeUp]
  split
  · next h => exact .inl ⟨rfl, h⟩
  · next h =>
    refine .inr ⟨fun h0 => h (by
      have : (s.task p).state = 0 := h0
      rw [this, Nat.zero_and]), ?_⟩
    split
    · next hon => exact wakes_ttwuDoWakeup hon
    · next hoff => exact wakes_ttwuActivate (Bool.eq_false_iff.mpr hoff) hidle hprio

theorem wakes_tryToWakeUpLocal (hidle : (s.ctl p).schedClass ≠ .idle)
    (hprio : (s.ctl p).schedClass = .rt → 0 ≤ (s.ctl p).prio ∧ (s.ctl p).prio < maxRtPrio) :
    tryToWakeUpLocal K s p = s ∨
      ((s.ctl p).state ≠ 0 ∧ p ≠ s.curr ∧ Wakes K s (tryToWakeUpLocal K s p) p) := by
  rw [tryToWakeUpLocal]
  split
  · exact .inl rfl
  · next hcurr =>
    split
    · exact .inl rfl
    · next h =>
      refine .inr ⟨fun h0 => h (by
        have : (s.task p).state = 0 := h0
        rw [this, Nat.zero_and]), hcurr, ?_⟩
      dsimp only
      split
      · next hoff => exact wakes_ttwuActivate (by simpa [Rq.ctl] using hoff) hidle hprio
      · next hon => exact wakes_ttwuDoWakeup (by simpa [Rq.ctl] using hon)

theorem wakes_wakeUpNewTask (hoff : (s.ctl p).onRq = false) (hstate : (s.ctl p).state = 0)
    (hidle : (s.ctl p).schedClass ≠ .idle)
    (hprio : (s.ctl p).schedClass = .rt → 0 ≤ (s.ctl p).prio ∧ (s.ctl p).prio < maxRtPrio) :
    Wakes K s (wakeUpNewTask K s p) p := by
  obtain ⟨henq, hctl, hholds⟩ := ttwuActivate_spec (K := K) {} hoff hidle hprio
  have hcheck : Accounts K (ttwuActivate K s p {}) (wakeUpNewTask K s p) :=
    accounts_checkPreemptCurr
  refine ⟨?_, hcheck.curr.trans henq.curr, hcheck.idle.trans henq.idle,
    hcheck.stop.trans henq.stop, fun hr => hcheck.needResched _ (henq.needResched _ hr),
    fun g ht => hcheck.rtThrottled g (henq.rtThrottled g ht), ttwuActivate_rank hoff hidle hprio,
    fun F hF h => hcheck.holds (hholds F hF h)⟩
  rw [hcheck.ctl, hctl, ← hstate]

end OsProject.Sched
