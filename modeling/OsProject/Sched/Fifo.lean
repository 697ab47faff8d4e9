import OsProject.Sched.Invariant
import OsProject.Sched.Reference

/-!
# The order of the waiting RAS tasks

Every operation of the scheduler moves at most one node of the RAS run list, that of a task which
it takes off the run queue, queues, or finds running. The tasks that wait keep their order. The head
of the list is picked, and so of two waiting tasks the first one is picked first. A running task
that gives up the processor is put behind all that wait.

## Main definitions

* `KeepsOrder` — a set of tasks keeps its order on the run list.
* `TakesOff` — a step takes a task off the run queue, if only to put it back.
* `GivesUp` — a step at which the running RAS task gives up the processor.

## Main results

* `keepsOrder_execOp` — the tasks that wait keep their order.
* `ras_fifo` — waiting tasks are picked in their order, and a task that gives up goes to the end.
-/

namespace OsProject.Sched

open Intrusive Transition

variable {τ Q : Type*} [DecidableEq τ] {K : Kernel τ Q} {s s' s'' : Rq τ Q} {F : Finset τ} {p : τ}

/-! ### Keeping the order -/

/-- The tasks of `A` are on the run list in the same order as before. -/
def KeepsOrder (A : τ → Bool) (s s' : Rq τ Q) : Prop :=
  ∀ l, RunList s l → ∃ l', RunList s' l' ∧ l'.filter A = l.filter A

variable {A : τ → Bool}

theorem filter_erase_of_neg (hp : A p = false) (l : List τ) : (l.erase p).filter A = l.filter A := by
  rw [← List.erase_filter, List.erase_of_not_mem]
  intro hm
  rw [(List.mem_filter.mp hm).2] at hp
  cases hp

theorem filter_toTail (hp : A p = false) (l : List τ) : (toTail l p).filter A = l.filter A := by
  rw [toTail]
  split
  · rw [List.filter_append, filter_erase_of_neg hp, List.filter_cons_of_neg (by simp [hp]),
      List.filter_nil, List.append_nil]
  · rfl

namespace KeepsOrder

omit [DecidableEq τ] in
theorem of_ras (h : s'.ras = s.ras) : KeepsOrder A s s' := fun l hl =>
  ⟨l, by rwa [RunList, h], rfl⟩

omit [DecidableEq τ] in
theorem trans (h : KeepsOrder A s s') (h' : KeepsOrder A s' s'') : KeepsOrder A s s'' := by
  intro l hl
  obtain ⟨l', hl', he⟩ := h l hl
  obtain ⟨l'', hl'', he'⟩ := h' l' hl'
  exact ⟨l'', hl'', he'.trans he⟩

end KeepsOrder

theorem keepsOrder_requeueTaskRas (hp : A p = false) : KeepsOrder A s (requeueTaskRas s p) :=
  fun l hl => ⟨toTail l p, hl.requeueTaskRas p, filter_toTail hp l⟩

theorem keepsOrder_classPutPrevTask (hp : A p = false) :
    KeepsOrder A s (classPutPrevTask K s p) := by
  rw [classPutPrevTask]
  split
  · exact .of_ras updateCurrRt_ras
  · exact (KeepsOrder.of_ras (updateCurrRas_ras s)).trans (keepsOrder_requeueTaskRas hp)
  · exact .of_ras rfl

theorem keepsOrder_dequeueTaskRas (hp : A p = false) : KeepsOrder A s (dequeueTaskRas s p) := by
  intro l hl
  by_cases hpl : p ∈ l
  · exact ⟨l.erase p, hl.dequeueTaskRas hpl, filter_erase_of_neg hp l⟩
  · have hl' : RunList (updateCurrRas s) l := by rwa [RunList, updateCurrRas_ras]
    refine ⟨l, ?_, rfl⟩
    rw [RunList, dequeueTaskRas]
    simp only [if_neg (mt hl'.onRasRq_iff.mp hpl)]
    exact hl'

theorem keepsOrder_dequeueTask {sleep : Bool} (hp : A p = false) :
    KeepsOrder A s (dequeueTask K s p sleep) := by
  have hclock : KeepsOrder A s (updateRqClock s) := .of_ras (accounts_updateRqClock (K := K)).ras
  rw [dequeueTask]
  refine hclock.trans ?_
  split
  · exact .of_ras updateCurrRt_ras
  · exact keepsOrder_dequeueTaskRas hp
  · exact .of_ras rfl

/-- A task that is not on the run list yet goes to one of its ends. -/
theorem keepsOrder_enqueueTask {flags : EnqueueFlags} (hp : A p = false)
    (hnew : ∀ l, RunList s l → p ∉ l) : KeepsOrder A s (enqueueTask K s p flags) := by
  have hclock : (updateRqClock s).ras = s.ras := (accounts_updateRqClock (K := K)).ras
  rw [enqueueTask]
  split
  · exact (KeepsOrder.of_ras hclock).trans (.of_ras rfl)
  · intro l hl
    have hl' : RunList (updateRqClock s) l := by rwa [RunList, hclock]
    refine ⟨_, hl'.enqueueTaskRas (hnew l hl) K flags, ?_⟩
    cases flags.head <;> simp [hp]
  · exact (KeepsOrder.of_ras hclock).trans (.of_ras rfl)

theorem Holds.notMem_runList (h : Holds K s F) (hp : p ∉ F) : ∀ l, RunList s l → p ∉ l := by
  intro l hl hpl
  obtain ⟨l', hl', hmem, -⟩ := h.ras
  rw [hl.unique hl'] at hpl
  exact hp (mem_inClass.mp ((hmem p).mp hpl)).1

theorem keepsOrder_withTaskOffRq {running : Bool} {change : Rq τ Q → Rq τ Q}
    {flags : EnqueueFlags} {f : TaskControl → TaskControl}
    (hchange : ∀ s, Accounts K (s.modifyCtl p f) (change s)) (h : Holds K s F)
    (hmem : p ∈ F ↔ (s.ctl p).onRq = true) (hp : A p = false) :
    KeepsOrder A s (withTaskOffRq K s p running change flags) := by
  have hoff : KeepsOrder A s (offRq K s p running) := by
    have hdeq : KeepsOrder A s (if (s.task p).onRq then dequeueTask K s p false else s) := by
      split
      · exact keepsOrder_dequeueTask hp
      · exact .of_ras rfl
    rw [offRq]
    split
    · exact hdeq.trans (keepsOrder_classPutPrevTask hp)
    · exact hdeq
  have hholds : Holds K ((offRq K s p running).modifyCtl p f) (F.erase p) :=
    ((offRq_holds running).2 F hmem h).modifyCtl fun hm => absurd hm (Finset.notMem_erase p F)
  obtain ⟨changed, hacc, hend⟩ := exists_changed (K := K) (s := s) running flags hchange
  have hsame : KeepsOrder A s changed := hoff.trans (.of_ras hacc.ras)
  rw [hend]
  split
  · exact hsame.trans
      (keepsOrder_enqueueTask hp ((hacc.holds hholds).notMem_runList (Finset.notMem_erase p F)))
  · exact hsame

/-! ### Wakeups and context switches -/

theorem keepsOrder_modifyCtl (f : TaskControl → TaskControl) : KeepsOrder A s (s.modifyCtl p f) :=
  .of_ras rfl

theorem keepsOrder_ttwuDoWakeup {flags : ℕ} : KeepsOrder A s (ttwuDoWakeup K s p flags) :=
  (KeepsOrder.of_ras (accounts_checkPreemptCurr (K := K)).ras).trans (keepsOrder_modifyCtl _)

/-- Queueing a task that is not queued. -/
theorem keepsOrder_ttwuActivate {flags : EnqueueFlags} (h : Holds K s F) (hoff : p ∉ F)
    (hp : A p = false) : KeepsOrder A s (ttwuActivate K s p flags) :=
  (keepsOrder_enqueueTask hp (h.notMem_runList hoff)).trans (keepsOrder_modifyCtl _)

omit [DecidableEq τ] in
/-- The tasks of `A` are queued, so that a task which is not is none of them. -/
theorem apply_eq_false_of_onRq (hA : ∀ t, A t = true → (s.ctl t).onRq = true)
    (hoff : ¬(s.task p).onRq = true) : A p = false :=
  Bool.eq_false_iff.mpr fun hp => hoff (hA p hp)

theorem keepsOrder_tryToWakeUp (mask flags : ℕ) (h : Holds K s F)
    (hmem : ∀ t, t ∈ F ↔ (s.ctl t).onRq = true) (hA : ∀ t, A t = true → (s.ctl t).onRq = true) :
    KeepsOrder A s (tryToWakeUp K s p mask flags).2 := by
  rw [tryToWakeUp]
  split
  · exact .of_ras rfl
  · split
    · exact keepsOrder_ttwuDoWakeup
    · next hoff =>
      exact (keepsOrder_ttwuActivate h (mt (hmem p).mp hoff) (apply_eq_false_of_onRq hA hoff)).trans
        keepsOrder_ttwuDoWakeup

theorem keepsOrder_tryToWakeUpLocal (h : Holds K s F)
    (hmem : ∀ t, t ∈ F ↔ (s.ctl t).onRq = true) (hA : ∀ t, A t = true → (s.ctl t).onRq = true) :
    KeepsOrder A s (tryToWakeUpLocal K s p) := by
  rw [tryToWakeUpLocal]
  split
  · exact .of_ras rfl
  · split
    · exact .of_ras rfl
    · dsimp only
      split
      · next hoff =>
        have hoff : ¬(s.task p).onRq = true := by simpa using hoff
        exact (keepsOrder_ttwuActivate h (mt (hmem p).mp hoff)
          (apply_eq_false_of_onRq hA hoff)).trans keepsOrder_ttwuDoWakeup
      · exact keepsOrder_ttwuDoWakeup

/-- Dealing with the previous task of a context switch keeps the order of the others. -/
theorem keepsOrder_schedulePrev (h : Inv K s) {preempt signalPending : Bool} {toWakeup : Option τ}
    (hA : ∀ t, A t = true → (s.ctl t).onRq = true ∧ t ≠ s.curr) :
    KeepsOrder A s (schedulePrev K s preempt signalPending toWakeup) := by
  have hcurr : A s.curr = false := Bool.eq_false_iff.mpr fun hc => (hA _ hc).2 rfl
  rw [schedulePrev]
  dsimp only
  split
  · next hsleep =>
    split
    · exact keepsOrder_modifyCtl _
    · have hoff : KeepsOrder A s ((deactivateTask K s s.curr true).modifyCtl s.curr fun p =>
          { p with onRq := false }) :=
        (keepsOrder_dequeueTask hcurr).trans (keepsOrder_modifyCtl _)
      cases toWakeup with
      | none => exact hoff
      | some w =>
        have hd := h.prevDone_deactivate hsleep.1
        obtain ⟨F, hF, hmem⟩ := hd.holds
        exact hoff.trans (keepsOrder_tryToWakeUpLocal hF hmem fun t ht =>
          hd.stays t (hA t ht).2 (hA t ht).1)
  · exact .of_ras rfl

theorem keepsOrder_putPrevTask (hp : A p = false) : KeepsOrder A s (putPrevTask K s p) := by
  rw [putPrevTask]
  refine KeepsOrder.trans ?_ (keepsOrder_classPutPrevTask hp)
  split
  · exact .of_ras (accounts_updateRqClock (K := K)).ras
  · exact .of_ras rfl

theorem keepsOrder_taskTickRas (hp : A p = false) : KeepsOrder A s (taskTickRas K s p) := by
  have hticked : Accounts K s (countTick K s p) := accounts_countTick
  have hrefilled := hticked.trans (accounts_grantSlice (p := p))
  rw [taskTickRas_eq]
  split_ifs
  · exact .of_ras hticked.ras
  · exact (KeepsOrder.of_ras hrefilled.ras).trans (keepsOrder_requeueTaskRas hp)
  · exact .of_ras hrefilled.ras

theorem taskTickRt_ras : (taskTickRt K s p).ras = s.ras := by
  have hcurr : (updateCurrRt K s).ras = s.ras := updateCurrRt_ras
  rw [taskTickRt]
  dsimp only
  split_ifs
  all_goals simp only [Rq.reschedTask, requeueTaskRt, Rq.modifyTask, hcurr]

theorem applyEffect_ras (e : ForeignEffect Q) : (s.applyEffect e).ras = s.ras := by
  rw [Rq.applyEffect]
  dsimp only
  split <;> rfl

theorem keepsOrder_schedulerTick (hcurr : A s.curr = false) :
    KeepsOrder A s (schedulerTick K s) := by
  have hclock : Accounts K s (updateRqClock s) := accounts_updateRqClock
  rw [schedulerTick]
  refine (KeepsOrder.of_ras hclock.ras).trans ?_
  rw [← hclock.curr] at hcurr
  rw [classTaskTick]
  split
  · exact .of_ras taskTickRt_ras
  · exact keepsOrder_taskTickRas hcurr
  · exact .of_ras (applyEffect_ras _)

theorem keepsOrder_schedYield (hcurr : A s.curr = false) : KeepsOrder A s (schedYield K s) := by
  rw [schedYield, classYieldTask]
  split
  · exact .of_ras rfl
  · exact keepsOrder_requeueTaskRas hcurr
  · exact .of_ras (applyEffect_ras _)

/-- The child of a fork is not on the run list, and the initialisation of its node does not touch
those that are. -/
theorem keepsOrder_fork {child : τ} (h : Holds K s F) (hoff : child ∉ F) :
    KeepsOrder A s (fork K s child) := by
  intro l hl
  have hmem : some child ∉ none :: l.map some := by
    simpa using h.notMem_runList hoff l hl
  have hfork : (fork K s child).ras = (schedForkInit (dupTaskStruct s child) child).ras :=
    (accounts_classTaskFork (K := K)).ras
  refine ⟨l, ?_, rfl⟩
  rw [RunList, hfork]
  exact Owns.copyNode_initListHead hl hmem

theorem keepsOrder_rtMutexSetprio {prio : ℤ} (h : Holds K s F)
    (hmem : p ∈ F ↔ (s.ctl p).onRq = true) (hp : A p = false) :
    KeepsOrder A s (rtMutexSetprio K s p prio) := by
  rw [rtMutexSetprio]
  split
  · exact .of_ras rfl
  · exact (keepsOrder_withTaskOffRq (fun _ => .refl ..) h hmem hp).trans
      (.of_ras (accounts_checkClassChanged (K := K)).ras)

/-! ### Steps -/

/-- The step takes the task off the run queue, if only to put it back. -/
def TakesOff (K : Kernel τ Q) (s : Rq τ Q) : Op τ → τ → Prop
  | .schedule preempt signalPending _, t =>
    t = s.curr ∧ (s.task t).state ≠ 0 ∧ preempt = false ∧ signalPending = false
  | .setscheduler caller p policy prio user, t =>
    t = p ∧ (s.task t).onRq = true ∧
      (setschedulerCheck K s caller t policy prio user).toOption.isSome
  | .rtMutexAdjustPrio p waiter, t =>
    t = p ∧ (s.task t).onRq = true ∧
      (s.task t).prio ≠ rtMutexGetprio { s.ctl t with piTopWaiter := waiter }
  | .setUserNice p nice, t =>
    t = p ∧ (s.task t).onRq = true ∧ rtPolicy (s.task t).policy = false ∧
      ¬(prioToNice (s.task t).staticPrio = nice ∨ nice < -20 ∨ 19 < nice)
  | .schedMoveTask p _, t => t = p ∧ (s.task t).onRq = true
  | _, _ => False

instance (s : Rq τ Q) (op : Op τ) (t : τ) : Decidable (TakesOff K s op t) :=
  match op with
  | .schedule _ _ _ | .setscheduler _ _ _ _ _ | .rtMutexAdjustPrio _ _ | .setUserNice _ _ =>
    inferInstanceAs (Decidable (_ ∧ _ ∧ _))
  | .schedMoveTask _ _ => inferInstanceAs (Decidable (_ ∧ _))
  | .fork _ | .wakeUpNewTask _ | .tryToWakeUp _ _ _ | .schedulerTick | .schedYield
  | .schedRrGetInterval _ | .rtPeriodTimer _ _ | .setCurrentState _ | .writeTrace _ _ _ =>
    .isFalse id

theorem takesOff_atTime {op : Op τ} {t : τ} {now : ℤ} :
    TakesOff K (atTime s now) op t ↔ TakesOff K s op t := by
  cases op <;> exact Iff.rfl

/-- Tasks that wait, and that a step does not take off the run queue, keep their order. -/
theorem keepsOrder_execOp (h : Inv K s) {op : Op τ} (he : Enabled s op)
    (hx : execOp K s op = some s')
    (hA : ∀ t, A t = true → (s.ctl t).onRq = true ∧ t ≠ s.curr ∧ ¬TakesOff K s op t) :
    KeepsOrder A s s' := by
  obtain ⟨F, hF, hmem⟩ := h.holds
  have hcurr : A s.curr = false := Bool.eq_false_iff.mpr fun hc => (hA _ hc).2.1 rfl
  have hon : ∀ t, A t = true → (s.ctl t).onRq = true := fun t ht => (hA t ht).1
  -- a task that is taken off the run queue if it is queued is none of `A`
  have hout : ∀ p, ((s.ctl p).onRq = true → TakesOff K s op p) → A p = false := fun p hp =>
    Bool.eq_false_iff.mpr fun ht => (hA p ht).2.2 (hp (hon p ht))
  cases op with
  | fork child =>
    obtain ⟨-, -, -, -, hoff, -⟩ := he
    obtain rfl := Option.some.inj hx
    refine keepsOrder_fork hF fun hm => ?_
    have hm : (s.task child).onRq = true := (hmem child).mp hm
    rw [hoff] at hm
    cases hm
  | wakeUpNewTask p =>
    obtain ⟨-, hoff, -⟩ := he
    obtain rfl := Option.some.inj hx
    have hoff : ¬(s.ctl p).onRq = true := by
      have hoff : (s.ctl p).onRq = false := hoff
      simp [hoff]
    exact (keepsOrder_ttwuActivate hF (mt (hmem p).mp hoff) (apply_eq_false_of_onRq hon hoff)).trans
      (.of_ras (accounts_checkPreemptCurr (K := K)).ras)
  | tryToWakeUp p mask flags =>
    obtain rfl := Option.some.inj hx
    exact keepsOrder_tryToWakeUp mask flags hF hmem hon
  | schedule preempt signalPending toWakeup =>
    obtain ⟨m, c, next, s'', hm, -, -, hsched, -, -, -, -, -, hras⟩ :=
      schedule_spec h preempt signalPending toWakeup
    obtain rfl : s'' = s' := Option.some.inj (hsched.symm.trans hx)
    rw [hm] at hras
    exact ((keepsOrder_schedulePrev h fun t ht => ⟨hon t ht, (hA t ht).2.1⟩).trans
      (keepsOrder_putPrevTask hcurr)).trans (.of_ras hras)
  | schedulerTick =>
    obtain rfl := Option.some.inj hx
    exact keepsOrder_schedulerTick hcurr
  | schedYield =>
    obtain rfl := Option.some.inj hx
    exact keepsOrder_schedYield hcurr
  | setscheduler caller p policy prio user =>
    obtain rfl := Option.some.inj hx
    rcases schedSetscheduler_cases K s caller p policy prio user with
      ⟨r, -, hres⟩ | ⟨newPolicy, reset, hcheck, hres⟩
    · rw [hres]
      exact .of_ras rfl
    · rw [hres]
      exact (keepsOrder_withTaskOffRq (fun _ => .refl ..) hF (hmem p)
        (hout p fun ht => ⟨rfl, ht, by rw [hcheck]; rfl⟩)).trans
        (.of_ras (accounts_checkClassChanged (K := K)).ras)
  | rtMutexAdjustPrio p waiter =>
    obtain rfl := Option.some.inj hx
    rw [rtMutexAdjustPrio_eq]
    split
    · next hne =>
      have hwrite : Holds K (s.modifyCtl p fun c => { c with piTopWaiter := waiter }) F :=
        hF.modifyCtl fun _ => ⟨rfl, rfl, rfl, rfl⟩
      have hmark : p ∈ F ↔
          ((s.modifyCtl p fun c => { c with piTopWaiter := waiter }).ctl p).onRq = true := by
        rw [ctl_modifyCtl, Function.update_self]
        exact hmem p
      exact (keepsOrder_modifyCtl _).trans
        (keepsOrder_rtMutexSetprio hwrite hmark (hout p fun ht => ⟨rfl, ht, hne⟩))
    · exact keepsOrder_modifyCtl _
  | setUserNice p nice =>
    obtain rfl := Option.some.inj hx
    rw [setUserNice]
    split
    · exact .of_ras rfl
    · next hnice =>
      split
      · exact keepsOrder_modifyCtl _
      · next hrt =>
        have hoff : KeepsOrder A s
            (withTaskOffRq K s p false (fun s => s.modifyCtl p (reniced nice)) {}) :=
          keepsOrder_withTaskOffRq (fun _ => .refl ..) hF (hmem p)
            (hout p fun ht => ⟨rfl, ht, Bool.eq_false_iff.mpr hrt, hnice⟩)
        dsimp only
        split
        · exact hoff.trans (.of_ras rfl)
        · exact hoff
  | schedMoveTask p tg =>
    obtain rfl := Option.some.inj hx
    exact keepsOrder_withTaskOffRq (fun _ => accounts_classTaskMoveGroup) hF (hmem p)
      (hout p fun ht => ⟨rfl, ht⟩)
  | schedRrGetInterval p =>
    obtain rfl := Option.some.inj hx
    exact .of_ras (accounts_schedRrGetInterval (K := K)).ras
  | rtPeriodTimer g overrun =>
    obtain rfl := Option.some.inj hx
    exact .of_ras (replenished K s g overrun).ras
  | setCurrentState state =>
    obtain rfl := Option.some.inj hx
    exact keepsOrder_modifyCtl _
  | writeTrace p wcounts traceFlag =>
    obtain rfl := Option.some.inj hx
    exact .of_ras rfl

/-! ### Picking in order -/

/-- The tasks `q` and `r` wait on the run list, `q` ahead of `r`. -/
def Ahead (s : Rq τ Q) (q r : τ) : Prop :=
  ∃ l, RunList s l ∧ [q, r].Sublist l ∧ s.curr ≠ q ∧ s.curr ≠ r

/-- One of the two tasks. -/
def isOneOf (q r : τ) (t : τ) : Bool := t = q ∨ t = r

theorem isOneOf_iff {q r t : τ} : isOneOf q r t = true ↔ t = q ∨ t = r := by simp [isOneOf]

/-- Two tasks in order on a list stay so on a list that has them in the same order. -/
theorem sublist_of_filter_eq {q r : τ} {l l' : List τ} (h : [q, r].Sublist l)
    (he : l'.filter (isOneOf q r) = l.filter (isOneOf q r)) : [q, r].Sublist l' := by
  have hpair : [q, r].filter (isOneOf q r) = [q, r] :=
    List.filter_eq_self.mpr fun t ht => isOneOf_iff.mpr (by simpa using ht)
  have hsub : [q, r].Sublist (l.filter (isOneOf q r)) := by
    rw [← hpair]
    exact h.filter _
  rw [← he] at hsub
  exact hsub.trans List.filter_sublist

/-- The tasks on the run list are the queued RAS tasks. -/
theorem Holds.mem_runList (h : Holds K s F) {l : List τ} (hl : RunList s l) (t : τ) :
    t ∈ l ↔ t ∈ F ∧ (s.ctl t).schedClass = .ras := by
  obtain ⟨l', hl', hmem, -⟩ := h.ras
  rw [hl.unique hl', hmem, mem_inClass]

omit [DecidableEq τ] in
/-- The second of two tasks on a list is not its head. -/
theorem head?_ne_of_sublist {q r : τ} {l : List τ} (hnd : l.Nodup) (h : [q, r].Sublist l) :
    l.head? ≠ some r := by
  cases l with
  | nil => simp
  | cons t l =>
    rw [List.head?_cons]
    intro he
    obtain rfl : t = r := Option.some.inj he
    have hne : q ≠ t := fun hqt => by
      have := hnd.sublist h
      simp [hqt] at this
    have hrest : [q, t].Sublist l := (List.sublist_cons_iff.mp h).resolve_right fun ⟨_, hr, _⟩ =>
      hne (List.cons.inj hr).1
    exact (List.nodup_cons.mp hnd).1 (hrest.subset (by simp))

/-- As long as neither task is taken off the run queue, the second is not picked before the
first. -/
theorem Ahead.step {q r : τ} (ha : Ahead s q r) (h : Inv K s) {op : Op τ} (he : Enabled s op)
    (hx : execOp K s op = some s') (hq : ¬TakesOff K s op q) (hr : ¬TakesOff K s op r) :
    s'.curr = q ∨ Ahead s' q r := by
  obtain ⟨l, hl, hsub, hcq, hcr⟩ := ha
  obtain ⟨F, hF, hmem⟩ := h.holds
  have hon : ∀ t ∈ l, (s.ctl t).onRq = true := fun t ht => (hmem t).mp ((hF.mem_runList hl t).mp ht).1
  have hkeep : KeepsOrder (isOneOf q r) s s' := by
    refine keepsOrder_execOp h he hx fun t ht => ?_
    rcases isOneOf_iff.mp ht with rfl | rfl
    · exact ⟨hon t (hsub.subset (by simp)), hcq.symm, hq⟩
    · exact ⟨hon t (hsub.subset (by simp)), hcr.symm, hr⟩
  obtain ⟨l', hl', hfilter⟩ := hkeep l hl
  have hsub' := sublist_of_filter_eq hsub hfilter
  by_cases hsched : ∃ preempt signalPending toWakeup,
      op = .schedule preempt signalPending toWakeup
  · obtain ⟨preempt, signalPending, toWakeup, rfl⟩ := hsched
    obtain ⟨m, c, next, s'', -, hd, ⟨F', hF', -, -, hpick, -⟩, heq, -, hcurr, -, -, -, hras⟩ :=
      schedule_spec h preempt signalPending toWakeup
    obtain rfl : s'' = s' := Option.some.inj (heq.symm.trans hx)
    have hlm : RunList m l' := by rwa [RunList, ← hras]
    -- a task of the RAS class is picked only as the head of the run list
    have hnext : next ≠ r := by
      rintro rfl
      have hclass := ((hF'.mem_runList hlm next).mp (hsub'.subset (by simp))).2
      have hc : c = .ras := by
        rcases hpick.mem with ⟨-, hidle⟩ | ⟨-, hc⟩
        · rw [hidle, hd.idle, hd.ctl_idle, h.idle_class] at hclass
          cases hclass
        · exact hc.symm.trans hclass
      exact head?_ne_of_sublist (List.Nodup.of_map some hlm.nodup_tail) hsub' (hpick.ras hc l' hlm)
    by_cases hnq : next = q
    · exact .inl (hcurr.trans hnq)
    · exact .inr ⟨l', hl', hsub', by rwa [hcurr], by rwa [hcurr]⟩
  · have hcurr : s'.curr = s.curr := (execOp_spec h he hx).2.2
      fun preempt signalPending toWakeup ho => hsched ⟨preempt, signalPending, toWakeup, ho⟩
    exact .inr ⟨l', hl', hsub', by rwa [hcurr], by rwa [hcurr]⟩

/-- The steps that take neither of two tasks off the run queue. -/
def LeavesQueued (K : Kernel τ Q) (q r : τ) (s : Rq τ Q) (e : Event τ) : Prop :=
  ¬TakesOff K s e.op q ∧ ¬TakesOff K s e.op r

/-- A run in which neither of two waiting tasks is taken off the run queue passes through a state
in which the first is current before the second is. -/
theorem Ahead.run {q r : τ} {as : List (Event τ)} {t : Rq τ Q}
    (hrun : Run ((system K).restrict (LeavesQueued K q r)) s as t) (h : Inv K s)
    (ha : Ahead s q r) (ht : t.curr = r) :
    ∃ as₁ as₂ u, as = as₁ ++ as₂ ∧ Run (system K) s as₁ u ∧ Run (system K) u as₂ t ∧ u.curr = q := by
  induction hrun with
  | nil s =>
    obtain ⟨l, -, -, -, hcr⟩ := ha
    exact absurd ht hcr
  | @cons s u t e as hstep hrun ih =>
    obtain ⟨⟨hq, hr⟩, hstep⟩ := hstep
    obtain ⟨he, hx, hinv⟩ := step_inv h hstep
    have ha' : Ahead (atTime s e.now) q r := ha
    rcases ha'.step hinv he hx (mt takesOff_atTime.mp hq) (mt takesOff_atTime.mp hr) with hu | hu
    · exact ⟨[e], as, u, rfl, .cons hstep (.nil u), hrun.of_restrict, hu⟩
    · obtain ⟨as₁, as₂, v, rfl, h₁, h₂, hv⟩ := ih (execOp_spec hinv he hx).1 hu ht
      exact ⟨e :: as₁, as₂, v, rfl, .cons hstep h₁, h₂, hv⟩

/-! ### Giving up the processor -/

/-- The running RAS task gives up the processor: it yields, its last tick is up while another task
waits, or a context switch puts it aside while it is still runnable. -/
def GivesUp (K : Kernel τ Q) (s : Rq τ Q) (op : Op τ) : Prop :=
  (s.task s.curr).schedClass = .ras ∧
    match op with
    | .schedYield => True
    | .schedulerTick => (s.task s.curr).ras.timeSlice = 1 ∧ 2 ≤ s.ras.rasNrRunning
    | .schedule .. => ¬TakesOff K s op s.curr
    | _ => False

theorem givesUp_atTime {op : Op τ} {now : ℤ} : GivesUp K (atTime s now) op ↔ GivesUp K s op := by
  cases op <;> exact Iff.rfl

/-- The running RAS task is on the run list. -/
theorem Inv.curr_mem (h : Inv K s) (hF : Holds K s F) (hmem : ∀ t, t ∈ F ↔ (s.ctl t).onRq = true)
    (hc : (s.ctl s.curr).schedClass = .ras) {l : List τ} (hl : RunList s l) : s.curr ∈ l := by
  have hidle : s.curr ≠ s.idle := fun he => by
    rw [he, h.idle_class] at hc
    cases hc
  exact (hF.mem_runList hl _).mpr ⟨(hmem _).mpr (h.curr.resolve_left hidle), hc⟩

/-- An expiry with other tasks on the list moves the task to its end. -/
theorem RunList.taskTickRas {l : List τ} (hl : RunList s l) (hslice : (s.task p).ras.timeSlice = 1)
    (htwo : 2 ≤ l.length) : RunList (taskTickRas K s p) (toTail l p) := by
  have hrefilled : Accounts K s ((countTick K s p).modifyTask p (grantSlice K.hz)) :=
    accounts_countTick.trans accounts_grantSlice
  have hexpired : ¬(s.task p).ras.timeSlice - 1 ≠ 0 := by
    rw [hslice]
    decide
  have hothers : s.ras.links.prev none ≠ s.ras.links.next none :=
    hl.prev_head_ne_next_head_iff.mpr (by rwa [List.length_map])
  rw [taskTickRas_eq, if_neg hexpired, if_pos hothers]
  exact (hrefilled.runList hl).requeueTaskRas p

/-- A task that stays runnable is left on the run list, and in its class. -/
theorem schedulePrev_ras {preempt signalPending : Bool} {toWakeup : Option τ}
    (hstay : ¬TakesOff K s (.schedule preempt signalPending toWakeup) s.curr) :
    (schedulePrev K s preempt signalPending toWakeup).ras = s.ras ∧
      ((schedulePrev K s preempt signalPending toWakeup).ctl s.curr).schedClass =
        (s.ctl s.curr).schedClass := by
  rw [schedulePrev]
  dsimp only
  split
  · next hsleep =>
    split
    · exact ⟨rfl, by rw [ctl_modifyCtl, Function.update_self]⟩
    · next hsignal => exact absurd ⟨rfl, hsleep.1, by simpa using hsleep.2, by simpa using hsignal⟩ hstay
  · exact ⟨rfl, rfl⟩

/-- A running task that gives up the processor goes behind all the tasks that wait. -/
theorem runList_givesUp (h : Inv K s) {op : Op τ} (hx : execOp K s op = some s') {l : List τ}
    (hl : RunList s l) (hg : GivesUp K s op) : RunList s' (l.erase s.curr ++ [s.curr]) := by
  obtain ⟨F, hF, hmem⟩ := h.holds
  obtain ⟨hc, hg⟩ := hg
  have hcurr : s.curr ∈ l := h.curr_mem hF hmem hc hl
  have htail : toTail l s.curr = l.erase s.curr ++ [s.curr] := if_pos hcurr
  rw [← htail]
  cases op with
  | schedYield =>
    obtain rfl := Option.some.inj hx
    rw [schedYield, classYieldTask, hc]
    exact hl.requeueTaskRas s.curr
  | schedulerTick =>
    obtain ⟨hslice, htwo⟩ := hg
    obtain rfl := Option.some.inj hx
    have hclock : Accounts K s (updateRqClock s) := accounts_updateRqClock
    have hlen : 2 ≤ l.length := by
      obtain ⟨l', hl', -, hn⟩ := hF.ras
      rw [hl.unique hl']
      omega
    rw [schedulerTick, classTaskTick, updateRqClock_curr, updateRqClock_task, hc]
    exact RunList.taskTickRas (hclock.runList hl) (by rwa [updateRqClock_task]) hlen
  | schedule preempt signalPending toWakeup =>
    obtain ⟨m, c, next, s'', hm, -, -, hsched, -, -, -, -, -, hras⟩ :=
      schedule_spec h preempt signalPending toWakeup
    obtain rfl : s'' = s' := Option.some.inj (hsched.symm.trans hx)
    obtain ⟨hprev, hclass⟩ := schedulePrev_ras hg
    have hput := RunList.putPrevTask (K := K) (show RunList _ l by rwa [RunList, hprev])
      (hclass.trans hc)
    rwa [RunList, hras, hm]
  | _ => exact hg.elim

/-- Of two RAS tasks that wait in some reachable state, the one ahead on the run list is picked
first, in every run in which neither is taken off the run queue. A running RAS task that yields,
expires with others queued or is switched out is put behind every task that waits. -/
theorem ras_fifo (h : Reachable (system K) s) :
    (∀ q r, Ahead s q r → ∀ as t, Run ((system K).restrict (LeavesQueued K q r)) s as t →
      t.curr = r → ∃ as₁ as₂ u, as = as₁ ++ as₂ ∧ Run (system K) s as₁ u ∧
        Run (system K) u as₂ t ∧ u.curr = q) ∧
      ∀ e s', (system K).step s e s' → GivesUp K s e.op → ∀ l, RunList s l →
        RunList s' (l.erase s.curr ++ [s.curr]) := by
  have hinv := reachable_inv h
  refine ⟨fun q r ha as t hrun ht => ha.run hrun hinv ht, fun e s' hstep hg l hl => ?_⟩
  obtain ⟨-, hx, hinv'⟩ := step_inv hinv hstep
  exact runList_givesUp hinv' hx hl (givesUp_atTime.mpr hg)

/-- Three RAS tasks, the first of which runs. -/
def twoWaiters : List (Op ℕ) :=
  [setschedulerNocheck 1 6 0, .wakeUpNewTask 1, setschedulerNocheck 2 6 0, .wakeUpNewTask 2,
    setschedulerNocheck 3 6 0, .wakeUpNewTask 3, reschedule]

/-- Two context switches, in which the two waiting tasks follow each other. -/
def twoSwitches : List (Event ℕ) := [⟨0, reschedule⟩, ⟨0, reschedule⟩]

theorem ras_fifo_twoWaiters :
    ∃ s t u, referenceRun twoWaiters = some s ∧ Ahead s 2 3 ∧
      Run (system (referenceKernel ℕ)) s twoSwitches t ∧ t.curr = 3 ∧
      (∃ as₁ as₂ v, twoSwitches = as₁ ++ as₂ ∧ Run (system (referenceKernel ℕ)) s as₁ v ∧
        Run (system (referenceKernel ℕ)) v as₂ t ∧ v.curr = 2) ∧
      (system (referenceKernel ℕ)).step s ⟨0, .schedYield⟩ u ∧ RunList u [2, 3, 1] := by
  obtain ⟨s, hs⟩ : ∃ s, s = (referenceRun twoWaiters).get (by decide +kernel) := ⟨_, rfl⟩
  have hrun : referenceRun twoWaiters = some s := by simp [hs]
  have hfifo := ras_fifo (reachable_referenceRun hrun)
  have hlist : RunList s [1, 2, 3] :=
    runList_of_chain (reachable_referenceRun hrun)
      (by simp only [List.map, chain_cons, chain_nil, hs]; decide +kernel)
  have hahead : Ahead s 2 3 :=
    ⟨_, hlist, by decide, by rw [hs]; decide +kernel, by rw [hs]; decide +kernel⟩
  obtain ⟨t, ht, hcurr⟩ : ∃ t, execAll (exec (referenceKernel ℕ)) s twoSwitches = some t ∧
      t.curr = 3 := Option.map_eq_some_iff.mp (by rw [hs]; decide +kernel)
  obtain ⟨u, hu⟩ : ∃ u, (system (referenceKernel ℕ)).step s ⟨0, .schedYield⟩ u :=
    Option.isSome_iff_exists.mp (by rw [hs]; decide +kernel)
  have hrun' : Run (system (referenceKernel ℕ)) s twoSwitches t := run_of_execAll ht
  -- a context switch of a preempted task takes no task off the run queue
  have hswitches : Run ((system (referenceKernel ℕ)).restrict (LeavesQueued _ 2 3)) s twoSwitches t :=
    hrun'.restrict fun v e he => by
      obtain rfl : e = ⟨0, reschedule⟩ := by simpa [twoSwitches] using he
      have hstays : ∀ q, ¬TakesOff (referenceKernel ℕ) v reschedule q := fun q hq => by
        cases hq.2.2.1
      exact ⟨hstays 2, hstays 3⟩
  refine ⟨s, t, u, hrun, hahead, ?_, hcurr, hfifo.1 2 3 hahead twoSwitches t hswitches hcurr, hu, ?_⟩
  · exact hrun'
  · have hgives : GivesUp (referenceKernel ℕ) s .schedYield :=
      ⟨by rw [hs]; decide +kernel, trivial⟩
    have hc : s.curr = 1 := by rw [hs]; decide +kernel
    have htail := hfifo.2 _ u hu hgives _ hlist
    rwa [hc] at htail

end OsProject.Sched
