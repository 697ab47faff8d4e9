import OsProject.Sched.Inheritance
import OsProject.Sched.RtOrder

/-!
# Real-time tasks run in order

The real-time class picks the first task of a list, and does not move a task that is switched out. So
a task does not run while another one of its group and priority is ahead of it. A `SCHED_FIFO` task of
the root task group that has been picked runs until it gives way or a better task is there; the
entity of another group goes in front of it only when a task of that group loses a better priority
that it inherited. A task below the root has no such guarantee: its group goes behind the others of
the list above when another task of the group is woken.

## Main definitions

* `RtAhead` — a task is ahead of another one of its group and priority.
* `Unrivalled` — no task is queued that a real-time task has to give way to.

## Main results

* `rt_waits_in_line` — the order among tasks of one group and priority.
* `rt_fifo_keeps_processor`.

Source: `kernel/sched/rt.c`, `kernel/sched/core.c`.
-/

namespace OsProject.Sched

open PrioQueues Transition

variable {τ Q : Type*} [DecidableEq τ] {K : Kernel τ Q} {s s' : Rq τ Q} {F : Finset τ} {p q r : τ}

/-! ### The pick of a context switch -/

/-- A context switch to a real-time task: the loop over the groups has given it in a state with the
same queues. -/
theorem pick_of_schedule (h : Inv K s) {preempt signalPending : Bool} {toWakeup : Option τ}
    (hx : schedule K s preempt signalPending toWakeup = some s')
    (hc : (s'.ctl s'.curr).schedClass = .rt) :
    ∃ m F, Holds K m F ∧ (∀ t, t ∈ F ↔ (m.ctl t).onRq = true) ∧ PickedFrom m F .rt s'.curr ∧
      (∀ t ∈ F, (m.ctl t).schedClass ≠ .stop) ∧ s'.ctl = m.ctl ∧ s'.rt = m.rt := by
  obtain ⟨m, c, next, s'', -, hd, ⟨F, hF, hmem, -, hpick, hall⟩, hsched, hctl, hcurr, -, -, hrt, -⟩ :=
    schedule_spec h preempt signalPending toWakeup
  obtain rfl : s'' = s' := Option.some.inj (hsched.symm.trans hx)
  rw [hctl, hcurr] at hc
  obtain rfl : c = .rt := by
    rcases hpick.mem with ⟨-, hidle⟩ | ⟨-, hpc⟩
    · rw [hidle, hd.idle, hd.ctl_idle, h.idle_class] at hc
      cases hc
    · exact hpc.symm.trans hc
  refine ⟨m, F, hF, hmem, by rwa [hcurr], fun t ht hstop => ?_, hctl, hrt⟩
  exact absurd (hall .stop (by decide) t ht hstop).1 (by decide)

/-- A context switch gives the processor to a real-time task only as the first one of its list. -/
theorem rtHead_schedule (h : Inv K s) {preempt signalPending : Bool} {toWakeup : Option τ}
    (hx : schedule K s preempt signalPending toWakeup = some s')
    (hc : (s'.ctl s'.curr).schedClass = .rt) :
    (rtLists s'.rt ((s'.ctl s'.curr).schedTaskGroup.rtRq, (s'.ctl s'.curr).prio)).head? =
      some (.task s'.curr) := by
  obtain ⟨m, F, hF, -, hpick, -, hctl, hrt⟩ := pick_of_schedule h hx hc
  rw [hctl, hrt]
  exact hpick.rt_head hF

/-! ### Waiting in line -/

/-- The task `q` is ahead of `r` on a list. -/
def RtAhead (s : Rq τ Q) (q r : τ) : Prop := ∃ x, [q, r].Sublist (rtTaskList s.rt x)

omit [DecidableEq τ] in
theorem mem_rtTaskList {rt : RtRqs τ} {x : RtGroup × ℤ} {t : τ} :
    t ∈ rtTaskList rt x ↔ .task t ∈ rtLists rt x := by
  rw [rtTaskList, List.mem_filterMap]
  constructor
  · rintro ⟨e, he, ht⟩
    cases e with
    | task q =>
      obtain rfl := Option.some.inj ht
      exact he
    | group g => cases ht
  · exact fun ht => ⟨_, ht, rfl⟩

/-- The tasks on the lists are the queued real-time tasks, by their groups and priorities. -/
theorem Inv.mem_rtTaskList (h : Inv K s) {x : RtGroup × ℤ} {t : τ} : t ∈ rtTaskList s.rt x ↔
    ((s.ctl t).onRq = true ∧ (s.ctl t).schedClass = .rt) ∧
      (s.ctl t).schedTaskGroup.rtRq = x.1 ∧ (s.ctl t).prio = x.2 := by
  obtain ⟨F, hF, hmem⟩ := h.holds
  rw [Sched.mem_rtTaskList, hF.rt.mem_rtLists, mem_inClass, hmem]

theorem Inv.nodup_rtTaskList (h : Inv K s) (x : RtGroup × ℤ) : (rtTaskList s.rt x).Nodup := by
  obtain ⟨F, hF, -⟩ := h.holds
  obtain ⟨M, -, hheld⟩ := RtLinked.rq hF.rt x.1
  refine List.Nodup.filterMap (fun e e' t ht ht' => ?_) (hheld.nodup x.2)
  cases e with
  | group g => cases ht
  | task q =>
    cases e' with
    | group g => cases ht'
    | task q' =>
      obtain rfl := Option.some.inj ht
      obtain rfl := Option.some.inj ht'
      rfl

/-- A task that stays queued is moved only when it gives up its turn. -/
theorem RtMove.task_cases {op : Op τ} {m : EntityMove τ} {t : τ} (hm : RtMove K s s' op m)
    (ht : m.entry = .task t) :
    TakesOff K s op t ∨ (s.ctl t).onRq = false ∨ (t = s.curr ∧ RtTurns s op) := by
  cases hm with
  | off h =>
    cases ht
    exact h.imp_right .inl
  | back h _ _ =>
    cases ht
    exact .inl h
  | wake hoff _ =>
    cases ht
    exact .inr (.inl hoff)
  | turn h =>
    cases ht
    exact .inr (.inr ⟨rfl, h⟩)
  | group h =>
    obtain ⟨⟨g, hg⟩, -⟩ := h
    rw [hg] at ht
    cases ht
  | groupHead _ _ => cases ht

/-- As long as neither of two tasks is taken off the run queue, and the first does not give up a
turn, the second is behind it and not picked. -/
theorem RtAhead.step (ha : RtAhead s q r) (hcr : s.curr ≠ r) (h : Inv K s) {op : Op τ}
    (he : Enabled s op) (hx : execOp K s op = some s') (hq : ¬TakesOff K s op q)
    (hr : ¬TakesOff K s op r) (hturn : ¬(s.curr = q ∧ RtTurns s op)) :
    RtAhead s' q r ∧ s'.curr ≠ r := by
  obtain ⟨x, hsub⟩ := ha
  have hon : ∀ t ∈ rtTaskList s.rt x, (s.ctl t).onRq = true := fun t ht =>
    (h.mem_rtTaskList.mp ht).1.1
  have hq' : (s.ctl q).onRq = true := hon q (hsub.subset (by simp))
  have hr' : (s.ctl r).onRq = true := hon r (hsub.subset (by simp))
  have hsub' : [q, r].Sublist (rtTaskList s'.rt x) := by
    refine sublist_of_filter_eq hsub (filter_rtTaskList (rtMoves_execOp h he hx)
      (fun m hm t ht => ?_) x)
    refine Bool.eq_false_iff.mpr fun hone => ?_
    rcases isOneOf_iff.mp hone with rfl | rfl <;>
      rcases hm.task_cases ht with hoff | hoff | ⟨hc, hturns⟩
    · exact hq hoff
    · rw [hq'] at hoff
      cases hoff
    · exact hturn ⟨hc.symm, hturns⟩
    · exact hr hoff
    · rw [hr'] at hoff
      cases hoff
    · exact hcr hc.symm
  refine ⟨⟨x, hsub'⟩, ?_⟩
  obtain ⟨hinv', -, hcurr⟩ := execOp_spec h he hx
  cases op with
  | schedule preempt signalPending toWakeup =>
    rintro rfl
    obtain ⟨⟨-, hclass⟩, hgroup, hprio⟩ :=
      hinv'.mem_rtTaskList.mp (hsub'.subset (by simp : s'.curr ∈ [q, s'.curr]))
    have hhead := rtHead_schedule h hx hclass
    rw [hgroup, hprio] at hhead
    obtain ⟨l, hl⟩ := List.head?_eq_some_iff.mp hhead
    refine head?_ne_of_sublist (hinv'.nodup_rtTaskList x) hsub' ?_
    rw [rtTaskList, show rtLists s'.rt x = _ from hl]
    rfl
  | _ =>
    rw [hcurr (by intro _ _ _ ho; cases ho)]
    exact hcr

/-- The steps that take neither of two tasks off the run queue, and at which the first does not
give up a turn. -/
def KeepsLine (K : Kernel τ Q) (q r : τ) (s : Rq τ Q) (e : Event τ) : Prop :=
  ¬TakesOff K s e.op q ∧ ¬TakesOff K s e.op r ∧ ¬(s.curr = q ∧ RtTurns s e.op)

instance (q r : τ) (s : Rq τ Q) (e : Event τ) : Decidable (KeepsLine K q r s e) :=
  inferInstanceAs (Decidable (_ ∧ _ ∧ _))

omit [DecidableEq τ] in
theorem rtTurns_atTime {op : Op τ} {now : ℤ} : RtTurns (atTime s now) op ↔ RtTurns s op := by
  cases op <;> exact Iff.rfl

/-- A real-time task does not run while another one of its group and priority is ahead of it, in every
run in which neither is taken off the run queue and the one ahead does not give up its turn,
whatever other tasks and groups come and go. A task that gives up its turn, by a yield or with the
last tick of a round robin slice, goes behind all tasks of its group and priority. -/
theorem rt_waits_in_line (h : Reachable (system K) s) :
    (∀ q r, RtAhead s q r → s.curr ≠ r → ∀ es s',
      Run ((system K).restrict (KeepsLine K q r)) s es s' → RtAhead s' q r ∧ s'.curr ≠ r) ∧
    ∀ e s', (system K).step s e s' → RtTurns s e.op →
      rtTaskList s'.rt ((s.task s.curr).schedTaskGroup.rtRq, (s.task s.curr).prio) =
        (rtTaskList s.rt ((s.task s.curr).schedTaskGroup.rtRq, (s.task s.curr).prio)).erase s.curr ++
          [s.curr] := by
  have hinv := reachable_inv h
  refine ⟨fun q r ha hcr es s' hrun => ?_, fun e s' hstep hturn => ?_⟩
  · have hall : Inv K s' ∧ RtAhead s' q r ∧ s'.curr ≠ r := by
      refine hrun.invariant (P := fun s => Inv K s ∧ RtAhead s q r ∧ s.curr ≠ r) ?_ ⟨hinv, ha, hcr⟩
      rintro s e s' ⟨hinv, ha, hcr⟩ ⟨⟨hq, hr, hturn⟩, hstep⟩
      obtain ⟨he, hx, hinv'⟩ := step_inv hinv hstep
      have ha' : RtAhead (atTime s e.now) q r := ha
      exact ⟨(execOp_spec hinv' he hx).1, ha'.step hcr hinv' he hx (mt takesOff_atTime.mp hq)
        (mt takesOff_atTime.mp hr) fun ht => hturn ⟨ht.1, rtTurns_atTime.mp ht.2⟩⟩
    exact hall.2
  · obtain ⟨he, hx, hinv'⟩ := step_inv hinv hstep
    exact rtTaskList_turn (s := atTime s e.now) hinv' (rtTurns_atTime.mpr hturn) hx

/-- Three round robin tasks of one group, the first of which runs. -/
def threeRt : List (Op ℕ) :=
  [1, 2, 3].flatMap (fun p => [setschedulerNocheck p 2 50, .schedMoveTask p { path := "/bg" },
    .wakeUpNewTask p]) ++ [reschedule]

/-- The first task yields, and the second one runs. -/
def firstYields : List (Event ℕ) := [⟨0, .schedYield⟩, ⟨0, reschedule⟩, ⟨0, .schedulerTick⟩]

theorem isSome_threeRt : (referenceRun threeRt).isSome := by decide +kernel

theorem rt_waits_in_line_threeRt :
    ∃ s s' u, referenceRun threeRt = some s ∧ RtAhead s 2 3 ∧ s.curr = 1 ∧
      Run ((system (referenceKernel ℕ)).restrict (KeepsLine (referenceKernel ℕ) 2 3)) s firstYields
        s' ∧ s'.curr = 2 ∧ RtAhead s' 2 3 ∧ s'.curr ≠ 3 ∧
      (system (referenceKernel ℕ)).step s ⟨0, .schedYield⟩ u ∧
      rtTaskList u.rt (["/bg"], 49) = [2, 3, 1] := by
  obtain ⟨s, hs⟩ : ∃ s, s = (referenceRun threeRt).get isSome_threeRt := ⟨_, rfl⟩
  have hrun : referenceRun threeRt = some s := by simp [hs]
  have hline := rt_waits_in_line (reachable_referenceRun hrun)
  have hahead : RtAhead s 2 3 := ⟨(["/bg"], 49), by rw [hs]; decide +kernel⟩
  have hcurr : s.curr = 1 := by rw [hs]; decide +kernel
  obtain ⟨s', hrun', hcurr'⟩ := Option.map_eq_some_iff.mp (show (execAll (fun s e =>
    if KeepsLine (referenceKernel ℕ) 2 3 s e then exec (referenceKernel ℕ) s e else none) s
      firstYields).map (·.curr) = some 2 by rw [hs]; decide +kernel)
  obtain ⟨u, hu⟩ : ∃ u, (system (referenceKernel ℕ)).step s ⟨0, .schedYield⟩ u :=
    Option.isSome_iff_exists.mp (by rw [hs]; decide +kernel)
  have hsteps : Run ((system (referenceKernel ℕ)).restrict (KeepsLine (referenceKernel ℕ) 2 3)) s
      firstYields s' := run_restrict_of_execAll hrun'
  obtain ⟨hahead', hne⟩ := hline.1 2 3 hahead (by rw [hcurr]; decide) firstYields s' hsteps
  have hturn := hline.2 _ u hu ⟨by rw [hs]; decide +kernel, trivial⟩
  refine ⟨s, s', u, hrun, hahead, hcurr, hsteps, hcurr', hahead', hne, hu, ?_⟩
  have hgroup : (s.task s.curr).schedTaskGroup.rtRq = ["/bg"] := by rw [hs]; decide +kernel
  have hprio : (s.task s.curr).prio = 49 := by rw [hs]; decide +kernel
  rw [hgroup, hprio] at hturn
  rw [hturn, hs]
  decide +kernel

/-! ### Keeping the processor -/

/-- No group of `p` is throttled, and no task is queued that `p` has to give way to: neither the
stopper thread nor an eligible real-time task of a better priority. -/
structure Unrivalled (s : Rq τ Q) (p : τ) : Prop where
  eligible : RtEligible s.rt (s.ctl p)
  stop : ∀ t, (s.task t).onRq = true → (s.task t).schedClass ≠ .stop
  prio_le : ∀ t, (s.task t).onRq = true → (s.task t).schedClass = .rt →
    RtEligible s.rt (s.ctl t) → (s.task p).prio ≤ (s.task t).prio

/-- A `SCHED_FIFO` task of the root task group runs, the first one of its list, and has no rival. -/
structure FifoRuns (s : Rq τ Q) (p : τ) : Prop extends Unrivalled s p where
  curr : s.curr = p
  policy : (s.task p).policy = .fifo
  schedClass : (s.task p).schedClass = .rt
  root : (s.task p).schedTaskGroup.rtRq = []
  head : (rtLists s.rt ([], (s.task p).prio)).head? = some (.task p)

/-- A task of a group below the root task group loses a better priority that it inherited. -/
def DeboostsBelowRoot (s : Rq τ Q) : Op τ → Prop
  | .rtMutexAdjustPrio t waiter => (s.ctl t).schedTaskGroup.rtRq ≠ [] ∧
      (s.ctl t).prio < (inherited waiter (s.ctl t)).prio
  | _ => False

instance (s : Rq τ Q) (op : Op τ) : Decidable (DeboostsBelowRoot s op) :=
  match op with
  | .rtMutexAdjustPrio _ _ => inferInstanceAs (Decidable (_ ∧ _))
  | .fork _ | .wakeUpNewTask _ | .tryToWakeUp _ _ _ | .schedule _ _ _ | .schedulerTick | .schedYield
  | .setscheduler _ _ _ _ _ | .setUserNice _ _ | .schedMoveTask _ _ | .schedRrGetInterval _
  | .rtPeriodTimer _ _ | .setCurrentState _ | .writeTrace _ _ _ => .isFalse id

omit [DecidableEq τ] in
theorem deboostsBelowRoot_atTime {op : Op τ} {now : ℤ} :
    DeboostsBelowRoot (atTime s now) op ↔ DeboostsBelowRoot s op := by
  cases op <;> exact Iff.rfl

/-- A task with a real-time policy that stays queued keeps policy, class, priority and group. -/
theorem ctl_of_stays (h : Inv K s) {op : Op τ} (he : Enabled s op) (hx : execOp K s op = some s')
    (hon : (s.ctl p).onRq = true) (hrt : rtPolicy (s.ctl p).policy = true)
    (hoff : ¬TakesOff K s op p) : (s'.ctl p).policy = (s.ctl p).policy ∧
      (s'.ctl p).schedClass = (s.ctl p).schedClass ∧ (s'.ctl p).prio = (s.ctl p).prio ∧
      (s'.ctl p).schedTaskGroup = (s.ctl p).schedTaskGroup := by
  have hctl := (execOp_spec h he hx).2.1 p
  generalize s'.ctl p = c' at hctl
  cases hctl with
  | activity hact =>
    rw [hact]
    exact ⟨rfl, rfl, rfl, rfl⟩
  | fork hop =>
    subst hop
    obtain ⟨-, -, -, -, hchild, -⟩ := he
    exact absurd (hon.symm.trans hchild) (by decide)
  | setscheduler hop hcheck =>
    subst hop
    exact absurd ⟨rfl, hon, by rw [hcheck]; rfl⟩ hoff
  | @inherit waiter hop =>
    subst hop
    have heq : (s.ctl p).prio = rtMutexGetprio { s.ctl p with piTopWaiter := waiter } := by
      by_contra hne
      exact hoff ⟨rfl, hon, hne⟩
    rw [inherited, if_neg (not_not.mpr heq)]
    exact ⟨rfl, rfl, rfl, rfl⟩
  | staticPrio _ _ => exact ⟨rfl, rfl, rfl, rfl⟩
  | renice _ hrt' =>
    rw [hrt] at hrt'
    cases hrt'
  | move hop =>
    subst hop
    exact absurd ⟨rfl, hon⟩ hoff

omit [DecidableEq τ] in
/-- A task with a real-time priority, but without the policy `SCHED_RAS`, is in the real-time
class. -/
theorem CtlOk.schedClass_eq_rt {c : TaskControl} (h : CtlOk c) (hpol : c.policy ≠ .ras)
    (hprio : c.prio < maxRtPrio) : c.schedClass = .rt := by
  rcases h.class_eq with hc | ⟨hras, -, -⟩
  · rw [hc]
    exact classFor_of_lt hpol hprio
  · exact absurd hras hpol

omit [DecidableEq τ] in
theorem CtlOk.policy_ne_ras {c : TaskControl} (h : CtlOk c) (hc : c.schedClass = .rt) :
    c.policy ≠ .ras := by
  intro hras
  rcases h.class_eq with hc' | ⟨-, hc', -⟩
  · rw [hc, hras] at hc'
    cases hc'
  · rw [hc] at hc'
    cases hc'

/-- Only the current task is taken off the run queue without being queued. -/
theorem TakesOff.onRq {op : Op τ} {t : τ} (h : TakesOff K s op t) (ht : t ≠ s.curr) :
    (s.task t).onRq = true := by
  cases op with
  | schedule preempt signalPending toWakeup => exact absurd h.1 ht
  | setscheduler caller p policy prio user => exact h.2.1
  | rtMutexAdjustPrio p waiter => exact h.2.1
  | setUserNice p nice => exact h.2.1
  | schedMoveTask p tg => exact h.2
  | _ => exact h.elim

/-- No step puts an entity ahead of a task of the root task group that has no rival: a task goes
there when it loses a better priority, and was a rival, and a group when a task below it does. -/
theorem Unrivalled.not_put_head {op : Op τ} (hun : Unrivalled s p) (h : Inv K s) (h' : Inv K s')
    (hrt : (s.task p).schedClass = .rt) (hcurr : s.curr = p) (hoff : ¬TakesOff K s op p)
    (hbelow : ¬DeboostsBelowRoot s op) {e : RtEntity τ} :
    ¬RtMove K s s' op (.put e ([], (s.task p).prio) true) := by
  intro hm
  generalize hi : (([] : RtGroup), (s.task p).prio) = i at hm
  cases hm with
  | @back t _ htakes hc hhead =>
    have hdeboost := hhead rfl
    obtain ⟨waiter, -, hself⟩ := hdeboost.inherited
    have hprio : (s.task p).prio = (s'.ctl t).prio := (Prod.mk.inj hi).2
    have hlt : (s.ctl t).prio < (s.task p).prio := hprio ▸ hdeboost.prio_lt
    have hne : t ≠ s.curr := by
      rintro rfl
      exact hoff (hcurr ▸ htakes)
    have hon : (s.task t).onRq = true := htakes.onRq hne
    have hidle : (s.ctl t).schedClass ≠ .idle := h.schedClass_ne_idle fun he => by
      have := h.idle_onRq
      rw [← he] at this
      exact absurd (hon.symm.trans this) (by decide)
    have hok : CtlOk (s.ctl t) := h.ctlOk hidle (hun.stop t hon)
    have hok' : CtlOk (s'.ctl t) := h'.ctlOk (by simp [hc]) (by simp [hc])
    have hclass : (s.ctl t).schedClass = .rt := by
      refine hok.schedClass_eq_rt ?_ (hlt.trans (h.prio_lt hrt).2)
      have hpol : (s'.ctl t).policy = (s.ctl t).policy := by
        rw [hself, inherited]
        split <;> rfl
      rw [← hpol]
      exact hok'.policy_ne_ras hc
    obtain ⟨F, hF, hmem⟩ := h.holds
    have helig : RtEligible s.rt (s.ctl t) := by
      refine hF.rt.eligible_of_boosted (mem_inClass.mpr ⟨(hmem t).mpr hon, hclass⟩) ?_
      simpa [rtTaskBoosted] using hdeboost.boosted.ne
    exact absurd (hun.prio_le t hon hclass helig) (not_le.mpr hlt)
  | group hg => exact hg.2 _ _ rfl
  | groupHead hdeboost hg =>
    obtain ⟨waiter, rfl, hself⟩ := hdeboost.inherited
    refine hbelow ⟨fun hroot => hg ?_, hself ▸ hdeboost.prio_lt⟩
    rw [← hroot, hself, inherited]
    split <;> rfl

/-- A running task that stays queued: a context switch changes its state at most. -/
theorem schedulePrev_of_not_takesOff {preempt signalPending : Bool} {toWakeup : Option τ}
    (hstay : ¬TakesOff K s (.schedule preempt signalPending toWakeup) s.curr) :
    ((schedulePrev K s preempt signalPending toWakeup).ctl s.curr).onRq = (s.ctl s.curr).onRq := by
  rw [schedulePrev]
  dsimp only
  split
  · next hsleep =>
    split
    · rw [ctl_modifyCtl, Function.update_self]
    · next hsignal =>
      exact absurd ⟨rfl, hsleep.1, by simpa using hsleep.2, by simpa using hsignal⟩ hstay
  · rfl

/-- A context switch goes back to the running task when it stays queued and is still the first of the
root run queue. -/
theorem curr_of_schedule (h : Inv K s) {preempt signalPending : Bool} {toWakeup : Option τ}
    (hx : schedule K s preempt signalPending toWakeup = some s') (hcurr : s.curr = p)
    (hon : (s.ctl p).onRq = true) (hoff : ¬TakesOff K s (.schedule preempt signalPending toWakeup) p)
    (hun : Unrivalled s' p) (hclass : (s'.task p).schedClass = .rt)
    (hhead : (rtLists s'.rt ([], (s'.task p).prio)).head? = some (.task p)) : s'.curr = p := by
  subst hcurr
  obtain ⟨m, c, next, s'', hm, hd, ⟨F, hF, hmem, -, hpick, hall⟩, hsched, hctl, hnext, -, -, hrt, -⟩ :=
    schedule_spec h preempt signalPending toWakeup
  obtain rfl : s'' = s' := Option.some.inj (hsched.symm.trans hx)
  have hon' : ∀ t, t ∈ F ↔ (s''.ctl t).onRq = true := fun t => by rw [hctl, hmem]
  have hcurrF : s.curr ∈ F := by
    rw [hmem, hm, keeps_putPrevTask.ctl, schedulePrev_of_not_takesOff hoff, hon]
  have hclassM : (m.ctl s.curr).schedClass = .rt := by rw [← hctl]; exact hclass
  have heligM : RtEligible m.rt (m.ctl s.curr) := by rw [← hctl, ← hrt]; exact hun.eligible
  -- the pick is a real-time task
  obtain rfl : c = .rt := by
    have hgiven := hpick.of_rt hall hcurrF hclassM heligM
    rcases hpick.mem with ⟨-, hidle⟩ | ⟨hnextF, hc⟩
    · rw [hidle, hd.idle, hd.ctl_idle, h.idle_class] at hgiven
      rcases hgiven with hs | ⟨hs, -⟩ <;> cases hs
    · rcases hgiven with hstop | ⟨hrtc, -⟩
      · refine absurd ?_ (hun.stop next ((hon' next).mp hnextF))
        rw [← hctl] at hstop
        exact hstop
      · exact hc.symm.trans hrtc
  have hin : s.curr ∈ inClass m.ctl F .rt := mem_inClass.mpr ⟨hcurrF, hclassM⟩
  have hfirst : pickNextRtTask m.rt m.rt.leafRtRqList.length [] = some s.curr := by
    refine hF.rt.pickNextRtTask_of_head hin heligM ?_ fun t ht helig => ?_
    · rw [← hctl, ← hrt]
      exact hhead
    · obtain ⟨htF, htc⟩ := mem_inClass.mp ht
      rw [← hctl] at htc helig ⊢
      rw [← hrt] at helig
      exact hun.prio_le t ((hon' t).mp htF) htc helig
  rw [hnext]
  exact Option.some.inj ((hpick.rt_pick rfl).symm.trans hfirst)

/-- A running `SCHED_FIFO` task without rivals goes on running, unless it is taken off the run queue
or yields, or a task of another group loses a better priority. -/
theorem FifoRuns.step (hf : FifoRuns s p) (h : Inv K s) {op : Op τ} (he : Enabled s op)
    (hx : execOp K s op = some s') (hoff : ¬TakesOff K s op p) (hyield : op ≠ .schedYield)
    (hbelow : ¬DeboostsBelowRoot s op) (hun : Unrivalled s' p) : FifoRuns s' p := by
  obtain ⟨hinv', -, hcurr⟩ := execOp_spec h he hx
  have hon : (s.ctl p).onRq = true := by
    refine hf.curr ▸ h.curr.resolve_left fun hidle => ?_
    have hc := hf.schedClass
    rw [← hf.curr, hidle] at hc
    exact absurd (h.idle_class.symm.trans hc) (by decide)
  obtain ⟨hpol, hclass, hprio, hgroup⟩ := ctl_of_stays h he hx hon
    (by rw [show (s.ctl p).policy = .fifo from hf.policy]; rfl) hoff
  have hprio : (s'.task p).prio = (s.task p).prio := hprio
  have hclass : (s'.task p).schedClass = .rt := hclass.trans hf.schedClass
  have hturn : ¬RtTurns s op := by
    rintro ⟨-, hturn⟩
    cases op with
    | schedYield => exact hyield rfl
    | schedulerTick =>
      rw [hf.curr] at hturn
      exact absurd (hf.policy.symm.trans hturn.1) (by decide)
    | _ => exact hturn.elim
  have hhead : (rtLists s'.rt ([], (s'.task p).prio)).head? = some (.task p) := by
    rw [hprio]
    refine (rtMoves_execOp h he hx).head?_eq (fun m hm heq => ?_)
      (fun e => hf.not_put_head h hinv' hf.schedClass hf.curr hoff hbelow) hf.head
    rcases hm.task_cases heq with ht | ht | ⟨-, ht⟩
    · exact hoff ht
    · rw [hon] at ht
      cases ht
    · exact hturn ht
  refine ⟨hun, ?_, hpol.trans hf.policy, hclass, ?_, hhead⟩
  · cases op with
    | schedule preempt signalPending toWakeup =>
      exact curr_of_schedule h hx hf.curr hon hoff hun hclass hhead
    | _ =>
      rw [hcurr (by intro _ _ _ ho; cases ho)]
      exact hf.curr
  · exact (congrArg TaskGroup.rtRq hgroup).trans hf.root

/-- A real-time task that has just been picked has no rival. -/
theorem unrivalled_of_schedule (h : Inv K s) {preempt signalPending : Bool} {toWakeup : Option τ}
    (hx : schedule K s preempt signalPending toWakeup = some s')
    (hclass : (s'.task s'.curr).schedClass = .rt) : Unrivalled s' s'.curr := by
  obtain ⟨m, F, -, hmem, hpick, hstop, hctl, hrt⟩ := pick_of_schedule h hx hclass
  obtain ⟨helig, hbest⟩ := hpick.rt rfl
  have hmem' : ∀ t, (s'.task t).onRq = true → t ∈ F := fun t ht =>
    (hmem t).mpr (by rw [← hctl]; exact ht)
  refine ⟨by rwa [hctl, hrt], fun t ht hst => ?_, fun t ht htrt hte => ?_⟩
  · refine hstop t (hmem' t ht) ?_
    rw [← hctl]
    exact hst
  · rw [← hctl, ← hrt] at hbest
    exact hbest t (hmem' t ht) htrt hte

/-- The steps at which a task neither is taken off the run queue nor yields, at which no task of a
group below the root loses a better priority, and after which it has no rival. -/
def KeepsProcessor (K : Kernel τ Q) (p : τ) (s : Rq τ Q) (e : Event τ) : Prop :=
  ¬TakesOff K s e.op p ∧ e.op ≠ .schedYield ∧ ¬DeboostsBelowRoot s e.op ∧
    ∀ s', (system K).step s e s' → Unrivalled s' p

/-- A `SCHED_FIFO` task of the root task group that a context switch has picked runs on, through any
ticks, wakeups, context switches and changes of other tasks, of whatever groups, with tasks of its
own priority waiting and coming: as long as it does not sleep, yield or change itself, no better task
is eligible, the root task group is not throttled, and no task of another group loses a better
priority that it inherited. -/
theorem rt_fifo_keeps_processor {s₀ : Rq τ Q} (h : Reachable (system K) s₀) {now : ℤ}
    {preempt signalPending : Bool} {toWakeup : Option τ}
    (hpick : (system K).step s₀ ⟨now, .schedule preempt signalPending toWakeup⟩ s)
    (hclass : (s.task s.curr).schedClass = .rt) (hpolicy : (s.task s.curr).policy = .fifo)
    (hroot : (s.task s.curr).schedTaskGroup.rtRq = []) {es : List (Event τ)}
    (hrun : Run ((system K).restrict (KeepsProcessor K s.curr)) s es s') : s'.curr = s.curr := by
  obtain ⟨p, hp⟩ : ∃ p, p = s.curr := ⟨_, rfl⟩
  obtain ⟨he₀, hx₀, hinv₀⟩ := step_inv (reachable_inv h) hpick
  have hstart : FifoRuns s p := by
    rw [hp]
    have hhead := rtHead_schedule hinv₀ hx₀ hclass
    rw [show (s.ctl s.curr).schedTaskGroup.rtRq = [] from hroot] at hhead
    exact ⟨unrivalled_of_schedule hinv₀ hx₀ hclass, rfl, hpolicy, hclass, hroot, hhead⟩
  rw [← hp] at hrun ⊢
  have hall : Inv K s' ∧ FifoRuns s' p := by
    refine hrun.invariant (P := fun s => Inv K s ∧ FifoRuns s p) ?_
      ⟨(execOp_spec hinv₀ he₀ hx₀).1, hstart⟩
    rintro s e s' ⟨hinv, hf⟩ ⟨⟨hoff, hyield, hbelow, hun⟩, hstep⟩
    obtain ⟨he, hx, hinv'⟩ := step_inv hinv hstep
    have hf' : FifoRuns (atTime s e.now) p :=
      ⟨⟨hf.eligible, hf.stop, hf.prio_le⟩, hf.curr, hf.policy, hf.schedClass, hf.root, hf.head⟩
    exact ⟨(execOp_spec hinv' he hx).1, hf'.step hinv' he hx (mt takesOff_atTime.mp hoff) hyield
      (mt deboostsBelowRoot_atTime.mp hbelow) (hun s' hstep)⟩
  exact hall.2.curr

/-- The first set bit of the root run queue shows that no real-time task of a better priority is
eligible. -/
theorem Inv.unrivalled (h : Inv K s) (hstop : s.stop = none) (helig : RtEligible s.rt (s.ctl p))
    (hbit : (s.task p).prio ≤ schedFindFirstBit (s.rt.rq [])) : Unrivalled s p := by
  refine ⟨helig, fun t _ ht => ?_, fun t hon ht hte => hbit.trans ?_⟩
  · rw [h.stop_eq ht] at hstop
    cases hstop
  · obtain ⟨F, hF, hmem⟩ := h.holds
    have hin : t ∈ inClass s.ctl F .rt := mem_inClass.mpr ⟨(hmem t).mpr hon, ht⟩
    obtain ⟨M, -, hheld⟩ := RtLinked.rq hF.rt []
    rw [← hheld.highestPrio]
    exact (hF.rt.root_of_eligible hin hte).2

/-- The steps at which a task neither is taken off the run queue nor yields, at which no task of a
group below the root loses a better priority, and after which no bit of the root run queue is set
before its priority. -/
def KeepsFirstBit (K : Kernel τ Q) (p : τ) (s : Rq τ Q) (e : Event τ) : Prop :=
  ¬TakesOff K s e.op p ∧ (match e.op with | .schedYield => False | _ => True) ∧
    ¬DeboostsBelowRoot s e.op ∧
    ∀ s' ∈ exec K s e, s'.stop = none ∧ RtEligible s'.rt (s'.ctl p) ∧
      (s'.task p).prio ≤ schedFindFirstBit (s'.rt.rq [])

instance (p : τ) (s : Rq τ Q) (e : Event τ) : Decidable (KeepsFirstBit K p s e) :=
  have : Decidable (match e.op with | .schedYield => False | _ => True) :=
    match e.op with
    | .schedYield => .isFalse id
    | .fork _ | .wakeUpNewTask _ | .tryToWakeUp _ _ _ | .schedule _ _ _ | .schedulerTick
    | .setscheduler _ _ _ _ _ | .rtMutexAdjustPrio _ _ | .setUserNice _ _ | .schedMoveTask _ _
    | .schedRrGetInterval _ | .rtPeriodTimer _ _ | .setCurrentState _ | .writeTrace _ _ _ =>
      .isTrue trivial
  inferInstanceAs (Decidable (_ ∧ _ ∧ _ ∧ _))

theorem KeepsFirstBit.keepsProcessor (h : Inv K s) {e : Event τ} (hk : KeepsFirstBit K p s e) :
    KeepsProcessor K p s e := by
  obtain ⟨hoff, hyield, hbelow, hall⟩ := hk
  refine ⟨hoff, fun he => ?_, hbelow, fun s' hstep => ?_⟩
  · rw [he] at hyield
    exact hyield
  · obtain ⟨hstop, helig, hbit⟩ := hall s' hstep
    obtain ⟨he, hx, hinv⟩ := step_inv h hstep
    exact (execOp_spec hinv he hx).1.unrivalled hstop helig hbit

/-- Two tasks with the policy `SCHED_FIFO`, and one of the same priority in another group. -/
def fifoPair : List (Op ℕ) :=
  [setschedulerNocheck 1 1 50, .wakeUpNewTask 1, setschedulerNocheck 2 1 50, .wakeUpNewTask 2,
    setschedulerNocheck 3 1 50, .schedMoveTask 3 { path := "/bg" }]

theorem isSome_fifoPair : (referenceRun fifoPair).isSome := by decide +kernel

theorem isSome_fifoPicked : (exec (referenceKernel ℕ) ((referenceRun fifoPair).get isSome_fifoPair)
    ⟨0, reschedule⟩).isSome := by decide +kernel

/-- While the first one runs the third is woken, and the scheduler is called. -/
def fifoRuns : List (Event ℕ) := [⟨0, .schedulerTick⟩, ⟨0, .wakeUpNewTask 3⟩, ⟨0, reschedule⟩]

theorem rt_fifo_keeps_processor_fifoPair :
    ∃ s₀ s s', referenceRun fifoPair = some s₀ ∧
      (system (referenceKernel ℕ)).step s₀ ⟨0, reschedule⟩ s ∧ s.curr = 1 ∧
      rtLists s.rt ([], 49) = [.task 1, .task 2] ∧
      Run ((system (referenceKernel ℕ)).restrict (KeepsProcessor (referenceKernel ℕ) s.curr)) s
        fifoRuns s' ∧ s'.curr = s.curr := by
  obtain ⟨s₀, hs₀⟩ : ∃ s, s = (referenceRun fifoPair).get isSome_fifoPair := ⟨_, rfl⟩
  have hrun : referenceRun fifoPair = some s₀ := by simp [hs₀]
  obtain ⟨s, hs⟩ : ∃ s, s = (exec (referenceKernel ℕ) ((referenceRun fifoPair).get isSome_fifoPair)
    ⟨0, reschedule⟩).get isSome_fifoPicked := ⟨_, rfl⟩
  have hpick : (system (referenceKernel ℕ)).step s₀ ⟨0, reschedule⟩ s := by
    show exec (referenceKernel ℕ) s₀ ⟨0, reschedule⟩ = some s
    rw [hs₀, hs, Option.some_get]
  have hreach := (reachable_referenceRun hrun).step hpick
  have hcurr : s.curr = 1 := by rw [hs]; decide +kernel
  obtain ⟨s', hs'⟩ : ∃ s', execAll (fun s e =>
      if KeepsFirstBit (referenceKernel ℕ) 1 s e then exec (referenceKernel ℕ) s e else none) s
        fifoRuns = some s' :=
    Option.isSome_iff_exists.mp (by rw [hs]; decide +kernel)
  have hsteps : Run ((system (referenceKernel ℕ)).restrict (KeepsProcessor (referenceKernel ℕ) 1)) s
      fifoRuns s' :=
    (run_restrict_of_execAll hs').restrict_mono (fun _ _ _ hr hstep => hr.step hstep)
      (fun _ _ hr hk => hk.keepsProcessor (reachable_inv hr)) hreach
  rw [← hcurr] at hsteps
  refine ⟨_, s, s', hrun, hpick, hcurr, ?_, hsteps,
    rt_fifo_keeps_processor (reachable_referenceRun hrun) hpick ?_ ?_ ?_ hsteps⟩ <;>
    rw [hs] <;> decide +kernel

end OsProject.Sched
