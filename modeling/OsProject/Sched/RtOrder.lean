import OsProject.Lib.PrioQueues
import OsProject.Sched.Fifo

/-!
# The order of the real-time tasks

Every operation of the scheduler changes the lists of the real-time run queues by moves: it takes an
entity off, queues one, or puts one behind the others of its list. A task is moved when it is taken
off the run queue or queued, and when it yields or its slice is over; unlike in the RAS class, a task
that is switched out keeps its place. The entity of a group, however, is queued anew whenever a task
below the group comes or goes, and so it goes behind the others, or in front of them when that task
loses a better priority.

## Main definitions

* `rtLists` — the lists of all groups.
* `RtTurns` — a step at which the running real-time task gives up its turn.
* `RtMove` — the moves of a step.

## Main results

* `rtMoves_execOp` — what a step does to the lists.
* `rtTaskList_turn` — a task that gives up its turn goes behind the other tasks of its list.

Source: `kernel/sched/rt.c`, `kernel/sched/core.c`.
-/

namespace OsProject.Sched

open PrioQueues Transition

variable {τ Q : Type*}

/-- The lists of the run queues, by group and priority. -/
def rtLists (rt : RtRqs τ) (x : RtGroup × ℤ) : List (RtEntity τ) := (rt.rq x.1).queue x.2

/-- The tasks on a list. -/
def rtTaskList (rt : RtRqs τ) (x : RtGroup × ℤ) : List τ :=
  (rtLists rt x).filterMap RtEntity.asTask

abbrev EntityMove (τ : Type*) := Move (RtGroup × ℤ) (RtEntity τ)

/-- The entity of a group is moved, and not to the head of a list. -/
def GroupMove (m : EntityMove τ) : Prop :=
  (∃ g, m.entry = .group g) ∧ ∀ e i, m ≠ .put e i true

/-- The moves that queue a task with control fields `c`, and with it the groups above it. -/
inductive EnqueueMove (c : TaskControl) (p : τ) (head : Bool) : EntityMove τ → Prop
  | off (on : RtGroup × ℤ → Bool) : EnqueueMove c p head (.off (.task p) on)
  | put : EnqueueMove c p head (.put (.task p) (c.schedTaskGroup.rtRq, c.prio) head)
  | group {m : EntityMove τ} (h : GroupMove m) : EnqueueMove c p head m
  | groupHead {g : RtGroup} {i : RtGroup × ℤ} (hhead : head = true)
      (hg : c.schedTaskGroup.rtRq ≠ []) : EnqueueMove c p head (.put (.group g) i true)

/-- Of the control fields, only the group and the priority matter. -/
theorem EnqueueMove.congr {c c' : TaskControl} {p : τ} {head : Bool} {m : EntityMove τ}
    (h : EnqueueMove c p head m) (hgroup : c'.schedTaskGroup = c.schedTaskGroup)
    (hprio : c'.prio = c.prio) : EnqueueMove c' p head m := by
  cases h with
  | off on => exact .off on
  | put =>
    rw [← hgroup, ← hprio]
    exact .put
  | group h => exact .group h
  | groupHead hhead hg => exact .groupHead hhead (hgroup ▸ hg)

/-- The moves that take a task off. -/
def DequeueMove (p : τ) (m : EntityMove τ) : Prop := (∃ on, m = .off (.task p) on) ∨ GroupMove m

/-- The moves that put a task with control fields `c` behind the others of its list. -/
def RequeueMove (c : TaskControl) (p : τ) (m : EntityMove τ) : Prop :=
  m = .requeue (.task p) (c.schedTaskGroup.rtRq, c.prio) ∨ GroupMove m

/-! ### The moves of entities -/

theorem groupMove_off (g : RtGroup) (on : RtGroup × ℤ → Bool) :
    GroupMove (.off (.group g : RtEntity τ) on) :=
  ⟨⟨g, rfl⟩, fun _ _ h => by cases h⟩

theorem groupMove_put (g : RtGroup) (i : RtGroup × ℤ) :
    GroupMove (.put (.group g : RtEntity τ) i false) :=
  ⟨⟨g, rfl⟩, fun _ _ h => by cases h⟩

theorem groupMove_requeue (g : RtGroup) (i : RtGroup × ℤ) :
    GroupMove (.requeue (.group g : RtEntity τ) i) :=
  ⟨⟨g, rfl⟩, fun _ _ h => by cases h⟩

theorem mem_forEachSchedRtEntity {ctl : τ → TaskControl} {p : τ} {e : RtEntity τ} :
    e ∈ forEachSchedRtEntity ctl (.task p) ↔ e = .task p ∨
      ∃ g, e = .group g ∧ g ≠ [] ∧ g <:+ (ctl p).schedTaskGroup.rtRq := by
  rw [forEachSchedRtEntity, List.mem_cons, mem_groupEntities]
  exact Iff.rfl

section Entities

variable [DecidableEq τ] {rt : RtRqs τ} {ctl : τ → TaskControl} {p : τ}

theorem rtLists_dequeueOneRtEntity (rt : RtRqs τ) (ctl : τ → TaskControl) (e : RtEntity τ) :
    rtLists (dequeueOneRtEntity rt ctl e) =
      Move.apply (rtLists rt) (.off e fun x => x.1 = rtRqOfSe ctl e) := by
  funext x
  by_cases hx : x.1 = rtRqOfSe ctl e
  · simp [rtLists, dequeueOneRtEntity, decRtTasks, Move.apply, hx]
  · simp [rtLists, dequeueOneRtEntity, Move.apply, hx]

theorem rtLists_enqueueOneRtEntity (rt : RtRqs τ) (ctl : τ → TaskControl) (e : RtEntity τ)
    (head : Bool) : rtLists (enqueueOneRtEntity rt ctl e head) =
      if rtSeQueueable rt e then
        Move.apply (rtLists rt) (.put e (rtRqOfSe ctl e, rtSePrio rt ctl e) head)
      else rtLists rt := by
  rw [enqueueOneRtEntity]
  split
  · funext x
    obtain ⟨g, i⟩ := x
    by_cases hg : g = rtRqOfSe ctl e
    · subst hg
      by_cases hi : i = rtSePrio rt ctl e <;> simp [rtLists, incRtTasks, Move.apply, hi]
    · simp [rtLists, Move.apply, hg]
  · rfl

theorem rtLists_requeueRtEntity (rt : RtRqs τ) (ctl : τ → TaskControl) (e : RtEntity τ) :
    rtLists (requeueRtEntity rt ctl e) =
      if onRtRq rt ctl e then
        Move.apply (rtLists rt) (.requeue e (rtRqOfSe ctl e, rtSePrio rt ctl e))
      else rtLists rt := by
  rw [requeueRtEntity]
  split
  · funext x
    obtain ⟨g, i⟩ := x
    by_cases hg : g = rtRqOfSe ctl e
    · subst hg
      by_cases hi : i = rtSePrio rt ctl e <;> simp [rtLists, Move.apply, hi]
    · simp [rtLists, Move.apply, hg]
  · rfl

/-- The entities from `e` upwards are taken off. -/
theorem moves_dequeueRtStack {ok : EntityMove τ → Prop} {e : RtEntity τ}
    (hok : ∀ d ∈ forEachSchedRtEntity ctl e, ∀ on, ok (.off d on)) :
    Moves ok (rtLists rt) (rtLists (dequeueRtStack rt ctl e)) := by
  refine Moves.foldr (fun rt d hd => ?_) rt
  split
  · rw [rtLists_dequeueOneRtEntity]
    exact .single (hok d hd _)
  · exact .refl _ _

/-- They are taken off and queued again. -/
theorem moves_enqueueRtEntity {ok : EntityMove τ → Prop} {e : RtEntity τ} {head : Bool}
    (hoff : ∀ d ∈ forEachSchedRtEntity ctl e, ∀ on, ok (.off d on))
    (hput : ∀ d ∈ forEachSchedRtEntity ctl e, ∀ rt : RtRqs τ,
      ok (.put d (rtRqOfSe ctl d, rtSePrio rt ctl d) head)) :
    Moves ok (rtLists rt) (rtLists (enqueueRtEntity rt ctl e head)) := by
  refine (moves_dequeueRtStack hoff).trans (Moves.foldl (fun rt d hd => ?_) _)
  rw [rtLists_enqueueOneRtEntity]
  split
  · exact .single (hput d hd rt)
  · exact .refl _ _

/-- They are taken off, and the groups that have an entity left are queued again. -/
theorem moves_dequeueRtEntity {ok : EntityMove τ → Prop} {e : RtEntity τ}
    (hoff : ∀ d ∈ forEachSchedRtEntity ctl e, ∀ on, ok (.off d on))
    (hput : ∀ g i, ok (.put (.group g) i false)) :
    Moves ok (rtLists rt) (rtLists (dequeueRtEntity rt ctl e)) := by
  refine (moves_dequeueRtStack hoff).trans (Moves.foldl (fun rt d hd => ?_) _)
  cases d with
  | task p => exact .refl _ _
  | group g =>
    rw [enqueueRemaining_group, rtLists_enqueueOneRtEntity]
    split
    · exact .single (hput g _)
    · exact .refl _ _

theorem moves_enqueueRtEntity_task {head : Bool} :
    Moves (EnqueueMove (ctl p) p head) (rtLists rt)
      (rtLists (enqueueRtEntity rt ctl (.task p) head)) := by
  refine moves_enqueueRtEntity (fun d hd on => ?_) fun d hd rt => ?_
  · rcases mem_forEachSchedRtEntity.mp hd with rfl | ⟨g, rfl, -, -⟩
    · exact .off on
    · exact .group (groupMove_off g on)
  · rcases mem_forEachSchedRtEntity.mp hd with rfl | ⟨g, rfl, hg, hsuf⟩
    · exact .put
    · cases hhead : head with
      | false => exact .group (groupMove_put g _)
      | true =>
        refine .groupHead rfl fun hroot => ?_
        rw [hroot] at hsuf
        exact hg (List.suffix_nil.mp hsuf)

theorem moves_enqueueRtEntity_group {g : RtGroup} :
    Moves GroupMove (rtLists rt) (rtLists (enqueueRtEntity rt ctl (.group g) false)) := by
  refine moves_enqueueRtEntity (fun d hd on => ?_) fun d hd rt => ?_
  · obtain ⟨k, rfl, -, -⟩ := mem_groupEntities.mp hd
    exact groupMove_off k on
  · obtain ⟨k, rfl, -, -⟩ := mem_groupEntities.mp hd
    exact groupMove_put k _

theorem moves_dequeueRtEntity_task :
    Moves (DequeueMove p) (rtLists rt) (rtLists (dequeueRtEntity rt ctl (.task p))) := by
  refine moves_dequeueRtEntity (fun d hd on => ?_) fun g i => .inr (groupMove_put g i)
  rcases mem_forEachSchedRtEntity.mp hd with rfl | ⟨g, rfl, -, -⟩
  · exact .inl ⟨on, rfl⟩
  · exact .inr (groupMove_off g on)

theorem moves_dequeueRtEntity_group {g : RtGroup} :
    Moves GroupMove (rtLists rt) (rtLists (dequeueRtEntity rt ctl (.group g))) := by
  refine moves_dequeueRtEntity (fun d hd on => ?_) groupMove_put
  obtain ⟨k, rfl, -, -⟩ := mem_groupEntities.mp hd
  exact groupMove_off k on

theorem moves_requeue :
    Moves (RequeueMove (ctl p) p) (rtLists rt)
      (rtLists ((forEachSchedRtEntity ctl (.task p)).foldl
        (fun rt e => requeueRtEntity rt ctl e) rt)) := by
  refine Moves.foldl (fun rt d hd => ?_) rt
  rw [rtLists_requeueRtEntity]
  split
  · rcases mem_forEachSchedRtEntity.mp hd with rfl | ⟨g, rfl, -, -⟩
    · exact .single (.inl rfl)
    · exact .single (.inr (groupMove_requeue g _))
  · exact .refl _ _

/-! ### The moves of throttling -/

omit [DecidableEq τ] in
/-- A write to a run queue that leaves its lists alone. -/
theorem rtLists_modify {f : RtRq τ → RtRq τ} {g : RtGroup} (hf : ∀ q, (f q).queue = q.queue) :
    rtLists (rt.modify g f) = rtLists rt := by
  funext x
  by_cases hx : x.1 = g
  · simp [rtLists, RtRqs.modify, hx, hf]
  · simp [rtLists, RtRqs.modify, hx]

theorem moves_schedRtRuntimeExceeded {g : RtGroup} :
    Moves GroupMove (rtLists rt) (rtLists (schedRtRuntimeExceeded rt ctl g).2) := by
  have hflag : rtLists (rt.modify g _) = rtLists rt :=
    rtLists_modify fun q => (keepsEntities_throttle q).1
  rw [schedRtRuntimeExceeded]
  dsimp only
  split_ifs
  · exact .refl _ _
  · exact .refl _ _
  · exact .refl _ _
  · refine .trans (.of_eq hflag) ?_
    rw [schedRtRqDequeue]
    split
    · exact moves_dequeueRtEntity_group
    · exact .refl _ _
  · exact .of_eq hflag
  · exact .refl _ _

end Entities

/-! ### The moves of the operations -/

section Operations

variable [DecidableEq τ] {K : Kernel τ Q} {s s' s'' : Rq τ Q} {F : Finset τ} {p : τ}

theorem moves_chargeRtRq {delta : ℤ} {g : RtGroup} :
    Moves GroupMove (rtLists s.rt) (rtLists (chargeRtRq delta s g).rt) := by
  have hcharge : Moves GroupMove (rtLists s.rt) (rtLists (schedRtRuntimeExceeded
      (s.rt.modify g fun q => { q with rtTime := q.rtTime + delta }) s.ctl g).2) :=
    .trans (.of_eq (rtLists_modify (f := fun q => { q with rtTime := q.rtTime + delta })
      fun _ => rfl)) moves_schedRtRuntimeExceeded
  rw [chargeRtRq]
  dsimp only
  split_ifs
  · exact .refl _ _
  · exact hcharge
  · exact hcharge

theorem moves_updateCurrRt : Moves GroupMove (rtLists s.rt) (rtLists (updateCurrRt K s).rt) := by
  rw [updateCurrRt]
  split
  · exact .refl _ _
  · dsimp only
    split
    · exact .refl _ _
    · exact Moves.foldl (v := fun s : Rq τ Q => rtLists s.rt) (fun s g _ => moves_chargeRtRq)
        (chargeCurr s)

theorem moves_schedRtRqEnqueue {g : RtGroup} :
    Moves GroupMove (rtLists s.rt) (rtLists (schedRtRqEnqueue s g).rt) := by
  rw [schedRtRqEnqueue_rt]
  split
  · exact moves_enqueueRtEntity_group
  · exact .refl _ _

theorem moves_doSchedRtPeriodTimer {g : RtGroup} {overrun : ℕ} :
    Moves GroupMove (rtLists s.rt) (rtLists (doSchedRtPeriodTimer K s g overrun).2.rt) := by
  have hreplenish : rtLists (rtReplenish s g overrun).2.2.rt = rtLists s.rt := by
    rw [rtReplenish]
    dsimp only
    split
    · split
      · dsimp only
        exact rtLists_modify fun _ => rfl
      · dsimp only
        exact rtLists_modify fun _ => rfl
    · split <;> rfl
  rw [doSchedRtPeriodTimer_eq, ← hreplenish]
  split
  · exact moves_schedRtRqEnqueue
  · exact .refl _ _

theorem moves_dequeueTask {sleep : Bool} :
    Moves (DequeueMove p) (rtLists s.rt) (rtLists (dequeueTask K s p sleep).rt) := by
  have hclock : (updateRqClock s).rt = s.rt := (accounts_updateRqClock (K := K)).rt
  rw [dequeueTask, ← hclock]
  generalize updateRqClock s = u
  split
  · exact (moves_updateCurrRt.mono fun m hm => .inr hm).trans moves_dequeueRtEntity_task
  · have hcharge : (dequeueTaskRas u p).rt = (updateCurrRas u).rt := rfl
    exact .of_eq (by rw [hcharge, (accounts_updateCurrRas (K := K)).rt])
  · exact .refl _ _

theorem moves_enqueueTask {flags : EnqueueFlags} :
    Moves (fun m => (s.ctl p).schedClass = .rt ∧ EnqueueMove (s.ctl p) p flags.head m)
      (rtLists s.rt) (rtLists (enqueueTask K s p flags).rt) := by
  have hclock : Accounts K s (updateRqClock s) := accounts_updateRqClock
  rw [enqueueTask, ← hclock.ctl, ← hclock.rt]
  generalize updateRqClock s = u
  have hclass : (u.task p).schedClass = (u.ctl p).schedClass := rfl
  rw [hclass]
  cases hc : (u.ctl p).schedClass with
  | rt =>
    have hctl : (u.modifyTask p fun p =>
        { p with rt := { p.rt with timeout := if flags.wakeup then 0 else p.rt.timeout } }).ctl =
          u.ctl := ctl_modifyTask u p _ rfl
    rw [enqueueTaskRt]
    dsimp only
    rw [hctl]
    exact moves_enqueueRtEntity_task.mono fun m hm => ⟨rfl, hm⟩
  | ras => exact .refl _ _
  | stop | fair | idle => exact .refl _ _

theorem moves_classPutPrevTask :
    Moves GroupMove (rtLists s.rt) (rtLists (classPutPrevTask K s p).rt) := by
  rw [classPutPrevTask]
  split
  · exact moves_updateCurrRt
  · have hcharge : (updateCurrRas s).rt = s.rt := (accounts_updateCurrRas (K := K)).rt
    rw [putPrevTaskRas, requeueTaskRas]
    split <;> exact .of_eq (congrArg rtLists hcharge)
  · exact .refl _ _

theorem moves_putPrevTask : Moves GroupMove (rtLists s.rt) (rtLists (putPrevTask K s p).rt) := by
  rw [putPrevTask]
  refine Moves.trans (.of_eq ?_) moves_classPutPrevTask
  split
  · rw [(accounts_updateRqClock (K := K)).rt]
  · rfl

/-- The moves of a task that is taken off when it is queued, gets the control fields `c`, and is
queued again. -/
def ChangeMove (s : Rq τ Q) (p : τ) (c : TaskControl) (head : Bool) (m : EntityMove τ) : Prop :=
  GroupMove m ∨ ((s.ctl p).onRq = true ∧
    (DequeueMove p m ∨ c.schedClass = .rt ∧ EnqueueMove c p head m))

/-- A queued task is taken off, changed and queued again. -/
theorem moves_withTaskOffRq (running : Bool) {change : Rq τ Q → Rq τ Q} (flags : EnqueueFlags)
    {f : TaskControl → TaskControl} (hchange : ∀ s, Accounts K (s.modifyCtl p f) (change s)) :
    Moves (ChangeMove s p (f (s.ctl p)) flags.head) (rtLists s.rt)
      (rtLists (withTaskOffRq K s p running change flags).rt) := by
  obtain ⟨hquiet, -⟩ := offRq_holds (K := K) (s := s) (p := p) running
  obtain ⟨changed, hacc, hend⟩ := exists_changed (K := K) (s := s) running flags hchange
  have hoff : Moves (ChangeMove s p (f (s.ctl p)) flags.head) (rtLists s.rt)
      (rtLists changed.rt) := by
    have hdeq : Moves (ChangeMove s p (f (s.ctl p)) flags.head) (rtLists s.rt)
        (rtLists (if (s.task p).onRq then dequeueTask K s p false else s).rt) := by
      split
      · next hon => exact moves_dequeueTask.mono fun m hm => .inr ⟨hon, .inl hm⟩
      · exact .refl _ _
    refine Moves.trans ?_ (.of_eq (congrArg rtLists hacc.rt))
    show Moves _ _ (rtLists (offRq K s p running).rt)
    rw [offRq]
    split
    · exact hdeq.trans (moves_classPutPrevTask.mono fun m hm => .inl hm)
    · exact hdeq
  have hself : changed.ctl p = f (s.ctl p) := by
    rw [hacc.ctl, ctl_modifyCtl, Function.update_self, hquiet.ctl]
  rw [hend]
  split
  · next hon =>
    refine hoff.trans (moves_enqueueTask.mono fun m hm => .inr ⟨hon, .inr ?_⟩)
    rwa [hself] at hm
  · exact hoff

/-! ### Wakeups and context switches -/

theorem rtLists_ttwuDoWakeup {flags : ℕ} : rtLists (ttwuDoWakeup K s p flags).rt = rtLists s.rt :=
  congrArg rtLists (accounts_checkPreemptCurr (K := K)).rt

/-- The moves of a task that is woken. -/
def WakeMove (s : Rq τ Q) (p : τ) (m : EntityMove τ) : Prop :=
  (s.ctl p).onRq = false ∧ (s.ctl p).schedClass = .rt ∧ EnqueueMove (s.ctl p) p false m

theorem moves_tryToWakeUp (mask flags : ℕ) :
    Moves (WakeMove s p) (rtLists s.rt) (rtLists (tryToWakeUp K s p mask flags).2.rt) := by
  rw [tryToWakeUp]
  split
  · exact .refl _ _
  · split
    · exact .of_eq rtLists_ttwuDoWakeup
    · next hoff =>
      exact (moves_enqueueTask.mono fun m hm => ⟨Bool.eq_false_iff.mpr hoff, hm⟩).trans
        (.of_eq rtLists_ttwuDoWakeup)

theorem moves_tryToWakeUpLocal : Moves (fun m => p ≠ s.curr ∧ WakeMove s p m) (rtLists s.rt)
    (rtLists (tryToWakeUpLocal K s p).rt) := by
  rw [tryToWakeUpLocal]
  split
  · exact .refl _ _
  · next hcurr =>
    split
    · exact .refl _ _
    · dsimp only
      rw [rtLists_ttwuDoWakeup]
      split
      · next hoff =>
        have hoff : (s.ctl p).onRq = false := by simpa [Rq.ctl] using hoff
        exact moves_enqueueTask.mono fun m hm => ⟨hcurr, hoff, hm⟩
      · exact .refl _ _

/-! ### Turns -/

/-- A round robin task has a single tick left of its slice. -/
def SliceOver (s : Rq τ Q) (p : τ) : Prop :=
  (s.task p).policy = .rr ∧ (s.task p).rt.timeSlice = 1

instance (s : Rq τ Q) (p : τ) : Decidable (SliceOver s p) := inferInstanceAs (Decidable (_ ∧ _))

/-- The running real-time task gives up its turn: it yields, or it is a round robin task and the
last tick of its slice is up. -/
def RtTurns (s : Rq τ Q) (op : Op τ) : Prop :=
  (s.task s.curr).schedClass = .rt ∧
    match op with
    | .schedYield => True
    | .schedulerTick => SliceOver s s.curr
    | _ => False

instance (s : Rq τ Q) (op : Op τ) : Decidable (RtTurns s op) :=
  match op with
  | .schedYield => inferInstanceAs (Decidable (_ ∧ True))
  | .schedulerTick => inferInstanceAs (Decidable (_ ∧ SliceOver s s.curr))
  | .fork _ | .wakeUpNewTask _ | .tryToWakeUp _ _ _ | .schedule _ _ _ | .setscheduler _ _ _ _ _
  | .rtMutexAdjustPrio _ _ | .setUserNice _ _ | .schedMoveTask _ _ | .schedRrGetInterval _
  | .rtPeriodTimer _ _ | .setCurrentState _ | .writeTrace _ _ _ =>
    inferInstanceAs (Decidable (_ ∧ False))

theorem updateCurrRt_task_rt (s : Rq τ Q) (t : τ) :
    ((updateCurrRt K s).task t).rt = (s.task t).rt := by
  have hcharge : ((chargeCurr s).task t).rt = (s.task t).rt := by
    by_cases ht : t = s.curr
    · subst ht; simp [chargeCurr, Rq.modifyTask]
    · simp [chargeCurr, Rq.modifyTask, ht]
  rcases updateCurrRt_eq K s with h | ⟨rt, needResched, h⟩ <;> rw [h]
  exact hcharge

omit [DecidableEq τ] in
theorem watchdogRt_timeSlice (hz : ℕ) (p : TaskStruct) :
    (watchdogRt hz p).rt.timeSlice = p.rt.timeSlice := by
  rw [watchdogRt]
  split <;> rfl

/-- A tick charges the groups, and then it leaves the queues as they are, or its task gives up its
turn. With the last tick of a slice the queues are left only if the task is alone on its list. -/
theorem taskTickRt_cases (K : Kernel τ Q) (s : Rq τ Q) (p : τ) :
    ∃ u, Keeps K s u ∧ Moves GroupMove (rtLists s.rt) (rtLists u.rt) ∧
      (((taskTickRt K s p).rt = u.rt ∧
          (SliceOver s p → hasCompany u.rt u.ctl (.task p) = false)) ∨
        (SliceOver s p ∧ (taskTickRt K s p).rt = (requeueTaskRt u p).rt)) := by
  obtain ⟨u, hu⟩ : ∃ u, u = (updateCurrRt K s).modifyTask p (watchdogRt K.hz) := ⟨_, rfl⟩
  have hkeeps : Keeps K s u := by
    rw [hu]
    exact keeps_updateCurrRt.trans (accounts_modifyTask (watchdogRt_ctl K.hz)).keeps
  have hmoves : Moves GroupMove (rtLists s.rt) (rtLists u.rt) := by
    rw [hu]
    exact moves_updateCurrRt
  have hpolicy : (u.task p).policy = (s.task p).policy :=
    congrArg TaskControl.policy (congrFun hkeeps.ctl p)
  have hslice : (u.task p).rt.timeSlice = (s.task p).rt.timeSlice := by
    rw [hu, ← updateCurrRt_task_rt (K := K) s p]
    simp [Rq.modifyTask, watchdogRt_timeSlice]
  rw [taskTickRt]
  dsimp only
  rw [← hu]
  split
  · next hrr => exact ⟨u, hkeeps, hmoves, .inl ⟨rfl, fun ho => absurd (hpolicy.trans ho.1) hrr⟩⟩
  · next hrr =>
    split
    · next hleft =>
      refine ⟨u, hkeeps, hmoves, .inl ⟨rfl, fun ho => absurd ?_ hleft⟩⟩
      simp [Rq.modifyTask, hslice, ho.2]
    · next hleft =>
      have hover : SliceOver s p := by
        refine ⟨hpolicy.symm.trans (not_not.mp hrr), ?_⟩
        simp only [Rq.modifyTask, Function.update_self, hslice, not_not] at hleft
        grind
      obtain ⟨v, hv⟩ : ∃ v, v = (u.modifyTask p fun p =>
          { p with rt := { p.rt with timeSlice := p.rt.timeSlice - 1 } }).modifyTask p fun p =>
            { p with rt := { p.rt with timeSlice := UInt32.ofNat (rrTimeslice K.hz) } } := ⟨_, rfl⟩
      have hgranted : Accounts K u v := by
        rw [hv]
        exact (accounts_modifyTask fun _ => by rfl).trans (accounts_modifyTask fun _ => by rfl)
      have hmoved : Moves GroupMove (rtLists s.rt) (rtLists v.rt) := by
        rw [hgranted.rt]
        exact hmoves
      rw [← hv]
      split
      · exact ⟨v, hkeeps.trans hgranted.keeps, hmoved, .inr ⟨hover, rfl⟩⟩
      · next hcompany =>
        refine ⟨v, hkeeps.trans hgranted.keeps, hmoved, .inl ⟨rfl, fun _ => ?_⟩⟩
        rw [Bool.not_eq_true, List.any_eq_false] at hcompany
        exact Bool.eq_false_iff.mpr (hcompany _ (mem_forEachSchedRtEntity.mpr (.inl rfl)))

theorem taskTickRas_rt : (taskTickRas K s p).rt = s.rt := by
  have hticked : Accounts K s (countTick K s p) := accounts_countTick
  have hrefilled : Accounts K s ((countTick K s p).modifyTask p (grantSlice K.hz)) :=
    hticked.trans accounts_grantSlice
  rw [taskTickRas_eq]
  split_ifs
  · exact hticked.rt
  · rw [requeueTaskRas]
    split <;> exact hrefilled.rt
  · exact hrefilled.rt

/-- A tick or a yield moves groups, and the running task when it gives up its turn. -/
theorem moves_turn {op : Op τ} (hop : op = .schedYield ∨ op = .schedulerTick)
    (hx : execOp K s op = some s') :
    Moves (fun m => GroupMove m ∨ RtTurns s op ∧ RequeueMove (s.ctl s.curr) s.curr m)
      (rtLists s.rt) (rtLists s'.rt) := by
  have hclock : Accounts K s (updateRqClock s) := accounts_updateRqClock
  rcases hop with rfl | rfl
  · obtain rfl := Option.some.inj hx
    rw [schedYield, classYieldTask]
    split
    · next hc => exact moves_requeue.mono fun m hm => .inr ⟨⟨hc, trivial⟩, hm⟩
    · rw [yieldTaskRas, requeueTaskRas]
      split <;> exact .refl _ _
    · exact .of_eq (congrArg rtLists (accounts_applyEffect (K.queued_yieldTask ..)).rt)
  · obtain rfl := Option.some.inj hx
    rw [schedulerTick, classTaskTick, updateRqClock_curr, updateRqClock_task]
    split
    · next hc =>
      obtain ⟨u, hkeeps, hmoves, htick⟩ := taskTickRt_cases K (updateRqClock s) s.curr
      rw [hclock.rt] at hmoves
      have hgroups : Moves (fun m => GroupMove m ∨
          RtTurns s .schedulerTick ∧ RequeueMove (s.ctl s.curr) s.curr m) (rtLists s.rt)
          (rtLists u.rt) := hmoves.mono fun m => .inl
      rcases htick with ⟨heq, -⟩ | ⟨hover, heq⟩
      · rw [heq]
        exact hgroups
      · rw [SliceOver, updateRqClock_task] at hover
        rw [heq]
        refine hgroups.trans (moves_requeue.mono fun m hm => .inr ⟨⟨hc, hover⟩, ?_⟩)
        rwa [hkeeps.ctl, hclock.ctl] at hm
    · exact .of_eq (congrArg rtLists (taskTickRas_rt.trans hclock.rt))
    · exact .of_eq (congrArg rtLists
        ((accounts_applyEffect (K.queued_taskTick ..)).rt.trans hclock.rt))

/-! ### The tasks on a list -/

omit [DecidableEq τ] in
theorem filter_filterMap_asTask (B : τ → Bool) (l : List (RtEntity τ)) :
    (l.filterMap RtEntity.asTask).filter B =
      (l.filter fun e => e.asTask.any B).filterMap RtEntity.asTask := by
  induction l with
  | nil => rfl
  | cons e l ih =>
    cases e with
    | task p => by_cases hp : B p = true <;> simp [hp, ih]
    | group g => simp [List.filterMap_cons, ih]

theorem filterMap_asTask_erase (p : τ) (l : List (RtEntity τ)) :
    (l.erase (.task p)).filterMap RtEntity.asTask = (l.filterMap RtEntity.asTask).erase p := by
  induction l with
  | nil => rfl
  | cons e l ih =>
    cases e with
    | task q =>
      by_cases hq : q = p
      · simp [hq]
      · simp [hq, ih]
    | group g => simp [List.filterMap_cons, ih]

/-- Tasks that are not moved keep their order. -/
theorem filter_rtTaskList {ok : EntityMove τ → Prop} {rt rt' : RtRqs τ} {B : τ → Bool}
    (h : Moves ok (rtLists rt) (rtLists rt')) (hB : ∀ m, ok m → ∀ t, m.entry = .task t → B t = false)
    (x : RtGroup × ℤ) : (rtTaskList rt' x).filter B = (rtTaskList rt x).filter B := by
  rw [rtTaskList, rtTaskList, filter_filterMap_asTask, filter_filterMap_asTask,
    h.filter_eq (fun m hm => ?_) x]
  cases he : m.entry with
  | task t => simpa using hB m hm t he
  | group g => rfl

theorem rtTaskList_of_groupMoves {rt rt' : RtRqs τ} (h : Moves GroupMove (rtLists rt) (rtLists rt'))
    (x : RtGroup × ℤ) : rtTaskList rt' x = rtTaskList rt x := by
  have hall := filter_rtTaskList (B := fun _ => true) h (fun m hm t ht => ?_) x
  · simpa using hall
  · obtain ⟨⟨g, hg⟩, -⟩ := hm
    rw [hg] at ht
    cases ht

/-- A task that is on its list is put behind the others. -/
theorem rtTaskList_requeueTaskRt (hon : onRtRq s.rt s.ctl (.task p) = true) :
    rtTaskList (requeueTaskRt s p).rt ((s.ctl p).schedTaskGroup.rtRq, (s.ctl p).prio) =
      (rtTaskList s.rt ((s.ctl p).schedTaskGroup.rtRq, (s.ctl p).prio)).erase p ++ [p] := by
  have hgroups : Moves GroupMove (rtLists (requeueRtEntity s.rt s.ctl (.task p)))
      (rtLists (requeueTaskRt s p).rt) := by
    refine Moves.foldl (fun rt d hd => ?_) _
    obtain ⟨g, rfl, -⟩ := mem_groupEntities.mp hd
    rw [rtLists_requeueRtEntity]
    split
    · exact .single (groupMove_requeue g _)
    · exact .refl _ _
  have hself : (rtRqOfSe s.ctl (.task p), rtSePrio s.rt s.ctl (.task p)) =
      ((s.ctl p).schedTaskGroup.rtRq, (s.ctl p).prio) := rfl
  rw [rtTaskList_of_groupMoves hgroups, rtTaskList, rtLists_requeueRtEntity, if_pos hon, hself,
    Move.apply, Function.update_self, List.filterMap_append, filterMap_asTask_erase]
  rfl

omit [DecidableEq τ] in
/-- The lists hold the tasks by group and priority. -/
theorem RtRqsHold.mem_rtLists {rt : RtRqs τ} {ctl : τ → TaskControl} {R : Finset τ}
    (h : RtRqsHold rt ctl R) {x : RtGroup × ℤ} : .task p ∈ rtLists rt x ↔
      p ∈ R ∧ (ctl p).schedTaskGroup.rtRq = x.1 ∧ (ctl p).prio = x.2 := by
  obtain ⟨M, hM, hheld⟩ := RtLinked.rq h x.1
  rw [rtLists, hheld.mem_queue, hM, and_assoc]
  exact Iff.rfl

/-- A task that is alone on its list stays so when it is put behind the others. -/
theorem rtTaskList_of_alone {rt : RtRqs τ} {ctl : τ → TaskControl} {R : Finset τ}
    (h : RtRqsHold rt ctl R) (hp : p ∈ R) (halone : hasCompany rt ctl (.task p) = false) :
    rtTaskList rt ((ctl p).schedTaskGroup.rtRq, (ctl p).prio) =
      (rtTaskList rt ((ctl p).schedTaskGroup.rtRq, (ctl p).prio)).erase p ++ [p] := by
  obtain ⟨l, hl⟩ : ∃ l, l = rtLists rt ((ctl p).schedTaskGroup.rtRq, (ctl p).prio) := ⟨_, rfl⟩
  have hmem : .task p ∈ l := by
    rw [hl]
    exact h.mem_rtLists.mpr ⟨hp, rfl, rfl⟩
  have hlen : l.length ≤ 1 := by
    have hon : onRtRq rt ctl (.task p) = true := h.onRtRq_iff.mpr hp
    simp only [hasCompany, hon, true_and, decide_eq_false_iff_not, not_lt] at halone
    rw [hl]
    exact halone
  obtain rfl : l = [.task p] := by
    cases l with
    | nil => cases hmem
    | cons e l =>
      obtain rfl : l = [] := List.length_eq_zero_iff.mp (by simpa using hlen)
      rw [List.mem_singleton.mp hmem]
  rw [rtTaskList, ← hl]
  simp

/-- The running real-time task is held. -/
theorem Inv.curr_mem_rt (h : Inv K s) (hmem : ∀ t, t ∈ F ↔ (s.ctl t).onRq = true)
    (hc : (s.ctl s.curr).schedClass = .rt) : s.curr ∈ inClass s.ctl F .rt := by
  have hidle : s.curr ≠ s.idle := fun he => by
    rw [he, h.idle_class] at hc
    cases hc
  exact mem_inClass.mpr ⟨(hmem _).mpr (h.curr.resolve_left hidle), hc⟩

/-- A task that gives up its turn goes behind the other tasks of its group and priority. -/
theorem rtTaskList_turn (h : Inv K s) {op : Op τ} (hturn : RtTurns s op)
    (hx : execOp K s op = some s') :
    rtTaskList s'.rt ((s.ctl s.curr).schedTaskGroup.rtRq, (s.ctl s.curr).prio) =
      (rtTaskList s.rt ((s.ctl s.curr).schedTaskGroup.rtRq, (s.ctl s.curr).prio)).erase s.curr ++
        [s.curr] := by
  obtain ⟨hc, hturn⟩ := hturn
  obtain ⟨F, hF, hmem⟩ := h.holds
  have hin := h.curr_mem_rt hmem hc
  cases op with
  | schedYield =>
    obtain rfl := Option.some.inj hx
    rw [schedYield, classYieldTask, hc]
    exact rtTaskList_requeueTaskRt (hF.rt.onRtRq_iff.mpr hin)
  | schedulerTick =>
    obtain rfl := Option.some.inj hx
    have hclock : Accounts K s (updateRqClock s) := accounts_updateRqClock
    rw [schedulerTick, classTaskTick, updateRqClock_curr, updateRqClock_task, hc]
    dsimp only
    obtain ⟨u, hkeeps, hmoves, htick⟩ := taskTickRt_cases K (updateRqClock s) s.curr
    have hkeeps' : Keeps K s u := hclock.keeps.trans hkeeps
    have hover : SliceOver (updateRqClock s) s.curr := by
      rw [SliceOver, updateRqClock_task]
      exact hturn
    rw [hclock.rt] at hmoves
    have hu := (hkeeps'.holds F hF).rt
    rw [hkeeps'.ctl] at hu
    rw [← rtTaskList_of_groupMoves hmoves]
    rcases htick with ⟨heq, halone⟩ | ⟨-, heq⟩
    · have halone := halone hover
      rw [hkeeps'.ctl] at halone
      rw [heq]
      exact rtTaskList_of_alone hu hin halone
    · have hon : onRtRq u.rt u.ctl (.task s.curr) = true := by
        rw [hkeeps'.ctl]
        exact hu.onRtRq_iff.mpr hin
      have hrequeue := rtTaskList_requeueTaskRt hon
      rw [hkeeps'.ctl] at hrequeue
      rw [heq]
      exact hrequeue
  | _ => exact hturn.elim

/-! ### Steps -/

/-- A task loses a better priority that it inherited. -/
structure Deboosted (s s' : Rq τ Q) (op : Op τ) (p : τ) : Prop where
  inherited : ∃ waiter, op = .rtMutexAdjustPrio p waiter ∧ s'.ctl p = inherited waiter (s.ctl p)
  boosted : (s.ctl p).prio < (s.ctl p).normalPrio
  prio_lt : (s.ctl p).prio < (s'.ctl p).prio

/-- The moves of a step on the lists of the real-time run queues. -/
inductive RtMove (K : Kernel τ Q) (s s' : Rq τ Q) (op : Op τ) : EntityMove τ → Prop
  | off {p : τ} {on : RtGroup × ℤ → Bool} (h : TakesOff K s op p ∨ (s.ctl p).onRq = false) :
      RtMove K s s' op (.off (.task p) on)
  /-- The task is queued again, at the head of a list when it loses a better priority. -/
  | back {p : τ} {head : Bool} (h : TakesOff K s op p) (hc : (s'.ctl p).schedClass = .rt)
      (hhead : head = true → Deboosted s s' op p) :
      RtMove K s s' op (.put (.task p) ((s'.ctl p).schedTaskGroup.rtRq, (s'.ctl p).prio) head)
  | wake {p : τ} (hoff : (s.ctl p).onRq = false) (hc : (s.ctl p).schedClass = .rt) :
      RtMove K s s' op (.put (.task p) ((s.ctl p).schedTaskGroup.rtRq, (s.ctl p).prio) false)
  | turn (h : RtTurns s op) : RtMove K s s' op
      (.requeue (.task s.curr) ((s.ctl s.curr).schedTaskGroup.rtRq, (s.ctl s.curr).prio))
  | group {m : EntityMove τ} (h : GroupMove m) : RtMove K s s' op m
  /-- The groups of a task that loses a better priority go to the head of a list. -/
  | groupHead {p : τ} {g : RtGroup} {i : RtGroup × ℤ} (h : Deboosted s s' op p)
      (hg : (s'.ctl p).schedTaskGroup.rtRq ≠ []) : RtMove K s s' op (.put (.group g) i true)

theorem DequeueMove.rtMove {op : Op τ} {m : EntityMove τ} (h : DequeueMove p m)
    (htakes : TakesOff K s op p) : RtMove K s s' op m := by
  rcases h with ⟨on, rfl⟩ | h
  · exact .off (.inl htakes)
  · exact .group h

theorem EnqueueMove.rtMove {op : Op τ} {m : EntityMove τ} {head : Bool}
    (h : EnqueueMove (s'.ctl p) p head m) (htakes : TakesOff K s op p)
    (hc : (s'.ctl p).schedClass = .rt) (hhead : head = true → Deboosted s s' op p) :
    RtMove K s s' op m := by
  cases h with
  | off on => exact .off (.inl htakes)
  | put => exact .back htakes hc hhead
  | group h => exact .group h
  | groupHead hh hg => exact .groupHead (hhead hh) hg

theorem WakeMove.rtMove {op : Op τ} {m : EntityMove τ} (h : WakeMove s p m) :
    RtMove K s s' op m := by
  obtain ⟨hoff, hc, h⟩ := h
  cases h with
  | off on => exact .off (.inr hoff)
  | put => exact .wake hoff hc
  | group h => exact .group h
  | groupHead hh _ => cases hh

/-- The moves of a task that is changed off the run queue. -/
theorem rtMoves_withTaskOffRq {u : Rq τ Q} (running : Bool) {change : Rq τ Q → Rq τ Q}
    (flags : EnqueueFlags) {f : TaskControl → TaskControl} {op : Op τ}
    (hchange : ∀ s, Accounts K (s.modifyCtl p f) (change s)) (hrt : u.rt = s.rt)
    (htakes : (u.ctl p).onRq = true → TakesOff K s op p) (hself : s'.ctl p = f (u.ctl p))
    (hhead : flags.head = true → Deboosted s s' op p)
    (hend : s'.rt = (withTaskOffRq K u p running change flags).rt) :
    Moves (RtMove K s s' op) (rtLists s.rt) (rtLists s'.rt) := by
  rw [hend, ← hrt]
  refine (moves_withTaskOffRq running flags hchange).mono fun m hm => ?_
  rcases hm with hm | ⟨hon, hm | ⟨hc, hm⟩⟩
  · exact .group hm
  · exact hm.rtMove (htakes hon)
  · rw [← hself] at hc hm
    exact hm.rtMove (htakes hon) hc hhead

/-- Dealing with the previous task of a context switch: it may be taken off, and another task may
be woken then. -/
theorem rtMoves_schedulePrev (h : Inv K s) {preempt signalPending : Bool} {toWakeup : Option τ} :
    Moves (RtMove K s s' (.schedule preempt signalPending toWakeup)) (rtLists s.rt)
      (rtLists (schedulePrev K s preempt signalPending toWakeup).rt) := by
  rw [schedulePrev]
  dsimp only
  split
  · next hsleep =>
    split
    · exact .refl _ _
    · next hsignal =>
      have htakes : TakesOff K s (.schedule preempt signalPending toWakeup) s.curr :=
        ⟨rfl, hsleep.1, by simpa using hsleep.2, by simpa using hsignal⟩
      have hoff : Moves (RtMove K s s' (.schedule preempt signalPending toWakeup)) (rtLists s.rt)
          (rtLists ((deactivateTask K s s.curr true).modifyCtl s.curr fun p =>
            { p with onRq := false }).rt) :=
        moves_dequeueTask.mono fun m hm => hm.rtMove htakes
      cases toWakeup with
      | none => exact hoff
      | some w =>
        have hd := h.prevDone_deactivate hsleep.1
        refine hoff.trans (moves_tryToWakeUpLocal.mono fun m hm => ?_)
        obtain ⟨hne, hoffRq, hclass, hm⟩ := hm
        rw [hd.curr] at hne
        -- the other task has not been queued before either
        have hact := hd.activity w
        have hwas : (s.ctl w).onRq = false := Bool.eq_false_iff.mpr fun hon => by
          rw [hd.stays w hne hon] at hoffRq
          cases hoffRq
        refine WakeMove.rtMove ⟨hwas, hact.schedClass.symm.trans hclass, hm.congr ?_ ?_⟩
        · exact (congrArg TaskControl.schedTaskGroup hact).symm
        · exact (congrArg TaskControl.prio hact).symm
  · exact .refl _ _

theorem rtMoves_rtMutexAdjustPrio (h : Inv K s) {waiter : Option ℤ}
    (he : Enabled s (.rtMutexAdjustPrio p waiter)) (hx : rtMutexAdjustPrio K s p waiter = s') :
    Moves (RtMove K s s' (.rtMutexAdjustPrio p waiter)) (rtLists s.rt) (rtLists s'.rt) := by
  obtain ⟨hp, hstop, hw⟩ := he
  have hself : s'.ctl p = inherited waiter (s.ctl p) := by
    rw [← hx]
    exact (rewrites_rtMutexAdjustPrio (h.ctl p hp hstop) hp hw).ctl_self
  rw [rtMutexAdjustPrio_eq] at hx
  split at hx
  · next hne =>
    obtain ⟨u, hu⟩ : ∃ u, u = s.modifyCtl p fun c => { c with piTopWaiter := waiter } := ⟨_, rfl⟩
    obtain ⟨prio, hprio⟩ : ∃ prio, prio = rtMutexGetprio { s.ctl p with piTopWaiter := waiter } :=
      ⟨_, rfl⟩
    have hctl : u.ctl p = { s.ctl p with piTopWaiter := waiter } := by
      rw [hu, ctl_modifyCtl, Function.update_self]
    have hnew : s'.ctl p = { u.ctl p with
        schedClass := classFor (u.ctl p).policy prio, prio := prio } := by
      rw [hself, inherited, if_pos hne, hctl, hprio]
    rw [← hu, ← hprio, rtMutexSetprio] at hx
    split at hx
    · rw [← hx, hu]
      exact .refl _ _
    · refine rtMoves_withTaskOffRq (u := u) (u.curr = p) { head := (u.task p).prio < prio }
        (f := fun c => { c with schedClass := classFor c.policy prio, prio := prio })
        (fun _ => .refl ..) (by rw [hu]; rfl) (fun hon => ?_) hnew (fun hhead => ?_) ?_
      · rw [hctl] at hon
        exact ⟨rfl, hon, hne⟩
      · have hlt : (s.ctl p).prio < prio := by
          have hlt : (u.ctl p).prio < prio := of_decide_eq_true hhead
          rwa [hctl] at hlt
        have hle : prio ≤ (s.ctl p).normalPrio := by
          rw [hprio, rtMutexGetprio]
          split
          · exact le_refl _
          · exact min_le_right ..
        exact ⟨⟨waiter, rfl, hself⟩, hlt.trans_le hle, by rwa [hnew]⟩
      · rw [← hx]
        exact (accounts_checkClassChanged (K := K)).rt
  · rw [← hx]
    exact .refl _ _

theorem rtMoves_setUserNice (h : Inv K s) (hp : p ≠ s.idle) {nice : ℤ} :
    Moves (RtMove K s (setUserNice K s p nice) (.setUserNice p nice)) (rtLists s.rt)
      (rtLists (setUserNice K s p nice).rt) := by
  rw [setUserNice]
  split
  · exact .refl _ _
  · next hnice =>
    split
    · exact .refl _ _
    · next hrt =>
      have hrt : rtPolicy (s.ctl p).policy = false := Bool.eq_false_iff.mpr hrt
      obtain ⟨w, hw⟩ : ∃ w, w = withTaskOffRq K s p false (fun s => s.modifyCtl p (reniced nice)) {} :=
        ⟨_, rfl⟩
      have hr : Rewrites K s w p (reniced nice) := by
        rw [hw]
        refine withTaskOffRq_rewrites (fun _ => .refl ..) (h.schedClass_ne_idle hp) fun hc => ?_
        have hold : (s.ctl p).schedClass = .rt := hc
        have hok := h.ctlOk (p := p) (by simp [hold]) (by simp [hold])
        exact (hok.reniced hrt fun hn => hnice (.inr hn)).prio_lt hc
      have hmoves : ∀ s', s'.ctl = w.ctl → s'.rt = w.rt →
          Moves (RtMove K s s' (.setUserNice p nice)) (rtLists s.rt) (rtLists s'.rt) := by
        intro s' hctl hend
        rw [hw] at hend
        exact rtMoves_withTaskOffRq _ {} (fun _ => .refl ..) rfl (fun ht => ⟨rfl, ht, hrt, hnice⟩)
          ((congrFun hctl p).trans hr.ctl_self) (fun hf => by cases hf) hend
      rw [← hw]
      dsimp only
      split <;> exact hmoves _ rfl rfl

/-- What a step does to the lists of the real-time run queues. -/
theorem rtMoves_execOp (h : Inv K s) {op : Op τ} (he : Enabled s op)
    (hx : execOp K s op = some s') : Moves (RtMove K s s' op) (rtLists s.rt) (rtLists s'.rt) := by
  have hturn : op = .schedYield ∨ op = .schedulerTick →
      Moves (RtMove K s s' op) (rtLists s.rt) (rtLists s'.rt) := fun hop =>
    (moves_turn hop hx).mono fun m hm => by
      rcases hm with hm | ⟨hturn, rfl | hm⟩
      · exact .group hm
      · exact .turn hturn
      · exact .group hm
  cases op with
  | fork child =>
    obtain rfl := Option.some.inj hx
    have hfork : (fork K s child).rt = (schedForkInit (dupTaskStruct s child) child).rt :=
      (accounts_classTaskFork (K := K)).rt
    exact .of_eq (congrArg rtLists hfork)
  | wakeUpNewTask p =>
    obtain ⟨-, hoff, -⟩ := he
    obtain rfl := Option.some.inj hx
    exact (moves_enqueueTask.mono fun m hm => WakeMove.rtMove ⟨hoff, hm⟩).trans
      (.of_eq (congrArg rtLists (accounts_checkPreemptCurr (K := K)).rt))
  | tryToWakeUp p mask flags =>
    obtain rfl := Option.some.inj hx
    exact (moves_tryToWakeUp mask flags).mono fun m hm => hm.rtMove
  | schedule preempt signalPending toWakeup =>
    obtain ⟨m, c, next, s'', hm, -, -, hsched, -, -, -, -, hrt, -⟩ :=
      schedule_spec h preempt signalPending toWakeup
    obtain rfl : s'' = s' := Option.some.inj (hsched.symm.trans hx)
    rw [hrt, hm]
    exact (rtMoves_schedulePrev h).trans (moves_putPrevTask.mono fun m hm => .group hm)
  | schedulerTick => exact hturn (.inr rfl)
  | schedYield => exact hturn (.inl rfl)
  | setscheduler caller p policy prio user =>
    obtain rfl := Option.some.inj hx
    rcases schedSetscheduler_cases K s caller p policy prio user with
      ⟨r, -, hres⟩ | ⟨newPolicy, reset, hcheck, hres⟩
    · rw [hres]
      exact .refl _ _
    · obtain ⟨-, hvalid, -, hstop, -⟩ := setschedulerCheck_ok hcheck
      have hr := rewrites_changePolicy (K := K) (h.ctl p he hstop) reset hvalid
      rw [hres]
      exact rtMoves_withTaskOffRq _ {} (fun _ => .refl ..) rfl
        (fun ht => ⟨rfl, ht, by rw [hcheck]; rfl⟩) hr.ctl_self (fun hf => by cases hf)
        (accounts_checkClassChanged (K := K)).rt
  | rtMutexAdjustPrio p waiter => exact rtMoves_rtMutexAdjustPrio h he (Option.some.inj hx)
  | setUserNice p nice =>
    obtain rfl := Option.some.inj hx
    exact rtMoves_setUserNice h he
  | schedMoveTask p tg =>
    obtain rfl := Option.some.inj hx
    have hr := @rewrites_schedMoveTask _ _ _ K s p tg (h.schedClass_ne_idle he) h.prio_lt
    exact rtMoves_withTaskOffRq _ {} (fun _ => accounts_classTaskMoveGroup) rfl
      (fun ht => ⟨rfl, ht⟩) hr.ctl_self (fun hf => by cases hf) rfl
  | schedRrGetInterval p =>
    obtain rfl := Option.some.inj hx
    exact .of_eq (congrArg rtLists (accounts_schedRrGetInterval (K := K)).rt)
  | rtPeriodTimer g overrun =>
    obtain rfl := Option.some.inj hx
    exact moves_doSchedRtPeriodTimer.mono fun m hm => .group hm
  | setCurrentState state =>
    obtain rfl := Option.some.inj hx
    exact .refl _ _
  | writeTrace p wcounts traceFlag =>
    obtain rfl := Option.some.inj hx
    exact .refl _ _

end Operations

end OsProject.Sched
