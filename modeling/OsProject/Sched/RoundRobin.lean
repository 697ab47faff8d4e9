import OsProject.Lib.RoundRobin
import OsProject.Sched.Fifo
import OsProject.Sched.SliceRule

/-!
# The turns of the RAS tasks

While only RAS tasks run, and none of them sleeps, the ticks of the timer turn the run list as a
weighted round robin: the task at the head runs until its slice is used up, and goes to the tail
then with a new slice. It goes there twice, from the tick and from the context switch that follows.

## Main definitions

* `Interrupt`, `timerInterrupt` — a tick, and the context switch that it asks for.
* `Marks` — what the turns depend on besides the run list.
* `InTurn` — the first of some RAS tasks runs, and all of them stay runnable.
* `Follows` — the run queue shows the state of a weighted round robin.

## Main results

* `Follows.step` — a timer interrupt is a tick of the weighted round robin.
* `weighted_round_robin` — the ticks of a number of rounds.

Source: `kernel/sched/ras.c`, `kernel/sched/core.c`.
-/

namespace OsProject.Sched

open Intrusive Transition

variable {τ Q : Type*} [DecidableEq τ] {K : Kernel τ Q} {s s' : Rq τ Q} {p : τ} {ts : List τ}

/-! ### Timer interrupts -/

/-- What the surroundings decide at a tick: the clock at the tick and at the context switch after
it, and how `__schedule` is called there. -/
structure Interrupt (τ : Type*) where
  now : ℤ
  later : ℤ
  preempt : Bool
  signalPending : Bool
  toWakeup : Option τ

/-- A tick, followed by a context switch when the tick leaves a task marked that is to be
rescheduled. -/
def timerInterrupt (K : Kernel τ Q) (s : Rq τ Q) (i : Interrupt τ) : Option (Rq τ Q) :=
  (exec K s ⟨i.now, .schedulerTick⟩).bind fun s =>
    if s.needResched s.curr then
      exec K s ⟨i.later, .schedule i.preempt i.signalPending i.toWakeup⟩
    else some s

/-! ### What the turns depend on -/

/-- The tasks marked to be rescheduled, and the write counts and slices. -/
@[ext]
structure Marks (τ : Type*) where
  needResched : τ → Bool
  wcounts : τ → UInt32
  timeSlice : τ → UInt32

def Rq.marks (s : Rq τ Q) : Marks τ where
  needResched := s.needResched
  wcounts t := (s.task t).wcounts
  timeSlice t := (s.task t).ras.timeSlice

theorem marks_modifyTask {f : TaskStruct → TaskStruct}
    (hw : (f (s.task p)).wcounts = (s.task p).wcounts) :
    (s.modifyTask p f).marks =
      { s.marks with
        timeSlice := Function.update s.marks.timeSlice p (f (s.task p)).ras.timeSlice } := by
  refine Marks.ext rfl ?_ ?_
  · funext t
    by_cases ht : t = p
    · subst ht
      simpa [Rq.marks, Rq.modifyTask] using hw
    · simp [Rq.marks, Rq.modifyTask, ht]
  · funext t
    by_cases ht : t = p
    · subst ht
      simp [Rq.marks, Rq.modifyTask]
    · simp [Rq.marks, Rq.modifyTask, ht]

theorem marks_modifyTask_of_ras {f : TaskStruct → TaskStruct}
    (hw : (f (s.task p)).wcounts = (s.task p).wcounts)
    (hs : (f (s.task p)).ras.timeSlice = (s.task p).ras.timeSlice) :
    (s.modifyTask p f).marks = s.marks := by
  have hself : s.marks.timeSlice p = (s.task p).ras.timeSlice := rfl
  rw [marks_modifyTask hw, hs, ← hself, Function.update_eq_self]

omit [DecidableEq τ] in
theorem marks_updateRqClock : (updateRqClock s).marks = s.marks := by
  rw [updateRqClock]
  split <;> rfl

theorem marks_updateCurrRas : (updateCurrRas s).marks = s.marks := by
  rw [updateCurrRas]
  split
  · rfl
  · exact marks_modifyTask_of_ras rfl rfl

theorem marks_requeueTaskRas : (requeueTaskRas s p).marks = s.marks := by
  rw [requeueTaskRas]
  split <;> rfl

theorem marks_reschedTask : (s.reschedTask p).marks =
    { s.marks with needResched := Function.update s.marks.needResched p true } := rfl

/-- A tick counts the slice down. -/
theorem marks_countTick : (countTick K s p).marks =
    { s.marks with
      timeSlice := Function.update s.marks.timeSlice p ((s.task p).ras.timeSlice - 1) } := by
  have hwatch : ((updateCurrRas s).modifyTask p (watchdogRas K.hz)).marks = s.marks := by
    refine (marks_modifyTask_of_ras ?_ (watchdogRas_timeSlice ..)).trans marks_updateCurrRas
    rw [watchdogRas]
    split <;> rfl
  have hslice : (((updateCurrRas s).modifyTask p (watchdogRas K.hz)).task p).ras.timeSlice =
      (s.task p).ras.timeSlice := congrFun (congrArg Marks.timeSlice hwatch) p
  rw [countTick, marks_modifyTask (by rfl), hwatch]
  dsimp only
  rw [hslice]

/-- Putting aside a RAS task. -/
theorem marks_putPrevTask (hc : (s.ctl p).schedClass = .ras) :
    (putPrevTask K s p).marks = s.marks := by
  have hput : ∀ u : Rq τ Q, (u.task p).schedClass = .ras →
      (classPutPrevTask K u p).marks = u.marks := fun u hu => by
    rw [classPutPrevTask, hu]
    exact marks_requeueTaskRas.trans marks_updateCurrRas
  rw [putPrevTask]
  split
  · rw [hput _ (by rwa [updateRqClock_task]), marks_updateRqClock]
  · exact hput s hc

theorem marks_classPickNextTask {c : SchedClass} :
    (classPickNextTask K s c).2.marks = s.marks := by
  cases c with
  | rt =>
    rw [classPickNextTask, pickNextTaskRt]
    split_ifs
    · rfl
    · rfl
    · split
      · rfl
      · exact marks_modifyTask_of_ras rfl rfl
  | ras =>
    rw [classPickNextTask, pickNextTaskRas]
    split_ifs
    · rfl
    · split
      · rfl
      · exact marks_modifyTask_of_ras rfl rfl
  | stop | fair =>
    simp only [classPickNextTask]
    split <;> rfl
  | idle => rfl

theorem marks_pickFrom {cs : List SchedClass} : (pickFrom K s cs).2.marks = s.marks := by
  induction cs generalizing s with
  | nil => rfl
  | cons c cs ih =>
    have hc : (classPickNextTask K s c).2.marks = s.marks := marks_classPickNextTask
    rw [pickFrom]
    split
    · next u heq =>
      rw [heq] at hc
      exact ih.trans hc
    · exact hc

theorem marks_pickNextTask : (pickNextTask K s).2.marks = s.marks := by
  have hfair : (classPickNextTask K s .fair).2.marks = s.marks := marks_classPickNextTask
  rw [pickNextTask]
  split
  · split
    · next u heq =>
      rw [heq] at hfair
      exact marks_pickFrom.trans hfair
    · exact hfair
  · exact marks_pickFrom

/-- A context switch clears the mark of a RAS task that it puts aside. -/
theorem marks_schedule {preempt signalPending : Bool} {toWakeup : Option τ}
    (hc : (s.ctl s.curr).schedClass = .ras) (hstate : (s.ctl s.curr).state = 0)
    (hs : schedule K s preempt signalPending toWakeup = some s') :
    s'.marks = { s.marks with needResched := Function.update s.needResched s.curr false } := by
  have hpick : (pickNextTask K (putPrevTask K s s.curr)).2.marks = s.marks :=
    marks_pickNextTask.trans (marks_putPrevTask hc)
  rw [schedule] at hs
  dsimp only at hs
  rw [schedulePrev_of_stays signalPending toWakeup (.inr hstate)] at hs
  split at hs
  · next next u heq =>
    rw [heq] at hpick
    obtain rfl := Option.some.inj hs
    have hresched : u.needResched = s.needResched := congrArg Marks.needResched hpick
    rw [← hpick, ← hresched]
    split <;> rfl
  · cases hs

omit [DecidableEq τ] in
/-- The slice a task is granted depends on its group and its write count. -/
theorem rasSlice_congr {hz : ℕ} (hctl : s'.ctl = s.ctl) (hw : s'.marks.wcounts = s.marks.wcounts)
    (t : τ) : rasSlice hz (s'.task t) = rasSlice hz (s.task t) := by
  have hgroup : (s'.task t).schedTaskGroup = (s.task t).schedTaskGroup :=
    congrArg (fun c : TaskControl => c.schedTaskGroup) (congrFun hctl t)
  exact rasSlice_of_eq hgroup (congrFun hw t)

/-! ### The list in turn -/

/-- At least two RAS tasks are queued in the order `ts`. The first of them runs, all are runnable,
no reschedule is pending, and no class that comes before the RAS class has a task. -/
structure InTurn (s : Rq τ Q) (ts : List τ) : Prop where
  runList : RunList s ts
  two_le : 2 ≤ ts.length
  head : ts.head? = some s.curr
  state : ∀ t ∈ ts, (s.task t).state = 0
  settled : ∀ t ∈ ts, s.needResched t = false
  alone : ∀ t, (s.task t).onRq = true → SchedClass.ras.rank ≤ (s.task t).schedClass.rank

/-- The run queue shows the state `w` of a weighted round robin. -/
structure Follows (K : Kernel τ Q) (share : τ → ℕ) (s : Rq τ Q) (w : RoundRobin.Wheel τ) : Prop
    extends InTurn s w.queue where
  inv : Inv K s
  left : ∀ t, (s.task t).ras.timeSlice.toNat = w.left t
  left_ne : ∀ t ∈ w.queue, w.left t ≠ 0
  share : ∀ t, (rasSlice K.hz (s.task t)).toNat = share t

/-- A granted slice has a tick. -/
theorem rasSlice_toNat_ne_zero (K : Kernel τ Q) (t : TaskStruct) : (rasSlice K.hz t).toNat ≠ 0 :=
  Nat.one_le_iff_ne_zero.mp (rasSlice_bounds K t).1

/-- The tasks on the run list are of the RAS class. -/
theorem Inv.schedClass_of_mem (h : Inv K s) {l : List τ} (hl : RunList s l) {t : τ} (ht : t ∈ l) :
    (s.ctl t).schedClass = .ras := by
  obtain ⟨F, hF, -⟩ := h.holds
  exact ((hF.mem_runList hl t).mp ht).2

/-- When no class before the RAS class has a task, a context switch picks the head of the run list
after the previous task has been put behind the others. -/
theorem schedule_turn (h : Inv K s) {preempt signalPending : Bool} {toWakeup : Option τ} {l : List τ}
    (hl : RunList s l) (hcurr : s.curr ∈ l) (hstate : (s.ctl s.curr).state = 0)
    (halone : ∀ t, (s.ctl t).onRq = true → SchedClass.ras.rank ≤ (s.ctl t).schedClass.rank) :
    ∃ s', schedule K s preempt signalPending toWakeup = some s' ∧ s'.ctl = s.ctl ∧
      RunList s' (toTail l s.curr) ∧ (toTail l s.curr).head? = some s'.curr := by
  have hc := h.schedClass_of_mem hl hcurr
  obtain ⟨m, c, next, s', hm, -, ⟨F, hF, hmem, -, hpick, hall⟩, hs, hctl, hnext, -, -, -, hras⟩ :=
    schedule_spec h preempt signalPending toWakeup
  rw [schedulePrev_of_stays signalPending toWakeup (.inr hstate)] at hm
  have hmctl : m.ctl = s.ctl := by
    rw [hm]
    exact (keeps_putPrevTask (K := K)).ctl
  have hlm : RunList m (toTail l s.curr) := by
    rw [hm]
    exact hl.putPrevTask hc
  have hmine : s.curr ∈ F :=
    ((hF.mem_runList hlm s.curr).mp (mem_toTail.mpr hcurr)).1
  have hle : c.rank ≤ SchedClass.ras.rank := by
    rw [← hc, ← hmctl]
    refine rank_le_of_exhausted hall hmine fun hrt => ?_
    rw [hmctl, hc] at hrt
    cases hrt
  have hras' : c = .ras := by
    rcases hpick.mem with ⟨rfl, -⟩ | ⟨hin, rfl⟩
    · exact absurd hle (by decide)
    · have hge := halone next (by rw [← hmctl]; exact (hmem next).mp hin)
      rw [← hmctl] at hge
      revert hle hge
      cases (m.ctl next).schedClass <;> decide
  exact ⟨s', hs, hctl.trans hmctl, by rwa [RunList, hras], by
    rw [hnext]
    exact hpick.ras hras' _ hlm⟩

/-- A tick that is not the last one of a slice counts the slice down, and does nothing else. -/
theorem schedulerTick_more {s : Rq τ Q} (hc : (s.ctl s.curr).schedClass = .ras)
    (hleft : (s.task s.curr).ras.timeSlice - 1 ≠ 0) :
    Accounts K s (schedulerTick K s) ∧ (schedulerTick K s).marks =
      { s.marks with timeSlice :=
          Function.update s.marks.timeSlice s.curr ((s.task s.curr).ras.timeSlice - 1) } := by
  have hclock : Accounts K s (updateRqClock s) := accounts_updateRqClock
  have htick : schedulerTick K s = countTick K (updateRqClock s) s.curr := by
    rw [schedulerTick, classTaskTick, updateRqClock_curr, updateRqClock_task, show
      (s.task s.curr).schedClass = .ras from hc]
    dsimp only
    rw [taskTickRas_eq, updateRqClock_task, if_pos hleft]
  rw [htick]
  refine ⟨hclock.trans accounts_countTick, ?_⟩
  rw [marks_countTick, marks_updateRqClock, updateRqClock_task]

/-- The last tick of a slice, with other tasks queued: the task gets a new slice, goes behind the
others and is marked. -/
theorem schedulerTick_last {s : Rq τ Q} {l : List τ} (hl : RunList s l) (htwo : 2 ≤ l.length)
    (hc : (s.ctl s.curr).schedClass = .ras) (hleft : (s.task s.curr).ras.timeSlice - 1 = 0) :
    RunList (schedulerTick K s) (toTail l s.curr) ∧ (schedulerTick K s).ctl = s.ctl ∧
      (schedulerTick K s).curr = s.curr ∧ (schedulerTick K s).marks =
        { s.marks with
          needResched := Function.update s.needResched s.curr true
          timeSlice := Function.update s.marks.timeSlice s.curr
            (rasSlice K.hz (s.task s.curr)) } := by
  obtain ⟨counted, hcounted⟩ : ∃ u, u = countTick K (updateRqClock s) s.curr := ⟨_, rfl⟩
  obtain ⟨granted, hgranted⟩ : ∃ u, u = counted.modifyTask s.curr (grantSlice K.hz) := ⟨_, rfl⟩
  have hothers : s.ras.links.prev none ≠ s.ras.links.next none :=
    hl.prev_head_ne_next_head_iff.mpr (by rwa [List.length_map])
  have htick : schedulerTick K s = (requeueTaskRas granted s.curr).reschedTask s.curr := by
    have hras : (updateRqClock s).ras = s.ras := (accounts_updateRqClock (K := K)).ras
    rw [schedulerTick, classTaskTick, updateRqClock_curr, updateRqClock_task, show
      (s.task s.curr).schedClass = .ras from hc]
    dsimp only
    rw [taskTickRas_eq, updateRqClock_task, if_neg (not_not.mpr hleft), hras, if_pos hothers,
      ← hcounted, ← hgranted]
  have hcount : Accounts K s counted := by
    rw [hcounted]
    exact accounts_updateRqClock.trans accounts_countTick
  have hgrant : Accounts K s granted := by
    rw [hgranted]
    exact hcount.trans accounts_grantSlice
  have hmarks : granted.marks =
      { s.marks with timeSlice :=
          Function.update s.marks.timeSlice s.curr (rasSlice K.hz (s.task s.curr)) } := by
    have hcountMarks : counted.marks =
        { s.marks with timeSlice :=
            Function.update s.marks.timeSlice s.curr ((s.task s.curr).ras.timeSlice - 1) } := by
      rw [hcounted, marks_countTick, marks_updateRqClock, updateRqClock_task]
    have hslice : rasSlice K.hz (counted.task s.curr) = rasSlice K.hz (s.task s.curr) :=
      rasSlice_congr hcount.ctl (by rw [hcountMarks]) s.curr
    rw [hgranted, marks_modifyTask (by rfl), hcountMarks, grantSlice]
    dsimp only
    rw [Function.update_idem, hslice]
  have hkeeps : Keeps K s ((requeueTaskRas granted s.curr).reschedTask s.curr) :=
    (hgrant.keeps.trans keeps_requeueTaskRas).trans accounts_reschedTask.keeps
  rw [htick]
  refine ⟨(hgrant.runList hl).requeueTaskRas s.curr, hkeeps.ctl, hkeeps.curr, ?_⟩
  rw [marks_reschedTask, marks_requeueTaskRas, hmarks]
  rfl

/-! ### Interrupts as ticks of the round robin -/

section Turns

variable {share : τ → ℕ} {w : RoundRobin.Wheel τ} {ts' : List τ}

omit [DecidableEq τ] in
theorem InTurn.turned (h : InTurn s ts) (hctl : s'.ctl = s.ctl)
    (hmarks : s'.marks.needResched = s.marks.needResched) (hl : RunList s' ts')
    (hmem : ∀ t ∈ ts', t ∈ ts) (hlen : ts'.length = ts.length) (hhead : ts'.head? = some s'.curr) :
    InTurn s' ts' where
  runList := hl
  two_le := hlen ▸ h.two_le
  head := hhead
  state t ht := (congrArg TaskControl.state (congrFun hctl t)).trans (h.state t (hmem t ht))
  settled t ht := (congrFun hmarks t).trans (h.settled t (hmem t ht))
  alone t := by
    have halone := h.alone t
    have ht : (s'.task t).toTaskControl = (s.task t).toTaskControl := congrFun hctl t
    rwa [ht]

theorem Follows.atTime (h : Follows K share s w) (now : ℤ) : Follows K share (atTime s now) w where
  runList := h.runList
  two_le := h.two_le
  head := h.head
  state := h.state
  settled := h.settled
  alone := h.alone
  inv := h.inv.atTime now
  left := h.left
  left_ne := h.left_ne
  share := h.share

theorem Follows.curr_mem (h : Follows K share s w) : s.curr ∈ w.queue := List.mem_of_mem_head? h.head

theorem Follows.schedClass (h : Follows K share s w) : (s.ctl s.curr).schedClass = .ras :=
  h.inv.schedClass_of_mem h.runList h.curr_mem

/-- The slices after the task that runs has been given another one. -/
theorem Follows.left_update (h : Follows K share s w) {slice : UInt32}
    (hmarks : s'.marks.timeSlice = Function.update s.marks.timeSlice s.curr slice) (t : τ) :
    (s'.task t).ras.timeSlice.toNat = Function.update w.left s.curr slice.toNat t := by
  have ht : (s'.task t).ras.timeSlice = _ := congrFun hmarks t
  rw [ht]
  by_cases hcurr : t = s.curr
  · rw [hcurr, Function.update_self, Function.update_self]
  · rw [Function.update_of_ne hcurr, Function.update_of_ne hcurr]
    exact h.left t

/-- The state that the run queue shows when the task that runs has been given another slice. -/
theorem Follows.of_slice (h : Follows K share s w) {slice : UInt32} (hturn : InTurn s' ts')
    (hinv : Inv K s') (hmem : ∀ t ∈ ts', t ∈ w.queue) (hctl : s'.ctl = s.ctl)
    (hwcounts : s'.marks.wcounts = s.marks.wcounts)
    (hmarks : s'.marks.timeSlice = Function.update s.marks.timeSlice s.curr slice)
    (hslice : slice.toNat ≠ 0) :
    Follows K share s' ⟨ts', Function.update w.left s.curr slice.toNat⟩ where
  toInTurn := hturn
  inv := hinv
  left := h.left_update hmarks
  left_ne t ht := by
    dsimp only
    by_cases hcurr : t = s.curr
    · rwa [hcurr, Function.update_self]
    · rw [Function.update_of_ne hcurr]
      exact h.left_ne t (hmem t ht)
  share t := by
    rw [rasSlice_congr hctl hwcounts]
    exact h.share t

/-- A tick within a slice. -/
theorem Follows.tick_more (h : Follows K share s w) (hleft : w.left s.curr ≠ 1) :
    Follows K share (schedulerTick K s)
      ⟨w.queue, Function.update w.left s.curr (w.left s.curr - 1)⟩ := by
  have hne : w.left s.curr ≠ 0 := h.left_ne s.curr h.curr_mem
  have hslice : (s.task s.curr).ras.timeSlice.toNat = w.left s.curr := h.left s.curr
  have hdown : ((s.task s.curr).ras.timeSlice - 1).toNat = w.left s.curr - 1 := by
    rw [UInt32.toNat_sub_of_le _ _ (UInt32.le_iff_toNat_le.mpr (by rw [hslice, UInt32.toNat_one]; omega)),
      hslice, UInt32.toNat_one]
  have hmore : (s.task s.curr).ras.timeSlice - 1 ≠ 0 := fun hz => by
    rw [hz, UInt32.toNat_zero] at hdown
    omega
  obtain ⟨hacc, hmarks⟩ := schedulerTick_more (K := K) h.schedClass hmore
  have hturn : InTurn (schedulerTick K s) w.queue :=
    h.toInTurn.turned hacc.ctl (by rw [hmarks]) (hacc.runList h.runList) (fun _ => id) rfl
      (by rw [hacc.curr]; exact h.head)
  rw [← hdown]
  exact h.of_slice hturn (h.inv.of_keeps hacc.keeps) (fun _ => id) hacc.ctl (by rw [hmarks])
    (by rw [hmarks]) (by omega)

/-- The head of a list that goes to its tail. -/
theorem toTail_head {us : List τ} : toTail (p :: us) p = us ++ [p] := by
  rw [toTail, if_pos (List.mem_cons_self ..), List.erase_cons_head]

/-- A task that is at the tail stays there. -/
theorem toTail_last {us : List τ} (hnd : (p :: us).Nodup) : toTail (us ++ [p]) p = us ++ [p] := by
  have hp : p ∉ us := (List.nodup_cons.mp hnd).1
  rw [toTail, if_pos (by simp), List.erase_append_right _ hp]
  simp

/-- The last tick of a slice, and the context switch after it: the tick leaves the task behind the
others already, and the context switch leaves it there. -/
theorem Follows.tick_last {us : List τ} (h : Follows K share s w) (hleft : w.left s.curr = 1)
    (hqueue : w.queue = s.curr :: us) (later : ℤ) (preempt signalPending : Bool)
    (toWakeup : Option τ) :
    (schedulerTick K s).needResched (schedulerTick K s).curr = true ∧ ∃ s',
      schedule K (Sched.atTime (schedulerTick K s) later) preempt signalPending toWakeup = some s' ∧
      Follows K share s' ⟨us ++ [s.curr], Function.update w.left s.curr (share s.curr)⟩ := by
  have hone : (s.task s.curr).ras.timeSlice = 1 :=
    UInt32.toNat_inj.mp ((h.left s.curr).trans (hleft.trans UInt32.toNat_one.symm))
  have hexpired : (s.task s.curr).ras.timeSlice - 1 = 0 := by rw [hone, UInt32.sub_self]
  have hnd : (s.curr :: us).Nodup := by
    rw [← hqueue]
    exact List.Nodup.of_map some h.runList.nodup_tail
  obtain ⟨hl, hctl, hcurr, hmarks⟩ :=
    schedulerTick_last (K := K) h.runList h.two_le h.schedClass hexpired
  rw [hqueue, toTail_head] at hl
  have hflags : (schedulerTick K s).needResched = Function.update s.needResched s.curr true :=
    congrArg Marks.needResched hmarks
  refine ⟨by rw [hflags, hcurr, Function.update_self], ?_⟩
  obtain ⟨u, hu⟩ : ∃ u, u = Sched.atTime (schedulerTick K s) later := ⟨_, rfl⟩
  rw [← hu]
  have hinv : Inv K u := by
    have hallowed : Enabled s .schedulerTick := trivial
    have htick : execOp K s .schedulerTick = some (schedulerTick K s) := rfl
    rw [hu]
    exact (execOp_spec h.inv hallowed htick).1.atTime later
  have hucurr : u.curr = s.curr := by rw [hu]; exact hcurr
  have huctl : u.ctl = s.ctl := by rw [hu]; exact hctl
  have humarks : u.marks = (schedulerTick K s).marks := by rw [hu]; rfl
  have hlu : RunList u (us ++ [s.curr]) := by rw [hu]; exact hl
  have hmem : u.curr ∈ us ++ [s.curr] := by rw [hucurr]; simp
  have hstate : (u.ctl u.curr).state = 0 := by
    rw [huctl, hucurr]
    exact h.state s.curr h.curr_mem
  obtain ⟨s', hs, hctl', hl', hhead⟩ :=
    schedule_turn hinv hlu hmem hstate fun t ht => by
      rw [huctl] at ht ⊢
      exact h.alone t ht
  rw [hucurr, toTail_last hnd] at hl' hhead
  have hswitch := marks_schedule (hinv.schedClass_of_mem hlu hmem) hstate hs
  have hresched : s'.marks.needResched = s.marks.needResched := by
    have huflags : u.needResched = Function.update s.needResched s.curr true := by
      rw [← hflags]
      exact congrArg Marks.needResched humarks
    have hclear : Function.update s.needResched s.curr false = s.needResched := by
      rw [← h.settled s.curr h.curr_mem, Function.update_eq_self]
    rw [hswitch]
    dsimp only
    rw [huflags, hucurr, Function.update_idem, hclear]
    rfl
  have hwcounts : s'.marks.wcounts = s.marks.wcounts := by rw [hswitch, humarks, hmarks]
  have hslices : s'.marks.timeSlice = Function.update s.marks.timeSlice s.curr
      (rasSlice K.hz (s.task s.curr)) := by rw [hswitch, humarks, hmarks]
  have hperm : ∀ t ∈ us ++ [s.curr], t ∈ w.queue := fun t ht => by
    rw [hqueue]
    simpa [or_comm] using ht
  have hturn : InTurn s' (us ++ [s.curr]) :=
    h.toInTurn.turned (hctl'.trans huctl) hresched hl' hperm (by simp [hqueue]) hhead
  refine ⟨s', hs, ?_⟩
  rw [← h.share]
  exact h.of_slice hturn (hinv.of_schedule hs).1 hperm (hctl'.trans huctl) hwcounts hslices
    (rasSlice_toNat_ne_zero K _)

/-- A timer interrupt is a tick of the round robin, and charges the first task of the queue. -/
theorem Follows.step (h : Follows K share s w) (i : Interrupt τ) :
    w.queue.head? = some s.curr ∧
      ∃ s', timerInterrupt K s i = some s' ∧ Follows K share s' (w.tick share) := by
  refine ⟨h.head, ?_⟩
  obtain ⟨u, hu⟩ : ∃ u, u = Sched.atTime s i.now := ⟨_, rfl⟩
  have hfollow : Follows K share u w := by
    rw [hu]
    exact h.atTime i.now
  have htick : exec K s ⟨i.now, .schedulerTick⟩ = some (schedulerTick K u) := by
    rw [hu]
    exact if_pos trivial
  obtain ⟨us, hqueue⟩ : ∃ us, w.queue = u.curr :: us := List.head?_eq_some_iff.mp hfollow.head
  rw [timerInterrupt, htick, Option.bind_some]
  have hw : w = ⟨u.curr :: us, w.left⟩ := by rw [← hqueue]
  by_cases hleft : w.left u.curr = 1
  · obtain ⟨hmarked, s', hs, hfollow'⟩ := hfollow.tick_last hleft hqueue i.later i.preempt
      i.signalPending i.toWakeup
    refine ⟨s', ?_, ?_⟩
    · rw [if_pos hmarked]
      exact (if_pos trivial).trans hs
    · rw [hw, RoundRobin.tick_of_last hleft]
      exact hfollow'
  · have hmore := hfollow.tick_more hleft
    refine ⟨schedulerTick K u, ?_, ?_⟩
    · rw [if_neg]
      rw [hmore.settled _ hmore.curr_mem]
      decide
    · rw [hw, RoundRobin.tick_of_more hleft, ← hqueue]
      exact hmore

end Turns

/-! ### Rounds -/

/-- The ticks that a task is granted for a turn, by its group and its write count. -/
def quantum (K : Kernel τ Q) (s : Rq τ Q) (t : τ) : ℕ := (rasSlice K.hz (s.task t)).toNat

/-- Start in a reachable state in which only RAS tasks run, with the first of the run list running
and a fresh slice for each, and let timer interrupts happen. In `k` rounds each task is charged `k`
times its quantum, in blocks of its quantum that follow each other in the order of the run list.
After them the run list, the running task and the slices are as they were. -/
theorem weighted_round_robin (h : Reachable (system K) s) (hturn : InTurn s ts)
    (hfresh : ∀ t ∈ ts, (s.task t).ras.timeSlice = rasSlice K.hz (s.task t)) (k : ℕ)
    (is : List (Interrupt τ)) (hlen : is.length = k * (ts.map (quantum K s)).sum) :
    ∃ s', execTrace (timerInterrupt K) Rq.curr s is =
        some (RoundRobin.rounds (quantum K s) ts k, s') ∧
      (∀ t ∈ ts, (RoundRobin.rounds (quantum K s) ts k).count t = k * quantum K s t) ∧
      RunList s' ts ∧ s'.curr = s.curr ∧
      ∀ t, (s'.task t).ras.timeSlice = (s.task t).ras.timeSlice := by
  obtain ⟨share, hquantum⟩ : ∃ share, share = quantum K s := ⟨_, rfl⟩
  rw [← hquantum] at hlen ⊢
  obtain ⟨left, hleft⟩ : ∃ left : τ → ℕ, left = fun t => (s.task t).ras.timeSlice.toNat := ⟨_, rfl⟩
  have hshare : ∀ t ∈ ts, left t = share t := fun t ht => by
    rw [hleft, hquantum, quantum, ← hfresh t ht]
  have hne : ∀ t, share t ≠ 0 := fun t => by
    rw [hquantum]
    exact rasSlice_toNat_ne_zero K _
  have hpos : ∀ t ∈ ts, 1 ≤ share t := fun t _ => Nat.one_le_iff_ne_zero.mpr (hne t)
  have hstart : Follows K share s ⟨ts, left⟩ :=
    { toInTurn := hturn
      inv := reachable_inv h
      left := fun t => by rw [hleft]
      left_ne := fun t ht => ne_of_eq_of_ne (hshare t ht) (hne t)
      share := fun t => by rw [hquantum, quantum] }
  have hstep : ∀ (s : Rq τ Q) (w : RoundRobin.Wheel τ) (b : τ) (w' : RoundRobin.Wheel τ)
      (i : Interrupt τ), Follows K share s w →
      (RoundRobin.system share).step w b w' →
      s.curr = b ∧ ∃ s', timerInterrupt K s i = some s' ∧ Follows K share s' w' := by
    rintro s w b w' i hR ⟨hhead, rfl⟩
    obtain ⟨hcurr, hnext⟩ := hR.step i
    exact ⟨Option.some.inj (hcurr.symm.trans hhead), hnext⟩
  obtain ⟨s', hs', hend⟩ := execTrace_of_run hstep (RoundRobin.run_rounds hshare hpos k) hstart
    (hlen.trans (RoundRobin.length_rounds ..).symm)
  have hnd : ts.Nodup := List.Nodup.of_map some hturn.runList.nodup_tail
  refine ⟨s', hs', fun t ht => RoundRobin.count_rounds share hnd ht k, hend.runList,
    Option.some.inj (hend.head.symm.trans hturn.head), fun t => ?_⟩
  rw [← UInt32.toNat_inj, hend.left t, hstart.left t]

/-- Two RAS tasks, of which the second has written more. -/
def twoShares : List (Op ℕ) :=
  [setschedulerNocheck 1 6 0, .wakeUpNewTask 1, .writeTrace 2 20 1, setschedulerNocheck 2 6 0,
    .wakeUpNewTask 2, reschedule]

/-- A timer interrupt whose context switch preempts. -/
def timerTick : Interrupt ℕ where
  now := 0
  later := 0
  preempt := true
  signalPending := false
  toWakeup := none

theorem weighted_round_robin_twoShares :
    ∃ s s', referenceRun twoShares = some s ∧ quantum (referenceKernel ℕ) s 1 = 15 ∧
      quantum (referenceKernel ℕ) s 2 = 14 ∧
      execTrace (timerInterrupt (referenceKernel ℕ)) Rq.curr s (List.replicate 58 timerTick) =
        some (RoundRobin.rounds (quantum (referenceKernel ℕ) s) [1, 2] 2, s') ∧
      RunList s' [1, 2] ∧ s'.curr = 1 := by
  obtain ⟨s, hs⟩ : ∃ s, s = (referenceRun twoShares).get (by decide +kernel) := ⟨_, rfl⟩
  have hrun : referenceRun twoShares = some s := by simp [hs]
  have hreach := reachable_referenceRun hrun
  have hlist : RunList s [1, 2] :=
    runList_of_chain hreach (by simp only [List.map, chain_cons, chain_nil, hs]; decide +kernel)
  have hcurr : s.curr = 1 := by rw [hs]; decide +kernel
  have hone : quantum (referenceKernel ℕ) s 1 = 15 := by rw [hs]; decide +kernel
  have htwo : quantum (referenceKernel ℕ) s 2 = 14 := by rw [hs]; decide +kernel
  have hclass : ∀ t, (s.task t).onRq = true → (s.task t).schedClass = .ras := by
    -- the two tasks on the run list are all that are queued
    obtain ⟨F, hF, hmem⟩ := (reachable_inv hreach).holds
    have hsub : ([1, 2] : List ℕ).toFinset ⊆ F := fun t ht =>
      ((hF.mem_runList hlist t).mp (List.mem_toFinset.mp ht)).1
    have hcard : F.card ≤ ([1, 2] : List ℕ).toFinset.card := by
      have hnr : s.nrRunning = 2 := by rw [hs]; decide +kernel
      have hF2 : s.nrRunning = F.card := hF.nrRunning
      have h12 : ([1, 2] : List ℕ).toFinset.card = 2 := by decide
      omega
    intro t ht
    have hin : t ∈ ([1, 2] : List ℕ).toFinset := by
      rw [Finset.eq_of_subset_of_card_le hsub hcard]
      exact (hmem t).mpr ht
    exact ((hF.mem_runList hlist t).mp (List.mem_toFinset.mp hin)).2
  have hturn : InTurn s [1, 2] :=
    { runList := hlist
      two_le := le_rfl
      head := by rw [hcurr]; rfl
      state := by rw [hs]; decide +kernel
      settled := by rw [hs]; decide +kernel
      alone := fun t ht => by rw [hclass t ht] }
  obtain ⟨s', hs', -, hl, hc, -⟩ := weighted_round_robin hreach hturn
    (by rw [hs]; decide +kernel) 2 (List.replicate 58 timerTick)
    (by rw [List.length_replicate]; simp [hone, htwo])
  exact ⟨s, s', hrun, hone, htwo, hs', hl, hc.trans hcurr⟩

end OsProject.Sched
