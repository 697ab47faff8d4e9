import OsProject.Sched.Invariant
import OsProject.Sched.Reference

/-!
# The fast path of `pick_next_task`

`pick_next_task` asks the fair class at once when `nr_running` equals the number of fair tasks. The
counters agree only when every queued task is fair. The loop over the classes then finds the stop,
real-time and RAS classes empty and comes to the fair class as well, with the same queue; when no
task is queued, both ways end at the idle task.

## Main results

* `Holds.pickNextTask_eq_pickFrom` — the fast path and the loop give the same task.
* `fast_path_agrees` — in every reachable state, and at every call in a context switch.
-/

namespace OsProject.Sched

open Transition

variable {τ Q : Type*} [DecidableEq τ] {K : Kernel τ Q} {s : Rq τ Q} {F : Finset τ}

/-- `pick_next_task` of the stop class changes nothing when no stopper thread is queued. -/
def StopPickPure (K : Kernel τ Q) : Prop :=
  ∀ v q, (K.pickNextTask .stop v q).1 = none → (K.pickNextTask .stop v q).2 = q

/-- A class without queued tasks gives none. -/
theorem Holds.classPickNextTask_none (h : Holds K s F) {c : SchedClass} (hidle : c ≠ .idle)
    (hc : ∀ t ∈ F, (s.ctl t).schedClass ≠ c) : (classPickNextTask K s c).1 = .none := by
  rcases classPickNextTask_spec h c with ⟨hnone, -, -⟩ | ⟨p, -, hpick⟩
  · exact hnone
  · rcases hpick.mem with ⟨he, -⟩ | ⟨hp, hcp⟩
    · exact absurd he hidle
    · exact absurd hcp (hc p hp)

/-- The classes before the fair class leave the run queue as it is when they give no task. -/
theorem classPickNextTask_eq_self (hstop : StopPickPure K) {c : SchedClass}
    (hc : c.rank < SchedClass.fair.rank) (h : (classPickNextTask K s c).1 = .none) :
    (classPickNextTask K s c).2 = s := by
  cases c with
  | stop =>
    rcases hpick : K.pickNextTask .stop s.view s.cfs.data with ⟨_ | p, d⟩
    · have hd : d = s.cfs.data := by
        have := hstop s.view s.cfs.data (by rw [hpick])
        rwa [hpick] at this
      simp only [classPickNextTask, hpick, hd, Rq.setData]
    · simp [classPickNextTask, hpick] at h
  | rt =>
    simp only [classPickNextTask, pickNextTaskRt] at h ⊢
    split_ifs at h ⊢
    · rfl
    · rfl
    · split at h <;> cases h
  | ras =>
    simp only [classPickNextTask, pickNextTaskRas] at h ⊢
    split_ifs at h ⊢
    · rfl
    · split at h <;> cases h
  | fair | idle => exact absurd hc (by decide)

/-- When only fair tasks are queued, the loop over the classes comes down to the last two. -/
theorem Holds.pickFrom_of_fair (hstop : StopPickPure K) (h : Holds K s F)
    (hfair : ∀ t ∈ F, (s.ctl t).schedClass = .fair) :
    pickFrom K s forEachClass = pickFrom K s [.fair, .idle] := by
  have hpass : ∀ c cs, c.rank < SchedClass.fair.rank → pickFrom K s (c :: cs) = pickFrom K s cs := by
    intro c cs hc
    have hnone : (classPickNextTask K s c).1 = .none := by
      refine h.classPickNextTask_none ?_ fun t ht he => ?_
      · rintro rfl
        exact absurd hc (by decide)
      · rw [← he, hfair t ht] at hc
        exact absurd hc (lt_irrefl _)
    rw [pickFrom_cons_none hnone, classPickNextTask_eq_self hstop hc hnone]
  rw [forEachClass_eq, hpass .stop _ (by decide), hpass .rt _ (by decide), hpass .ras _ (by decide)]

/-- Without queued tasks the loop over the classes gives the idle task. -/
theorem Holds.pickFrom_of_empty (h : Holds K s ∅) :
    (pickFrom K s forEachClass).1 = .task s.idle := by
  obtain ⟨c, p, hp, hpick, -⟩ := pickFrom_forEachClass_spec h
  rcases hpick.mem with ⟨-, he⟩ | ⟨hmem, -⟩
  · rw [hp, he]
  · exact absurd hmem (Finset.notMem_empty p)

/-- `pick_next_task` gives the task that the loop over the classes would. -/
theorem Holds.pickNextTask_eq_pickFrom (hstop : StopPickPure K) (h : Holds K s F) :
    (pickNextTask K s).1 = (pickFrom K s forEachClass).1 := by
  by_cases hfast : s.nrRunning = s.cfs.hNrRunning
  · have hfair := h.schedClass_eq_fair hfast
    rcases classPickNextTask_spec h .fair with ⟨hnone, -, hex⟩ | ⟨p, hp, -⟩
    · -- no fair task is queued, so none is queued at all
      have hempty : F = ∅ := Finset.eq_empty_of_forall_notMem fun t ht =>
        absurd (hex t ht (hfair t ht)).1 (by decide)
      subst hempty
      have hacc : Accounts K s (classPickNextTask K s .fair).2 := accounts_classPickNextTask
      rw [pickNextTask_fast_none hfast hnone, (hacc.holds h).pickFrom_of_empty,
        h.pickFrom_of_empty, hacc.idle]
    · rw [pickNextTask_fast_task hfast hp, h.pickFrom_of_fair hstop hfair, pickFrom_cons_task hp]
  · rw [pickNextTask, if_neg hfast]

/-- The fast path and the loop agree in a state: they give the same task, whether the fast path is
taken or not, and it is not taken while a RAS task is queued. -/
structure FastPathAgrees (K : Kernel τ Q) (s : Rq τ Q) : Prop where
  pick : (pickNextTask K s).1 = (pickFrom K s forEachClass).1
  shortcut : s.nrRunning = s.cfs.hNrRunning → ∀ p, (classPickNextTask K s .fair).1 = .task p →
    (pickNextTask K s).1 = .task p ∧ (pickFrom K s forEachClass).1 = .task p
  is_task : ∃ p, (pickNextTask K s).1 = .task p
  no_ras : s.nrRunning = s.cfs.hNrRunning → s.ras.rasNrRunning = 0 ∧
    ∀ t, (s.task t).onRq = true → (s.task t).schedClass ≠ .ras

theorem Holds.fastPathAgrees (hstop : StopPickPure K) (h : Holds K s F)
    (hmem : ∀ t, t ∈ F ↔ (s.ctl t).onRq = true) : FastPathAgrees K s where
  pick := h.pickNextTask_eq_pickFrom hstop
  shortcut hfast p hp := by
    have hpick : (pickNextTask K s).1 = .task p := by rw [pickNextTask_fast_task hfast hp, hp]
    exact ⟨hpick, (h.pickNextTask_eq_pickFrom hstop).symm.trans hpick⟩
  is_task := by
    obtain ⟨c, p, hp, -, -⟩ := pickNextTask_spec h
    exact ⟨p, hp⟩
  no_ras hfast := by
    have hfair := h.schedClass_eq_fair hfast
    have hnot : ∀ t ∈ F, (s.ctl t).schedClass ≠ .ras := fun t ht hc => by
      rw [hfair t ht] at hc
      cases hc
    refine ⟨?_, fun t ht => hnot t ((hmem t).mpr ht)⟩
    obtain ⟨l, -, hl, hn⟩ := h.ras
    cases l with
    | nil => exact hn
    | cons t l =>
      have ht := mem_inClass.mp ((hl t).mp (List.mem_cons_self ..))
      exact absurd ht.2 (hnot t ht.1)

/-- In every reachable state, and in every state in which a context switch from it picks the next
task, the fast path of `pick_next_task` agrees with the loop over the classes. -/
theorem fast_path_agrees (hstop : StopPickPure K) (h : Reachable (system K) s)
    (preempt signalPending : Bool) (toWakeup : Option τ) :
    FastPathAgrees K s ∧
      FastPathAgrees K (putPrevTask K (schedulePrev K s preempt signalPending toWakeup) s.curr) := by
  have hinv := reachable_inv h
  obtain ⟨F, hF, hmem⟩ := hinv.holds
  obtain ⟨F', hF', hmem'⟩ :=
    ((hinv.prevDone preempt signalPending toWakeup).keeps keeps_putPrevTask).holds
  exact ⟨hF.fastPathAgrees hstop hmem, hF'.fastPathAgrees hstop hmem'⟩

theorem stopPickPure_referenceKernel : StopPickPure (referenceKernel ℕ) := fun _ _ _ => rfl

/-- A fair task runs, and another one and a RAS task have been woken. -/
def mixedArrivals : List (Op ℕ) :=
  [.wakeUpNewTask 1, reschedule, .wakeUpNewTask 2, setschedulerNocheck 3 6 0, .wakeUpNewTask 3]

theorem fast_path_agrees_mixedArrivals :
    ∃ s, referenceRun mixedArrivals = some s ∧ s.nrRunning = 3 ∧ s.cfs.hNrRunning = 2 ∧
      FastPathAgrees (referenceKernel ℕ) s ∧
      FastPathAgrees (referenceKernel ℕ)
        (putPrevTask (referenceKernel ℕ) (schedulePrev (referenceKernel ℕ) s true false none)
          s.curr) :=
  ⟨(referenceRun mixedArrivals).get (by decide +kernel), by simp, by decide +kernel,
    by decide +kernel,
    fast_path_agrees stopPickPure_referenceKernel
      (reachable_referenceRun (show referenceRun mixedArrivals = some _ by simp)) true false none⟩

end OsProject.Sched
