import OsProject.Trace.Session
import OsProject.Sched.Ras
import Mathlib.Data.List.Infix

/-!
# Traces and forks

A fork copies `trace_flag` and `wcounts` of the parent to the child, and `sched_fork` resets
neither. A child of a traced task is therefore refused a session as if it had one, and a child of
a task with a count starts with that count, and with the weight it gives. Otherwise the trace of a
task is its own: it is refused a session only while it has one open, and has no count before its
first one.

## Main definitions

* `History` — the tasks, with what each of them has called.
* `PrivateTraces` — the traces are private to the tasks that opened them.
* `ForksTraced` — a task with a trace forks.

## Main results

* `private_traces_iff` — traces stay private exactly if no task with a trace forks.
-/

namespace OsProject.Trace

open Sched (TaskStruct)

variable {τ : Type*} [DecidableEq τ]

/-- The tasks, and for each whether it has called `sys_start_trace` with success, and whether it
has with no `sys_stop_trace` on it since. -/
structure History (τ : Type*) where
  tasks : Tasks τ
  started : τ → Bool
  opened : τ → Bool

/-- The tasks at the beginning, none of which has called anything. -/
def History.initial (m : Tasks τ) : History τ := ⟨m, fun _ => false, fun _ => false⟩

/-- The call opens a session: `sys_start_trace` returns 0. -/
def Opens (m : Tasks τ) (t : τ) (pid mprotect : ℤ) : Prop :=
  m.Alive t ∧ (sysStartTrace m t pid mprotect).1 = 0

instance (m : Tasks τ) (t : τ) (pid mprotect : ℤ) : Decidable (Opens m t pid mprotect) :=
  inferInstanceAs (Decidable (_ ∧ _))

/-- A step, and what it adds to the history. The child of a fork has called nothing. -/
def History.exec (h : History τ) (a : Event τ) : History τ :=
  let tasks := Trace.exec h.tasks a
  match a with
  | .startTrace t pid mprotect =>
    if Opens h.tasks t pid mprotect then
      ⟨tasks, Function.update h.started t true, Function.update h.opened t true⟩
    else ⟨tasks, h.started, h.opened⟩
  | .stopTrace pid =>
    match h.tasks.pidTask pid with
    | none => ⟨tasks, h.started, h.opened⟩
    | some t => ⟨tasks, h.started, Function.update h.opened t false⟩
  | .fork t child childPid =>
    if Forks h.tasks t child childPid then
      ⟨tasks, Function.update h.started child false, Function.update h.opened child false⟩
    else ⟨tasks, h.started, h.opened⟩
  | _ => ⟨tasks, h.started, h.opened⟩

/-- The history after a sequence of steps. -/
def History.run (h : History τ) (as : List (Event τ)) : History τ := as.foldl History.exec h

theorem History.run_concat (h : History τ) (as : List (Event τ)) (a : Event τ) :
    h.run (as ++ [a]) = (h.run as).exec a := by
  rw [History.run, List.foldl_concat, History.run]

/-- No count is set from outside, and `mprotect_s` does not fail. -/
def Undisturbed : Event τ → Prop
  | .startTrace _ _ mprotect => 0 ≤ mprotect
  | .setWcounts _ _ => False
  | _ => True

/-- A task is refused a session only while it has one open, and a task that never had one has no
count, and the full weight. -/
def PrivateTraces (h : History τ) : Prop :=
  ∀ t, h.tasks.Alive t →
    (∀ pid mprotect, (sysStartTrace h.tasks t pid mprotect).1 = -einval → h.opened t = true) ∧
      (h.started t = false →
        (h.tasks.task t).wcounts = 0 ∧ Sched.calcRasWeight (h.tasks.task t) = 10)

/-- A task forks while it is traced or has a count. -/
def ForksTraced (m : Tasks τ) (a : Event τ) : Prop :=
  ∃ t child childPid, a = .fork t child childPid ∧ Forks m t child childPid ∧
    ((m.task t).traceFlag = 1 ∨ (m.task t).wcounts ≠ 0)

/-! ### The invariant -/

/-- What the fields of a task say about its history. -/
structure HistoryOk (t : TaskStruct) (started opened : Bool) : Prop where
  opened_of_flag : t.traceFlag = 1 → opened = true
  started_of_opened : opened = true → started = true
  wcounts : started = false → t.wcounts = 0

theorem calcRasWeight_of_wcounts_zero {t : TaskStruct} (h : t.wcounts = 0) :
    Sched.calcRasWeight t = 10 := by
  rw [Sched.calcRasWeight, h]
  rfl

/-- The fields of every task agree with its history. -/
def Inv (h : History τ) : Prop :=
  ∀ t, h.tasks.Alive t → HistoryOk (h.tasks.task t) (h.started t) (h.opened t)

omit [DecidableEq τ] in
theorem inv_initial {m : Tasks τ} (hm : Untraced m) : Inv (History.initial m) := fun t _ =>
  ⟨fun hf => absurd ((hm t).1.symm.trans hf) (by decide),
    by simp [History.initial], fun _ => (hm t).2⟩

/-- A task that is refused a session has its flag set. -/
theorem traceFlag_of_refused {m : Tasks τ} {t : τ} (ht : m.Alive t) {pid mprotect : ℤ}
    (h : (sysStartTrace m t pid mprotect).1 = -einval) : (m.task t).traceFlag = 1 := by
  by_cases hn : pid = m.pid t
  · rw [hn, sysStartTrace_self ht] at h
    split at h
    · assumption
    · dsimp only at h
      split at h <;> exact absurd h (by decide)
  · rw [sysStartTrace_of_ne hn] at h
    exact absurd (show (-1 : ℤ) = -einval from h) (by decide)

theorem Inv.privateTraces {h : History τ} (hi : Inv h) : PrivateTraces h := fun t ht =>
  ⟨fun _ _ hr => (hi t ht).opened_of_flag (traceFlag_of_refused ht hr),
    fun hs => ⟨(hi t ht).wcounts hs, calcRasWeight_of_wcounts_zero ((hi t ht).wcounts hs)⟩⟩

section Step

variable {h : History τ} {t : τ}

/-- A step that is neither a start, a stop nor a fork adds nothing to the history. -/
theorem Inv.fault (hi : Inv h) (current : τ) (i : Invocation) :
    Inv (h.exec (.fault current i)) := by
  intro t ht
  simp only [History.exec, exec] at ht ⊢
  split at ht
  · next hcurr =>
    rw [if_pos hcurr]
    have hok := hi t ht
    by_cases hct : t = current
    · subst hct
      rw [Tasks.modify_task_self, doPageFault_snd]
      split
      · refine ⟨fun hf => hok.opened_of_flag (by rwa [countWrite_traceFlag] at hf),
          hok.started_of_opened, fun hs => ?_⟩
        -- a task that never had a session is not traced
        rw [countWrite, if_neg]
        · exact hok.wcounts hs
        · intro hf
          rw [hok.started_of_opened (hok.opened_of_flag hf)] at hs
          cases hs
      · exact hok
    · rwa [Tasks.modify_task_of_ne _ _ hct]
  · next hcurr =>
    rw [if_neg hcurr]
    exact hi t ht

theorem Inv.startTrace (hi : Inv h) (current : τ) {pid mprotect : ℤ} (hm : 0 ≤ mprotect) :
    Inv (h.exec (.startTrace current pid mprotect)) := by
  by_cases hcurr : h.tasks.Alive current
  · by_cases hn : pid = h.tasks.pid current
    · subst hn
      by_cases hf : (h.tasks.task current).traceFlag = 1
      · have hsys : sysStartTrace h.tasks current (h.tasks.pid current) mprotect =
            (-einval, h.tasks) := by rw [sysStartTrace_self hcurr, if_pos hf]
        have hno : ¬Opens h.tasks current (h.tasks.pid current) mprotect := fun ho => by
          rw [Opens, hsys] at ho
          exact absurd (show -einval = 0 from ho.2) (by decide)
        simpa only [History.exec, exec, if_pos hcurr, if_neg hno, hsys] using hi
      · have hsys : sysStartTrace h.tasks current (h.tasks.pid current) mprotect =
            (0, h.tasks.modify current startedTask) := by
          rw [sysStartTrace_self hcurr, if_neg hf, if_neg (by omega)]
        have hyes : Opens h.tasks current (h.tasks.pid current) mprotect := ⟨hcurr, by rw [hsys]⟩
        simp only [History.exec, exec, if_pos hcurr, if_pos hyes, hsys]
        intro t ht
        by_cases hct : t = current
        · subst hct
          simp only [Tasks.modify_task_self, Function.update_self]
          exact ⟨fun _ => rfl, fun _ => rfl, by simp⟩
        · simp only [Tasks.modify_task_of_ne _ _ hct, Function.update_of_ne hct]
          exact hi t ht
    · have hno : ¬Opens h.tasks current pid mprotect := fun ho => by
        rw [Opens, sysStartTrace_of_ne hn] at ho
        exact absurd (show (-1 : ℤ) = 0 from ho.2) (by decide)
      simpa only [History.exec, exec, if_pos hcurr, if_neg hno, sysStartTrace_of_ne hn] using hi
  · have hno : ¬Opens h.tasks current pid mprotect := fun ho => hcurr ho.1
    simpa only [History.exec, exec, if_neg hcurr, if_neg hno] using hi

theorem Inv.stopTrace (hi : Inv h) (pid : ℤ) : Inv (h.exec (.stopTrace pid)) := by
  cases hfind : h.tasks.pidTask pid with
  | none => simpa only [History.exec, exec, sysStopTrace, hfind] using hi
  | some u =>
    intro t ht
    simp only [History.exec, exec, hfind] at ht ⊢
    by_cases htu : t = u
    · subst htu
      have hpid := h.tasks.pid_eq pid t hfind
      have hal : h.tasks.Alive t := by rw [Tasks.Alive, hpid, hfind]
      have hok := hi t hal
      rw [← hpid, sysStopTrace_self hal, Function.update_self]
      split
      · next hf =>
        exact ⟨fun h1 => absurd (hf.symm.trans h1) (by decide), by simp, hok.wcounts⟩
      · simp only [Tasks.modify_task_self]
        exact ⟨by simp [stoppedTask], by simp, hok.wcounts⟩
    · have hne : pid ≠ h.tasks.pid t := by
        intro hn
        have hal : h.tasks.Alive t := by
          simp only [sysStopTrace, hfind] at ht
          split at ht <;> exact ht
        exact htu (Option.some.inj (hal.symm.trans (by rw [← hn, hfind])))
      rw [sysStopTrace_task_of_ne hne, Function.update_of_ne htu]
      refine hi t ?_
      simp only [sysStopTrace, hfind] at ht
      split at ht <;> exact ht

/-- The child of a fork. -/
theorem exec_fork {m : Tasks τ} {child : τ} {childPid : ℤ} (hf : Forks m t child childPid) :
    exec m (.fork t child childPid) = m.fork t child childPid hf.2.1 := by
  rw [exec, dif_pos hf]

theorem Inv.fork (hi : Inv h) {child : τ} {childPid : ℤ}
    (hok : ¬ForksTraced h.tasks (.fork t child childPid)) :
    Inv (h.exec (.fork t child childPid)) := by
  by_cases hf : Forks h.tasks t child childPid
  · simp only [History.exec, if_pos hf, exec_fork hf]
    intro u hu
    by_cases huc : u = child
    · subst huc
      have hpar : (h.tasks.task t).traceFlag ≠ 1 ∧ (h.tasks.task t).wcounts = 0 := by
        by_contra hno
        exact hok ⟨t, u, childPid, rfl, hf, by tauto⟩
      simp only [Tasks.fork, Function.update_self]
      exact ⟨fun h1 => absurd h1 hpar.1, by simp, fun _ => hpar.2⟩
    · have hal : h.tasks.Alive u := by
        have hu' : Function.update h.tasks.pidTask childPid (some child) (h.tasks.pid u) =
            some u := by
          simpa only [Tasks.Alive, Tasks.fork, Function.update_of_ne huc] using hu
        by_cases hp : h.tasks.pid u = childPid
        · rw [hp, Function.update_self] at hu'
          exact absurd (Option.some.inj hu').symm huc
        · rwa [Function.update_of_ne hp] at hu'
      simp only [Tasks.fork, Function.update_of_ne huc]
      exact hi u hal
  · have hsame : Trace.exec h.tasks (.fork t child childPid) = h.tasks := by
      rw [exec, dif_neg hf]
    simpa only [History.exec, if_neg hf, hsame] using hi

/-- A step keeps the invariant, unless a task with a trace forks. -/
theorem Inv.exec (hi : Inv h) {a : Event τ} (ha : Undisturbed a)
    (hok : ¬ForksTraced h.tasks a) : Inv (h.exec a) := by
  cases a with
  | startTrace current pid mprotect => exact hi.startTrace current ha
  | fault current i => exact hi.fault current i
  | fork t child childPid => exact hi.fork hok
  | stopTrace pid => exact hi.stopTrace pid
  | getTrace pid putUser => exact hi
  | setWcounts pid wcounts => exact ha.elim

/-- After the fork of a task with a trace, the trace of the child is not its own. -/
theorem ForksTraced.exec_not_private {a : Event τ} (hf : ForksTraced h.tasks a) :
    ¬PrivateTraces (h.exec a) := by
  obtain ⟨t, child, childPid, rfl, hforks, htraced⟩ := hf
  intro hp
  have hal : (h.exec (.fork t child childPid)).tasks.Alive child := by
    simp [History.exec, if_pos hforks, exec_fork hforks, Tasks.Alive, Tasks.fork]
  obtain ⟨hrefused, hcount⟩ := hp child hal
  have htask : (h.exec (.fork t child childPid)).tasks.task child =
      forkedTask (h.tasks.task t) := by
    simp [History.exec, if_pos hforks, exec_fork hforks, Tasks.fork]
  rcases htraced with hflag | hw
  · have hopened := hrefused _ 0 (by
      rw [sysStartTrace_self hal, htask, if_pos (show (forkedTask _).traceFlag = 1 from hflag)])
    simp [History.exec, if_pos hforks] at hopened
  · have hzero := (hcount (by simp [History.exec, if_pos hforks])).1
    rw [htask] at hzero
    exact hw hzero

end Step

/-! ### Runs -/

theorem inv_run {m : Tasks τ} (hm : Untraced m) {as : List (Event τ)}
    (has : ∀ a ∈ as, Undisturbed a)
    (hok : ∀ bs a, bs ++ [a] <+: as → ¬ForksTraced ((History.initial m).run bs).tasks a) :
    Inv ((History.initial m).run as) := by
  induction as using List.reverseRecOn with
  | nil => exact inv_initial hm
  | append_singleton as a ih =>
    have hpre : as <+: as ++ [a] := List.prefix_append as [a]
    rw [History.run_concat]
    exact (ih (fun b hb => has b (List.mem_append_left _ hb))
      fun bs b hb => hok bs b (hb.trans hpre)).exec (has a (by simp)) (hok as a List.prefix_rfl)

/-- For every sequence of starts, stops, faults and forks, the traces are private at every point if
and only if no task forks while it is traced or has a count. -/
theorem private_traces_iff {m : Tasks τ} (hm : Untraced m) {as : List (Event τ)}
    (has : ∀ a ∈ as, Undisturbed a) :
    (∀ bs, bs <+: as → PrivateTraces ((History.initial m).run bs)) ↔
      ∀ bs a, bs ++ [a] <+: as → ¬ForksTraced ((History.initial m).run bs).tasks a := by
  constructor
  · intro h bs a hpre hf
    have hp := h _ hpre
    rw [History.run_concat] at hp
    exact hf.exec_not_private hp
  · intro h bs hpre
    exact (inv_run hm (fun a ha => has a (hpre.subset ha))
      fun cs a hcs => h cs a (hcs.trans hpre)).privateTraces

/-- A traced task forks, and the child asks for a session of its own. -/
def forkWhileTraced : List (Event ℕ) := [.startTrace 1 1 0, .fork 1 3 3, .startTrace 3 3 0]

theorem private_traces_iff_forkWhileTraced :
    (∀ bs, bs <+: forkWhileTraced → PrivateTraces ((History.initial twoTasks).run bs)) ↔
      ∀ bs a, bs ++ [a] <+: forkWhileTraced →
        ¬ForksTraced ((History.initial twoTasks).run bs).tasks a :=
  private_traces_iff (fun _ => ⟨rfl, rfl⟩) (by simp [forkWhileTraced, Undisturbed])

/-- The child is refused its first session. -/
theorem not_private_traces :
    ¬ ∀ (m : Tasks ℕ) (as : List (Event ℕ)), Untraced m → (∀ a ∈ as, Undisturbed a) →
      ∀ bs, bs <+: as → PrivateTraces ((History.initial m).run bs) := by
  intro h
  have hp := h twoTasks [.startTrace 1 1 0, .fork 1 3 3] (fun _ => ⟨rfl, rfl⟩)
    (by simp [Undisturbed]) _ List.prefix_rfl 3 (by decide)
  have hopened := hp.1 3 0 (by decide)
  exact absurd hopened (by decide)

end OsProject.Trace
