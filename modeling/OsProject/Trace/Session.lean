import OsProject.Trace.Syscalls

/-!
# Trace sessions

What the page trace is for: a task opens a session by `sys_start_trace`, anyone closes it by
`sys_stop_trace`, and while it is open the writes of the task to areas without write permission are
counted. A `Session` is that and nothing else. As long as no task forks, none sets a count and
`mprotect_s` does not fail, the fields `trace_flag` and `wcounts` of every task are a picture of its
session, whatever the other tasks do, and the system calls answer by it.

## Main definitions

* `Session`, `Session.step`, `sessionOf` — the session of a task, and how the steps change it.
* `Plain` — the steps in which sessions are kept apart.
* `SessionsExact` — the system calls answer by the sessions.

## Main results

* `Pictures.exec` — a step keeps the picture.
* `trace_sessions_exact` — the calls answer by the sessions in every run.
-/

namespace OsProject.Trace

open Sched (TaskStruct)

variable {τ : Type*} [DecidableEq τ]

/-! ### Sessions -/

/-- The session of a task: whether it is open, and the writes counted since it was opened. -/
structure Session where
  isOpen : Bool := false
  count : ℕ := 0

/-- The effect of a step on the session of the task `t` with process id `pid`. A session that is
open is not opened again, and one that is closed keeps its count. -/
def Session.step (t : τ) (pid : ℤ) (s : Session) : Event τ → Session
  | .startTrace current n _ =>
    if current = t ∧ n = pid ∧ s.isOpen = false then { isOpen := true, count := 0 } else s
  | .stopTrace n => if n = pid then { s with isOpen := false } else s
  | .fault current i =>
    if current = t ∧ s.isOpen ∧ i.writeViolation then { s with count := s.count + 1 } else s
  | .getTrace _ _ => s
  | .setWcounts _ _ => s
  | .fork _ _ _ => s

/-- The session of a task after a sequence of steps. -/
def sessionOf (t : τ) (pid : ℤ) (as : List (Event τ)) : Session := as.foldl (Session.step t pid) {}

theorem sessionOf_concat (t : τ) (pid : ℤ) (as : List (Event τ)) (a : Event τ) :
    sessionOf t pid (as ++ [a]) = (sessionOf t pid as).step t pid a := by
  rw [sessionOf, List.foldl_concat, sessionOf]

/-- No fork, no count set from outside, and no failure of `mprotect_s`. -/
def Plain : Event τ → Prop
  | .startTrace _ _ mprotect => 0 ≤ mprotect
  | .fork _ _ _ => False
  | .setWcounts _ _ => False
  | _ => True

/-! ### Steps of other tasks -/

/-- A call or fault of the task `t`, or a call that names its process id `pid` and writes to it. -/
def Event.Concerns (t : τ) (pid : ℤ) : Event τ → Prop
  | .startTrace current _ _ => current = t
  | .fault current _ => current = t
  | .fork current _ _ => current = t
  | .stopTrace n => n = pid
  | .setWcounts n _ => n = pid
  | .getTrace _ _ => False

section Others

variable {m : Tasks τ} {t : τ} {a : Event τ}

/-- A call of `sys_start_trace` writes to the caller only. -/
theorem sysStartTrace_task_of_ne {current : τ} {n mprotect : ℤ} (hcurr : m.Alive current)
    (h : current ≠ t) : (sysStartTrace m current n mprotect).2.task t = m.task t := by
  by_cases hn : n = m.pid current
  · rw [hn, sysStartTrace_self hcurr]
    split
    · rfl
    · exact m.modify_task_of_ne _ h.symm
  · rw [sysStartTrace_of_ne hn]

/-- A step that does not concern a task leaves it as it is. -/
theorem exec_task_of_not_concerns (ha : Plain a) (h : ¬a.Concerns t (m.pid t)) :
    (exec m a).task t = m.task t := by
  cases a with
  | startTrace current n mprotect =>
    rw [exec]
    split
    · next hcurr => exact sysStartTrace_task_of_ne hcurr h
    · rfl
  | stopTrace n => exact sysStopTrace_task_of_ne h
  | fault current i =>
    rw [exec]
    split
    · exact m.modify_task_of_ne _ (Ne.symm h)
    · rfl
  | getTrace n putUser => rfl
  | setWcounts n wcounts => exact ha.elim
  | fork current child childPid => exact ha.elim

theorem Session.step_of_not_concerns {s : Session} {pid : ℤ} (h : ¬a.Concerns t pid) :
    s.step t pid a = s := by
  cases a with
  | startTrace current n mprotect => exact if_neg fun hc => h hc.1
  | stopTrace n => exact if_neg h
  | fault current i => exact if_neg fun hc => h hc.1
  | getTrace n putUser => rfl
  | setWcounts n wcounts => rfl
  | fork current child childPid => rfl

end Others

/-! ### The fields of a task picture its session -/

/-- The fields `trace_flag` and `wcounts` for a session. -/
structure Pictures (t : TaskStruct) (s : Session) : Prop where
  traceFlag : t.traceFlag = if s.isOpen then 1 else 0
  wcounts : t.wcounts = UInt32.ofNat s.count

namespace Pictures

variable {m : Tasks τ} {t : τ} {u : TaskStruct} {s : Session}

theorem traceFlag_eq_one_iff (h : Pictures u s) : u.traceFlag = 1 ↔ s.isOpen = true := by
  rw [h.traceFlag]
  cases s.isOpen <;> simp

theorem traceFlag_eq_zero_iff (h : Pictures u s) : u.traceFlag = 0 ↔ s.isOpen = false := by
  rw [h.traceFlag]
  cases s.isOpen <;> simp

theorem untraced (h : u.traceFlag = 0 ∧ u.wcounts = 0) : Pictures u {} := ⟨h.1, h.2⟩

theorem started (u : TaskStruct) : Pictures (startedTask u) { isOpen := true, count := 0 } :=
  ⟨rfl, rfl⟩

theorem stopped (h : Pictures u s) : Pictures (stoppedTask u) { s with isOpen := false } :=
  ⟨rfl, h.wcounts⟩

/-- A counted write. -/
theorem countWrite (h : Pictures u s) (hopen : s.isOpen = true) :
    Pictures (countWrite u) { s with count := s.count + 1 } := by
  have hflag := h.traceFlag_eq_one_iff.mpr hopen
  refine ⟨by rw [countWrite_traceFlag, h.traceFlag], ?_⟩
  rw [countWrite_wcounts hflag, h.wcounts, UInt32.ofNat_add]
  rfl

/-- A write that is not counted, as no session is open. -/
theorem countWrite_closed (h : Pictures u s) (hclosed : s.isOpen = false) :
    Trace.countWrite u = u := by
  rw [Trace.countWrite, if_neg]
  rw [h.traceFlag_eq_zero_iff.mpr hclosed]
  decide

/-- The task calls `sys_start_trace`, and opens its session unless it is open. -/
theorem startTrace (h : Pictures (m.task t) s) (ht : m.Alive t) (n mprotect : ℤ) :
    Pictures ((exec m (.startTrace t n mprotect)).task t)
      (s.step t (m.pid t) (.startTrace t n mprotect)) := by
  simp only [exec, if_pos ht, Session.step, true_and]
  by_cases hn : n = m.pid t
  · rw [hn, sysStartTrace_self ht]
    by_cases hopen : s.isOpen = true
    · rw [if_pos (h.traceFlag_eq_one_iff.mpr hopen), if_neg fun hc => by simp [hopen] at hc]
      exact h
    · have hown : m.pid t = m.pid t ∧ s.isOpen = false := ⟨rfl, Bool.eq_false_iff.mpr hopen⟩
      rw [if_neg fun hf => hopen (h.traceFlag_eq_one_iff.mp hf), if_pos hown,
        Tasks.modify_task_self]
      exact .started _
  · rw [sysStartTrace_of_ne hn, if_neg fun hc => hn hc.1]
    exact h

/-- The session of the task is closed, if it is open. -/
theorem stopTrace (h : Pictures (m.task t) s) (ht : m.Alive t) :
    Pictures ((exec m (.stopTrace (m.pid t))).task t)
      (s.step t (m.pid t) (.stopTrace (m.pid t))) := by
  simp only [exec, Session.step, if_true, sysStopTrace_self ht]
  split
  · next hflag =>
    have hclosed := h.traceFlag_eq_zero_iff.mp hflag
    rw [← hclosed]
    exact h
  · rw [Tasks.modify_task_self]
    exact h.stopped

/-- The task takes a fault, which is counted while its session is open. -/
theorem fault (h : Pictures (m.task t) s) (ht : m.Alive t) (i : Invocation) :
    Pictures ((exec m (.fault t i)).task t) (s.step t (m.pid t) (.fault t i)) := by
  simp only [exec, if_pos ht, Session.step, true_and, Tasks.modify_task_self, doPageFault_snd]
  by_cases hv : i.writeViolation = true
  · rw [if_pos hv]
    by_cases hopen : s.isOpen = true
    · rw [if_pos ⟨hopen, hv⟩]
      exact h.countWrite hopen
    · rw [if_neg fun hc => hopen hc.1, h.countWrite_closed (Bool.eq_false_iff.mpr hopen)]
      exact h
  · rw [if_neg hv, if_neg fun hc => hv hc.2]
    exact h

/-- A step keeps the picture of the session of every task. -/
theorem exec (h : Pictures (m.task t) s) (ht : m.Alive t) {a : Event τ} (ha : Plain a) :
    Pictures ((Trace.exec m a).task t) (s.step t (m.pid t) a) := by
  by_cases hc : a.Concerns t (m.pid t)
  · cases a with
    | startTrace current n mprotect =>
      obtain rfl : current = t := hc
      exact h.startTrace ht n mprotect
    | stopTrace n =>
      obtain rfl : n = m.pid t := hc
      exact h.stopTrace ht
    | fault current i =>
      obtain rfl : current = t := hc
      exact h.fault ht i
    | getTrace n putUser => exact hc.elim
    | setWcounts n wcounts => exact ha.elim
    | fork current child childPid => exact ha.elim
  · rw [exec_task_of_not_concerns ha hc, Session.step_of_not_concerns hc]
    exact h

end Pictures

/-- Steps other than forks leave the process ids as they are. -/
theorem exec_pid {m : Tasks τ} {a : Event τ} (ha : Plain a) :
    (exec m a).pid = m.pid ∧ (exec m a).pidTask = m.pidTask := by
  cases a with
  | startTrace current n mprotect =>
    simp only [exec, sysStartTrace]
    split
    · split
      · exact ⟨rfl, rfl⟩
      · split_ifs <;> exact ⟨rfl, rfl⟩
    · exact ⟨rfl, rfl⟩
  | stopTrace n =>
    simp only [exec, sysStopTrace]
    split
    · exact ⟨rfl, rfl⟩
    · split_ifs <;> exact ⟨rfl, rfl⟩
  | fault current i =>
    simp only [exec]
    split <;> exact ⟨rfl, rfl⟩
  | getTrace n putUser => exact ⟨rfl, rfl⟩
  | setWcounts n wcounts => exact ha.elim
  | fork current child childPid => exact ha.elim

/-! ### Runs -/

section Runs

variable {m : Tasks τ} {as : List (Event τ)}

theorem run_pid (has : ∀ a ∈ as, Plain a) :
    (run m as).pid = m.pid ∧ (run m as).pidTask = m.pidTask := by
  induction as using List.reverseRecOn with
  | nil => exact ⟨rfl, rfl⟩
  | append_singleton as a ih =>
    obtain ⟨hpid, hfind⟩ := ih fun b hb => has b (List.mem_append_left _ hb)
    obtain ⟨hpid', hfind'⟩ := exec_pid (m := run m as) (has a (by simp))
    rw [run_concat]
    exact ⟨hpid'.trans hpid, hfind'.trans hfind⟩

theorem run_alive_iff (has : ∀ a ∈ as, Plain a) {t : τ} : (run m as).Alive t ↔ m.Alive t := by
  obtain ⟨hpid, hfind⟩ := run_pid (m := m) has
  rw [Tasks.Alive, hpid, hfind, Tasks.Alive]

/-- In a run from tasks without traces the fields of every task picture its session. -/
theorem pictures_run (hm : Untraced m) (has : ∀ a ∈ as, Plain a) {t : τ} (ht : m.Alive t) :
    Pictures ((run m as).task t) (sessionOf t (m.pid t) as) := by
  induction as using List.reverseRecOn with
  | nil => exact .untraced (hm t)
  | append_singleton as a ih =>
    have has' : ∀ b ∈ as, Plain b := fun b hb => has b (List.mem_append_left _ hb)
    rw [run_concat, sessionOf_concat, ← (run_pid (m := m) has').1]
    refine Pictures.exec ?_ ((run_alive_iff has').mpr ht) (has a (by simp))
    rw [(run_pid (m := m) has').1]
    exact ih has'

end Runs

/-- The system calls answer by the sessions, a count changes only by the calls and faults of its
task, and only while the session is open, and the flag only by those and by a stop of the task. -/
structure SessionsExact (m : Tasks τ) (session : τ → Session) : Prop where
  start : ∀ t, m.Alive t → ∀ mprotect, 0 ≤ mprotect →
    (sysStartTrace m t (m.pid t) mprotect).1 = if (session t).isOpen then -einval else 0
  stop : ∀ t, m.Alive t →
    (sysStopTrace m (m.pid t)).1 = if (session t).isOpen then 0 else -einval
  get : ∀ t, m.Alive t →
    sysGetTrace m (m.pid t) true = (0, some (UInt32.ofNat (session t).count))
  /-- Between a stop and the next start of the task the count is frozen. -/
  frozen : ∀ t, m.Alive t → (session t).isOpen = false → ∀ a, Plain a →
    (∀ mprotect, a ≠ .startTrace t (m.pid t) mprotect) →
    ((exec m a).task t).wcounts = (m.task t).wcounts
  /-- Steps of others do not touch the task, unless they stop it, which keeps the count. -/
  others : ∀ t, m.Alive t → ∀ a, Plain a → (∀ n mprotect, a ≠ .startTrace t n mprotect) →
    (∀ i, a ≠ .fault t i) → ((exec m a).task t).wcounts = (m.task t).wcounts ∧
      (a ≠ .stopTrace (m.pid t) → (exec m a).task t = m.task t)

theorem stopTrace_wcounts {m : Tasks τ} {t : τ} (ht : m.Alive t) :
    ((exec m (.stopTrace (m.pid t))).task t).wcounts = (m.task t).wcounts := by
  rw [exec, sysStopTrace_self ht]
  split
  · rfl
  · rw [Tasks.modify_task_self]
    rfl

theorem sessionsExact_of_pictures {m : Tasks τ} {session : τ → Session}
    (h : ∀ t, m.Alive t → Pictures (m.task t) (session t)) : SessionsExact m session where
  start t ht mprotect hm := by
    have hflag := (h t ht).traceFlag_eq_one_iff
    rw [sysStartTrace_self ht]
    by_cases hopen : (session t).isOpen = true
    · rw [if_pos (hflag.mpr hopen), if_pos hopen]
    · rw [if_neg (mt hflag.mp hopen), if_neg hopen, if_neg (by omega)]
  stop t ht := by
    have hflag := (h t ht).traceFlag_eq_zero_iff
    rw [sysStopTrace_self ht]
    by_cases hopen : (session t).isOpen = true
    · rw [if_neg fun hf => by simp [hflag.mp hf] at hopen, if_pos hopen]
    · rw [if_pos (hflag.mpr (Bool.eq_false_iff.mpr hopen)), if_neg hopen]
  get t ht := by
    rw [sysGetTrace, ht]
    simp only [if_true, (h t ht).wcounts]
  frozen t ht hclosed a ha hstart := by
    by_cases hc : a.Concerns t (m.pid t)
    · cases a with
      | startTrace current n mprotect =>
        obtain rfl : current = t := hc
        have hn : n ≠ m.pid current := fun hn => hstart mprotect (by rw [hn])
        rw [exec, if_pos ht, sysStartTrace_of_ne hn]
      | stopTrace n =>
        obtain rfl : n = m.pid t := hc
        exact stopTrace_wcounts ht
      | fault current i =>
        obtain rfl : current = t := hc
        rw [exec, if_pos ht, Tasks.modify_task_self, doPageFault_snd]
        split
        · rw [(h current ht).countWrite_closed hclosed]
        · rfl
      | getTrace n putUser => rfl
      | setWcounts n wcounts => exact ha.elim
      | fork current child childPid => exact ha.elim
    · rw [exec_task_of_not_concerns ha hc]
  others t ht a ha hstart hfault := by
    by_cases hc : a.Concerns t (m.pid t)
    · cases a with
      | startTrace current n mprotect =>
        obtain rfl : current = t := hc
        exact absurd rfl (hstart n mprotect)
      | stopTrace n =>
        obtain rfl : n = m.pid t := hc
        exact ⟨stopTrace_wcounts ht, fun hne => absurd rfl hne⟩
      | fault current i =>
        obtain rfl : current = t := hc
        exact absurd rfl (hfault i)
      | getTrace n putUser => exact hc.elim
      | setWcounts n wcounts => exact ha.elim
      | fork current child childPid => exact ha.elim
    · rw [exec_task_of_not_concerns ha hc]
      exact ⟨rfl, fun _ => rfl⟩

/-- In every run of calls and faults of any tasks, the calls answer by the sessions of the tasks. -/
theorem trace_sessions_exact {m : Tasks τ} (hm : Untraced m) {as : List (Event τ)}
    (has : ∀ a ∈ as, Plain a) :
    SessionsExact (run m as) fun t => sessionOf t (m.pid t) as :=
  sessionsExact_of_pictures fun _ ht => pictures_run hm has ((run_alive_iff has).mp ht)

/-- Two tasks, whose process ids are their numbers. -/
def twoTasks : Tasks ℕ where
  task _ := {}
  pid t := t
  pidTask n := if n = 1 then some 1 else if n = 2 then some 2 else none
  pid_eq n t h := by
    split_ifs at h with h₁ h₂
    · rw [h₁, ← Option.some.inj h]
      rfl
    · rw [h₂, ← Option.some.inj h]
      rfl

/-- The program writes to a page that may only be read. -/
def tracedWrite : Invocation where
  addr := 0x8004
  fsr := 0x80f
  userMode := true
  first := { mmap := [⟨0x8000, 0x9000, vmRead⟩] }

/-- Both tasks are traced, task `2` stops the first one, which goes on writing. -/
def interleavedTraces : List (Event ℕ) :=
  [.startTrace 1 1 0, .fault 1 tracedWrite, .startTrace 2 2 0, .fault 2 tracedWrite,
    .fault 1 tracedWrite, .stopTrace 1, .fault 1 tracedWrite]

theorem trace_sessions_exact_interleaved :
    (sessionOf 1 1 interleavedTraces).count = 2 ∧
      SessionsExact (run twoTasks interleavedTraces) fun t => sessionOf t t interleavedTraces :=
  ⟨by decide, trace_sessions_exact (fun _ => ⟨rfl, rfl⟩) (by simp [interleavedTraces, Plain])⟩

end OsProject.Trace
