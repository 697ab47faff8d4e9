import Mathlib.Data.List.Infix
import OsProject.Sched.SliceRule
import OsProject.Trace.ForkTrace

/-!
# Writes and the weight of a task

The weight of a traced task falls as its counted writes grow, and with it the slice it is granted and
its claim to preempt another task. This holds until the count, which has 32 bits, starts from zero
again: then the weight is the largest one.

## Main definitions

* `KeepsCount` — the steps between two calls of `sys_start_trace` by a task.
* `NoMoreCpu` — a later state of a task gives it no more of the processor.

## Main results

* `weight_antitone_iff` — the weight falls along a run as long as the count does not overflow.
-/

namespace OsProject.Trace

open Sched (TaskStruct Kernel Rq calcRasWeight rasSlice checkPreemptCurrRas)

variable {τ Q : Type*} [DecidableEq τ]

/-! ### Steps of a session -/

/-- The task does not call `sys_start_trace`, and its count is not set from outside. -/
def KeepsCount (t : τ) (pid : ℤ) : Event τ → Prop
  | .startTrace current _ _ => current ≠ t
  | .setWcounts n _ => n ≠ pid
  | _ => True

section Steps

variable {m : Tasks τ} {t : τ} {a : Event τ} {s : Session}

theorem exec_pid_of_alive (ht : m.Alive t) (a : Event τ) :
    (exec m a).pid t = m.pid t ∧ (exec m a).Alive t := by
  cases a with
  | fork current child childPid =>
    by_cases hf : Forks m current child childPid
    · have hchild : t ≠ child := by
        rintro rfl
        exact hf.2.1 ht
      have hpid : m.pid t ≠ childPid := fun he => by
        have hfree := hf.2.2
        rw [← he, ht] at hfree
        cases hfree
      rw [exec_fork hf]
      have hsame : (m.fork current child childPid hf.2.1).pid t = m.pid t :=
        Function.update_of_ne hchild ..
      refine ⟨hsame, ?_⟩
      rw [Tasks.Alive, hsame]
      exact (Function.update_of_ne hpid ..).trans ht
    · rw [exec, dif_neg hf]
      exact ⟨rfl, ht⟩
  | startTrace current n mprotect =>
    simp only [exec, sysStartTrace]
    split
    · split
      · exact ⟨rfl, ht⟩
      · split_ifs <;> exact ⟨rfl, ht⟩
    · exact ⟨rfl, ht⟩
  | stopTrace n =>
    simp only [exec, sysStopTrace]
    split
    · exact ⟨rfl, ht⟩
    · split_ifs <;> exact ⟨rfl, ht⟩
  | fault current i =>
    simp only [exec]
    split <;> exact ⟨rfl, ht⟩
  | getTrace n putUser => exact ⟨rfl, ht⟩
  | setWcounts n wcounts =>
    simp only [exec, sysSetWcounts]
    split <;> exact ⟨rfl, ht⟩

/-- The steps between two calls of `sys_start_trace` keep the picture of the session, also when
other tasks fork or have their counts set. -/
theorem Pictures.exec_of_keepsCount (h : Pictures (m.task t) s) (ht : m.Alive t)
    (ha : KeepsCount t (m.pid t) a) :
    Pictures ((Trace.exec m a).task t) (s.step t (m.pid t) a) := by
  cases a with
  | startTrace current n mprotect =>
    have hother : ¬(Event.startTrace current n mprotect).Concerns t (m.pid t) := ha
    rw [Session.step_of_not_concerns hother, Trace.exec]
    split
    · next hcurr => rwa [sysStartTrace_task_of_ne hcurr ha]
    · exact h
  | stopTrace n =>
    by_cases hn : n = m.pid t
    · rw [hn]
      exact h.stopTrace ht
    · have hother : ¬(Event.stopTrace n : Event τ).Concerns t (m.pid t) := hn
      rw [Session.step_of_not_concerns hother, Trace.exec, sysStopTrace_task_of_ne hn]
      exact h
  | fault current i =>
    by_cases hc : current = t
    · rw [hc]
      exact h.fault ht i
    · have hother : ¬(Event.fault current i).Concerns t (m.pid t) := hc
      rw [Session.step_of_not_concerns hother, Trace.exec]
      split
      · rwa [m.modify_task_of_ne _ (Ne.symm hc)]
      · exact h
  | fork current child childPid =>
    by_cases hf : Forks m current child childPid
    · have hchild : t ≠ child := by
        rintro rfl
        exact hf.2.1 ht
      rw [exec_fork hf]
      have hsame : (m.fork current child childPid hf.2.1).task t = m.task t :=
        Function.update_of_ne hchild ..
      rwa [hsame]
    · rw [Trace.exec, dif_neg hf]
      exact h
  | getTrace n putUser => exact h
  | setWcounts n wcounts =>
    rw [Trace.exec, sysSetWcounts]
    split
    · exact h
    · next tsk hfind =>
      have hne : t ≠ tsk := by
        rintro rfl
        exact ha (m.pid_eq n t hfind).symm
      rwa [m.modify_task_of_ne _ hne]

theorem pictures_run_of_keepsCount {as : List (Event τ)} (h : Pictures (m.task t) s)
    (ht : m.Alive t) (has : ∀ a ∈ as, KeepsCount t (m.pid t) a) :
    Pictures ((run m as).task t) (as.foldl (Session.step t (m.pid t)) s) := by
  induction as generalizing m s with
  | nil => exact h
  | cons a as ih =>
    obtain ⟨ha, has⟩ := List.forall_mem_cons.mp has
    obtain ⟨hpid, halive⟩ := exec_pid_of_alive ht a
    rw [← hpid] at has
    have hrest := ih (h.exec_of_keepsCount ht ha) halive has
    rwa [hpid] at hrest

end Steps

/-! ### The count along a run -/

/-- The writes that are counted in a sequence of steps after a session has been opened. -/
def sessionCount (t : τ) (pid : ℤ) (as : List (Event τ)) : ℕ :=
  (as.foldl (Session.step t pid) { isOpen := true, count := 0 }).count

section Counts

variable {t : τ} {pid : ℤ} {as bs : List (Event τ)}

/-- A step that is no call of `sys_start_trace` by the task counts at most one write. -/
theorem Session.step_count {a : Event τ} (ha : KeepsCount t pid a) (s : Session) :
    s.count ≤ (s.step t pid a).count ∧ (s.step t pid a).count ≤ s.count + 1 := by
  cases a with
  | startTrace current n mprotect =>
    rw [Session.step, if_neg fun hc => ha hc.1]
    omega
  | stopTrace n =>
    rw [Session.step]
    split <;> exact ⟨le_rfl, Nat.le_succ _⟩
  | fault current i =>
    rw [Session.step]
    split
    · exact ⟨Nat.le_succ _, le_rfl⟩
    · omega
  | getTrace n putUser => exact ⟨le_rfl, Nat.le_succ _⟩
  | setWcounts n wcounts => exact ⟨le_rfl, Nat.le_succ _⟩
  | fork current child childPid => exact ⟨le_rfl, Nat.le_succ _⟩

theorem sessionCount_concat (as : List (Event τ)) {a : Event τ} (ha : KeepsCount t pid a) :
    sessionCount t pid as ≤ sessionCount t pid (as ++ [a]) ∧
      sessionCount t pid (as ++ [a]) ≤ sessionCount t pid as + 1 := by
  rw [sessionCount, sessionCount, List.foldl_concat]
  exact Session.step_count ha _

theorem sessionCount_le_append (hbs : ∀ a ∈ bs, KeepsCount t pid a) :
    sessionCount t pid as ≤ sessionCount t pid (as ++ bs) := by
  induction bs using List.reverseRecOn with
  | nil => rw [List.append_nil]
  | append_singleton bs b ih =>
    have hle := ih fun a ha => hbs a (List.mem_append_left _ ha)
    have hstep := (sessionCount_concat (as ++ bs) (hbs b (by simp))).1
    rw [← List.append_assoc]
    omega

/-- The count takes every value on its way. -/
theorem exists_sessionCount_eq (has : ∀ a ∈ as, KeepsCount t pid a) {n : ℕ}
    (hn : n ≤ sessionCount t pid as) : ∃ xs ys, as = xs ++ ys ∧ sessionCount t pid xs = n := by
  induction as using List.reverseRecOn with
  | nil => exact ⟨[], [], rfl, (Nat.le_zero.mp hn).symm⟩
  | append_singleton as a ih =>
    by_cases hle : n ≤ sessionCount t pid as
    · obtain ⟨xs, ys, rfl, hxs⟩ := ih (fun b hb => has b (List.mem_append_left _ hb)) hle
      exact ⟨xs, ys ++ [a], by rw [List.append_assoc], hxs⟩
    · have hstep := (sessionCount_concat as (has a (by simp))).2
      exact ⟨as ++ [a], [], (List.append_nil _).symm, by omega⟩

end Counts

/-! ### Less of the processor -/

/-- The state `u'` of a task gives it no more of the processor than the state `u`: its weight is no
larger, nor is the slice that it is granted in the same group, and when it is woken it preempts the
current task only if it would do so in the state `u`. -/
structure NoMoreCpu (K : Kernel τ Q) (u u' : TaskStruct) : Prop where
  weight : calcRasWeight u' ≤ calcRasWeight u
  slice : u'.schedTaskGroup = u.schedTaskGroup → rasSlice K.hz u' ≤ rasSlice K.hz u
  preempt : ∀ (s : Rq τ Q) (p : τ), p ≠ s.curr →
    (checkPreemptCurrRas (s.modifyTask p fun _ => u') p).needResched s.curr = true →
    (checkPreemptCurrRas (s.modifyTask p fun _ => u) p).needResched s.curr = true

/-- The current task is to be rescheduled after the check if it was before, or if the woken task has
the larger weight. -/
theorem checkPreemptCurrRas_needResched (s : Rq τ Q) (p : τ) :
    (checkPreemptCurrRas s p).needResched s.curr = true ↔
      calcRasWeight (s.task s.curr) < calcRasWeight (s.task p) ∨ s.needResched s.curr = true := by
  rw [Sched.checkPreemptCurrRas_eq]
  split
  · next hlt =>
    refine iff_of_true ?_ (.inl hlt)
    rw [Rq.reschedTask]
    exact Function.update_self ..
  · next hge => exact (or_iff_right hge).symm

theorem noMoreCpu_of_weight {K : Kernel τ Q} {u u' : TaskStruct}
    (h : calcRasWeight u' ≤ calcRasWeight u) : NoMoreCpu K u u' := by
  refine ⟨h, fun hgroup => ?_, fun s p hp hresched => ?_⟩
  · rw [UInt32.le_iff_toNat_le, Sched.rasSlice_toNat, Sched.rasSlice_toNat, Sched.taskGroupPath,
      Sched.taskGroupPath, hgroup]
    exact Nat.add_le_add_left (Nat.mul_le_mul h le_rfl) _
  · have hself : ∀ v : TaskStruct, (s.modifyTask p fun _ => v).task p = v := fun v =>
      Function.update_self ..
    have hother : ∀ v : TaskStruct, (s.modifyTask p fun _ => v).task s.curr = s.task s.curr :=
      fun v => Function.update_of_ne hp.symm ..
    have hcheck : ∀ v : TaskStruct,
        (checkPreemptCurrRas (s.modifyTask p fun _ => v) p).needResched s.curr = true ↔
          calcRasWeight (s.task s.curr) < calcRasWeight v ∨ s.needResched s.curr = true := fun v => by
      have hiff := checkPreemptCurrRas_needResched (s.modifyTask p fun _ => v) p
      rw [hself] at hiff
      rw [← hother v]
      exact hiff
    rw [hcheck] at hresched ⊢
    exact hresched.imp_left fun hlt => hlt.trans_le h

/-- The weight for a count is the largest one again when the count starts from zero. -/
theorem Pictures.weight {u : TaskStruct} {s : Session} (h : Pictures u s) :
    calcRasWeight u = Sched.documentedWeight (s.count % 2 ^ 32) := by
  rw [Sched.calcRasWeight_eq, h.wcounts, UInt32.toNat_ofNat']

/-- A call of `sys_start_trace` that returns 0 opens a session. -/
theorem Opens.pictures {m : Tasks τ} {t : τ} {pid mprotect : ℤ} (h : Opens m t pid mprotect) :
    Pictures ((exec m (.startTrace t pid mprotect)).task t) { isOpen := true, count := 0 } := by
  obtain ⟨ht, hzero⟩ := h
  have hpid : pid = m.pid t := by
    by_contra hne
    rw [sysStartTrace_of_ne hne] at hzero
    cases hzero
  rw [hpid, sysStartTrace_self ht] at hzero
  rw [exec, if_pos ht, hpid, sysStartTrace_self ht]
  split at hzero
  · cases hzero
  · next hflag =>
    rw [if_neg hflag, Tasks.modify_task_self]
    exact .started _

/-- The weights along a run after a session has been opened. -/
theorem calcRasWeight_run {m : Tasks τ} {t : τ} {pid mprotect : ℤ} (hopen : Opens m t pid mprotect)
    {as : List (Event τ)} (has : ∀ a ∈ as, KeepsCount t (m.pid t) a) :
    calcRasWeight ((run (exec m (.startTrace t pid mprotect)) as).task t) =
      Sched.documentedWeight (sessionCount t (m.pid t) as % 2 ^ 32) := by
  obtain ⟨hpid, ht⟩ := exec_pid_of_alive hopen.1 (.startTrace t pid mprotect)
  rw [← hpid] at has ⊢
  exact (pictures_run_of_keepsCount hopen.pictures ht has).weight

/-- A count that overflows passes through its largest value and then through zero, so that the
weight rises. -/
theorem exists_weight_rises (K : Kernel τ Q) {m : Tasks τ} {t : τ} {pid mprotect : ℤ}
    (hopen : Opens m t pid mprotect) {as : List (Event τ)}
    (has : ∀ a ∈ as, KeepsCount t (m.pid t) a) (hover : 2 ^ 32 ≤ sessionCount t (m.pid t) as) :
    ∃ xs ys zs, as = xs ++ ys ++ zs ∧
      ¬NoMoreCpu K ((run (exec m (.startTrace t pid mprotect)) xs).task t)
        ((run (exec m (.startTrace t pid mprotect)) (xs ++ ys)).task t) := by
  obtain ⟨xs, zs, rfl, hxs⟩ := exists_sessionCount_eq has hover
  have hxsKeeps : ∀ a ∈ xs, KeepsCount t (m.pid t) a := fun a ha =>
    has a (List.mem_append_left _ ha)
  have hlast : 2 ^ 32 - 1 ≤ sessionCount t (m.pid t) xs := by omega
  obtain ⟨ws, ys, rfl, hws⟩ := exists_sessionCount_eq hxsKeeps hlast
  have hwsKeeps : ∀ a ∈ ws, KeepsCount t (m.pid t) a := fun a ha =>
    hxsKeeps a (List.mem_append_left _ ha)
  refine ⟨ws, ys, zs, rfl, fun hfalls => ?_⟩
  have hle := hfalls.weight
  rw [calcRasWeight_run hopen hxsKeeps, calcRasWeight_run hopen hwsKeeps, hxs, hws] at hle
  exact absurd hle (by decide)

/-- After `sys_start_trace` has returned 0, as long as the task does not call it again and its count
is not set, its weight does not rise, and with it neither does the slice it is granted nor its claim
to preempt, between any two moments of the run, if and only if fewer than `2 ^ 32` of its writes are
counted. -/
theorem weight_antitone_iff (K : Kernel τ Q) {m : Tasks τ} {t : τ} {pid mprotect : ℤ}
    (hopen : Opens m t pid mprotect) {as : List (Event τ)}
    (has : ∀ a ∈ as, KeepsCount t (m.pid t) a) :
    (∀ xs ys zs, as = xs ++ ys ++ zs →
      NoMoreCpu K ((run (exec m (.startTrace t pid mprotect)) xs).task t)
        ((run (exec m (.startTrace t pid mprotect)) (xs ++ ys)).task t)) ↔
      sessionCount t (m.pid t) as < 2 ^ 32 := by
  constructor
  · intro hfalls
    by_contra hover
    obtain ⟨xs, ys, zs, hsplit, hrises⟩ := exists_weight_rises K hopen has (not_lt.mp hover)
    exact hrises (hfalls xs ys zs hsplit)
  · rintro hlt xs ys zs rfl
    have hys : ∀ a ∈ xs ++ ys, KeepsCount t (m.pid t) a := fun a ha =>
      has a (List.mem_append_left _ ha)
    have hxs : ∀ a ∈ xs, KeepsCount t (m.pid t) a := fun a ha => hys a (List.mem_append_left _ ha)
    have hmid : sessionCount t (m.pid t) xs ≤ sessionCount t (m.pid t) (xs ++ ys) :=
      sessionCount_le_append fun a ha => hys a (List.mem_append_right _ ha)
    have hend : sessionCount t (m.pid t) (xs ++ ys) ≤ sessionCount t (m.pid t) (xs ++ ys ++ zs) :=
      sessionCount_le_append fun a ha => has a (List.mem_append_right _ ha)
    refine noMoreCpu_of_weight ?_
    rw [calcRasWeight_run hopen hys, calcRasWeight_run hopen hxs, Nat.mod_eq_of_lt (by omega),
      Nat.mod_eq_of_lt (by omega)]
    exact Sched.documentedWeight_anti hmid

/-- Twenty traced writes, before tracing stops. -/
def twentyWrites : List (Event ℕ) := List.replicate 20 (.fault 1 tracedWrite) ++ [.stopTrace 1]

/-- The weight falls from 10 to 9. -/
theorem weight_antitone_iff_twentyWrites :
    Sched.calcRasWeight ((run (exec twoTasks (.startTrace 1 1 0)) []).task 1) = 10 ∧
    Sched.calcRasWeight ((run (exec twoTasks (.startTrace 1 1 0)) twentyWrites).task 1) = 9 ∧
    NoMoreCpu (Sched.referenceKernel ℕ) ((run (exec twoTasks (.startTrace 1 1 0)) []).task 1)
      ((run (exec twoTasks (.startTrace 1 1 0)) twentyWrites).task 1) := by
  have hopen : Opens twoTasks 1 1 0 := by decide
  have hkeeps : ∀ a ∈ twentyWrites, KeepsCount 1 (twoTasks.pid 1) a := fun a ha => by
    rcases List.mem_append.mp ha with ha | ha
    · rw [List.eq_of_mem_replicate ha]
      trivial
    · rw [List.mem_singleton.mp ha]
      trivial
  have hfalls := (weight_antitone_iff (Sched.referenceKernel ℕ) hopen hkeeps).mpr
    (by decide +kernel) [] twentyWrites [] (by rw [List.nil_append, List.append_nil])
  rw [List.nil_append] at hfalls
  exact ⟨by decide +kernel, by decide +kernel, hfalls⟩

/-- Each traced write is counted. -/
theorem foldl_step_replicate (pid : ℤ) (n c : ℕ) :
    (List.replicate n (.fault 1 tracedWrite)).foldl (Session.step 1 pid)
      { isOpen := true, count := c } = { isOpen := true, count := c + n } := by
  induction n generalizing c with
  | zero => rfl
  | succ n ih =>
    have hstep : Session.step 1 pid { isOpen := true, count := c } (.fault 1 tracedWrite) =
        { isOpen := true, count := c + 1 } := by
      rw [Session.step, if_pos ⟨rfl, rfl, by decide⟩]
    rw [List.replicate_succ, List.foldl_cons, hstep, ih, Nat.add_right_comm, Nat.add_assoc]

theorem sessionCount_replicate (pid : ℤ) (n : ℕ) :
    sessionCount 1 pid (List.replicate n (.fault 1 tracedWrite)) = n := by
  rw [sessionCount, foldl_step_replicate, Nat.zero_add]

/-- A task that is traced for `2 ^ 32` writes. -/
theorem not_weight_antitone :
    ¬ ∀ (m : Tasks ℕ) (t : ℕ) (pid mprotect : ℤ), Opens m t pid mprotect →
      ∀ as : List (Event ℕ), (∀ a ∈ as, KeepsCount t (m.pid t) a) →
      ∀ xs ys zs, as = xs ++ ys ++ zs →
      NoMoreCpu (Sched.referenceKernel ℕ) ((run (exec m (.startTrace t pid mprotect)) xs).task t)
        ((run (exec m (.startTrace t pid mprotect)) (xs ++ ys)).task t) := by
  intro h
  have hopen : Opens twoTasks 1 1 0 := by decide
  have hkeeps : ∀ a ∈ List.replicate (2 ^ 32) (Event.fault 1 tracedWrite),
      KeepsCount 1 (twoTasks.pid 1) a := fun a ha => by
    rw [List.eq_of_mem_replicate ha]
    trivial
  obtain ⟨xs, ys, zs, hsplit, hrises⟩ := exists_weight_rises (Sched.referenceKernel ℕ) hopen hkeeps
    (sessionCount_replicate _ _).ge
  exact hrises (h twoTasks 1 1 0 hopen _ hkeeps xs ys zs hsplit)

end OsProject.Trace
