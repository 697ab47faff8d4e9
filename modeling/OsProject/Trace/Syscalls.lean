import OsProject.Sched.Control
import OsProject.Trace.Fault

/-!
# The system calls of the page trace

`sys_start_trace`, `sys_stop_trace`, `sys_get_trace` and `sys_set_wcounts` find a task by its
process id and read or write its fields `trace_flag` and `wcounts`; page faults and forks touch
these fields as well. A step is one of these, run to its end. The result of `mprotect_s`, which
changes the permissions of the pages, is an input of `sys_start_trace`: the areas that a later
fault sees are inputs of the fault. The kernel log is left out.

## Main definitions

* `Tasks` — the tasks and their process ids.
* `sysStartTrace`, `sysStopTrace`, `sysGetTrace`, `sysSetWcounts` — the system calls.
* `forkedTask` — the `task_struct` of the child of a fork.
* `Event`, `exec`, `run` — the steps of all tasks, in any order.

Source: `start_trace.c`, `stop_trace.c`, `get_trace.c`, `set_wcounts.c`, `kernel/sched/core.c`.
-/

namespace OsProject.Trace

open Sched (TaskStruct)

variable {τ : Type*} [DecidableEq τ]

/-- `EINVAL`. -/
def einval : ℤ := 22

/-- The tasks, named by the addresses of their `task_struct`, and their process ids. -/
structure Tasks (τ : Type*) where
  task : τ → TaskStruct
  pid : τ → ℤ
  /-- `pid_task(find_vpid(pid), PIDTYPE_PID)`. -/
  pidTask : ℤ → Option τ
  pid_eq : ∀ n t, pidTask n = some t → pid t = n

namespace Tasks

/-- The task is one that its process id finds. -/
def Alive (m : Tasks τ) (t : τ) : Prop := m.pidTask (m.pid t) = some t

instance (m : Tasks τ) (t : τ) : Decidable (m.Alive t) := inferInstanceAs (Decidable (_ = _))

/-- Write the `task_struct` of `t`. -/
def modify (m : Tasks τ) (t : τ) (f : TaskStruct → TaskStruct) : Tasks τ :=
  { m with task := Function.update m.task t (f (m.task t)) }

variable (m : Tasks τ) (t u : τ) (f : TaskStruct → TaskStruct)

@[simp] theorem modify_task_self : (m.modify t f).task t = f (m.task t) := by simp [modify]

@[simp] theorem modify_task_of_ne {t u : τ} (h : u ≠ t) :
    (m.modify t f).task u = m.task u := by simp [modify, h]

@[simp] theorem modify_pid : (m.modify t f).pid = m.pid := rfl

@[simp] theorem modify_pidTask : (m.modify t f).pidTask = m.pidTask := rfl

@[simp] theorem modify_alive : (m.modify t f).Alive u ↔ m.Alive u := Iff.rfl

end Tasks

/-! ### System calls -/

/-- What `sys_start_trace` writes to the task. -/
def startedTask (t : TaskStruct) : TaskStruct := { t with traceFlag := 1, wcounts := 0 }

/-- What `sys_stop_trace` writes to the task. -/
def stoppedTask (t : TaskStruct) : TaskStruct := { t with traceFlag := 0 }

/-- `sys_start_trace`, called by the task `current`, with the result of `mprotect_s`. -/
def sysStartTrace (m : Tasks τ) (current : τ) (pid mprotect : ℤ) : ℤ × Tasks τ :=
  match m.pidTask pid with
  | none => (-1, m)
  | some tsk =>
    if m.pid tsk ≠ m.pid current then (-1, m)
    else if (m.task tsk).traceFlag = 1 then (-einval, m)
    else
      let m := m.modify tsk startedTask
      if mprotect < 0 then (-1, m) else (0, m)

def sysStopTrace (m : Tasks τ) (pid : ℤ) : ℤ × Tasks τ :=
  match m.pidTask pid with
  | none => (-1, m)
  | some tsk =>
    if (m.task tsk).traceFlag = 0 then (-einval, m) else (0, m.modify tsk stoppedTask)

/-- `sys_get_trace`: what it returns, and what it stores at the pointer of the caller, unless the
pointer is bad. -/
def sysGetTrace (m : Tasks τ) (pid : ℤ) (putUser : Bool) : ℤ × Option UInt32 :=
  match m.pidTask pid with
  | none => (-1, none)
  | some tsk => (0, if putUser then some (m.task tsk).wcounts else none)

def sysSetWcounts (m : Tasks τ) (pid : ℤ) (wcounts : UInt32) : ℤ × Tasks τ :=
  match m.pidTask pid with
  | none => (-1, m)
  | some tsk => (0, m.modify tsk fun t => { t with wcounts := wcounts })

/-! ### Forks -/

/-- The `task_struct` of the child: a copy of that of its parent, with what `sched_fork` writes. -/
def forkedTask (parent : TaskStruct) : TaskStruct :=
  { parent with toTaskControl := Sched.childCtl parent.toTaskControl, se := {} }

/-- The `task_struct` of the child of a fork in the scheduler. -/
theorem fork_task_child {Q : Type*} (K : Sched.Kernel τ Q) (s : Sched.Rq τ Q) {child : τ}
    (hchild : child ≠ s.curr) :
    (Sched.fork K s child).task child = forkedTask (s.task s.curr) := by
  have hfork : ∀ u : Sched.Rq τ Q, (Sched.classTaskFork K u child).task = u.task := fun u =>
    (Sched.classTaskFork_eq K u child).1
  rw [Sched.fork, Sched.schedFork, hfork]
  simp [Sched.schedForkInit, Sched.dupTaskStruct, Sched.Rq.modifyCtl, Sched.Rq.modifyTask,
    Function.update_of_ne hchild.symm, forkedTask, Sched.childCtl]

/-- `fork` of the task `current`, with an unused `task_struct` and process id for the child. -/
def Tasks.fork (m : Tasks τ) (current child : τ) (childPid : ℤ)
    (hchild : ¬m.Alive child) : Tasks τ where
  task := Function.update m.task child (forkedTask (m.task current))
  pid := Function.update m.pid child childPid
  pidTask := Function.update m.pidTask childPid (some child)
  pid_eq n t h := by
    by_cases hn : n = childPid
    · subst hn
      obtain rfl : child = t := by simpa using h
      exact Function.update_self ..
    · have hfind : m.pidTask n = some t := by simpa [hn] using h
      have hpid := m.pid_eq n t hfind
      have hne : t ≠ child := by
        rintro rfl
        exact hchild (by rw [Tasks.Alive, hpid, hfind])
      rw [Function.update_of_ne hne, hpid]

/-! ### Steps -/

/-- A system call, a page fault or a fork. The first three are made by the task `current`. -/
inductive Event (τ : Type*)
  | startTrace (current : τ) (pid mprotect : ℤ)
  | fault (current : τ) (i : Invocation)
  | fork (current child : τ) (childPid : ℤ)
  | stopTrace (pid : ℤ)
  | getTrace (pid : ℤ) (putUser : Bool)
  | setWcounts (pid : ℤ) (wcounts : UInt32)

/-- The fork takes place: the child gets an unused `task_struct` and process id. -/
def Forks (m : Tasks τ) (current child : τ) (childPid : ℤ) : Prop :=
  m.Alive current ∧ ¬m.Alive child ∧ m.pidTask childPid = none

instance (m : Tasks τ) (current child : τ) (childPid : ℤ) :
    Decidable (Forks m current child childPid) := inferInstanceAs (Decidable (_ ∧ _))

/-- The tasks after a step. A step of a task that does not exist is none, and neither is a fork
without an unused `task_struct` and process id. -/
def exec (m : Tasks τ) : Event τ → Tasks τ
  | .startTrace current pid mprotect =>
    if m.Alive current then (sysStartTrace m current pid mprotect).2 else m
  | .fault current i =>
    if m.Alive current then m.modify current fun t => (doPageFault i t).2 else m
  | .fork current child childPid =>
    if h : Forks m current child childPid then
      m.fork current child childPid h.2.1
    else m
  | .stopTrace pid => (sysStopTrace m pid).2
  | .getTrace _ _ => m
  | .setWcounts pid wcounts => (sysSetWcounts m pid wcounts).2

/-- The tasks after a sequence of steps. -/
def run (m : Tasks τ) (as : List (Event τ)) : Tasks τ := as.foldl exec m

@[simp] theorem run_nil (m : Tasks τ) : run m [] = m := rfl

theorem run_concat (m : Tasks τ) (as : List (Event τ)) (a : Event τ) :
    run m (as ++ [a]) = exec (run m as) a := by
  rw [run, List.foldl_concat, run]

/-- No task is traced, and none has a count, as after the boot of the kernel. -/
def Untraced (m : Tasks τ) : Prop := ∀ t, (m.task t).traceFlag = 0 ∧ (m.task t).wcounts = 0

section Calls

variable {m : Tasks τ} {t : τ} {pid mprotect : ℤ}

/-- A call of `sys_start_trace` with another process id than that of the caller fails. -/
theorem sysStartTrace_of_ne (h : pid ≠ m.pid t) : sysStartTrace m t pid mprotect = (-1, m) := by
  rw [sysStartTrace]
  split
  · rfl
  · next tsk hfind => rw [if_pos (by rwa [m.pid_eq pid tsk hfind])]

/-- A call of `sys_start_trace` with the process id of the caller. -/
theorem sysStartTrace_self (h : m.Alive t) :
    sysStartTrace m t (m.pid t) mprotect =
      if (m.task t).traceFlag = 1 then (-einval, m)
      else (if mprotect < 0 then -1 else 0, m.modify t startedTask) := by
  rw [sysStartTrace, h]
  simp only [ne_eq, not_true_eq_false, if_false]
  split_ifs <;> rfl

theorem sysStopTrace_self (h : m.Alive t) :
    sysStopTrace m (m.pid t) =
      if (m.task t).traceFlag = 0 then (-einval, m) else (0, m.modify t stoppedTask) := by
  rw [sysStopTrace, h]

/-- A task is stopped only through its process id. -/
theorem sysStopTrace_task_of_ne (h : pid ≠ m.pid t) :
    (sysStopTrace m pid).2.task t = m.task t := by
  rw [sysStopTrace]
  split
  · rfl
  · next tsk hfind =>
    have hne : t ≠ tsk := by
      rintro rfl
      exact h (m.pid_eq pid t hfind).symm
    split
    · rfl
    · exact m.modify_task_of_ne _ hne

end Calls

end OsProject.Trace
