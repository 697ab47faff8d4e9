import OsProject.Sched.Step

/-!
# A reference configuration

The classes outside the repository with the simplest queue they can have, one list in order of
arrival. It shows that the laws of `Kernel` can be met, and runs of it can be evaluated.
-/

namespace OsProject.Sched

open Intrusive Transition

/-- The tasks queued in the classes outside the repository, in order of arrival. -/
structure Arrivals (τ : Type*) where
  order : List τ
  cls : τ → Option SchedClass

namespace Arrivals

variable {τ : Type*} [DecidableEq τ]

def queued (q : Arrivals τ) (p : τ) : Option SchedClass := if p ∈ q.order then q.cls p else none

def add (q : Arrivals τ) (p : τ) (c : SchedClass) : Arrivals τ where
  order := q.order ++ [p]
  cls := Function.update q.cls p (some c)

def remove (q : Arrivals τ) (p : τ) : Arrivals τ where
  order := q.order.filter (· ≠ p)
  cls := q.cls

def first (q : Arrivals τ) (c : SchedClass) : Option τ := q.order.find? fun p => q.cls p = some c

theorem queued_add (q : Arrivals τ) (p : τ) (c : SchedClass) :
    (q.add p c).queued = Function.update q.queued p (some c) := by
  funext t
  by_cases h : t = p
  · subst h; simp [queued, add]
  · simp [queued, add, h]

theorem queued_remove (q : Arrivals τ) (p : τ) :
    (q.remove p).queued = Function.update q.queued p none := by
  funext t
  by_cases h : t = p
  · subst h; simp [queued, remove]
  · simp [queued, remove, h]

theorem queued_of_first {q : Arrivals τ} {c : SchedClass} {p : τ} (h : q.first c = some p) :
    q.queued p = some c := by
  have hmem : p ∈ q.order := List.mem_of_find?_eq_some h
  have hc : q.cls p = some c := by simpa using List.find?_some h
  simp [queued, hmem, hc]

theorem queued_ne_of_first {q : Arrivals τ} {c : SchedClass} (h : q.first c = none) (p : τ) :
    q.queued p ≠ some c := by
  unfold queued
  split
  · next hmem => simpa using List.find?_eq_none.mp h p hmem
  · simp

end Arrivals

/-- `HZ` is `100`, and real-time bandwidth control is off. -/
def referenceKernel (τ : Type*) [DecidableEq τ] : Kernel τ (Arrivals τ) where
  hz := 100
  one_le_slice := by decide
  slice_fits := by decide
  sysctlSchedRtRuntime := -1
  queued := Arrivals.queued
  enqueueTask c _ p _ q := q.add p c
  dequeueTask _ _ p _ q := q.remove p
  putPrevTask _ _ _ q := q
  setCurrTask _ _ q := q
  pickNextTask c _ q := (q.first c, q)
  yieldTask _ _ q := { data := q }
  checkPreemptCurr _ _ _ _ q := { data := q }
  taskTick _ _ _ q := { data := q }
  taskFork _ _ _ q := { data := q }
  taskMoveGroup _ _ _ _ q := q
  switchedFrom _ _ _ q := q
  switchedTo _ v p q :=
    { data := q
      resched := (v.ctl p).onRq ∧ (p = v.curr ∨ (v.ctl v.curr).schedClass = .idle) }
  prioChanged _ _ _ _ q := { data := q }
  getRrInterval _ _ _ _ := 0
  queued_enqueueTask c _ p _ q := q.queued_add p c
  queued_dequeueTask _ _ p _ q := q.queued_remove p
  queued_putPrevTask _ _ _ _ := rfl
  queued_setCurrTask _ _ _ := rfl
  queued_pickNextTask _ _ _ := rfl
  queued_yieldTask _ _ _ := rfl
  queued_checkPreemptCurr _ _ _ _ _ := rfl
  queued_taskTick _ _ _ _ := rfl
  queued_taskFork _ _ _ _ := rfl
  queued_taskMoveGroup _ _ _ _ _ := rfl
  queued_switchedFrom _ _ _ _ := rfl
  queued_switchedTo _ _ _ _ := rfl
  queued_prioChanged _ _ _ _ _ := rfl
  pick_some _ _ _ _ h := Arrivals.queued_of_first h
  pick_none _ _ _ h := Arrivals.queued_ne_of_first h
  switchedTo_curr v q h := by simp [h]
  switchedTo_idle v p q h hidle := by simp [h, hidle]

/-- The state after boot of a processor whose idle task is `idle` and whose other tasks are new
with the given control fields. -/
def bootRq {τ : Type*} [DecidableEq τ] (idle : τ) (task : τ → TaskStruct) : Rq τ (Arrivals τ) where
  nrRunning := 0
  cfs := { hNrRunning := 0, data := { order := [], cls := fun _ => none } }
  rt := {}
  ras := initRasRq { links := { next := id, prev := id }, rasNrRunning := 0 }
  curr := idle
  idle := idle
  stop := none
  schedClock := 0
  clock := 0
  clockTask := 0
  skipClockUpdate := 0
  nrSwitches := 0
  task := Function.update task idle { schedClass := .idle }
  needResched := fun _ => false

theorem boot_bootRq {τ : Type*} [DecidableEq τ] {idle : τ} {task : τ → TaskStruct}
    (hon : ∀ t, (task t).onRq = false) (hctl : ∀ t, CtlOk (task t).toTaskControl)
    (hpol : ∀ t, (task t).policy = .ras ↔ (task t).schedClass = .ras) :
    Boot (referenceKernel τ) (bootRq idle task) where
  curr := rfl
  idle_class := by simp [bootRq]
  idle_state := by simp [bootRq]
  idle_prio := by simp [bootRq, niceToPrio, maxRtPrio]
  idle_ne_stop := by simp [bootRq]
  onRq t := by by_cases h : t = idle <;> simp [bootRq, h, hon]
  nrRunning := rfl
  hNrRunning := rfl
  queued t := by simp [bootRq, referenceKernel, Arrivals.queued]
  rt_queue g i := rfl
  rtNrRunning g := rfl
  rtNrBoosted g := rfl
  highestPrio g := rfl
  ras := ⟨_, rfl, fun t => ⟨rfl, rfl⟩⟩
  stop_class := by simp [bootRq]
  ctl t ht _ := by
    have ht : t ≠ idle := ht
    simpa [bootRq, Rq.ctl, ht] using hctl t
  policy_iff t := by by_cases h : t = idle <;> simp [bootRq, h, hpol]

/-- A new task with the default policy, priorities and group. -/
theorem ctlOk_default : CtlOk ({} : TaskStruct).toTaskControl :=
  .of_fair rfl rfl ⟨by decide, by decide⟩ rfl rfl rfl rfl

/-- The processor with idle task `0` and new tasks, after boot. -/
def referenceBoot : Rq ℕ (Arrivals ℕ) := bootRq 0 fun _ => {}

theorem boot_referenceBoot : Boot (referenceKernel ℕ) referenceBoot :=
  boot_bootRq (fun _ => rfl) (fun _ => ctlOk_default) fun _ => by decide

/-- Execute steps after boot, all at the same time. -/
def referenceRun (ops : List (Op ℕ)) : Option (Rq ℕ (Arrivals ℕ)) :=
  execAll (exec (referenceKernel ℕ)) referenceBoot (ops.map fun op => ⟨0, op⟩)

theorem reachable_referenceRun {ops : List (Op ℕ)} {s : Rq ℕ (Arrivals ℕ)}
    (h : referenceRun ops = some s) : Reachable (system (referenceKernel ℕ)) s :=
  (Reachable.init boot_referenceBoot).run (run_of_execAll h)

/-- Execute steps after boot that all meet a condition. -/
def referenceRunOk (ok : Rq ℕ (Arrivals ℕ) → Event ℕ → Prop) [∀ s e, Decidable (ok s e)]
    (ops : List (Op ℕ)) : Option (Rq ℕ (Arrivals ℕ)) :=
  execAll (fun s e => if ok s e then exec (referenceKernel ℕ) s e else none) referenceBoot
    (ops.map fun op => ⟨0, op⟩)

theorem reachable_referenceRunOk {ok : Rq ℕ (Arrivals ℕ) → Event ℕ → Prop}
    [∀ s e, Decidable (ok s e)] {ops : List (Op ℕ)} {s : Rq ℕ (Arrivals ℕ)}
    (h : referenceRunOk ok ops = some s) :
    Reachable ((system (referenceKernel ℕ)).restrict ok) s :=
  (Reachable.init boot_referenceBoot).run (run_restrict_of_execAll h)

/-- A call of `sched_setscheduler` from inside the kernel, which checks no permission. -/
def setschedulerNocheck (p : ℕ) (policy prio : ℤ) : Op ℕ := .setscheduler {} p policy prio false

/-- A context switch of a task that stays runnable. -/
def reschedule : Op ℕ := .schedule true false none

end OsProject.Sched
