import OsProject.Sched.Invariant
import OsProject.Sched.Reference

/-!
# The representation of the run queue

In every reachable state the RAS run list contains exactly the queued tasks of the RAS class, each
once, the nodes of all other tasks are linked to themselves, and the counters of the RAS class and
of the run queue count the tasks they stand for. So no dequeue takes a counter below zero, and the
RAS class never takes the list head for a task.

## Main results

* `run_queue_representation`.
-/

namespace OsProject.Sched

open Transition

variable {τ Q : Type*} [DecidableEq τ] {K : Kernel τ Q} {s : Rq τ Q} {F : Finset τ}

/-- Dequeueing a task that is held keeps the counters nonnegative. -/
theorem Holds.dequeueTask_nonneg (h : Holds K s F) {p : τ} (hp : p ∈ F) (sleep : Bool) :
    0 ≤ (dequeueTask K s p sleep).nrRunning ∧ 0 ≤ (dequeueTask K s p sleep).ras.rasNrRunning := by
  have hs : Holds K (dequeueTask K s p sleep) (F.erase p) := dequeueTask_holds.holds F hp h
  obtain ⟨l, -, -, hn⟩ := hs.ras
  exact ⟨by rw [hs.nrRunning]; exact Int.natCast_nonneg _, by rw [hn]; exact Int.natCast_nonneg _⟩

/-- The first node of the run list is a task when the counter is not zero. -/
theorem Holds.pickNextTaskRas_ne_wild (h : Holds K s F) : (pickNextTaskRas s).1 ≠ .wild := by
  rcases classPickNextTask_spec h .ras with ⟨hp, -, -⟩ | ⟨p, hp, -⟩
  · exact fun hw => by rw [classPickNextTask, hw] at hp; cases hp
  · exact fun hw => by rw [classPickNextTask, hw] at hp; cases hp

/-- The representation invariant, for the run list `l` and the set `F` of all queued tasks. -/
structure RunQueueOk (K : Kernel τ Q) (s : Rq τ Q) (l : List τ) (F : Finset τ) : Prop where
  /-- The links from the list head run through `l` and back, forwards and backwards. -/
  runList : RunList s l
  nodup : l.Nodup
  mem : ∀ t, t ∈ l ↔ (s.task t).onRq = true ∧ (s.task t).schedClass = .ras
  rasNrRunning : s.ras.rasNrRunning = l.length
  onRasRq : ∀ t, onRasRq s t = false ↔ t ∉ l
  mem_queued : ∀ t, t ∈ F ↔ (s.task t).onRq = true
  nrRunning : s.nrRunning = F.card
  /-- No dequeue of a queued task makes a counter negative. -/
  dequeue_nonneg : ∀ t sleep, (s.task t).onRq = true →
    0 ≤ (dequeueTask K s t sleep).nrRunning ∧ 0 ≤ (dequeueTask K s t sleep).ras.rasNrRunning
  pick_ne_wild : (pickNextTaskRas s).1 ≠ .wild
  /-- The pick in a context switch does not run wild either. -/
  exec_isSome : ∀ e : Event τ, Enabled s e.op → (exec K s e).isSome

/-- The run list, the links of all nodes and the counters agree in every reachable state, and no
step that the callers allow makes a counter negative or picks the list head. -/
theorem run_queue_representation (h : Reachable (system K) s) : ∃ l F, RunQueueOk K s l F := by
  obtain ⟨F, hF, hmem⟩ := (reachable_inv h).holds
  obtain ⟨l, hl, hlmem, hn⟩ := hF.ras
  refine ⟨l, F, hl, List.Nodup.of_map some hl.nodup_tail, fun t => ?_, hn, fun t => ?_, hmem,
    hF.nrRunning, fun t sleep ht => hF.dequeueTask_nonneg ((hmem t).mpr ht) sleep,
    hF.pickNextTaskRas_ne_wild, fun e => exec_isSome h⟩
  · rw [hlmem, mem_inClass, hmem]
    exact Iff.rfl
  · rw [← hl.onRasRq_iff, Bool.not_eq_true]

/-- Two RAS tasks, one of which has run for a tick, and a fair task. -/
def threeTasks : List (Op ℕ) :=
  [setschedulerNocheck 1 6 0, .wakeUpNewTask 1, reschedule, setschedulerNocheck 2 6 0,
    .wakeUpNewTask 2, .wakeUpNewTask 3, .schedulerTick]

theorem run_queue_representation_threeTasks :
    ∃ s, referenceRun threeTasks = some s ∧ s.nrRunning = 3 ∧ s.ras.rasNrRunning = 2 ∧
      ∃ l F, RunQueueOk (referenceKernel ℕ) s l F :=
  ⟨(referenceRun threeTasks).get (by decide +kernel), by simp, by decide +kernel,
    by decide +kernel,
    run_queue_representation (reachable_referenceRun (show referenceRun threeTasks = some _ by simp))⟩

end OsProject.Sched
