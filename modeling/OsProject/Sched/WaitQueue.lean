import OsProject.Sched.Invariant
import OsProject.Sched.Reference

/-!
# Wait queues

A wait queue is a list of entries, each for a task that waits, exclusive or not. `__wake_up_common`
goes through the list and calls the wakeup function of each entry, until it has woken the number
of exclusive tasks it was asked for. A task that is not asleep in one of the asked states is
passed over and not counted.

## Main definitions

* `WaitQueueEntry`, `wakeUpCommon` — an entry, and the core wakeup function.
* `roused` — the tasks that the core wakeup function wakes, in order.

## Main results

* `wakeUpCommon_spec` — the tasks of `roused` are woken, and nothing else changes state.
* `roused_exclusive` — of exclusive entries, those of the first sleeping tasks.
* `wake_up_common_in_order` — the whole story for a queue as `add_wait_queue` and
  `add_wait_queue_exclusive` build it.

Source: `kernel/sched/core.c`.
-/

namespace OsProject.Sched

open Transition

variable {τ Q : Type*}

/-- A `wait_queue_t` whose wakeup function is `default_wake_function`: the task in its `private`
field, and whether `WQ_FLAG_EXCLUSIVE` is set. -/
structure WaitQueueEntry (τ : Type*) where
  task : τ
  exclusive : Bool
  deriving DecidableEq, Repr

section CoreWakeup

variable [DecidableEq τ]

def defaultWakeFunction (K : Kernel τ Q) (s : Rq τ Q) (curr : WaitQueueEntry τ)
    (mode wakeFlags : ℕ) : Bool × Rq τ Q :=
  tryToWakeUp K s curr.task mode wakeFlags

/-- `__wake_up_common`. The number of exclusive tasks goes down with each one that is woken, and
the loop ends when it gets to zero; from zero it never does. -/
def wakeUpCommon (K : Kernel τ Q) (mode wakeFlags : ℕ) :
    Rq τ Q → ℤ → List (WaitQueueEntry τ) → Rq τ Q
  | s, _, [] => s
  | s, nrExclusive, curr :: q =>
    let (woken, s) := defaultWakeFunction K s curr mode wakeFlags
    if woken ∧ curr.exclusive then
      if nrExclusive - 1 = 0 then s else wakeUpCommon K mode wakeFlags s (nrExclusive - 1) q
    else wakeUpCommon K mode wakeFlags s nrExclusive q

end CoreWakeup

/-! ### What is woken -/

/-- The task waits for a wakeup in one of the states of the mask. -/
def asleepIn (mode : ℕ) (c : TaskControl) : Bool := c.state &&& mode ≠ 0

/-- The control fields of a task that has been woken. -/
def awakened (c : TaskControl) : TaskControl := { c with onRq := true, state := 0 }

/-- The tasks that the core wakeup function wakes, in order, when `sleeps` tells which are asleep. -/
def roused (sleeps : τ → Bool) : ℤ → List (WaitQueueEntry τ) → List τ
  | _, [] => []
  | nrExclusive, curr :: q =>
    if sleeps curr.task then
      if curr.exclusive then
        if nrExclusive - 1 = 0 then [curr.task] else curr.task :: roused sleeps (nrExclusive - 1) q
      else curr.task :: roused sleeps nrExclusive q
    else roused sleeps nrExclusive q

theorem roused_sublist (sleeps : τ → Bool) (nr : ℤ) (q : List (WaitQueueEntry τ)) :
    (roused sleeps nr q).Sublist (q.map (·.task)) := by
  induction q generalizing nr with
  | nil => exact List.Sublist.slnil
  | cons curr q ih =>
    rw [roused, List.map_cons]
    split_ifs with hs he hn
    · exact (List.nil_sublist _).cons_cons _
    · exact (ih _).cons_cons _
    · exact (ih _).cons_cons _
    · exact (ih _).cons _

/-- Only the tasks of the entries matter. -/
theorem roused_congr {sleeps sleeps' : τ → Bool} (nr : ℤ) {q : List (WaitQueueEntry τ)}
    (h : ∀ w ∈ q, sleeps' w.task = sleeps w.task) : roused sleeps' nr q = roused sleeps nr q := by
  induction q generalizing nr with
  | nil => rfl
  | cons curr q ih =>
    have htail : ∀ nr, roused sleeps' nr q = roused sleeps nr q :=
      fun nr => ih nr fun w hw => h w (List.mem_cons_of_mem _ hw)
    rw [roused, roused, h curr (List.mem_cons_self ..), htail, htail]

/-- Every sleeping task is woken when the number of exclusive ones starts at zero. -/
theorem roused_all (sleeps : τ → Bool) {nr : ℤ} (hnr : nr ≤ 0) (q : List (WaitQueueEntry τ)) :
    roused sleeps nr q = (q.map (·.task)).filter sleeps := by
  induction q generalizing nr with
  | nil => rfl
  | cons curr q ih =>
    rw [roused, List.map_cons, List.filter_cons, ih hnr, ih (by omega : nr - 1 ≤ 0),
      if_neg (by omega : nr - 1 ≠ 0)]
    split_ifs <;> rfl

/-- Of exclusive entries, the first sleeping tasks are woken. -/
theorem roused_exclusive (sleeps : τ → Bool) {n : ℕ} (hn : 0 < n) {q : List (WaitQueueEntry τ)}
    (hq : ∀ w ∈ q, w.exclusive = true) :
    roused sleeps n q = ((q.map (·.task)).filter sleeps).take n := by
  induction q generalizing n with
  | nil => simp [roused]
  | cons curr q ih =>
    have hq' : ∀ w ∈ q, w.exclusive = true := fun w hw => hq w (List.mem_cons_of_mem _ hw)
    rw [roused, List.map_cons, List.filter_cons, if_pos (hq curr (List.mem_cons_self ..))]
    obtain ⟨m, rfl⟩ : ∃ m, n = m + 1 := ⟨n - 1, by omega⟩
    split_ifs with hs hm
    · -- the last one that is asked for
      obtain rfl : m = 0 := by omega
      simp
    · rw [List.take_succ_cons, ← ih (by omega) hq']
      congr 2
      push_cast
      omega
    · exact ih hn hq'

/-- Entries that are not exclusive do not count. -/
theorem roused_append (sleeps : τ → Bool) (nr : ℤ) {q q' : List (WaitQueueEntry τ)}
    (hq : ∀ w ∈ q, w.exclusive = false) :
    roused sleeps nr (q ++ q') = (q.map (·.task)).filter sleeps ++ roused sleeps nr q' := by
  induction q with
  | nil => rfl
  | cons curr q ih =>
    have hcurr := hq curr (List.mem_cons_self ..)
    have hrest := ih fun w hw => hq w (List.mem_cons_of_mem _ hw)
    rw [List.cons_append, roused, List.map_cons, List.filter_cons]
    by_cases hs : sleeps curr.task = true
    · simp [hs, hcurr, hrest]
    · simp [hs, hrest]

/-! ### The core wakeup function -/

variable [DecidableEq τ] {K : Kernel τ Q} {s : Rq τ Q}

/-- A wakeup of any task from a state of the invariant: it takes place when the task is asleep in
one of the asked states, and tells so. -/
theorem tryToWakeUp_spec (h : Inv K s) (p : τ) (mask flags : ℕ) :
    (tryToWakeUp K s p mask flags).1 = asleepIn mask (s.ctl p) ∧
    Inv K (tryToWakeUp K s p mask flags).2 ∧
    (tryToWakeUp K s p mask flags).2.curr = s.curr ∧
    (tryToWakeUp K s p mask flags).2.ctl =
      if asleepIn mask (s.ctl p) then Function.update s.ctl p (awakened (s.ctl p)) else s.ctl := by
  have htold : (tryToWakeUp K s p mask flags).1 = asleepIn mask (s.ctl p) := by
    rw [tryToWakeUp, asleepIn]
    change _ = decide ((s.task p).state &&& mask ≠ 0)
    split_ifs with h0 hon <;> simp [h0]
  rcases Bool.eq_false_or_eq_true (asleepIn mask (s.ctl p)) with hs | hs
  · have hne : (s.ctl p).state &&& mask ≠ 0 := by simpa [asleepIn] using hs
    have hp : p ≠ s.idle := by
      rintro rfl
      exact hne (by rw [h.idle_state, Nat.zero_and])
    rcases wakes_tryToWakeUp (K := K) mask flags (h.schedClass_ne_idle hp) h.prio_lt with
      ⟨-, h0⟩ | ⟨-, hw⟩
    · exact absurd h0 hne
    · exact ⟨htold, h.of_wakes hw hp, hw.curr, by rw [hs, if_pos rfl]; exact hw.ctl⟩
  · have h0 : (s.ctl p).state &&& mask = 0 := by simpa [asleepIn] using hs
    change (s.task p).state &&& mask = 0 at h0
    have hsame : (tryToWakeUp K s p mask flags).2 = s := by rw [tryToWakeUp, if_pos h0]
    rw [htold, hsame, hs]
    exact ⟨rfl, h, rfl, rfl⟩

/-- The core wakeup function wakes the tasks of `roused` and changes nothing about the others. -/
theorem wakeUpCommon_spec (h : Inv K s) (mode wakeFlags : ℕ) (nr : ℤ)
    {q : List (WaitQueueEntry τ)} (hnd : (q.map (·.task)).Nodup) :
    Inv K (wakeUpCommon K mode wakeFlags s nr q) ∧
    (wakeUpCommon K mode wakeFlags s nr q).curr = s.curr ∧
    ∀ t, (wakeUpCommon K mode wakeFlags s nr q).ctl t =
      if t ∈ roused (fun u => asleepIn mode (s.ctl u)) nr q then awakened (s.ctl t)
      else s.ctl t := by
  induction q generalizing s nr with
  | nil => exact ⟨h, rfl, fun t => by simp [wakeUpCommon, roused]⟩
  | cons curr q ih =>
    rw [List.map_cons, List.nodup_cons] at hnd
    obtain ⟨hnot, hnd⟩ := hnd
    obtain ⟨htold, hinv, hcurr, hctl⟩ := tryToWakeUp_spec h curr.task mode wakeFlags
    obtain ⟨u, hu⟩ : ∃ u, u = (tryToWakeUp K s curr.task mode wakeFlags).2 := ⟨_, rfl⟩
    rw [← hu] at hinv hcurr hctl
    -- the entries that follow are those of other tasks
    have hrest : ∀ nr, roused (fun t => asleepIn mode (u.ctl t)) nr q =
        roused (fun t => asleepIn mode (s.ctl t)) nr q := by
      refine fun nr => roused_congr nr fun w hw => ?_
      have hne : w.task ≠ curr.task := fun he => hnot (he ▸ List.mem_map_of_mem hw)
      rw [hctl]
      split_ifs
      · rw [Function.update_of_ne hne]
      · rfl
    have hnotin : ∀ nr, curr.task ∉ roused (fun t => asleepIn mode (s.ctl t)) nr q :=
      fun nr hm => hnot ((roused_sublist _ nr q).subset hm)
    have hpair : tryToWakeUp K s curr.task mode wakeFlags = (asleepIn mode (s.ctl curr.task), u) :=
      Prod.ext htold hu.symm
    rw [wakeUpCommon, defaultWakeFunction, hpair, roused]
    dsimp only
    by_cases hs : asleepIn mode (s.ctl curr.task) = true
    · rw [if_pos hs] at hctl
      have hself : u.ctl curr.task = awakened (s.ctl curr.task) := by
        rw [hctl, Function.update_self]
      have hother : ∀ t, t ≠ curr.task → u.ctl t = s.ctl t := fun t ht => by
        rw [hctl, Function.update_of_ne ht]
      -- the rest of the scan, when there is one
      have hscan : ∀ nr t, (wakeUpCommon K mode wakeFlags u nr q).ctl t =
          if t ∈ curr.task :: roused (fun t => asleepIn mode (s.ctl t)) nr q then
            awakened (s.ctl t) else s.ctl t := by
        intro nr t
        rw [(ih hinv nr hnd).2.2 t, hrest]
        by_cases ht : t = curr.task
        · subst ht
          simp [hnotin, hself]
        · simp [ht, hother t ht]
      by_cases he : curr.exclusive = true
      · simp only [hs, he, and_self, if_true]
        split_ifs with hn
        · refine ⟨hinv, hcurr, fun t => ?_⟩
          by_cases ht : t = curr.task
          · subst ht; simp [hself]
          · simp [ht, hother t ht]
        · exact ⟨(ih hinv _ hnd).1, (ih hinv _ hnd).2.1.trans hcurr, hscan _⟩
      · simp only [hs, he, Bool.false_eq_true, and_false, if_false, if_true]
        exact ⟨(ih hinv _ hnd).1, (ih hinv _ hnd).2.1.trans hcurr, hscan _⟩
    · rw [if_neg hs] at hctl
      simp only [hs, Bool.false_eq_true, false_and, if_false]
      refine ⟨(ih hinv _ hnd).1, (ih hinv _ hnd).2.1.trans hcurr, fun t => ?_⟩
      rw [(ih hinv _ hnd).2.2 t, hrest, hctl]

/-- A call of the core wakeup function is a sequence of wakeups. -/
theorem reachable_wakeUpCommon (h : Reachable (system K) s) (mode wakeFlags : ℕ) (nr : ℤ)
    (q : List (WaitQueueEntry τ)) :
    Reachable (system K) (wakeUpCommon K mode wakeFlags s nr q) := by
  induction q generalizing s nr with
  | nil => exact h
  | cons curr q ih =>
    have hstep : Reachable (system K) (tryToWakeUp K s curr.task mode wakeFlags).2 :=
      h.step (a := ⟨s.schedClock, .tryToWakeUp curr.task mode wakeFlags⟩)
        (step_iff.mpr ⟨trivial, rfl⟩)
    rw [wakeUpCommon, defaultWakeFunction]
    dsimp only
    split_ifs
    · exact hstep
    · exact ih hstep _
    · exact ih hstep _

/-- The entries of a queue that `add_wait_queue` and `add_wait_queue_exclusive` have filled: those
that are not exclusive are in front. -/
def waitQueue (shared exclusive : List τ) : List (WaitQueueEntry τ) :=
  shared.map (fun t => ⟨t, false⟩) ++ exclusive.map fun t => ⟨t, true⟩

/-- "We wake all the non-exclusive tasks and one exclusive task", or as many exclusive ones as the
caller asks for, in the order in which they were queued; no other task changes its state. -/
theorem wake_up_common_in_order (h : Reachable (system K) s) (mode wakeFlags : ℕ) {n : ℕ}
    (hn : 0 < n) {shared exclusive : List τ} (hnd : (shared ++ exclusive).Nodup) (t : τ) :
    (wakeUpCommon K mode wakeFlags s n (waitQueue shared exclusive)).ctl t =
      if t ∈ shared.filter (fun u => asleepIn mode (s.ctl u)) ++
          (exclusive.filter fun u => asleepIn mode (s.ctl u)).take n then awakened (s.ctl t)
      else s.ctl t := by
  have htasks : (waitQueue shared exclusive).map (·.task) = shared ++ exclusive := by
    simp [waitQueue, Function.comp_def]
  rw [(wakeUpCommon_spec (reachable_inv h) mode wakeFlags n (htasks ▸ hnd)).2.2 t, waitQueue,
    roused_append _ _ (by simp), roused_exclusive _ hn (by simp)]
  simp only [List.map_map, Function.comp_def, List.map_id']

/-- Three tasks sleep in states that a wakeup asks for or does not. -/
def sleepers : List (Op ℕ) :=
  [.wakeUpNewTask 1, reschedule, .setCurrentState 2, .schedule false false none,
    .wakeUpNewTask 2, reschedule, .setCurrentState 1, .schedule false false none,
    .wakeUpNewTask 3, reschedule, .setCurrentState 2, .schedule false false none]

theorem wake_up_common_in_order_sleepers :
    ∃ s, referenceRun sleepers = some s ∧
      (wakeUpCommon (referenceKernel ℕ) taskNormal 0 s (1 : ℕ) (waitQueue [3] [1, 2])).ctl 2 =
        if 2 ∈ [3].filter (fun u => asleepIn taskNormal (s.ctl u)) ++
            ([1, 2].filter fun u => asleepIn taskNormal (s.ctl u)).take 1 then
          awakened (s.ctl 2) else s.ctl 2 := by
  have hrun : referenceRun sleepers = some ((referenceRun sleepers).get (by decide +kernel)) := by
    simp
  exact ⟨_, hrun, wake_up_common_in_order (reachable_referenceRun hrun) taskNormal 0
    (by decide) (by decide) 2⟩

end OsProject.Sched
