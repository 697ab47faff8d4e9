import OsProject.Sched.RtGroups

/-!
# Throttled groups and the pick

A real-time task is eligible when neither its group nor one above it is throttled. Then each of
these groups is queued on the run queue above it, and so the root run queue is not empty and its
best priority is no worse than that of the task. The descent of `_pick_next_task_rt` follows the
first entity of the best priority from one run queue to the next, and ends at an eligible task of the
best priority. A boosted task counts in every group above it, so that it is always eligible.

## Main definitions

* `RtEligible` — no group of the task is throttled.
* `rtTasks` — the queued tasks.

## Main results

* `RtRqsHold.pickNextRtTask_spec`.
* `RtRqsHold.eligible_of_boosted`, `RtRqsHold.exists_boosted`.
* `RtRqsHold.mem_rtTasks`.
-/

namespace OsProject.Sched

variable {τ : Type*} {rt : RtRqs τ} {ctl : τ → TaskControl} {R : Finset τ} {g k : RtGroup} {p : τ}

/-- Neither the group of the task nor one above it is throttled. -/
def RtEligible (rt : RtRqs τ) (c : TaskControl) : Prop :=
  ∀ g ∈ c.schedTaskGroup.rtRq.tails, rtRqThrottled (rt.rq g) = false

instance (rt : RtRqs τ) (c : TaskControl) : Decidable (RtEligible rt c) :=
  inferInstanceAs (Decidable (∀ g ∈ c.schedTaskGroup.rtRq.tails, rtRqThrottled (rt.rq g) = false))

theorem rtEligible_iff {c : TaskControl} : RtEligible rt c ↔
    ∀ g, g <:+ c.schedTaskGroup.rtRq → rtRqThrottled (rt.rq g) = false := by
  simp only [RtEligible, List.mem_tails]

theorem not_rtEligible_iff {c : TaskControl} : ¬RtEligible rt c ↔
    ∃ g, g <:+ c.schedTaskGroup.rtRq ∧ rtRqThrottled (rt.rq g) = true := by
  simp [rtEligible_iff]

theorem RtEligible.root {c : TaskControl} (h : RtEligible rt c) :
    rtRqThrottled (rt.rq []) = false := rtEligible_iff.mp h [] List.nil_suffix

/-- The task of an entity that is one. -/
def RtEntity.asTask : RtEntity τ → Option τ
  | .task p => some p
  | .group _ => none

@[simp] theorem RtEntity.asTask_task (p : τ) : (RtEntity.task p).asTask = some p := rfl
@[simp] theorem RtEntity.asTask_group (g : RtGroup) : (RtEntity.group g : RtEntity τ).asTask = none :=
  rfl

/-- The tasks on the lists of the run queues in use. -/
def rtTasks (rt : RtRqs τ) : List τ :=
  rt.leafRtRqList.flatMap fun g => (List.range 100).flatMap fun i : ℕ =>
    ((rt.rq g).queue i).filterMap RtEntity.asTask

namespace RtRqsHold

/-! ### From a group up to the root -/

/-- A group that is queued is an entity of the run queue above it. -/
theorem of_groupQueued {x : String} (h : RtRqsHold rt ctl R) (hq : GroupQueued rt (x :: g)) :
    (rt.rq g).rtNrRunning ≠ 0 ∧ (rt.rq g).highestPrio ≤ (rt.rq (x :: g)).highestPrio ∧
      ((rt.rq (x :: g)).rtNrBoosted ≠ 0 → (rt.rq g).rtNrBoosted ≠ 0) := by
  obtain ⟨M, hM, hheld⟩ := RtLinked.rq h g
  have hmem : .group (x :: g) ∈ M := (hM _).mpr ⟨hq, rfl⟩
  refine ⟨hheld.rtNrRunning_ne_zero_iff.mpr ⟨_, hmem⟩, hheld.highestPrio_le hmem, fun hb => ?_⟩
  exact hheld.rtNrBoosted_ne_zero_iff.mpr ⟨_, hmem, by simpa [rtSeBoosted] using hb⟩

/-- A task is an entity of the run queue of its group. -/
theorem of_mem (h : RtRqsHold rt ctl R) (hp : p ∈ R) :
    (rt.rq (ctl p).schedTaskGroup.rtRq).rtNrRunning ≠ 0 ∧
      (rt.rq (ctl p).schedTaskGroup.rtRq).highestPrio ≤ (ctl p).prio ∧
      (rtTaskBoosted (ctl p) = true → (rt.rq (ctl p).schedTaskGroup.rtRq).rtNrBoosted ≠ 0) := by
  obtain ⟨M, hM, hheld⟩ := RtLinked.rq h (ctl p).schedTaskGroup.rtRq
  have hmem : .task p ∈ M := (hM _).mpr ⟨hp, rfl⟩
  exact ⟨hheld.rtNrRunning_ne_zero_iff.mpr ⟨_, hmem⟩, hheld.highestPrio_le hmem,
    fun hb => hheld.rtNrBoosted_ne_zero_iff.mpr ⟨_, hmem, hb⟩⟩

/-- From a group up to `k` through groups that are not throttled, every run queue is represented in
those above. -/
theorem above_of_open (h : RtRqsHold rt ctl R) (hk : k <:+ g)
    (hopen : ∀ j, j <:+ g → k.length < j.length → rtRqThrottled (rt.rq j) = false)
    (hn : (rt.rq g).rtNrRunning ≠ 0) :
    (rt.rq k).rtNrRunning ≠ 0 ∧ (rt.rq k).highestPrio ≤ (rt.rq g).highestPrio := by
  induction g with
  | nil =>
    obtain rfl := List.suffix_nil.mp hk
    exact ⟨hn, le_refl _⟩
  | cons x g ih =>
    rcases List.suffix_cons_iff.mp hk with rfl | hk
    · exact ⟨hn, le_refl _⟩
    · have hlen := hk.length_le
      have hthr := hopen _ (List.suffix_refl _) (by simp only [List.length_cons]; omega)
      have hq : GroupQueued rt (x :: g) := groupQueued_iff.mpr ⟨by simp, hthr, hn⟩
      obtain ⟨hn', hle, -⟩ := h.of_groupQueued hq
      obtain ⟨habove, hbest⟩ := ih hk (fun j hj => hopen j (hj.trans (List.suffix_cons ..))) hn'
      exact ⟨habove, hbest.trans hle⟩

/-- An eligible task is represented in the root run queue. -/
theorem root_of_eligible (h : RtRqsHold rt ctl R) (hp : p ∈ R) (he : RtEligible rt (ctl p)) :
    (rt.rq []).rtNrRunning ≠ 0 ∧ (rt.rq []).highestPrio ≤ (ctl p).prio := by
  obtain ⟨hn, hle, -⟩ := h.of_mem hp
  obtain ⟨hroot, hbest⟩ :=
    h.above_of_open List.nil_suffix (fun j hj _ => rtEligible_iff.mp he j hj) hn
  exact ⟨hroot, hbest.trans hle⟩

theorem rtNrRunning_of_boosted (h : RtRqsHold rt ctl R) (hb : (rt.rq g).rtNrBoosted ≠ 0) :
    (rt.rq g).rtNrRunning ≠ 0 := by
  obtain ⟨M, -, hheld⟩ := RtLinked.rq h g
  obtain ⟨e, he, -⟩ := hheld.rtNrBoosted_ne_zero_iff.mp hb
  exact hheld.rtNrRunning_ne_zero_iff.mpr ⟨e, he⟩

/-- A group with a boosted entity is not throttled, and is a boosted entity itself. -/
theorem boosted_above (h : RtRqsHold rt ctl R) (hb : (rt.rq g).rtNrBoosted ≠ 0) (hk : k <:+ g) :
    (rt.rq k).rtNrBoosted ≠ 0 := by
  induction g with
  | nil =>
    obtain rfl := List.suffix_nil.mp hk
    exact hb
  | cons x g ih =>
    rcases List.suffix_cons_iff.mp hk with rfl | hk
    · exact hb
    · have hq : GroupQueued rt (x :: g) :=
        groupQueued_iff.mpr ⟨by simp, by simp [rtRqThrottled, hb], h.rtNrRunning_of_boosted hb⟩
      exact ih ((h.of_groupQueued hq).2.2 hb) hk

/-- A boosted task counts in every group above it. -/
theorem boosted_of_mem (h : RtRqsHold rt ctl R) (hp : p ∈ R) (hb : rtTaskBoosted (ctl p) = true)
    (hk : k <:+ (ctl p).schedTaskGroup.rtRq) : (rt.rq k).rtNrBoosted ≠ 0 :=
  h.boosted_above ((h.of_mem hp).2.2 hb) hk

theorem eligible_of_boosted (h : RtRqsHold rt ctl R) (hp : p ∈ R)
    (hb : rtTaskBoosted (ctl p) = true) : RtEligible rt (ctl p) :=
  rtEligible_iff.mpr fun _ hk => by simp [rtRqThrottled, h.boosted_of_mem hp hb hk]

/-! ### From a group down to a task -/

/-- The number of run queues in use at a group and below it. -/
def rqsBelow (rt : RtRqs τ) (g : RtGroup) : ℕ := rt.leafRtRqList.countP fun k => g <:+ k

theorem rqsBelow_pos (h : RtRqsHold rt ctl R) (hn : (rt.rq g).rtNrRunning ≠ 0) :
    0 < rqsBelow rt g :=
  List.countP_pos_iff.mpr ⟨g, RtLinked.leaf h g hn, by simp⟩

theorem rqsBelow_lt {x : String} (h : RtRqsHold rt ctl R) (hn : (rt.rq g).rtNrRunning ≠ 0) :
    rqsBelow rt (x :: g) < rqsBelow rt g := by
  have hsub : rqsBelow rt (x :: g) =
      (rt.leafRtRqList.filter fun k => decide (g <:+ k)).countP fun k => decide (x :: g <:+ k) := by
    rw [rqsBelow, List.countP_filter]
    refine List.countP_congr fun k _ => ?_
    simp only [decide_eq_true_eq, Bool.and_eq_true, iff_self_and]
    exact (List.suffix_cons x g).trans
  rw [hsub, rqsBelow, List.countP_eq_length_filter (p := fun k => decide (g <:+ k)),
    List.countP_lt_length_iff]
  refine ⟨g, List.mem_filter.mpr ⟨RtLinked.leaf h g hn, by simp⟩, ?_⟩
  simp only [decide_eq_false_iff_not]
  intro hsuf
  have := hsuf.length_le
  simp only [List.length_cons] at this
  omega

/-- A boosted entity of a group is a boosted task, or a group below with another one. -/
theorem exists_boosted (h : RtRqsHold rt ctl R) (hb : (rt.rq g).rtNrBoosted ≠ 0) :
    ∃ p ∈ R, rtTaskBoosted (ctl p) = true ∧ g <:+ (ctl p).schedTaskGroup.rtRq := by
  obtain ⟨n, hn⟩ : ∃ n, n = rqsBelow rt g := ⟨_, rfl⟩
  induction n using Nat.strong_induction_on generalizing g with
  | _ n ih =>
    obtain ⟨M, hM, hheld⟩ := RtLinked.rq h g
    obtain ⟨e, he, hboost⟩ := hheld.rtNrBoosted_ne_zero_iff.mp hb
    obtain ⟨hlinked, hrq⟩ := (hM e).mp he
    cases e with
    | task p => exact ⟨p, hlinked, hboost, hrq ▸ List.suffix_refl g⟩
    | group k =>
      obtain ⟨x, rfl⟩ : ∃ x, k = x :: g := by
        cases k with
        | nil => exact absurd hlinked (RtLinked.root h)
        | cons x k => exact ⟨x, by rw [← hrq]; rfl⟩
      have hb' : (rt.rq (x :: g)).rtNrBoosted ≠ 0 := by simpa [rtSeBoosted] using hboost
      have hlt : rqsBelow rt (x :: g) < n := hn ▸ h.rqsBelow_lt (h.rtNrRunning_of_boosted hb)
      obtain ⟨p, hp, hpb, hsuf⟩ := ih _ hlt hb' rfl
      exact ⟨p, hp, hpb, (List.suffix_cons x g).trans hsuf⟩

/-- The throttling of a group is lifted by a boosted task below it. -/
theorem exists_boosted_of_flag (h : RtRqsHold rt ctl R) (hflag : rt.throttled g = true)
    (hthr : rtRqThrottled (rt.rq g) = false) :
    ∃ p ∈ R, rtTaskBoosted (ctl p) = true ∧ g <:+ (ctl p).schedTaskGroup.rtRq := by
  refine h.exists_boosted fun hb => ?_
  have hflag : (rt.rq g).rtThrottled = true := hflag
  simp [rtRqThrottled, hflag, hb] at hthr

/-- The loop of `_pick_next_task_rt` from the run queue of a group on: it ends at the first task of a
list of its group, at the best priority of the run queue that it started at, and has come through
groups that are not throttled. -/
theorem pickNextRtTask_below (h : RtRqsHold rt ctl R) {n : ℕ} (hn : (rt.rq g).rtNrRunning ≠ 0)
    (hle : rqsBelow rt g ≤ n) :
    ∃ p ∈ R, pickNextRtTask rt n g = some p ∧ g <:+ (ctl p).schedTaskGroup.rtRq ∧
      (ctl p).prio = (rt.rq g).highestPrio ∧
      ((rt.rq (ctl p).schedTaskGroup.rtRq).queue (ctl p).prio).head? = some (.task p) ∧
      ∀ k, k <:+ (ctl p).schedTaskGroup.rtRq → g.length < k.length →
        rtRqThrottled (rt.rq k) = false := by
  induction n generalizing g with
  | zero =>
    have := h.rqsBelow_pos hn
    omega
  | succ n ih =>
    obtain ⟨M, hM, hheld⟩ := RtLinked.rq h g
    obtain ⟨e, l, hq, he, hprio, -⟩ :=
      hheld.schedFindFirstBit_spec (hheld.rtNrRunning_ne_zero_iff.mp hn)
    have hfirst : pickNextRtEntity (rt.rq g) = some e := by rw [pickNextRtEntity, hq, List.head?_cons]
    have hbit : rtSePrio rt ctl e = (rt.rq g).highestPrio := hprio.trans hheld.highestPrio.symm
    obtain ⟨hlinked, hrq⟩ := (hM e).mp he
    rw [pickNextRtTask, hfirst]
    cases e with
    | task p =>
      have hrq : (ctl p).schedTaskGroup.rtRq = g := hrq
      have hprio : (ctl p).prio = schedFindFirstBit (rt.rq g) := hprio
      refine ⟨p, hlinked, rfl, by rw [hrq], hbit, by rw [hrq, hprio, hq, List.head?_cons], ?_⟩
      rw [hrq]
      intro k hk hlt
      have := hk.length_le
      omega
    | group k =>
      obtain ⟨x, rfl⟩ : ∃ x, k = x :: g := by
        cases k with
        | nil => exact absurd hlinked (RtLinked.root h)
        | cons x k => exact ⟨x, by rw [← hrq]; rfl⟩
      obtain ⟨-, hthr, hn'⟩ := groupQueued_iff.mp (show GroupQueued rt (x :: g) from hlinked)
      have hlt := h.rqsBelow_lt (x := x) hn
      obtain ⟨p, hp, hpick, hsuf, hpprio, hhead, hopen⟩ := ih hn' (by omega)
      refine ⟨p, hp, hpick, (List.suffix_cons x g).trans hsuf, hpprio.trans hbit, hhead,
        fun k hk hlen => ?_⟩
      by_cases hlen' : k.length = (x :: g).length
      · have heq : k = x :: g :=
          (List.suffix_of_suffix_length_le hk hsuf (by omega)).eq_of_length hlen'
        rw [heq]
        exact hthr
      · refine hopen k hk ?_
        simp only [List.length_cons] at hlen' ⊢
        omega

/-- When the root run queue is neither empty nor throttled, the pick is an eligible task, the first
one of its list, and no eligible task has a better priority. -/
theorem pickNextRtTask_spec (h : RtRqsHold rt ctl R) (hn : (rt.rq []).rtNrRunning ≠ 0)
    (hthr : rtRqThrottled (rt.rq []) = false) :
    ∃ p ∈ R, pickNextRtTask rt rt.leafRtRqList.length [] = some p ∧ RtEligible rt (ctl p) ∧
      ((rt.rq (ctl p).schedTaskGroup.rtRq).queue (ctl p).prio).head? = some (.task p) ∧
      ∀ t ∈ R, RtEligible rt (ctl t) → (ctl p).prio ≤ (ctl t).prio := by
  obtain ⟨p, hp, hpick, -, hprio, hhead, hopen⟩ := h.pickNextRtTask_below hn List.countP_le_length
  refine ⟨p, hp, hpick, rtEligible_iff.mpr fun k hk => ?_, hhead, fun t ht he => ?_⟩
  · cases k with
    | nil => exact hthr
    | cons x k => exact hopen _ hk (by simp)
  · rw [hprio]
    exact (h.root_of_eligible ht he).2

/-- An eligible task of the root task group that is the first one of its list is picked when no
eligible task has a better priority. -/
theorem pickNextRtTask_of_head (h : RtRqsHold rt ctl R) (hp : p ∈ R) (helig : RtEligible rt (ctl p))
    (hhead : ((rt.rq []).queue (ctl p).prio).head? = some (.task p))
    (hbest : ∀ t ∈ R, RtEligible rt (ctl t) → (ctl p).prio ≤ (ctl t).prio) :
    pickNextRtTask rt rt.leafRtRqList.length [] = some p := by
  obtain ⟨hn, hle⟩ := h.root_of_eligible hp helig
  obtain ⟨M, -, hheld⟩ := RtLinked.rq h []
  obtain ⟨t, ht, hpick, -, hprio, -⟩ := h.pickNextRtTask_below hn List.countP_le_length
  obtain ⟨u, -, hpick', helig', -⟩ := h.pickNextRtTask_spec hn helig.root
  obtain rfl : t = u := Option.some.inj (hpick.symm.trans hpick')
  have hbit : schedFindFirstBit (rt.rq []) = (ctl p).prio := by
    rw [← hheld.highestPrio]
    exact le_antisymm hle ((hbest t ht helig').trans_eq hprio)
  cases hlen : rt.leafRtRqList.length with
  | zero =>
    have hmem := RtLinked.leaf h [] hn
    rw [List.length_eq_zero_iff.mp hlen] at hmem
    cases hmem
  | succ n => rw [pickNextRtTask, pickNextRtEntity, hbit, hhead]

/-! ### The queued tasks -/

theorem mem_rtTasks (h : RtRqsHold rt ctl R) : p ∈ rtTasks rt ↔ p ∈ R := by
  simp only [rtTasks, List.mem_flatMap, List.mem_filterMap, List.mem_range]
  constructor
  · rintro ⟨g, -, i, -, e, he, hp⟩
    obtain ⟨M, hM, hheld⟩ := RtLinked.rq h g
    cases e with
    | task q =>
      obtain rfl := Option.some.inj hp
      exact ((hM _).mp ((hheld.mem_queue i _).mp he).1).1
    | group k => cases hp
  · intro hp
    obtain ⟨M, hM, hheld⟩ := RtLinked.rq h (ctl p).schedTaskGroup.rtRq
    have hmem : .task p ∈ M := (hM _).mpr ⟨hp, rfl⟩
    have hprio := hheld.prio_mem _ hmem
    simp only [maxRtPrio] at hprio
    refine ⟨_, RtLinked.leaf h _ (h.of_mem hp).1, (rtSePrio rt ctl (.task p)).toNat, by omega,
      .task p, ?_, rfl⟩
    exact (hheld.mem_queue _ _).mpr ⟨hmem, by omega⟩

end RtRqsHold

end OsProject.Sched
