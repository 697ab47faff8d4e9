import OsProject.Sched.RtQueues

/-!
# What the real-time run queues of the task groups hold

The real-time run queues hold a set of tasks when the run queue of each group holds the entities of
the tasks of the group, and those of the groups directly below it that have an entity queued and are
not throttled. Enqueueing and dequeueing a task takes the groups above it off their run queues, from
the top down, and queues those that still belong there again, from the bottom up: while a group is
off, its run queue may change without disturbing the one above it.

## Main definitions

* `RtLinked` — the run queues hold a set of entities.
* `RtRqsHold` — they hold the entities of a set of tasks, and of the groups that belong there.

## Main results

* `RtRqsHold.enqueueRtEntity`, `RtRqsHold.dequeueRtEntity`, `RtRqsHold.requeue`.
* `RtRqsHold.restack` — queueing a group again, or taking it off.
* `RtRqsHold.schedRtRuntimeExceeded` — throttling keeps the tasks held.
-/

namespace OsProject.Sched

variable {τ : Type*}

/-! ### The entities of a group and of those above it -/

theorem mem_groupEntities {g : RtGroup} {e : RtEntity τ} :
    e ∈ groupEntities g ↔ ∃ k, e = .group k ∧ k ≠ [] ∧ k <:+ g := by
  induction g with
  | nil => simp [groupEntities]
  | cons x g ih =>
    rw [groupEntities, List.mem_cons, ih]
    constructor
    · rintro (rfl | ⟨k, rfl, hk, hsuf⟩)
      · exact ⟨_, rfl, by simp, List.suffix_refl _⟩
      · exact ⟨k, rfl, hk, hsuf.trans (List.suffix_cons ..)⟩
    · rintro ⟨k, rfl, hk, hsuf⟩
      rcases List.suffix_cons_iff.mp hsuf with rfl | hsuf
      · exact .inl rfl
      · exact .inr ⟨k, rfl, hk, hsuf⟩

theorem group_mem_groupEntities {g k : RtGroup} :
    (.group k : RtEntity τ) ∈ groupEntities g ↔ k ≠ [] ∧ k <:+ g := by
  simp [mem_groupEntities]

theorem task_notMem_groupEntities {g : RtGroup} {p : τ} : .task p ∉ groupEntities g := by
  simp [mem_groupEntities]

theorem group_cons_notMem_groupEntities {x : String} {g : RtGroup} :
    (.group (x :: g) : RtEntity τ) ∉ groupEntities g := by
  rw [group_mem_groupEntities]
  rintro ⟨-, hsuf⟩
  have := hsuf.length_le
  simp only [List.length_cons] at this
  omega

/-! ### Holding a set of entities -/

/-- The run queue of each group holds those entities of `L` that hang off it. -/
structure RtLinked (rt : RtRqs τ) (ctl : τ → TaskControl) (L : RtEntity τ → Prop) : Prop where
  rq : ∀ g, ∃ M, (∀ e, e ∈ M ↔ L e ∧ rtRqOfSe ctl e = g) ∧
    RtHolds (rt.rq g) (rtSePrio rt ctl) (rtSeBoosted rt ctl) M
  root : ¬L (.group [])
  leaf : ∀ g, (rt.rq g).rtNrRunning ≠ 0 → g ∈ rt.leafRtRqList

namespace RtLinked

variable {rt rt' : RtRqs τ} {ctl ctl' : τ → TaskControl} {L L' : RtEntity τ → Prop}
  {e : RtEntity τ} {g : RtGroup}

/-- Another set that contains the same entities. -/
theorem of_iff (h : RtLinked rt ctl L) (hL : ∀ e, L' e ↔ L e) : RtLinked rt ctl L' := by
  obtain rfl : L' = L := funext fun e => propext (hL e)
  exact h

/-- The lists, the counters and the best priorities are all that matters of the run queues, and the
priorities and the groups all that matters of the tasks. -/
theorem congr (h : RtLinked rt ctl L)
    (hrq : ∀ g, (rt'.rq g).queue = (rt.rq g).queue ∧
      (rt'.rq g).rtNrRunning = (rt.rq g).rtNrRunning ∧
      (rt'.rq g).rtNrBoosted = (rt.rq g).rtNrBoosted ∧
      (rt'.rq g).highestPrio = (rt.rq g).highestPrio)
    (hleaf : rt'.leafRtRqList = rt.leafRtRqList)
    (hctl : ∀ p, L (.task p) → (ctl' p).prio = (ctl p).prio ∧
      (ctl' p).normalPrio = (ctl p).normalPrio ∧
      (ctl' p).schedTaskGroup = (ctl p).schedTaskGroup) : RtLinked rt' ctl' L where
  rq g := by
    obtain ⟨M, hM, hheld⟩ := h.rq g
    obtain ⟨hq, hn, hb, hp⟩ := hrq g
    have hse : ∀ e, L e → rtRqOfSe ctl' e = rtRqOfSe ctl e ∧ rtSePrio rt' ctl' e = rtSePrio rt ctl e ∧
        rtSeBoosted rt' ctl' e = rtSeBoosted rt ctl e := by
      intro e he
      cases e with
      | task p =>
        obtain ⟨hprio, hnormal, hgroup⟩ := hctl p he
        simp only [rtRqOfSe, rtSePrio, rtSeBoosted, rtTaskBoosted, hprio, hnormal, hgroup, and_self]
      | group k =>
        obtain ⟨-, -, hb, hp⟩ := hrq k
        simp only [rtRqOfSe, rtSePrio, rtSeBoosted, hb, hp, and_self]
    refine ⟨M, fun e => ?_, hheld.congr hq hn hb hp fun e he => (hse e ((hM e).mp he).1).2⟩
    rw [hM e]
    exact and_congr_right fun he => by rw [(hse e he).1]
  root := h.root
  leaf g hg := by
    rw [hleaf]
    exact h.leaf g ((hrq g).2.1 ▸ hg)

/-- The run queue of one group is changed, and the entities of the others keep their priorities. -/
theorem update {q : RtRq τ} {M : Finset (RtEntity τ)} (h : RtLinked rt ctl L)
    (hrq : rt'.rq = Function.update rt.rq g q)
    (hM : ∀ e, e ∈ M ↔ L' e ∧ rtRqOfSe ctl e = g)
    (hq : RtHolds q (rtSePrio rt ctl) (rtSeBoosted rt ctl) M)
    (hother : ∀ e, rtRqOfSe ctl e ≠ g → (L' e ↔ L e)) (hroot : ¬L' (.group []))
    (hkeep : L' (.group g) →
      q.highestPrio = (rt.rq g).highestPrio ∧ q.rtNrBoosted = (rt.rq g).rtNrBoosted)
    (hleaf : ∀ k ∈ rt.leafRtRqList, k ≠ g → k ∈ rt'.leafRtRqList)
    (hleafSelf : q.rtNrRunning ≠ 0 → g ∈ rt'.leafRtRqList) : RtLinked rt' ctl L' := by
  have hself : rt'.rq g = q := by rw [hrq, Function.update_self]
  have hne : ∀ k, k ≠ g → rt'.rq k = rt.rq k := fun k hk => by rw [hrq, Function.update_of_ne hk]
  have hse : ∀ e, L' e → rtSePrio rt' ctl e = rtSePrio rt ctl e ∧
      rtSeBoosted rt' ctl e = rtSeBoosted rt ctl e := by
    intro e he
    cases e with
    | task p => exact ⟨rfl, rfl⟩
    | group k =>
      by_cases hk : k = g
      · subst hk
        obtain ⟨hp, hb⟩ := hkeep he
        simp only [rtSePrio, rtSeBoosted, hself, hp, hb, and_self]
      · simp only [rtSePrio, rtSeBoosted, hne k hk, and_self]
  refine ⟨fun k => ?_, hroot, fun k hk => ?_⟩
  · by_cases hkg : k = g
    · subst hkg
      rw [hself]
      exact ⟨M, hM, hq.congr rfl rfl rfl rfl fun e he => hse e ((hM e).mp he).1⟩
    · obtain ⟨N, hN, hheld⟩ := h.rq k
      have hmem : ∀ e, e ∈ N ↔ L' e ∧ rtRqOfSe ctl e = k := fun e => by
        rw [hN e]
        exact and_congr_left fun he => (hother e (by rw [he]; exact hkg)).symm
      rw [hne k hkg]
      exact ⟨N, hmem, hheld.congr rfl rfl rfl rfl fun e he => hse e ((hmem e).mp he).1⟩
  · by_cases hkg : k = g
    · subst hkg
      exact hleafSelf (by rwa [hself] at hk)
    · exact hleaf k (h.leaf k (by rwa [hne k hkg] at hk)) hkg

variable [DecidableEq τ]

theorem onRtRq_iff (h : RtLinked rt ctl L) : onRtRq rt ctl e = true ↔ L e := by
  obtain ⟨M, hM, hheld⟩ := h.rq (rtRqOfSe ctl e)
  rw [onRtRq, hheld.any_queue_iff, hM e, and_iff_left rfl]

/-- Taking off an entity that hangs off a group which is not queued itself. -/
theorem dequeueOneRtEntity (h : RtLinked rt ctl L) (he : L e)
    (hup : ¬L (.group (rtRqOfSe ctl e))) :
    RtLinked (dequeueOneRtEntity rt ctl e) ctl fun d => L d ∧ d ≠ e := by
  obtain ⟨M, hM, hheld⟩ := h.rq (rtRqOfSe ctl e)
  have heM : e ∈ M := (hM e).mpr ⟨he, rfl⟩
  refine h.update rfl (fun d => ?_) (hheld.decRtTasks heM) (fun d hd => ?_) (fun hr => h.root hr.1)
    (fun hg => absurd hg.1 hup) (fun k hk hkg => ?_) fun hn => ?_
  · rw [Finset.mem_erase, hM d]
    tauto
  · refine and_iff_left ?_
    rintro rfl
    exact hd rfl
  · simp only [Sched.dequeueOneRtEntity]
    split
    · exact (List.mem_erase_of_ne hkg).mpr hk
    · exact hk
  · simp only [Sched.dequeueOneRtEntity]
    rw [if_neg hn]
    exact h.leaf _ (hheld.rtNrRunning_ne_zero_iff.mpr ⟨e, heM⟩)

/-- Queueing an entity on the run queue of a group which is not queued itself. -/
theorem enqueueOneRtEntity (h : RtLinked rt ctl L) (he : ¬L e)
    (hup : ¬L (.group (rtRqOfSe ctl e))) (hself : e ≠ .group (rtRqOfSe ctl e))
    (hroot : e ≠ .group []) (hprio : ∀ p, e = .task p → 0 ≤ (ctl p).prio ∧ (ctl p).prio < maxRtPrio)
    (head : Bool) :
    RtLinked (enqueueOneRtEntity rt ctl e head) ctl
      fun d => L d ∨ (d = e ∧ rtSeQueueable rt e = true) := by
  rw [Sched.enqueueOneRtEntity]
  split
  · next hqueue =>
    have hmem : 0 ≤ rtSePrio rt ctl e ∧ rtSePrio rt ctl e < maxRtPrio := by
      cases e with
      | task p => exact hprio p rfl
      | group k =>
        obtain ⟨N, -, hN⟩ := h.rq k
        simp only [rtSeQueueable, Bool.and_eq_true, bne_iff_ne] at hqueue
        exact hN.highestPrio_mem hqueue.2
    obtain ⟨M, hM, hheld⟩ := h.rq (rtRqOfSe ctl e)
    have heM : e ∉ M := fun hm => he ((hM e).mp hm).1
    refine h.update rfl (fun d => ?_) (hheld.incRtTasks heM hmem head) (fun d hd => ?_) ?_
      (fun hg => ?_) (fun k hk _ => ?_) fun hn => ?_
    · rw [Finset.mem_insert, hM d]
      constructor
      · rintro (rfl | ⟨hd, hg⟩)
        · exact ⟨.inr ⟨rfl, hqueue⟩, rfl⟩
        · exact ⟨.inl hd, hg⟩
      · rintro ⟨hd | ⟨rfl, -⟩, hg⟩
        · exact .inr ⟨hd, hg⟩
        · exact .inl rfl
    · refine or_iff_left ?_
      rintro ⟨rfl, -⟩
      exact hd rfl
    · rintro (hr | ⟨hr, -⟩)
      · exact h.root hr
      · exact hroot hr.symm
    · rcases hg with hg | ⟨hg, -⟩
      · exact absurd hg hup
      · exact absurd hg.symm hself
    · dsimp only
      split
      · exact List.mem_cons_of_mem _ hk
      · exact hk
    · dsimp only
      split
      · exact List.mem_cons_self ..
      · next hn => exact h.leaf _ hn
  · next hqueue => exact h.of_iff fun d => or_iff_left fun hd => hqueue hd.2

/-- Moving an entity to the tail of its list. -/
theorem requeueRtEntity (h : RtLinked rt ctl L) (e : RtEntity τ) :
    RtLinked (requeueRtEntity rt ctl e) ctl L := by
  rw [Sched.requeueRtEntity]
  split
  · next hon =>
    obtain ⟨M, hM, hheld⟩ := h.rq (rtRqOfSe ctl e)
    have heM : e ∈ M := (hM e).mpr ⟨h.onRtRq_iff.mp hon, rfl⟩
    refine h.update rfl hM (hheld.requeue heM) (fun d _ => Iff.rfl) h.root (fun _ => ⟨rfl, rfl⟩)
      (fun k hk _ => hk) fun hn => h.leaf _ hn
  · exact h

end RtLinked

/-! ### The groups above an entity -/

section Groups

variable [DecidableEq τ]

/-- Take a group and those above it off their run queues, from the top down. -/
def dequeueGroups (rt : RtRqs τ) (ctl : τ → TaskControl) (g : RtGroup) : RtRqs τ :=
  (groupEntities g).foldr
    (fun e rt => if onRtRq rt ctl e then dequeueOneRtEntity rt ctl e else rt) rt

/-- Queue a group and those above it where they belong, from the bottom up. -/
def enqueueGroups (rt : RtRqs τ) (ctl : τ → TaskControl) (g : RtGroup) (head : Bool) : RtRqs τ :=
  (groupEntities g).foldl (fun rt e => enqueueOneRtEntity rt ctl e head) rt

theorem dequeueRtStack_task (rt : RtRqs τ) (ctl : τ → TaskControl) (p : τ) :
    dequeueRtStack rt ctl (.task p) =
      if onRtRq (dequeueGroups rt ctl (ctl p).schedTaskGroup.rtRq) ctl (.task p) then
        dequeueOneRtEntity (dequeueGroups rt ctl (ctl p).schedTaskGroup.rtRq) ctl (.task p)
      else dequeueGroups rt ctl (ctl p).schedTaskGroup.rtRq := rfl

theorem dequeueRtStack_group (rt : RtRqs τ) (ctl : τ → TaskControl) (g : RtGroup) :
    dequeueRtStack rt ctl (.group g) = dequeueGroups rt ctl g := rfl

theorem enqueueRtEntity_task (rt : RtRqs τ) (ctl : τ → TaskControl) (p : τ) (head : Bool) :
    enqueueRtEntity rt ctl (.task p) head =
      enqueueGroups (enqueueOneRtEntity (dequeueRtStack rt ctl (.task p)) ctl (.task p) head) ctl
        (ctl p).schedTaskGroup.rtRq head := rfl

theorem enqueueRtEntity_group (rt : RtRqs τ) (ctl : τ → TaskControl) (g : RtGroup) (head : Bool) :
    enqueueRtEntity rt ctl (.group g) head = enqueueGroups (dequeueGroups rt ctl g) ctl g head := rfl

omit [DecidableEq τ] in
/-- An empty group is not queued, so that the test of `dequeue_rt_entity` changes nothing. -/
theorem enqueueRemaining_group (rt : RtRqs τ) (ctl : τ → TaskControl) (g : RtGroup) :
    enqueueRemaining rt ctl (.group g) = enqueueOneRtEntity rt ctl (.group g) false := by
  rw [enqueueRemaining]
  split
  · rfl
  · next hn =>
    rw [enqueueOneRtEntity, if_neg]
    simp only [rtSeQueueable, Bool.and_eq_true, bne_iff_ne]
    exact fun hq => hn hq.2

omit [DecidableEq τ] in
theorem foldl_enqueueRemaining (rt : RtRqs τ) (ctl : τ → TaskControl) (g : RtGroup) :
    (groupEntities g).foldl (fun rt e => enqueueRemaining rt ctl e) rt =
      enqueueGroups rt ctl g false := by
  induction g generalizing rt with
  | nil => rfl
  | cons x g ih => rw [groupEntities, List.foldl_cons, enqueueRemaining_group, ih]; rfl

theorem dequeueRtEntity_task (rt : RtRqs τ) (ctl : τ → TaskControl) (p : τ) :
    dequeueRtEntity rt ctl (.task p) =
      enqueueGroups (dequeueRtStack rt ctl (.task p)) ctl (ctl p).schedTaskGroup.rtRq false := by
  rw [dequeueRtEntity, forEachSchedRtEntity, List.foldl_cons]
  exact foldl_enqueueRemaining ..

theorem dequeueRtEntity_group (rt : RtRqs τ) (ctl : τ → TaskControl) (g : RtGroup) :
    dequeueRtEntity rt ctl (.group g) = enqueueGroups (dequeueGroups rt ctl g) ctl g false := by
  rw [dequeueRtEntity, forEachSchedRtEntity, foldl_enqueueRemaining, dequeueRtStack_group]

end Groups

/-- A group is queued on the run queue above it: it is not the root task group, it has an entity
queued, and it is not throttled. -/
def GroupQueued (rt : RtRqs τ) (g : RtGroup) : Prop :=
  g ≠ [] ∧ rtSeQueueable rt (.group g : RtEntity τ) = true

theorem groupQueued_iff {rt : RtRqs τ} {g : RtGroup} :
    GroupQueued rt g ↔ g ≠ [] ∧ rtRqThrottled (rt.rq g) = false ∧ (rt.rq g).rtNrRunning ≠ 0 := by
  simp [GroupQueued, rtSeQueueable]

/-- The entities of the tasks of `R`, and those of the groups that are queued. -/
def RtEntity.Held (rt : RtRqs τ) (R : Finset τ) : RtEntity τ → Prop
  | .task p => p ∈ R
  | .group g => GroupQueued rt g

/-- The run queues hold the tasks of `R`. -/
def RtRqsHold (rt : RtRqs τ) (ctl : τ → TaskControl) (R : Finset τ) : Prop :=
  RtLinked rt ctl (RtEntity.Held rt R)

namespace RtLinked

variable {rt : RtRqs τ} {ctl : τ → TaskControl} {L : RtEntity τ → Prop} {g : RtGroup}
  [DecidableEq τ]

theorem dequeueGroups (h : RtLinked rt ctl L) (g : RtGroup) :
    RtLinked (dequeueGroups rt ctl g) ctl fun e => L e ∧ e ∉ groupEntities g := by
  induction g with
  | nil => exact h.of_iff fun e => by simp [groupEntities]
  | cons x g ih =>
    rw [Sched.dequeueGroups, groupEntities, List.foldr_cons]
    rw [Sched.dequeueGroups] at ih
    have hup : ¬(L (.group g) ∧ (.group g : RtEntity τ) ∉ groupEntities g) := by
      rintro ⟨hg, hnot⟩
      rw [group_mem_groupEntities] at hnot
      exact hnot ⟨fun hnil => h.root (hnil ▸ hg), List.suffix_refl g⟩
    split
    · next hon =>
      refine (ih.dequeueOneRtEntity (ih.onRtRq_iff.mp hon) hup).of_iff fun e => ?_
      rw [List.mem_cons]
      tauto
    · next hoff =>
      refine ih.of_iff fun e => ?_
      have hnot : ¬(L (.group (x :: g)) ∧ (.group (x :: g) : RtEntity τ) ∉ groupEntities g) :=
        mt ih.onRtRq_iff.mpr hoff
      rw [List.mem_cons]
      constructor
      · rintro ⟨he, hne⟩
        exact ⟨he, fun hm => hne (.inr hm)⟩
      · rintro ⟨he, hne⟩
        refine ⟨he, ?_⟩
        rintro (rfl | hm)
        · exact hnot ⟨he, hne⟩
        · exact hne hm

omit [DecidableEq τ] in
theorem groupQueued_congr {rt rt' : RtRqs τ} (h : rt'.rq g = rt.rq g) :
    GroupQueued rt' g ↔ GroupQueued rt g := by rw [groupQueued_iff, groupQueued_iff, h]

omit [DecidableEq τ] in
theorem rq_enqueueOneRtEntity_of_ne {e : RtEntity τ} {head : Bool} (h : g ≠ rtRqOfSe ctl e) :
    (Sched.enqueueOneRtEntity rt ctl e head).rq g = rt.rq g := by
  rw [Sched.enqueueOneRtEntity]
  split
  · exact Function.update_of_ne h ..
  · rfl

/-- Once the groups above have been queued again, those are queued that belong there. -/
theorem enqueueGroups {R : Finset τ} (h : RtLinked rt ctl L) (hR : ∀ p, L (.task p) ↔ p ∈ R)
    (hoff : ∀ e ∈ groupEntities g, ¬L e)
    (hstay : ∀ k, (.group k : RtEntity τ) ∉ groupEntities g → (L (.group k) ↔ GroupQueued rt k))
    (head : Bool) : RtRqsHold (enqueueGroups rt ctl g head) ctl R := by
  induction g generalizing rt L with
  | nil =>
    refine h.of_iff fun e => ?_
    cases e with
    | task p => exact (hR p).symm
    | group k => exact (hstay k (by simp [groupEntities])).symm
  | cons x g ih =>
    rw [Sched.enqueueGroups, groupEntities, List.foldl_cons]
    have hne : x :: g ≠ g := fun he => by simpa using congrArg List.length he
    have hup : ¬L (.group g) := by
      rcases g with _ | ⟨y, g⟩
      · exact h.root
      · exact hoff _ (by simp [groupEntities])
    have hone := h.enqueueOneRtEntity (e := .group (x :: g)) (hoff _ (by simp [groupEntities])) hup
      (fun he => hne (RtEntity.group.inj he)) (by simp) (by simp) head
    refine ih hone (fun p => by simpa using hR p) (fun e he => ?_) fun k hk => ?_
    · rintro (hL | ⟨rfl, -⟩)
      · exact hoff e (by rw [groupEntities]; exact List.mem_cons_of_mem _ he) hL
      · exact group_cons_notMem_groupEntities he
    · by_cases hkx : k = x :: g
      · subst hkx
        have hrq : x :: g ≠ rtRqOfSe ctl (.group (x :: g)) := hne
        rw [groupQueued_congr (rq_enqueueOneRtEntity_of_ne hrq)]
        constructor
        · rintro (hL | ⟨-, hq⟩)
          · exact absurd hL (hoff _ (by simp [groupEntities]))
          · exact ⟨by simp, hq⟩
        · exact fun hq => .inr ⟨rfl, hq.2⟩
      · have hnot : (.group k : RtEntity τ) ∉ groupEntities (x :: g) := by
          rw [groupEntities, List.mem_cons]
          rintro (he | he)
          · exact hkx (RtEntity.group.inj he)
          · exact hk he
        have hsame : GroupQueued (Sched.enqueueOneRtEntity rt ctl (.group (x :: g)) head) k ↔
            GroupQueued rt k := by
          by_cases hkg : k = g
          · subst hkg
            have hnil : k = [] := by
              by_contra hnil
              exact hk (group_mem_groupEntities.mpr ⟨hnil, List.suffix_refl k⟩)
            rw [groupQueued_iff, groupQueued_iff]
            simp [hnil]
          · exact groupQueued_congr (rq_enqueueOneRtEntity_of_ne hkg)
        rw [hsame, ← hstay k hnot]
        refine or_iff_left ?_
        rintro ⟨he, -⟩
        exact hkx (RtEntity.group.inj he)

end RtLinked

/-! ### The throttle flags -/

/-- The throttle flags of the run queues. -/
def RtRqs.throttled (rt : RtRqs τ) (g : RtGroup) : Bool := (rt.rq g).rtThrottled

section Throttled

variable (rt : RtRqs τ) (ctl : τ → TaskControl)

/-- The throttle flags stay when one run queue is written and keeps its flag. -/
theorem throttled_of_update {rt rt' : RtRqs τ} {g : RtGroup} {q : RtRq τ}
    (h : rt'.rq = Function.update rt.rq g q) (hq : q.rtThrottled = (rt.rq g).rtThrottled) :
    rt'.throttled = rt.throttled := by
  funext k
  rw [RtRqs.throttled, RtRqs.throttled, h]
  by_cases hk : k = g
  · subst hk
    rw [Function.update_self, hq]
  · rw [Function.update_of_ne hk]

/-- What each step of a loop keeps is kept by the loop. -/
theorem foldl_keeps {α β γ : Type*} {φ : α → γ} {f : α → β → α} (h : ∀ a b, φ (f a b) = φ a)
    (a : α) (l : List β) : φ (l.foldl f a) = φ a := by
  induction l generalizing a with
  | nil => rfl
  | cons b l ih => rw [List.foldl_cons, ih, h]

theorem foldr_keeps {α β γ : Type*} {φ : α → γ} {f : β → α → α} (h : ∀ a b, φ (f b a) = φ a)
    (a : α) (l : List β) : φ (l.foldr f a) = φ a := by
  induction l with
  | nil => rfl
  | cons b l ih => rw [List.foldr_cons, h, ih]

variable [DecidableEq τ]

@[simp]
theorem throttled_dequeueOneRtEntity (e : RtEntity τ) :
    (dequeueOneRtEntity rt ctl e).throttled = rt.throttled := throttled_of_update rfl rfl

omit [DecidableEq τ] in
@[simp]
theorem throttled_enqueueOneRtEntity (e : RtEntity τ) (head : Bool) :
    (enqueueOneRtEntity rt ctl e head).throttled = rt.throttled := by
  rw [enqueueOneRtEntity]
  split
  · exact throttled_of_update rfl rfl
  · rfl

@[simp]
theorem throttled_requeueRtEntity (e : RtEntity τ) :
    (requeueRtEntity rt ctl e).throttled = rt.throttled := by
  rw [requeueRtEntity]
  split
  · exact throttled_of_update rfl rfl
  · rfl

@[simp]
theorem throttled_dequeueRtStack (e : RtEntity τ) :
    (dequeueRtStack rt ctl e).throttled = rt.throttled :=
  foldr_keeps (fun rt e => by split <;> simp) ..

@[simp]
theorem throttled_enqueueRtEntity (e : RtEntity τ) (head : Bool) :
    (enqueueRtEntity rt ctl e head).throttled = rt.throttled :=
  (foldl_keeps (fun rt e => throttled_enqueueOneRtEntity rt ctl e head) ..).trans
    (throttled_dequeueRtStack rt ctl e)

@[simp]
theorem throttled_dequeueRtEntity (e : RtEntity τ) :
    (dequeueRtEntity rt ctl e).throttled = rt.throttled := by
  refine (foldl_keeps (fun rt e => ?_) ..).trans (throttled_dequeueRtStack rt ctl e)
  cases e with
  | task p => rfl
  | group g => rw [enqueueRemaining_group, throttled_enqueueOneRtEntity]

end Throttled

/-! ### Holding a set of tasks -/

/-- The write to a run queue leaves its entities and counters alone. -/
def KeepsEntities (f : RtRq τ → RtRq τ) : Prop :=
  ∀ q, (f q).queue = q.queue ∧ (f q).rtNrRunning = q.rtNrRunning ∧
    (f q).rtNrBoosted = q.rtNrBoosted ∧ (f q).highestPrio = q.highestPrio

/-- What `sched_rt_runtime_exceeded` writes. -/
theorem keepsEntities_throttle : KeepsEntities fun q : RtRq τ =>
    if q.rtRuntime ≠ 0 then { q with rtThrottled := true } else { q with rtTime := 0 } := by
  intro q
  dsimp only
  split <;> exact ⟨rfl, rfl, rfl, rfl⟩

namespace RtRqsHold

variable {rt rt' rt₁ : RtRqs τ} {ctl ctl' : τ → TaskControl} {R R' : Finset τ}
  {L : RtEntity τ → Prop} {g : RtGroup} {p : τ}

/-- The lists, the counters, the best priorities and whether a group is throttled are all that
matters of the run queues, and the priorities and the groups all that matters of the tasks. -/
theorem congr (h : RtRqsHold rt ctl R)
    (hrq : ∀ g, (rt'.rq g).queue = (rt.rq g).queue ∧
      (rt'.rq g).rtNrRunning = (rt.rq g).rtNrRunning ∧
      (rt'.rq g).rtNrBoosted = (rt.rq g).rtNrBoosted ∧
      (rt'.rq g).highestPrio = (rt.rq g).highestPrio)
    (hleaf : rt'.leafRtRqList = rt.leafRtRqList)
    (hthr : ∀ g, GroupQueued rt' g ↔ GroupQueued rt g)
    (hctl : ∀ p ∈ R, (ctl' p).prio = (ctl p).prio ∧ (ctl' p).normalPrio = (ctl p).normalPrio ∧
      (ctl' p).schedTaskGroup = (ctl p).schedTaskGroup) : RtRqsHold rt' ctl' R := by
  refine (RtLinked.congr h hrq hleaf hctl).of_iff fun e => ?_
  cases e with
  | task p => exact Iff.rfl
  | group k => exact hthr k

theorem congr_ctl (h : RtRqsHold rt ctl R)
    (hctl : ∀ p ∈ R, (ctl' p).prio = (ctl p).prio ∧ (ctl' p).normalPrio = (ctl p).normalPrio ∧
      (ctl' p).schedTaskGroup = (ctl p).schedTaskGroup) : RtRqsHold rt ctl' R :=
  h.congr (fun _ => ⟨rfl, rfl, rfl, rfl⟩) rfl (fun _ => Iff.rfl) hctl

/-- After boot no task is held. -/
theorem of_boot (hq : ∀ g i, (rt.rq g).queue i = []) (hn : ∀ g, (rt.rq g).rtNrRunning = 0)
    (hb : ∀ g, (rt.rq g).rtNrBoosted = 0) (hp : ∀ g, (rt.rq g).highestPrio = maxRtPrio) :
    RtRqsHold rt ctl ∅ := by
  have hnot : ∀ g, ¬GroupQueued rt g := fun g hg => (groupQueued_iff.mp hg).2.2 (hn g)
  refine ⟨fun g => ⟨∅, fun e => ?_, ?_⟩, hnot [], fun g hg => absurd (hn g) hg⟩
  · refine iff_of_false (Finset.notMem_empty e) fun he => ?_
    cases e with
    | task p => exact Finset.notMem_empty p he.1
    | group k => exact hnot k he.1
  · have harr : PrioArray (rt.rq g) (rtSePrio rt ctl) ∅ :=
      ⟨by simp [hq], by simp [hq], by simp⟩
    exact ⟨harr, by simp [hn], by simp [hb], by rw [hp, harr.schedFindFirstBit_of_empty]⟩

variable [DecidableEq τ]

/-- A task is on a list of the run queue of its group exactly when it is held. -/
theorem onRtRq_iff (h : RtRqsHold rt ctl R) : onRtRq rt ctl (.task p) = true ↔ p ∈ R :=
  RtLinked.onRtRq_iff h

/-- Taking a group and those above it off changes only the run queues that they hang off. -/
theorem rq_dequeueGroups {k : RtGroup} (h : ¬k <:+ g.tail) :
    (dequeueGroups rt ctl g).rq k = rt.rq k := by
  induction g with
  | nil => rfl
  | cons x g ih =>
    have hk : k ≠ g := by
      rintro rfl
      exact h (List.suffix_refl k)
    have hih := ih fun hsuf => h (hsuf.trans (List.tail_suffix g))
    rw [dequeueGroups] at hih
    rw [dequeueGroups, groupEntities, List.foldr_cons]
    split
    · exact (Function.update_of_ne (show k ≠ rtRqOfSe ctl (.group (x :: g)) from hk) ..).trans hih
    · exact hih

omit [DecidableEq τ] in
theorem rq_enqueueGroups {k : RtGroup} {head : Bool} (h : ¬k <:+ g.tail) :
    (enqueueGroups rt ctl g head).rq k = rt.rq k := by
  induction g generalizing rt with
  | nil => rfl
  | cons x g ih =>
    have hk : k ≠ rtRqOfSe ctl (.group (x :: g)) := by
      rintro rfl
      exact h (List.suffix_refl _)
    have hih : (enqueueGroups (enqueueOneRtEntity rt ctl (.group (x :: g)) head) ctl g head).rq k =
        (enqueueOneRtEntity rt ctl (.group (x :: g)) head).rq k :=
      ih fun hsuf => h (hsuf.trans (List.tail_suffix g))
    rw [enqueueGroups, groupEntities, List.foldl_cons]
    exact hih.trans (RtLinked.rq_enqueueOneRtEntity_of_ne hk)

/-- Queueing the groups above a run queue again, after they have been taken off and while the other
groups have stayed as they were. -/
theorem of_groupsOff (rt : RtRqs τ) (h : RtLinked rt₁ ctl L) (hR : ∀ p, L (.task p) ↔ p ∈ R)
    (hL : ∀ k, L (.group k) ↔ GroupQueued rt k ∧ (.group k : RtEntity τ) ∉ groupEntities g)
    (hsame : ∀ k, ¬k <:+ g → rt₁.rq k = rt.rq k) (head : Bool) :
    RtRqsHold (enqueueGroups rt₁ ctl g head) ctl R := by
  refine h.enqueueGroups hR (fun e he hLe => ?_) (fun k hk => ?_) head
  · obtain ⟨k, rfl, -⟩ := mem_groupEntities.mp he
    exact ((hL k).mp hLe).2 he
  · rw [hL, and_iff_left hk]
    by_cases hnil : k = []
    · rw [groupQueued_iff, groupQueued_iff]
      simp [hnil]
    · have hsuf : ¬k <:+ g := fun hsuf => hk (group_mem_groupEntities.mpr ⟨hnil, hsuf⟩)
      exact (RtLinked.groupQueued_congr (hsame k hsuf)).symm

/-- Taking a group and those above it off and queueing those that belong there again, which is what
becomes of a group that is throttled or no longer is. -/
theorem restack (h : RtLinked rt ctl L) (hR : ∀ p, L (.task p) ↔ p ∈ R)
    (hL : ∀ k, k ≠ g → (L (.group k) ↔ GroupQueued rt k)) (hg : g ≠ []) (head : Bool) :
    RtRqsHold (enqueueGroups (dequeueGroups rt ctl g) ctl g head) ctl R := by
  refine of_groupsOff rt (h.dequeueGroups g) (fun p => ?_) (fun k => ?_)
    (fun k hk => rq_dequeueGroups fun hsuf => hk (hsuf.trans (List.tail_suffix g))) head
  · rw [← hR p]
    exact and_iff_left task_notMem_groupEntities
  · refine and_congr_left fun hk => hL k ?_
    rintro rfl
    exact hk (group_mem_groupEntities.mpr ⟨hg, List.suffix_refl k⟩)

omit [DecidableEq τ] in
theorem not_held_group :
    ¬(RtEntity.Held rt R (.group g) ∧ (.group g : RtEntity τ) ∉ groupEntities g) := by
  rintro ⟨hg, hnot⟩
  exact hnot (group_mem_groupEntities.mpr ⟨hg.1, List.suffix_refl g⟩)

/-- Enqueueing a task. -/
theorem enqueueRtEntity (h : RtRqsHold rt ctl R) (hp : p ∉ R)
    (hprio : 0 ≤ (ctl p).prio ∧ (ctl p).prio < maxRtPrio) (head : Bool) :
    RtRqsHold (enqueueRtEntity rt ctl (.task p) head) ctl (insert p R) := by
  obtain ⟨g, hg⟩ : ∃ g, g = (ctl p).schedTaskGroup.rtRq := ⟨_, rfl⟩
  have hgroup : rtRqOfSe ctl (.task p) = g := hg.symm
  have hoff := RtLinked.dequeueGroups h g
  have hnot : ¬(RtEntity.Held rt R (.task p) ∧ RtEntity.task p ∉ groupEntities g) := fun hL => hp hL.1
  rw [enqueueRtEntity_task, dequeueRtStack_task, ← hg, if_neg (mt hoff.onRtRq_iff.mp hnot)]
  refine of_groupsOff rt (hoff.enqueueOneRtEntity (e := .task p) hnot
    (by rw [hgroup]; exact not_held_group) (by simp) (by simp)
    (fun q hq => by cases hq; exact hprio) head) (fun q => ?_) (fun k => ?_)
    (fun k hk => ?_) head
  · rw [Finset.mem_insert, or_comm]
    refine or_congr ?_ (and_iff_left task_notMem_groupEntities)
    simp [rtSeQueueable]
  · exact or_iff_left fun hk => by cases hk.1
  · rw [RtLinked.rq_enqueueOneRtEntity_of_ne,
      rq_dequeueGroups fun hsuf => hk (hsuf.trans (List.tail_suffix g))]
    rw [hgroup]
    rintro rfl
    exact hk (List.suffix_refl k)

/-- Dequeueing a task. -/
theorem dequeueRtEntity (h : RtRqsHold rt ctl R) (hp : p ∈ R) :
    RtRqsHold (dequeueRtEntity rt ctl (.task p)) ctl (R.erase p) := by
  obtain ⟨g, hg⟩ : ∃ g, g = (ctl p).schedTaskGroup.rtRq := ⟨_, rfl⟩
  have hgroup : rtRqOfSe ctl (.task p) = g := hg.symm
  have hoff := RtLinked.dequeueGroups h g
  have hmem : RtEntity.Held rt R (.task p) ∧ RtEntity.task p ∉ groupEntities g :=
    ⟨hp, task_notMem_groupEntities⟩
  rw [dequeueRtEntity_task, dequeueRtStack_task, ← hg, if_pos (hoff.onRtRq_iff.mpr hmem)]
  refine of_groupsOff rt (hoff.dequeueOneRtEntity hmem
    (by rw [hgroup]; exact not_held_group)) (fun q => ?_) (fun k => ?_)
    (fun k hk => ?_) false
  · rw [Finset.mem_erase, and_comm]
    exact and_congr (by simp) (and_iff_left task_notMem_groupEntities)
  · exact and_iff_left (by simp)
  · have hkg : k ≠ rtRqOfSe ctl (.task p) := by
      rw [hgroup]
      rintro rfl
      exact hk (List.suffix_refl k)
    exact (Function.update_of_ne hkg ..).trans
      (rq_dequeueGroups fun hsuf => hk (hsuf.trans (List.tail_suffix g)))

/-- Moving an entity to the tail of its list. -/
theorem requeueRtEntity (h : RtRqsHold rt ctl R) (e : RtEntity τ) :
    RtRqsHold (requeueRtEntity rt ctl e) ctl R := by
  refine (RtLinked.requeueRtEntity h e).of_iff fun d => ?_
  cases d with
  | task p => exact Iff.rfl
  | group k =>
    have hsame : rtSeQueueable (Sched.requeueRtEntity rt ctl e) (.group k : RtEntity τ) =
        rtSeQueueable rt (.group k : RtEntity τ) := by
      rw [Sched.requeueRtEntity]
      split
      · by_cases hk : k = rtRqOfSe ctl e
        · subst hk
          simp [rtSeQueueable, rtRqThrottled]
        · simp [rtSeQueueable, rtRqThrottled, hk]
      · rfl
    simp only [RtEntity.Held, GroupQueued, hsame]

/-- Moving a task and the groups above it to the tails of their lists. -/
theorem requeue (h : RtRqsHold rt ctl R) (l : List (RtEntity τ)) :
    RtRqsHold (l.foldl (fun rt e => Sched.requeueRtEntity rt ctl e) rt) ctl R := by
  induction l generalizing rt with
  | nil => exact h
  | cons e l ih => exact ih (h.requeueRtEntity e)

/-! ### Bandwidth -/

omit [DecidableEq τ] in
theorem linked_modify {f : RtRq τ → RtRq τ} (h : RtLinked rt ctl L) (hf : KeepsEntities f)
    (g : RtGroup) : RtLinked (rt.modify g f) ctl L := by
  refine h.congr (fun k => ?_) rfl fun _ _ => ⟨rfl, rfl, rfl⟩
  by_cases hk : k = g
  · subst hk
    simpa [RtRqs.modify] using hf (rt.rq k)
  · simp [RtRqs.modify, hk]

omit [DecidableEq τ] in
theorem groupQueued_modify_of_ne {f : RtRq τ → RtRq τ} {k : RtGroup} (hk : k ≠ g) :
    GroupQueued (rt.modify g f) k ↔ GroupQueued rt k :=
  RtLinked.groupQueued_congr (Function.update_of_ne hk ..)

omit [DecidableEq τ] in
theorem modify {f : RtRq τ → RtRq τ} (h : RtRqsHold rt ctl R) (hf : KeepsEntities f)
    (hthr : GroupQueued (rt.modify g f) g ↔ GroupQueued rt g) :
    RtRqsHold (rt.modify g f) ctl R := by
  refine (linked_modify h hf g).of_iff fun e => ?_
  cases e with
  | task p => exact Iff.rfl
  | group k =>
    by_cases hk : k = g
    · rw [hk]
      exact hthr
    · exact groupQueued_modify_of_ne hk

/-- A throttled group is taken off the run queue above it. -/
theorem schedRtRqDequeue {f : RtRq τ → RtRq τ} (h : RtRqsHold rt ctl R) (hf : KeepsEntities f)
    (hthr : rtRqThrottled (f (rt.rq g)) = true) :
    RtRqsHold (schedRtRqDequeue (rt.modify g f) ctl g) ctl R := by
  have hlinked := linked_modify h hf g
  have hnot : ¬GroupQueued (rt.modify g f) g := by
    rw [groupQueued_iff]
    simp [RtRqs.modify, hthr]
  rw [Sched.schedRtRqDequeue]
  split
  · next hon =>
    rw [dequeueRtEntity_group]
    exact restack hlinked (fun p => Iff.rfl) (fun k hk => (groupQueued_modify_of_ne hk).symm) hon.1
      false
  · next hoff =>
    refine h.modify hf ⟨fun hq => absurd hq hnot, fun hq => ?_⟩
    exact absurd ⟨hq.1, hlinked.onRtRq_iff.mpr hq⟩ hoff

/-- A group that belongs on the run queue above it, but has not been queued there yet, is queued. -/
theorem enqueueGroup (h : RtLinked rt ctl L) (hR : ∀ p, L (.task p) ↔ p ∈ R)
    (hL : ∀ k, k ≠ g → (L (.group k) ↔ GroupQueued rt k)) (hg : L (.group g) → GroupQueued rt g) :
    RtRqsHold
      (if (rt.rq g).rtNrRunning ≠ 0 ∧ g ≠ [] ∧ !onRtRq rt ctl (.group g) then
        Sched.enqueueRtEntity rt ctl (.group g) false
      else rt) ctl R := by
  split
  · next hoff =>
    rw [enqueueRtEntity_group]
    exact restack h hR hL hoff.2.1 false
  · next hon =>
    refine h.of_iff fun e => ?_
    cases e with
    | task p => exact (hR p).symm
    | group k =>
      by_cases hk : k = g
      · subst hk
        refine ⟨fun hq => ?_, hg⟩
        obtain ⟨hne, -, hn⟩ := groupQueued_iff.mp hq
        have : onRtRq rt ctl (.group k) = true := by
          by_contra hoff
          exact hon ⟨hn, hne, by simpa using hoff⟩
        exact h.onRtRq_iff.mp this
      · exact (hL k hk).symm

/-- A group that is no longer throttled is queued on the run queue above it. -/
theorem enqueueLifted {f : RtRq τ → RtRq τ} (h : RtRqsHold rt ctl R) (hf : KeepsEntities f)
    (hopen : rtRqThrottled (f (rt.rq g)) = false) :
    RtRqsHold
      (if ((rt.modify g f).rq g).rtNrRunning ≠ 0 ∧ g ≠ [] ∧
          !onRtRq (rt.modify g f) ctl (.group g) then
        Sched.enqueueRtEntity (rt.modify g f) ctl (.group g) false
      else rt.modify g f) ctl R := by
  refine enqueueGroup (linked_modify h hf g) (fun p => Iff.rfl)
    (fun k hk => (groupQueued_modify_of_ne hk).symm) fun hq => ?_
  obtain ⟨hnil, -, hn⟩ := groupQueued_iff.mp (show GroupQueued rt g from hq)
  have hself : (rt.modify g f).rq g = f (rt.rq g) := Function.update_self ..
  rw [groupQueued_iff, hself, (hf _).2.1]
  exact ⟨hnil, hopen, hn⟩

/-- Queueing a group changes only the run queues above it. -/
theorem rq_group (hg : g ≠ []) (head : Bool) :
    (Sched.enqueueRtEntity rt ctl (.group g) head).rq g = rt.rq g := by
  have hnot : ¬g <:+ g.tail := fun hsuf => by
    have := hsuf.length_le
    have := List.length_pos_of_ne_nil hg
    simp only [List.length_tail] at *
    omega
  rw [enqueueRtEntity_group, rq_enqueueGroups hnot, rq_dequeueGroups hnot]

/-- The control of the bandwidth keeps the tasks held. -/
theorem schedRtRuntimeExceeded (h : RtRqsHold rt ctl R) (g : RtGroup) :
    RtRqsHold (schedRtRuntimeExceeded rt ctl g).2 ctl R := by
  rw [Sched.schedRtRuntimeExceeded]
  split_ifs with hflag
  · exact h
  · exact h
  · exact h
  · dsimp only
    have hf := keepsEntities_throttle (τ := τ)
    split_ifs with hthr
    · exact h.schedRtRqDequeue hf (by simpa [RtRqs.modify] using hthr)
    · refine h.modify hf ?_
      have hbefore : rtRqThrottled (rt.rq g) = false := by simp [rtRqThrottled, hflag]
      rw [groupQueued_iff, groupQueued_iff, hbefore, Bool.eq_false_iff.mpr hthr]
      simp only [RtRqs.modify, Function.update_self, (hf _).2.1]
  · exact h

end RtRqsHold

theorem throttled_modify {rt : RtRqs τ} {g : RtGroup} {f : RtRq τ → RtRq τ}
    (hf : ∀ q : RtRq τ, q.rtThrottled = true → (f q).rtThrottled = true) {k : RtGroup}
    (hk : rt.throttled k = true) : (rt.modify g f).throttled k = true := by
  by_cases hkg : k = g
  · subst hkg
    simpa [RtRqs.modify, RtRqs.throttled] using hf _ hk
  · simpa [RtRqs.modify, RtRqs.throttled, hkg] using hk

/-- The control of the bandwidth never clears a throttle flag. -/
theorem throttled_schedRtRuntimeExceeded [DecidableEq τ] {rt : RtRqs τ} {ctl : τ → TaskControl}
    {g k : RtGroup} (hk : rt.throttled k = true) :
    (schedRtRuntimeExceeded rt ctl g).2.throttled k = true := by
  rw [schedRtRuntimeExceeded]
  split_ifs
  · exact hk
  · exact hk
  · exact hk
  · dsimp only
    have hm : (rt.modify g fun q =>
        if q.rtRuntime ≠ 0 then { q with rtThrottled := true } else { q with rtTime := 0 }).throttled
          k = true := throttled_modify (fun q hq => by split <;> simp [hq]) hk
    split_ifs
    · rw [schedRtRqDequeue]
      split
      · rwa [throttled_dequeueRtEntity]
      · exact hm
    · exact hm
  · exact hk

end OsProject.Sched
