import Mathlib.Data.Finset.Card
import OsProject.Sched.Rt

/-!
# What a real-time run queue holds

The real-time run queue of a task group *holds* a finite set of entities when each of them is on the
list of its priority, once, no other entity is on a list, the counters are the numbers of queued and
of boosted entities, and the recorded priority is the best one queued. Linking an entity adds it to
the set, unlinking removes one, and the first bit of the array finds the best priority.

## Main definitions

* `PrioArray`, `RtHolds`.

## Main results

* `RtHolds.incRtTasks`, `RtHolds.decRtTasks`, `RtHolds.requeue`.
* `PrioArray.schedFindFirstBit_spec`.
-/

namespace OsProject.Sched

variable {τ : Type*}

/-- Each entity of `M` is in the queue of its priority, once, and no other entity is queued. -/
structure PrioArray (q : RtRq τ) (prio : RtEntity τ → ℤ) (M : Finset (RtEntity τ)) : Prop where
  mem_queue : ∀ i e, e ∈ q.queue i ↔ e ∈ M ∧ prio e = i
  nodup : ∀ i, (q.queue i).Nodup
  prio_mem : ∀ e ∈ M, 0 ≤ prio e ∧ prio e < maxRtPrio

/-- The run queue holds the entities `M`. -/
structure RtHolds (q : RtRq τ) (prio : RtEntity τ → ℤ) (boosted : RtEntity τ → Bool)
    (M : Finset (RtEntity τ)) : Prop extends PrioArray q prio M where
  rtNrRunning : q.rtNrRunning = M.card
  rtNrBoosted : q.rtNrBoosted = (M.filter fun e => boosted e).card
  highestPrio : q.highestPrio = schedFindFirstBit q

theorem schedFindFirstBit_congr {q q' : RtRq τ} (h : q'.queue = q.queue) :
    schedFindFirstBit q' = schedFindFirstBit q := by rw [schedFindFirstBit, schedFindFirstBit, h]

namespace PrioArray

variable {q q' : RtRq τ} {prio prio' : RtEntity τ → ℤ} {M : Finset (RtEntity τ)} {e : RtEntity τ}

/-- Whether an entity is on a list. -/
theorem any_queue_iff [DecidableEq τ] (h : PrioArray q prio M) :
    ((List.range 100).any fun i : ℕ => e ∈ q.queue i) = true ↔ e ∈ M := by
  simp only [List.any_eq_true, List.mem_range, decide_eq_true_eq]
  constructor
  · rintro ⟨i, -, hi⟩
    exact ((h.mem_queue i e).mp hi).1
  · intro he
    have hprio := h.prio_mem e he
    simp only [maxRtPrio] at hprio
    exact ⟨(prio e).toNat, by omega, (h.mem_queue _ e).mpr ⟨he, by omega⟩⟩

/-- A nonempty array has a nonempty queue at its first bit, and it is the best priority. -/
theorem schedFindFirstBit_spec (h : PrioArray q prio M) (hM : M.Nonempty) :
    ∃ e l, q.queue (schedFindFirstBit q) = e :: l ∧ e ∈ M ∧ prio e = schedFindFirstBit q ∧
      ∀ d ∈ M, schedFindFirstBit q ≤ prio d := by
  -- every entity of `M` is in the queue of a priority below the delimiter
  have hqueued : ∀ d ∈ M, ∃ i : ℕ, i < 100 ∧ prio d = i ∧ (q.queue i).isEmpty = false := by
    intro d hd
    have hprio := h.prio_mem d hd
    simp only [maxRtPrio] at hprio
    refine ⟨(prio d).toNat, by omega, by omega, ?_⟩
    exact List.isEmpty_eq_false_iff.mpr
      (List.ne_nil_of_mem ((h.mem_queue _ d).mpr ⟨hd, by omega⟩))
  obtain ⟨e₀, he₀⟩ := hM
  cases hf : (List.range 100).find? fun i : ℕ => !(q.queue i).isEmpty with
  | none =>
    obtain ⟨i, hi, -, hne⟩ := hqueued e₀ he₀
    have := List.find?_range_eq_none.mp hf i hi
    simp [hne] at this
  | some i =>
    have hbit : schedFindFirstBit q = i := by rw [schedFindFirstBit, hf]
    obtain ⟨hne, -, hfirst⟩ := List.find?_range_eq_some.mp hf
    cases hq : q.queue i with
    | nil => simp [hq] at hne
    | cons e l =>
      obtain ⟨he, hprio⟩ := (h.mem_queue i e).mp (by simp [hq])
      refine ⟨e, l, by rw [hbit, hq], he, by rw [hprio, hbit], fun d hd => ?_⟩
      obtain ⟨j, -, hj, hjne⟩ := hqueued d hd
      by_contra hlt
      have := hfirst j (by omega)
      simp [hjne] at this

theorem schedFindFirstBit_of_empty (h : PrioArray q prio ∅) : schedFindFirstBit q = maxRtPrio := by
  rw [schedFindFirstBit]
  split
  · next i hi =>
    obtain ⟨hne, -, -⟩ := List.find?_range_eq_some.mp hi
    obtain ⟨e, he⟩ := List.exists_mem_of_ne_nil _ (by simpa using hne)
    exact absurd ((h.mem_queue _ e).mp he).1 (Finset.notMem_empty e)
  · rfl

theorem congr (h : PrioArray q prio M) (hq : q'.queue = q.queue)
    (hprio : ∀ e ∈ M, prio' e = prio e) : PrioArray q' prio' M where
  mem_queue i e := by
    rw [hq, h.mem_queue i e]
    exact and_congr_right fun he => by rw [hprio e he]
  nodup i := by rw [hq]; exact h.nodup i
  prio_mem e he := by rw [hprio e he]; exact h.prio_mem e he

variable [DecidableEq τ]

/-- Taking an entity off its list. -/
theorem erase (h : PrioArray q prio M) (e : RtEntity τ) :
    PrioArray { q with queue := fun i => (q.queue i).erase e } prio (M.erase e) where
  mem_queue i d := by
    rw [(h.nodup i).mem_erase_iff, h.mem_queue i d, Finset.mem_erase, and_assoc]
  nodup i := (h.nodup i).erase e
  prio_mem d hd := h.prio_mem d (Finset.mem_of_mem_erase hd)

/-- Putting an entity on the list of its priority, in front or at the end. -/
theorem insert (h : PrioArray q prio M) (he : e ∉ M) (hprio : 0 ≤ prio e ∧ prio e < maxRtPrio)
    (head : Bool) :
    PrioArray
      { q with
        queue := Function.update q.queue (prio e)
          (if head then e :: q.queue (prio e) else q.queue (prio e) ++ [e]) }
      prio (insert e M) where
  mem_queue i d := by
    by_cases hi : i = prio e
    · subst hi
      have := h.mem_queue (prio e) d
      cases head <;> simp only [Function.update_self, Bool.false_eq_true, if_true, if_false,
        List.mem_append, List.mem_cons, Finset.mem_insert, this] <;> grind
    · have hne : d = e → prio d ≠ i := by rintro rfl; exact Ne.symm hi
      simp only [Function.update_of_ne hi, h.mem_queue i d, Finset.mem_insert]
      grind
  nodup i := by
    by_cases hi : i = prio e
    · subst hi
      have hnot : e ∉ q.queue (prio e) := fun hm => he ((h.mem_queue _ e).mp hm).1
      cases head
      · have : (q.queue (prio e) ++ [e]).Nodup :=
          List.nodup_append.mpr ⟨h.nodup _, List.nodup_singleton e, by grind⟩
        simpa using this
      · simpa [h.nodup] using hnot
    · simpa [Function.update_of_ne hi] using h.nodup i
  prio_mem d hd := by
    rcases Finset.mem_insert.mp hd with rfl | hd
    · exact hprio
    · exact h.prio_mem d hd

/-- Moving an entity to the tail of its list. -/
theorem requeue (h : PrioArray q prio M) (he : e ∈ M) :
    PrioArray
      { q with
        queue := Function.update q.queue (prio e) ((q.queue (prio e)).erase e ++ [e]) }
      prio M where
  mem_queue i d := by
    by_cases hi : i = prio e
    · subst hi
      have := h.mem_queue (prio e) d
      simp only [Function.update_self, List.mem_append, List.mem_singleton,
        (h.nodup _).mem_erase_iff, this]
      grind
    · simp only [Function.update_of_ne hi, h.mem_queue i d]
  nodup i := by
    by_cases hi : i = prio e
    · subst hi
      have hnot : e ∉ (q.queue (prio e)).erase e := (h.nodup _).not_mem_erase
      have : ((q.queue (prio e)).erase e ++ [e]).Nodup :=
        List.nodup_append.mpr ⟨(h.nodup _).erase e, List.nodup_singleton e, by grind⟩
      simpa using this
    · simpa [Function.update_of_ne hi] using h.nodup i
  prio_mem := h.prio_mem

omit [DecidableEq τ] in
/-- The first bit only depends on which entities are queued at which priority. -/
theorem schedFindFirstBit_eq (h : PrioArray q prio M) (h' : PrioArray q' prio' M)
    (hprio : ∀ e ∈ M, prio' e = prio e) : schedFindFirstBit q' = schedFindFirstBit q := by
  rcases M.eq_empty_or_nonempty with rfl | hM
  · rw [h.schedFindFirstBit_of_empty, h'.schedFindFirstBit_of_empty]
  · obtain ⟨e, -, -, he, hbit, hbest⟩ := h.schedFindFirstBit_spec hM
    obtain ⟨e', -, -, he', hbit', hbest'⟩ := h'.schedFindFirstBit_spec hM
    have := hbest e' he'
    have := hbest' e he
    have := hprio e he
    have := hprio e' he'
    omega

end PrioArray

namespace RtHolds

variable {q q' : RtRq τ} {prio prio' : RtEntity τ → ℤ} {boosted boosted' : RtEntity τ → Bool}
  {M : Finset (RtEntity τ)} {e : RtEntity τ}

/-- The queues, the counters and the best priority are all that matters of the run queue. -/
theorem congr (h : RtHolds q prio boosted M) (hq : q'.queue = q.queue)
    (hn : q'.rtNrRunning = q.rtNrRunning) (hb : q'.rtNrBoosted = q.rtNrBoosted)
    (hp : q'.highestPrio = q.highestPrio)
    (he : ∀ e ∈ M, prio' e = prio e ∧ boosted' e = boosted e) : RtHolds q' prio' boosted' M where
  toPrioArray := h.toPrioArray.congr hq fun e hM => (he e hM).1
  rtNrRunning := by rw [hn, h.rtNrRunning]
  rtNrBoosted := by
    have : (M.filter fun e => boosted' e) = M.filter fun e => boosted e :=
      Finset.filter_congr fun e hM => by rw [(he e hM).2]
    rw [hb, h.rtNrBoosted, this]
  highestPrio := by rw [hp, h.highestPrio, schedFindFirstBit_congr hq]

theorem rtNrRunning_ne_zero_iff (h : RtHolds q prio boosted M) :
    q.rtNrRunning ≠ 0 ↔ M.Nonempty := by
  rw [← Finset.card_pos, h.rtNrRunning]
  omega

theorem rtNrBoosted_ne_zero_iff (h : RtHolds q prio boosted M) :
    q.rtNrBoosted ≠ 0 ↔ ∃ e ∈ M, boosted e = true := by
  have hpos : (M.filter fun e => boosted e).Nonempty ↔ ∃ e ∈ M, boosted e = true := by
    simp [Finset.filter_nonempty_iff]
  rw [← hpos, ← Finset.card_pos, h.rtNrBoosted]
  omega

theorem highestPrio_le (h : RtHolds q prio boosted M) (he : e ∈ M) : q.highestPrio ≤ prio e := by
  obtain ⟨_, _, _, _, _, hbest⟩ := h.schedFindFirstBit_spec ⟨e, he⟩
  rw [h.highestPrio]
  exact hbest e he

/-- The best priority of a run queue that is not empty is a real-time priority. -/
theorem highestPrio_mem (h : RtHolds q prio boosted M) (hn : q.rtNrRunning ≠ 0) :
    0 ≤ q.highestPrio ∧ q.highestPrio < maxRtPrio := by
  obtain ⟨e, -, -, he, hprio, -⟩ := h.schedFindFirstBit_spec (h.rtNrRunning_ne_zero_iff.mp hn)
  rw [h.highestPrio, ← hprio]
  exact h.prio_mem e he

variable [DecidableEq τ]

/-- Unlinking an entity. -/
theorem decRtTasks (h : RtHolds q prio boosted M) (he : e ∈ M) :
    RtHolds (Sched.decRtTasks (prio e) (boosted e)
      { q with queue := fun i => (q.queue i).erase e }) prio boosted (M.erase e) := by
  have hcard : (M.erase e).card + 1 = M.card := Finset.card_erase_add_one he
  have harr := h.toPrioArray.erase e
  refine ⟨harr.congr rfl fun _ _ => rfl, ?_, ?_, ?_⟩
  · simp only [Sched.decRtTasks, h.rtNrRunning]
    omega
  · have hb := h.rtNrBoosted
    have herase : ((M.erase e).filter fun e => boosted e) = (M.filter fun e => boosted e).erase e :=
      Finset.filter_erase _ _ _
    simp only [Sched.decRtTasks, herase]
    split
    · next hboost =>
      have hmem : e ∈ M.filter fun e => boosted e := Finset.mem_filter.mpr ⟨he, hboost⟩
      have := Finset.card_erase_add_one hmem
      omega
    · next hboost =>
      have hmem : e ∉ M.filter fun e => boosted e := fun hm => hboost (Finset.mem_filter.mp hm).2
      rw [Finset.erase_eq_of_notMem hmem, hb]
  · obtain ⟨q', hq'⟩ : ∃ q', q' = { q with queue := fun i => (q.queue i).erase e } := ⟨_, rfl⟩
    rw [← hq'] at harr ⊢
    have hbit : schedFindFirstBit (Sched.decRtTasks (prio e) (boosted e) q') =
        schedFindFirstBit q' := schedFindFirstBit_congr rfl
    have hn : q'.rtNrRunning = M.card := by rw [hq', ← h.rtNrRunning]
    have hold : q'.highestPrio = schedFindFirstBit q := by rw [hq', ← h.highestPrio]
    rw [hbit]
    simp only [Sched.decRtTasks, hn, hold]
    split
    · next hn =>
      have hne : (M.erase e).Nonempty := Finset.card_pos.mp (by omega)
      split
      · rfl
      · next hprio =>
        -- another entity has the best priority, before and after
        obtain ⟨d, -, -, hd, hdprio, hbest⟩ := h.schedFindFirstBit_spec ⟨e, he⟩
        obtain ⟨d', -, -, hd', hdprio', hbest'⟩ := harr.schedFindFirstBit_spec hne
        have hde : d ≠ e := by rintro rfl; exact hprio hdprio
        have := hbest' d (Finset.mem_erase.mpr ⟨hde, hd⟩)
        have := hbest d' (Finset.mem_of_mem_erase hd')
        omega
    · next hn =>
      have hempty : M.erase e = ∅ := Finset.card_eq_zero.mp (by omega)
      rw [hempty] at harr
      exact harr.schedFindFirstBit_of_empty.symm

/-- Linking an entity. -/
theorem incRtTasks (h : RtHolds q prio boosted M) (he : e ∉ M)
    (hprio : 0 ≤ prio e ∧ prio e < maxRtPrio) (head : Bool) :
    RtHolds (Sched.incRtTasks (prio e) (boosted e)
      { q with
        queue := Function.update q.queue (prio e)
          (if head then e :: q.queue (prio e) else q.queue (prio e) ++ [e]) })
      prio boosted (insert e M) := by
  have hcard : (insert e M).card = M.card + 1 := Finset.card_insert_of_notMem he
  have harr := h.toPrioArray.insert he hprio head
  refine ⟨harr.congr rfl fun _ _ => rfl, ?_, ?_, ?_⟩
  · simp only [Sched.incRtTasks, h.rtNrRunning]
    omega
  · have hb := h.rtNrBoosted
    simp only [Sched.incRtTasks]
    split
    · next hboost =>
      have hset : ((insert e M).filter fun e => boosted e) =
          insert e (M.filter fun e => boosted e) := by rw [Finset.filter_insert, if_pos hboost]
      have hnot : e ∉ M.filter fun e => boosted e := fun hm => he (Finset.mem_filter.mp hm).1
      have := Finset.card_insert_of_notMem hnot
      rw [hset]
      omega
    · next hboost =>
      have hset : ((insert e M).filter fun e => boosted e) = M.filter fun e => boosted e := by
        rw [Finset.filter_insert, if_neg hboost]
      rw [hset, hb]
  · obtain ⟨q', hq'⟩ : ∃ q', q' = { q with
      queue := Function.update q.queue (prio e)
        (if head then e :: q.queue (prio e) else q.queue (prio e) ++ [e]) } := ⟨_, rfl⟩
    rw [← hq'] at harr ⊢
    obtain ⟨d', -, -, hd', hdprio', hbest'⟩ :=
      harr.schedFindFirstBit_spec ⟨e, Finset.mem_insert_self e M⟩
    have hbit : schedFindFirstBit (Sched.incRtTasks (prio e) (boosted e) q') =
        schedFindFirstBit q' := schedFindFirstBit_congr rfl
    have hold : q'.highestPrio = schedFindFirstBit q := by rw [hq', ← h.highestPrio]
    have hself := hbest' e (Finset.mem_insert_self e M)
    rw [hbit]
    simp only [Sched.incRtTasks, hold]
    rcases M.eq_empty_or_nonempty with rfl | hM
    · have := h.toPrioArray.schedFindFirstBit_of_empty
      obtain rfl : d' = e := by simpa using hd'
      rw [if_pos (by omega), hdprio']
    · obtain ⟨d, -, -, hd, hdprio, hbest⟩ := h.schedFindFirstBit_spec hM
      have := hbest' d (Finset.mem_insert_of_mem hd)
      rcases Finset.mem_insert.mp hd' with rfl | hd'
      · split <;> omega
      · have := hbest d' hd'
        split <;> omega

/-- Moving an entity to the tail of its list. -/
theorem requeue (h : RtHolds q prio boosted M) (he : e ∈ M) :
    RtHolds
      { q with
        queue := Function.update q.queue (prio e) ((q.queue (prio e)).erase e ++ [e]) }
      prio boosted M where
  toPrioArray := h.toPrioArray.requeue he
  rtNrRunning := h.rtNrRunning
  rtNrBoosted := h.rtNrBoosted
  highestPrio := by
    rw [h.toPrioArray.schedFindFirstBit_eq (h.toPrioArray.requeue he) fun _ _ => rfl]
    exact h.highestPrio

end RtHolds

end OsProject.Sched
