import OsProject.Sched.Operations

/-!
# Picking the next task

`pick_next_task` returns a task of the first class that has one to give: a class gives none only
when it holds none, or when it is the real-time class and all its tasks are in throttled groups.
Within the real-time class the task is eligible and has the best priority of the eligible ones, within
the RAS class it is the head of the run list. The shortcut for the fair class is taken only when all
tasks held are fair, and so returns what the loop over the classes would.

## Main definitions

* `PickedFrom` — a class gives a task.
* `Exhausted` — a class has no task to give.

## Main results

* `pickNextTask_spec`.
-/

namespace OsProject.Sched

variable {τ Q : Type*} [DecidableEq τ] {K : Kernel τ Q} {s s' : Rq τ Q} {F : Finset τ}

/-- The class `c` holds no task, or it is the real-time class and none of its tasks is eligible. -/
def Exhausted (s : Rq τ Q) (F : Finset τ) (c : SchedClass) : Prop :=
  ∀ t ∈ F, (s.ctl t).schedClass = c → c = .rt ∧ ¬RtEligible s.rt (s.ctl t)

/-- The task `p` is the one the class `c` gives. -/
structure PickedFrom (s : Rq τ Q) (F : Finset τ) (c : SchedClass) (p : τ) : Prop where
  mem : (c = .idle ∧ p = s.idle) ∨ (p ∈ F ∧ (s.ctl p).schedClass = c)
  rt : c = .rt → RtEligible s.rt (s.ctl p) ∧
    ∀ t ∈ F, (s.ctl t).schedClass = .rt → RtEligible s.rt (s.ctl t) →
      (s.ctl p).prio ≤ (s.ctl t).prio
  rt_pick : c = .rt → pickNextRtTask s.rt s.rt.leafRtRqList.length [] = some p
  ras : c = .ras → ∀ l, RunList s l → l.head? = some p

/-- The three outcomes of a class: it gives a task, or it has none, but it never runs wild. -/
theorem classPickNextTask_spec (h : Holds K s F) (c : SchedClass) :
    ((classPickNextTask K s c).1 = .none ∧ c ≠ .idle ∧ Exhausted s F c) ∨
    ∃ p, (classPickNextTask K s c).1 = .task p ∧ PickedFrom s F c p := by
  -- the classes outside the repository pick by what they hold
  have hforeign : ∀ c : SchedClass, c ≠ .rt → c ≠ .ras → c ≠ .idle →
      (∃ q, (K.pickNextTask c s.view s.cfs.data).1 = some q ∧ PickedFrom s F c q) ∨
      (K.pickNextTask c s.view s.cfs.data).1 = none ∧ Exhausted s F c := by
    intro c hrt hras hidle
    cases hpick : (K.pickNextTask c s.view s.cfs.data).1 with
    | some q =>
      have hq := K.pick_some c s.view s.cfs.data q hpick
      rw [h.queued q] at hq
      split at hq
      · next hmem =>
        exact .inl ⟨q, rfl, .inr ⟨hmem.1, by simpa using hq⟩, fun he => absurd he hrt,
          fun he => absurd he hrt, fun he => absurd he hras⟩
      · cases hq
    | none =>
      refine .inr ⟨rfl, fun t ht hc => ?_⟩
      have hq := K.pick_none c s.view s.cfs.data hpick t
      rw [h.queued t, if_pos ⟨ht, by rwa [hc], by rwa [hc]⟩, hc] at hq
      exact absurd rfl hq
  cases c with
  | idle => exact .inr ⟨s.idle, rfl, .inl ⟨rfl, rfl⟩, by simp, by simp, by simp⟩
  | stop =>
    rcases hforeign .stop (by decide) (by decide) (by decide) with ⟨q, hq, hp⟩ | ⟨hq, he⟩
    · refine .inr ⟨q, ?_, hp⟩
      simp only [classPickNextTask]
      split <;> simp_all
    · refine .inl ⟨?_, by decide, he⟩
      simp only [classPickNextTask]
      split <;> simp_all
  | fair =>
    rcases hforeign .fair (by decide) (by decide) (by decide) with ⟨q, hq, hp⟩ | ⟨hq, he⟩
    · refine .inr ⟨q, ?_, hp⟩
      simp only [classPickNextTask]
      split <;> simp_all
    · refine .inl ⟨?_, by decide, he⟩
      simp only [classPickNextTask]
      split <;> simp_all
  | rt =>
    simp only [classPickNextTask, pickNextTaskRt]
    split_ifs with hn hthr
    · refine .inl ⟨rfl, by decide, fun t ht hc => ⟨rfl, fun he => ?_⟩⟩
      exact (h.rt.root_of_eligible (mem_inClass.mpr ⟨ht, hc⟩) he).1 hn
    · refine .inl ⟨rfl, by decide, fun t ht hc => ⟨rfl, fun he => ?_⟩⟩
      rw [he.root] at hthr
      cases hthr
    · obtain ⟨p, hp, hpick, helig, -, hbest⟩ :=
        h.rt.pickNextRtTask_spec hn (Bool.eq_false_iff.mpr hthr)
      refine .inr ⟨p, by rw [hpick], .inr (mem_inClass.mp hp), fun _ => ⟨helig, fun t ht hc => ?_⟩,
        fun _ => hpick, by simp⟩
      exact hbest t (mem_inClass.mpr ⟨ht, hc⟩)
  | ras =>
    obtain ⟨l, hl, hmem, hn⟩ := h.ras
    have hhead : s.ras.links.next none = (l.map some).headD none := hl.next_head
    simp only [classPickNextTask, pickNextTaskRas]
    split_ifs with hzero
    · refine .inl ⟨rfl, by decide, fun t ht hc => ?_⟩
      have hnil : l = [] := List.length_eq_zero_iff.mp (by omega)
      have := (hmem t).mpr (mem_inClass.mpr ⟨ht, hc⟩)
      simp [hnil] at this
    · cases l with
      | nil => exact absurd hn hzero
      | cons p l =>
        simp only [List.map_cons, List.headD_cons] at hhead
        refine .inr ⟨p, by simp [hhead], .inr (mem_inClass.mp ((hmem p).mp (by simp))), by simp,
          by simp, ?_⟩
        intro _ l' hl'
        rw [← hl.unique hl', List.head?_cons]

theorem Exhausted.accounts (h : Accounts K s s') {c : SchedClass} :
    Exhausted s' F c ↔ Exhausted s F c := by rw [Exhausted, Exhausted, h.ctl, h.rt]

theorem PickedFrom.accounts (h : Accounts K s s') {c : SchedClass} {p : τ}
    (hp : PickedFrom s' F c p) : PickedFrom s F c p where
  mem := by rw [← h.ctl, ← h.idle]; exact hp.mem
  rt hc := by rw [← h.ctl, ← h.rt]; exact hp.rt hc
  rt_pick hc := by rw [← h.rt]; exact hp.rt_pick hc
  ras hc l hl := hp.ras hc l (h.runList hl)

/-- A real-time task is picked as the first one of its list. -/
theorem PickedFrom.rt_head (h : Holds K s F) {p : τ} (hp : PickedFrom s F .rt p) :
    ((s.rt.rq (s.ctl p).schedTaskGroup.rtRq).queue (s.ctl p).prio).head? = some (.task p) := by
  have hin : p ∈ inClass s.ctl F .rt := mem_inClass.mpr (hp.mem.resolve_left (by simp))
  have helig := (hp.rt rfl).1
  obtain ⟨q, -, hq, -, hhead, -⟩ :=
    h.rt.pickNextRtTask_spec (h.rt.root_of_eligible hin helig).1 helig.root
  obtain rfl : p = q := Option.some.inj ((hp.rt_pick rfl).symm.trans hq)
  exact hhead

theorem pickFrom_cons_none {c : SchedClass} {cs : List SchedClass}
    (h : (classPickNextTask K s c).1 = .none) :
    pickFrom K s (c :: cs) = pickFrom K (classPickNextTask K s c).2 cs := by
  rw [pickFrom]
  split
  · next s' heq => rw [heq]
  · next hne => exact (hne _ (Prod.ext h rfl)).elim

theorem pickFrom_cons_task {c : SchedClass} {cs : List SchedClass} {p : τ}
    (h : (classPickNextTask K s c).1 = .task p) :
    pickFrom K s (c :: cs) = classPickNextTask K s c := by
  rw [pickFrom]
  split
  · next s' heq => rw [heq] at h; cases h
  · rfl

/-- The class loop gives a task of the first class that has one. -/
theorem pickFrom_spec {cs : List SchedClass} (hidle : .idle ∈ cs) (h : Holds K s F) :
    ∃ cs₁ c cs₂ p, cs = cs₁ ++ c :: cs₂ ∧ (pickFrom K s cs).1 = .task p ∧ PickedFrom s F c p ∧
      ∀ c' ∈ cs₁, Exhausted s F c' := by
  induction cs generalizing s with
  | nil => cases hidle
  | cons c cs ih =>
    have hacc : Accounts K s (classPickNextTask K s c).2 := accounts_classPickNextTask
    rcases classPickNextTask_spec h c with ⟨hnone, hc, hex⟩ | ⟨p, hp, hpick⟩
    · obtain ⟨cs₁, c', cs₂, p, hcs, hp, hpick, hall⟩ :=
        ih ((List.mem_cons.mp hidle).resolve_left hc.symm) (hacc.holds h)
      rw [pickFrom_cons_none hnone]
      refine ⟨c :: cs₁, c', cs₂, p, by rw [hcs]; rfl, hp, hpick.accounts hacc, fun c'' hc'' => ?_⟩
      rcases List.mem_cons.mp hc'' with rfl | hc''
      · exact hex
      · exact (Exhausted.accounts hacc).mp (hall c'' hc'')
    · rw [pickFrom_cons_task hp]
      exact ⟨[], c, cs, p, rfl, hp, hpick, by simp⟩

/-- Every class is in the chain, in the order of its rank. -/
theorem mem_of_rank_lt {cs₁ cs₂ : List SchedClass} {c c' : SchedClass}
    (h : forEachClass = cs₁ ++ c :: cs₂) (hlt : c'.rank < c.rank) : c' ∈ cs₁ := by
  have hsorted : forEachClass.Pairwise fun a b => a.rank < b.rank := by decide
  have hmem : c' ∈ forEachClass := by cases c' <;> decide
  rw [h] at hsorted hmem
  rcases List.mem_append.mp hmem with hm | hm
  · exact hm
  · rcases List.mem_cons.mp hm with rfl | hm
    · omega
    · have := (List.pairwise_cons.mp (List.pairwise_append.mp hsorted).2.1).1 c' hm
      omega

/-- The two counters agree only when all tasks held are fair. -/
theorem Holds.schedClass_eq_fair (h : Holds K s F) (hfast : s.nrRunning = s.cfs.hNrRunning) :
    ∀ t ∈ F, (s.ctl t).schedClass = .fair := by
  have hcard : F.card ≤ (inClass s.ctl F .fair).card := by
    have := h.nrRunning
    have := h.hNrRunning
    omega
  have heq : inClass s.ctl F .fair = F :=
    Finset.eq_of_subset_of_card_le (Finset.filter_subset _ _) hcard
  intro t ht
  rw [← heq] at ht
  exact (mem_inClass.mp ht).2

theorem pickNextTask_fast_none (hfast : s.nrRunning = s.cfs.hNrRunning)
    (h : (classPickNextTask K s .fair).1 = .none) :
    pickNextTask K s = pickFrom K (classPickNextTask K s .fair).2 forEachClass := by
  rw [pickNextTask, if_pos hfast]
  split
  · next s' heq => rw [heq]
  · next hne => exact (hne _ (Prod.ext h rfl)).elim

theorem pickNextTask_fast_task {p : τ} (hfast : s.nrRunning = s.cfs.hNrRunning)
    (h : (classPickNextTask K s .fair).1 = .task p) :
    pickNextTask K s = classPickNextTask K s .fair := by
  rw [pickNextTask, if_pos hfast]
  split
  · next s' heq => rw [heq] at h; cases h
  · rfl

/-- The class loop gives a task of the first class of the chain that has one. -/
theorem pickFrom_forEachClass_spec (h : Holds K s F) :
    ∃ c p, (pickFrom K s forEachClass).1 = .task p ∧ PickedFrom s F c p ∧
      ∀ c', c'.rank < c.rank → Exhausted s F c' := by
  obtain ⟨cs₁, c, cs₂, p, hcs, hp, hpick, hall⟩ :=
    pickFrom_spec (show SchedClass.idle ∈ forEachClass by decide) h
  exact ⟨c, p, hp, hpick, fun c' hlt => hall c' (mem_of_rank_lt hcs hlt)⟩

/-- `pick_next_task` gives a task of the first class that has one, by either path. -/
theorem pickNextTask_spec (h : Holds K s F) :
    ∃ c p, (pickNextTask K s).1 = .task p ∧ PickedFrom s F c p ∧
      ∀ c', c'.rank < c.rank → Exhausted s F c' := by
  by_cases hfast : s.nrRunning = s.cfs.hNrRunning
  · have hfair := h.schedClass_eq_fair hfast
    have hacc : Accounts K s (classPickNextTask K s .fair).2 := accounts_classPickNextTask
    rcases classPickNextTask_spec h .fair with ⟨hnone, -, -⟩ | ⟨p, hp, hpick⟩
    · obtain ⟨c, p, hp, hpick, hall⟩ := pickFrom_forEachClass_spec (hacc.holds h)
      rw [pickNextTask_fast_none hfast hnone]
      exact ⟨c, p, hp, hpick.accounts hacc,
        fun c' hlt => (Exhausted.accounts hacc).mp (hall c' hlt)⟩
    · rw [pickNextTask_fast_task hfast hp]
      refine ⟨.fair, p, hp, hpick, fun c' hlt t ht hc => ?_⟩
      rw [hfair t ht] at hc
      subst hc
      exact absurd hlt (lt_irrefl _)
  · have hstep : pickNextTask K s = pickFrom K s forEachClass := by
      rw [pickNextTask, if_neg hfast]
    rw [hstep]
    exact pickFrom_forEachClass_spec h

omit [DecidableEq τ] in
/-- A task is not picked from a class after that of a task that is held, unless the latter is a
real-time task in a throttled group. -/
theorem rank_le_of_exhausted {c : SchedClass} {t : τ}
    (hall : ∀ c', c'.rank < c.rank → Exhausted s F c') (ht : t ∈ F)
    (helig : (s.ctl t).schedClass = .rt → RtEligible s.rt (s.ctl t)) :
    c.rank ≤ (s.ctl t).schedClass.rank := by
  by_contra hlt
  obtain ⟨hrt, hthr⟩ := hall _ (not_le.mp hlt) t ht rfl
  exact hthr (helig hrt)

omit [DecidableEq τ] in
/-- When an eligible real-time task is held, the pick is the stopper thread or a real-time task of
no larger priority. -/
theorem PickedFrom.of_rt {c : SchedClass} {p t : τ} (hpick : PickedFrom s F c t)
    (hall : ∀ c', c'.rank < c.rank → Exhausted s F c') (hp : p ∈ F)
    (hc : (s.ctl p).schedClass = .rt) (helig : RtEligible s.rt (s.ctl p)) :
    (s.ctl t).schedClass = .stop ∨
      ((s.ctl t).schedClass = .rt ∧ (s.ctl t).prio ≤ (s.ctl p).prio) := by
  have hrank := rank_le_of_exhausted hall hp fun _ => helig
  rw [hc] at hrank
  cases c with
  | stop => exact .inl (hpick.mem.resolve_left (by simp)).2
  | rt => exact .inr ⟨(hpick.mem.resolve_left (by simp)).2, (hpick.rt rfl).2 p hp hc helig⟩
  | ras | fair | idle => exact absurd hrank (by decide)

end OsProject.Sched
