import Mathlib.Data.List.TakeWhile
import OsProject.Sched.RunQueue

/-!
# Wakeup preemption in the RAS class

A task of the RAS class that is woken with a larger weight than the current task preempts it. It is
queued at the tail of the run list, and the context switch moves the current task behind it and
picks the head. So the woken task runs next if and only if no task but the current one is ahead of
it on the run list.

## Main results

* `wakeup_preemption_picks_woken_iff`.
-/

namespace OsProject.Sched

open Transition

variable {τ Q : Type*} [DecidableEq τ] {K : Kernel τ Q} {s s' : Rq τ Q} {p : τ} {l : List τ}

/-! ### The run list in a wakeup and in a context switch -/

/-- The run list after a wakeup of `p`. -/
def withWoken (l : List τ) (p : τ) : List τ := if p ∈ l then l else l ++ [p]

theorem mem_withWoken {t : τ} : t ∈ withWoken l p ↔ t ∈ l ∨ t = p := by
  rw [withWoken]
  split
  · next hp => exact ⟨.inl, fun h => h.elim id fun ht => ht ▸ hp⟩
  · simp

/-- The tasks ahead of a woken task. -/
theorem takeWhile_withWoken : (withWoken l p).takeWhile (· ≠ p) = l.takeWhile (· ≠ p) := by
  rw [withWoken]
  split
  · rfl
  · next hp =>
    have hall : ∀ t ∈ l, decide (t ≠ p) = true := fun t ht =>
      decide_eq_true (ne_of_mem_of_not_mem ht hp)
    rw [List.takeWhile_append_of_pos hall, List.takeWhile_eq_self_iff.mpr hall]
    simp

/-- When the current task `c` goes to the tail, the first task is `p` if and only if `c` is the only
one that may have been ahead of `p`. -/
theorem head?_toTail_eq_iff {c : τ} (hnd : l.Nodup) (hp : p ∈ l) (hc : c ∈ l) (hne : p ≠ c) :
    (toTail l c).head? = some p ↔ ∀ t ∈ l.takeWhile (· ≠ p), t = c := by
  obtain ⟨l₁, l₂, hp₁, rfl, -⟩ := List.exists_erase_eq hp
  have hahead : (l₁ ++ p :: l₂).takeWhile (· ≠ p) = l₁ := by
    rw [List.takeWhile_append_of_pos fun t ht => decide_eq_true (ne_of_mem_of_not_mem ht hp₁)]
    simp
  have hrest : toTail (l₁ ++ p :: l₂) c =
      l₁.filter (· != c) ++ p :: (l₂.filter (· != c) ++ [c]) := by
    rw [toTail, if_pos hc, hnd.erase_eq_filter]
    simp [hne]
  rw [hahead, hrest]
  cases hfilter : l₁.filter (· != c) with
  | nil =>
    have := List.filter_eq_nil_iff.mp hfilter
    simpa using this
  | cons t l =>
    obtain ⟨ht, htc⟩ := List.mem_filter.mp (hfilter ▸ List.mem_cons_self : t ∈ l₁.filter (· != c))
    have htp : t ≠ p := ne_of_mem_of_not_mem ht hp₁
    simp only [List.cons_append, List.head?_cons, Option.some.injEq]
    exact iff_of_false htp fun hall => by simp [hall t ht] at htc

/-- A RAS task that is queued in a wakeup goes to the tail of the run list. -/
theorem RunList.ttwuActivate (h : RunList s l) (hp : p ∉ l) (hc : (s.ctl p).schedClass = .ras)
    {flags : EnqueueFlags} (hhead : flags.head = false) :
    RunList (ttwuActivate K s p flags) (l ++ [p]) := by
  have hclock : Accounts K s (updateRqClock s) := accounts_updateRqClock
  rw [← hclock.ctl] at hc
  have hc : ((updateRqClock s).task p).schedClass = .ras := hc
  have henq := (hclock.runList h).enqueueTaskRas hp K flags
  rw [hhead, if_neg Bool.false_ne_true] at henq
  rw [RunList, Sched.ttwuActivate, activateTask, enqueueTask, hc]
  exact henq

/-- A wakeup does not change the write counts. -/
theorem ttwuActivate_wcounts (hc : (s.ctl p).schedClass = .ras) (flags : EnqueueFlags) (t : τ) :
    ((ttwuActivate K s p flags).task t).wcounts = (s.task t).wcounts := by
  have hc : ((updateRqClock s).task p).schedClass = .ras := by rwa [updateRqClock_task]
  rw [ttwuActivate, activateTask, enqueueTask, hc]
  by_cases ht : t = p
  · subst ht; simp [Rq.modifyCtl, Rq.modifyTask, enqueueTaskRas, updateRqClock_task]
  · simp [Rq.modifyCtl, Rq.modifyTask, enqueueTaskRas, updateRqClock_task, ht]

omit [DecidableEq τ] in
theorem calcRasWeight_congr {t t' : TaskStruct} (h : t'.wcounts = t.wcounts) :
    calcRasWeight t' = calcRasWeight t := by rw [calcRasWeight, calcRasWeight, h]

/-- A RAS task with a greater weight than the current task preempts it. -/
theorem checkPreemptCurrRas_needResched
    (hw : calcRasWeight (s.task s.curr) < calcRasWeight (s.task p)) :
    (checkPreemptCurrRas s p).needResched s.curr = true := by
  rw [checkPreemptCurrRas_eq, if_pos hw]
  simp [Rq.reschedTask]

theorem checkPreemptCurr_needResched {flags : ℕ} (hcurr : (s.task s.curr).schedClass = .ras)
    (hp : (s.task p).schedClass = .ras)
    (hw : calcRasWeight (s.task s.curr) < calcRasWeight (s.task p)) :
    (checkPreemptCurr K s p flags).needResched s.curr = true := by
  have hpre : preemptCurr K s p flags = checkPreemptCurrRas s p := by
    rw [preemptCurr, if_pos (hp.trans hcurr.symm), classCheckPreemptCurr, hcurr]
  have hresched := checkPreemptCurrRas_needResched hw
  rw [checkPreemptCurr]
  simp only [hpre]
  split
  · exact hresched
  · exact hresched

/-- A wakeup of `p`, by `try_to_wake_up` or for the first time. -/
def Wakeup (s : Rq τ Q) (p : τ) (op : Op τ) : Prop :=
  (∃ mask flags, op = .tryToWakeUp p mask flags ∧ (s.task p).state &&& mask ≠ 0) ∨
    op = .wakeUpNewTask p

/-- What a wakeup of a RAS task of larger weight than the current one does: it is on the run list
and a reschedule is requested. -/
theorem wakeup_spec {op : Op τ} (hen : Enabled s op) (hop : Wakeup s p op)
    (hx : execOp K s op = some s') (hcurr : (s.ctl s.curr).schedClass = .ras)
    (hp : (s.ctl p).schedClass = .ras)
    (hw : calcRasWeight (s.task s.curr) < calcRasWeight (s.task p)) (hl : RunList s l)
    (hmem : p ∈ l ↔ (s.ctl p).onRq = true) :
    Wakes K s s' p ∧ RunList s' (withWoken l p) ∧ s'.needResched s.curr = true := by
  have hidle : (s.ctl p).schedClass ≠ .idle := by simp [hp]
  have hprio : (s.ctl p).schedClass = .rt → 0 ≤ (s.ctl p).prio ∧ (s.ctl p).prio < maxRtPrio := by
    simp [hp]
  -- the check for preemption, on the state in which `p` is queued
  have hcheck : ∀ r : Rq τ Q, RunList r (withWoken l p) → r.curr = s.curr →
      (∀ t, (r.ctl t).schedClass = (s.ctl t).schedClass) →
      (∀ t, (r.task t).wcounts = (s.task t).wcounts) → ∀ flags,
      RunList (checkPreemptCurr K r p flags) (withWoken l p) ∧
        (checkPreemptCurr K r p flags).needResched s.curr = true := by
    intro r hr hc hclass hcount flags
    have hacc : Accounts K r (checkPreemptCurr K r p flags) := accounts_checkPreemptCurr
    refine ⟨hacc.runList hr, ?_⟩
    rw [← hc] at hw hcurr ⊢
    refine checkPreemptCurr_needResched ((hclass _).trans hcurr) ((hclass p).trans hp) ?_
    rw [calcRasWeight_congr (hcount r.curr), calcRasWeight_congr (hcount p)]
    exact hw
  have hactivated : (s.ctl p).onRq = false → ∀ f : EnqueueFlags, f.head = false → ∀ flags,
      RunList (checkPreemptCurr K (ttwuActivate K s p f) p flags) (withWoken l p) ∧
        (checkPreemptCurr K (ttwuActivate K s p f) p flags).needResched s.curr = true := by
    intro hoff f hhead flags
    have hpl : p ∉ l := fun hm => by rw [hmem.mp hm] at hoff; cases hoff
    obtain ⟨henq, hctl, -⟩ := ttwuActivate_spec (K := K) f hoff hidle hprio
    refine hcheck (ttwuActivate K s p f) ?_ henq.curr (fun t => ?_) (ttwuActivate_wcounts hp f) flags
    · rw [withWoken, if_neg hpl]
      exact hl.ttwuActivate hpl hp hhead
    · rw [hctl]
      by_cases ht : t = p
      · rw [ht, Function.update_self]
      · rw [Function.update_of_ne ht]
  rcases hop with ⟨mask, flags, rfl, hstate⟩ | rfl
  · obtain rfl := Option.some.inj hx
    rcases wakes_tryToWakeUp (K := K) mask flags hidle hprio with ⟨-, hzero⟩ | ⟨-, hwakes⟩
    · exact absurd hzero hstate
    · refine ⟨hwakes, ?_⟩
      rw [tryToWakeUp, if_neg hstate]
      split
      · next hon =>
        have hsame : withWoken l p = l := if_pos (hmem.mpr hon)
        exact hcheck s (by rwa [hsame]) rfl (fun _ => rfl) (fun _ => rfl) flags
      · next hoff => exact hactivated (Bool.eq_false_iff.mpr hoff) enqueueWakeup rfl 0
  · obtain ⟨-, hoff, hstate⟩ := hen
    obtain rfl := Option.some.inj hx
    exact ⟨wakes_wakeUpNewTask hoff hstate hidle hprio, hactivated hoff {} rfl wfFork⟩

/-- A context switch in which the current RAS task stays runnable and no task of a higher class is
held: the current task goes to the tail of the run list and its first task is picked. -/
theorem schedule_ras (hinv : Inv K s) (hcurr : (s.ctl s.curr).schedClass = .ras)
    (hno : ∀ t, (s.ctl t).onRq = true → (s.ctl t).schedClass ≠ .stop ∧ (s.ctl t).schedClass ≠ .rt)
    (hl : RunList s l) {preempt signalPending : Bool} {toWakeup : Option τ}
    (hstay : preempt = true ∨ (s.ctl s.curr).state = 0)
    (hs : schedule K s preempt signalPending toWakeup = some s') :
    RunList s' (toTail l s.curr) ∧ (toTail l s.curr).head? = some s'.curr := by
  obtain ⟨m, c, next, s'', hm, -, ⟨F, -, hmem, -, hpick, hall⟩, hsched, -, hnext, -, -, -, hras⟩ :=
    schedule_spec hinv preempt signalPending toWakeup
  obtain rfl : s'' = s' := Option.some.inj (hsched.symm.trans hs)
  rw [schedulePrev_of_stays signalPending toWakeup hstay] at hm
  have hkeeps : Keeps K s m := by rw [hm]; exact keeps_putPrevTask
  have hrun : RunList m (toTail l s.curr) := by rw [hm]; exact hl.putPrevTask hcurr
  refine ⟨by rwa [RunList, hras], ?_⟩
  rw [hnext]
  rw [hkeeps.ctl] at hmem
  have hon : (s.ctl s.curr).onRq = true := by
    refine hinv.curr.resolve_left fun hidle => ?_
    rw [hidle, hinv.idle_class] at hcurr
    cases hcurr
  have hrank : c.rank ≤ (m.ctl s.curr).schedClass.rank :=
    rank_le_of_exhausted hall ((hmem _).mpr hon) (by rw [hkeeps.ctl, hcurr]; simp)
  rw [hkeeps.ctl, hcurr] at hrank
  have hpicked : c ≠ .idle → (s.ctl next).onRq = true ∧ (s.ctl next).schedClass = c := by
    intro hne
    obtain ⟨hF, hc⟩ := hpick.mem.resolve_left fun h => hne h.1
    rw [hkeeps.ctl] at hc
    exact ⟨(hmem next).mp hF, hc⟩
  cases c with
  | stop => exact absurd (hpicked (by decide)).2 (hno next (hpicked (by decide)).1).1
  | rt => exact absurd (hpicked (by decide)).2 (hno next (hpicked (by decide)).1).2
  | ras => exact hpick.ras rfl _ hrun
  | fair | idle => exact absurd hrank (by decide)

/-- A RAS task of larger weight than the current one, when it is woken while no task of a higher
class is queued, requests a reschedule; and it is the next task to run if and only if no task but
the current one is ahead of it on the run list, or on it at all when it was not queued. -/
theorem wakeup_preemption_picks_woken_iff (h : Reachable (system K) s)
    (hcurr : (s.task s.curr).schedClass = .ras)
    (hno : ∀ t, (s.task t).onRq = true →
      (s.task t).schedClass ≠ .stop ∧ (s.task t).schedClass ≠ .rt)
    (hp : (s.task p).schedClass = .ras)
    (hw : calcRasWeight (s.task s.curr) < calcRasWeight (s.task p)) {e e' : Event τ}
    {s₁ s₂ : Rq τ Q} (hop : Wakeup s p e.op) (hstep : (system K).step s e s₁)
    {preempt signalPending : Bool} {toWakeup : Option τ}
    (hop' : e'.op = .schedule preempt signalPending toWakeup)
    (hstay : preempt = true ∨ (s.task s.curr).state = 0) (hstep' : (system K).step s₁ e' s₂) :
    s₁.needResched s₁.curr = true ∧
      (s₂.curr = p ↔ ∃ l, RunList s l ∧ ∀ t ∈ l.takeWhile (· ≠ p), t = s.curr) := by
  have hne : s.curr ≠ p := fun he => by rw [he] at hw; exact lt_irrefl _ hw
  obtain ⟨hen, hx, hinv⟩ := step_inv (reachable_inv h) hstep
  obtain ⟨F, hF, hmemF⟩ := hinv.holds
  obtain ⟨l, hl, hmemL, -⟩ := hF.ras
  have hmem : ∀ t, t ∈ l ↔ (s.ctl t).onRq = true ∧ (s.ctl t).schedClass = .ras := by
    intro t
    rw [hmemL, mem_inClass, hmemF]
    exact Iff.rfl
  have hcurrMem : s.curr ∈ l := by
    refine (hmem s.curr).mpr ⟨(reachable_inv h).curr.resolve_left fun hidle => ?_, hcurr⟩
    have hclass := (reachable_inv h).idle_class
    rw [← hidle] at hclass
    exact absurd (hclass.symm.trans hcurr) (by decide)
  -- the wakeup
  obtain ⟨hwakes, hl₁, hresched⟩ := wakeup_spec (s := atTime s e.now) hen hop hx hcurr hp hw hl
    ((hmem p).trans (and_iff_left hp))
  have hclass : ∀ t, (s₁.ctl t).schedClass = (s.ctl t).schedClass := by
    intro t
    rw [hwakes.ctl]
    by_cases ht : t = p
    · rw [ht, Function.update_self]
      rfl
    · rw [Function.update_of_ne ht]
      rfl
  have hself : s₁.ctl s.curr = s.ctl s.curr := by
    rw [hwakes.ctl, Function.update_of_ne hne]
    rfl
  have hcurr₁ : s₁.curr = s.curr := hwakes.curr
  refine ⟨by rw [hcurr₁]; exact hresched, ?_⟩
  -- the context switch
  obtain ⟨-, hx', hinv'⟩ := step_inv (execOp_spec hinv hen hx).1 hstep'
  rw [hop'] at hx'
  have hcurr₂ : ((atTime s₁ e'.now).ctl (atTime s₁ e'.now).curr).schedClass = .ras := by
    have : (s₁.ctl s₁.curr).schedClass = .ras := by rw [hcurr₁, hself]; exact hcurr
    exact this
  have hno₂ : ∀ t, ((atTime s₁ e'.now).ctl t).onRq = true →
      ((atTime s₁ e'.now).ctl t).schedClass ≠ .stop ∧
        ((atTime s₁ e'.now).ctl t).schedClass ≠ .rt := by
    intro t hon
    have hon : (s₁.ctl t).onRq = true := hon
    have hsame : ((atTime s₁ e'.now).ctl t).schedClass = (s.ctl t).schedClass := hclass t
    rw [hsame]
    by_cases ht : t = p
    · have : (s.ctl p).schedClass = .ras := hp
      rw [ht, this]
      decide
    · rw [hwakes.ctl, Function.update_of_ne ht] at hon
      exact hno t hon
  have hstay₂ : preempt = true ∨ ((atTime s₁ e'.now).ctl (atTime s₁ e'.now).curr).state = 0 := by
    refine hstay.imp_right fun h0 => ?_
    have : (s₁.ctl s₁.curr).state = 0 := by rw [hcurr₁, hself]; exact h0
    exact this
  obtain ⟨-, hhead⟩ := schedule_ras hinv' hcurr₂ hno₂ hl₁ hstay₂ hx'
  have hpick : s₂.curr = p ↔ ∀ t ∈ l.takeWhile (· ≠ p), t = s.curr := by
    have hnd : (withWoken l p).Nodup := List.Nodup.of_map some hl₁.nodup_tail
    have hcurrWoken : s.curr ∈ withWoken l p := mem_withWoken.mpr (.inl hcurrMem)
    rw [← takeWhile_withWoken,
      ← head?_toTail_eq_iff hnd (mem_withWoken.mpr (.inr rfl)) hcurrWoken hne.symm, ← hcurr₁]
    have hhead : (toTail (withWoken l p) s₁.curr).head? = some s₂.curr := hhead
    rw [hhead, Option.some.injEq]
  rw [hpick]
  refine ⟨fun hall => ⟨l, hl, hall⟩, fun ⟨l', hl', hall⟩ => ?_⟩
  have hl : RunList s l := hl
  rwa [hl.unique hl']

/-- Without a stopper thread, and with no real-time run queue in use, no task of a class before the
RAS class is queued. -/
theorem Inv.no_higher_class (h : Inv K s) (hstop : s.stop = none)
    (hleaf : s.rt.leafRtRqList = []) (t : τ) (hon : (s.task t).onRq = true) :
    (s.task t).schedClass ≠ .stop ∧ (s.task t).schedClass ≠ .rt := by
  refine ⟨fun hc => ?_, fun hc => ?_⟩
  · rw [h.stop_eq hc] at hstop
    cases hstop
  · obtain ⟨F, hF, hmem⟩ := h.holds
    have hin : t ∈ inClass s.ctl F .rt := mem_inClass.mpr ⟨(hmem t).mpr hon, hc⟩
    have hleaf' := RtLinked.leaf hF.rt _ (hF.rt.of_mem hin).1
    rw [hleaf] at hleaf'
    cases hleaf'

/-- A RAS task runs and has written often, and two more RAS tasks are new. -/
def writer : List (Op ℕ) :=
  [setschedulerNocheck 1 6 0, .wakeUpNewTask 1, reschedule, .writeTrace 1 100 1,
    setschedulerNocheck 2 6 0, setschedulerNocheck 3 6 0]

theorem wakeup_preemption_picks_woken_iff_writer :
    ∃ s s₁ s₂, referenceRun writer = some s ∧
      exec (referenceKernel ℕ) s ⟨0, .wakeUpNewTask 2⟩ = some s₁ ∧
      exec (referenceKernel ℕ) s₁ ⟨0, reschedule⟩ = some s₂ ∧ s₁.needResched s₁.curr = true ∧
      (s₂.curr = 2 ↔ ∃ l, RunList s l ∧ ∀ t ∈ l.takeWhile (· ≠ 2), t = s.curr) := by
  have hrun : referenceRun writer = some ((referenceRun writer).get (by decide +kernel)) := by simp
  have hwake := (Option.some_get (show (exec (referenceKernel ℕ)
    ((referenceRun writer).get (by decide +kernel)) ⟨0, .wakeUpNewTask 2⟩).isSome
    from by decide +kernel)).symm
  obtain ⟨s₂, hswitch⟩ := Option.isSome_iff_exists.mp
    (exec_isSome ((reachable_referenceRun hrun).step hwake) (e := ⟨0, reschedule⟩) trivial)
  exact ⟨_, _, s₂, hrun, hwake, hswitch,
    wakeup_preemption_picks_woken_iff (reachable_referenceRun hrun) (by decide +kernel)
      ((reachable_inv (reachable_referenceRun hrun)).no_higher_class (by decide +kernel)
        (by decide +kernel)) (by decide +kernel) (by decide +kernel) (.inr rfl) hwake rfl (.inl rfl) hswitch⟩

/-- The task that is woken last preempts the writer, but the one that was woken before it runs. -/
theorem not_wakeup_preemption_picks_woken :
    ¬ ∀ (s s₁ s₂ : Rq ℕ (Arrivals ℕ)) (p : ℕ) (e e' : Event ℕ),
      Reachable (system (referenceKernel ℕ)) s → (s.task s.curr).schedClass = .ras →
      (∀ t, (s.task t).onRq = true →
        (s.task t).schedClass ≠ .stop ∧ (s.task t).schedClass ≠ .rt) →
      (s.task p).schedClass = .ras → calcRasWeight (s.task s.curr) < calcRasWeight (s.task p) →
      Wakeup s p e.op → (system (referenceKernel ℕ)).step s e s₁ →
      e'.op = reschedule → (system (referenceKernel ℕ)).step s₁ e' s₂ → s₂.curr = p := by
  intro h
  have hrun : referenceRun (writer ++ [.wakeUpNewTask 2]) =
      some ((referenceRun (writer ++ [.wakeUpNewTask 2])).get (by decide +kernel)) := by simp
  have hwake := (Option.some_get (show (exec (referenceKernel ℕ)
    ((referenceRun (writer ++ [.wakeUpNewTask 2])).get (by decide +kernel))
    ⟨0, .wakeUpNewTask 3⟩).isSome from by decide +kernel)).symm
  have hpick := h _ _ _ 3 ⟨0, .wakeUpNewTask 3⟩ ⟨0, reschedule⟩ (reachable_referenceRun hrun)
    (by decide +kernel) ((reachable_inv (reachable_referenceRun hrun)).no_higher_class
      (by decide +kernel) (by decide +kernel)) (by decide +kernel) (by decide +kernel) (.inr rfl)
    hwake rfl (Option.some_get (by decide +kernel)).symm
  exact absurd hpick (by decide +kernel)

end OsProject.Sched
