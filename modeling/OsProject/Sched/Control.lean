import OsProject.Sched.Policy

/-!
# Control fields that agree

The priorities of a task agree with its policy, nice value and waiters, and its class agrees with
policy and priority: `rt_mutex_setprio` and `__setscheduler` choose the class by both, `sched_fork`
makes a child without a real-time priority a fair task, whatever its policy. Every path that
writes the control fields keeps this agreement.

## Main definitions

* `CtlOk` — the control fields agree.
* `inherited`, `childCtl` — the control fields after a change of the first waiter, and of a child.

## Main results

* `CtlOk.setscheduler`, `CtlOk.inherited`, `CtlOk.reniced`, `CtlOk.forked`.
* `CtlOk.prio_lt`, `CtlOk.le_prio` — what the class tells of the other fields.

Source: `kernel/sched/core.c`.
-/

namespace OsProject.Sched

/-- What the paths of the core that write the control fields keep: the priorities agree with
policy, nice value and waiters, and the class agrees with policy and priority. -/
structure CtlOk (c : TaskControl) : Prop where
  normal : c.normalPrio = normalPrio c
  rtPriority_pos : rtPolicy c.policy = true ↔ 0 < c.rtPriority
  rtPriority_lt : c.rtPriority < 100
  staticPrio_mem : 100 ≤ c.staticPrio ∧ c.staticPrio < 140
  prio_mem : 0 ≤ c.prio ∧ c.prio < 140
  waiter_mem : ∀ w ∈ c.piTopWaiter, 0 ≤ w ∧ w < maxPrio
  /-- The task runs at a real-time priority when it inherits one, and only then. -/
  boost : rtPrio c.prio = rtPrio (rtMutexGetprio c)
  class_eq : c.schedClass = classFor c.policy c.prio ∨
    (c.policy = .ras ∧ c.schedClass = .fair ∧ rtPrio c.prio = false)

namespace CtlOk

variable {c : TaskControl}

theorem schedClass_ne_idle (h : CtlOk c) : c.schedClass ≠ .idle := by
  rcases h.class_eq with hc | ⟨-, hc, -⟩
  · rw [hc, classFor]
    split_ifs <;> decide
  · rw [hc]; decide

theorem schedClass_ne_stop (h : CtlOk c) : c.schedClass ≠ .stop := by
  rcases h.class_eq with hc | ⟨-, hc, -⟩
  · rw [hc, classFor]
    split_ifs <;> decide
  · rw [hc]; decide

/-- A real-time task has a real-time priority. -/
theorem prio_lt (h : CtlOk c) (hc : c.schedClass = .rt) : 0 ≤ c.prio ∧ c.prio < maxRtPrio := by
  refine ⟨h.prio_mem.1, ?_⟩
  rcases h.class_eq with hc' | ⟨-, hc', -⟩
  · rw [hc, classFor] at hc'
    split_ifs at hc' with hras hrt
    simpa [rtPrio] using hrt
  · simp [hc] at hc'

/-- A fair task does not have a real-time priority. -/
theorem le_prio (h : CtlOk c) (hc : c.schedClass = .fair) : maxRtPrio ≤ c.prio := by
  rcases h.class_eq with hc' | ⟨-, -, hp⟩
  · rw [hc, classFor] at hc'
    split_ifs at hc' with hras hrt
    simpa [rtPrio] using hrt
  · simpa [rtPrio] using hp

/-- The state, the mark and the group of a task do not matter. -/
theorem congr {c' : TaskControl} (h : CtlOk c)
    (heq : c' = { c with state := c'.state, onRq := c'.onRq, schedTaskGroup := c'.schedTaskGroup }) :
    CtlOk c' := by
  rw [heq]
  exact ⟨h.normal, h.rtPriority_pos, h.rtPriority_lt, h.staticPrio_mem, h.prio_mem, h.waiter_mem,
    h.boost, h.class_eq⟩

/-- The class and priority that `rt_mutex_setprio` and `__setscheduler` set agree. -/
theorem of_getprio (hn : c.normalPrio = normalPrio c)
    (hpos : rtPolicy c.policy = true ↔ 0 < c.rtPriority) (hlt : c.rtPriority < 100)
    (hs : 100 ≤ c.staticPrio ∧ c.staticPrio < 140)
    (hw : ∀ w ∈ c.piTopWaiter, 0 ≤ w ∧ w < maxPrio) :
    CtlOk { c with
      prio := rtMutexGetprio c, schedClass := classFor c.policy (rtMutexGetprio c) } where
  normal := hn
  rtPriority_pos := hpos
  rtPriority_lt := hlt
  staticPrio_mem := hs
  prio_mem := by
    have hnp : 0 ≤ c.normalPrio ∧ c.normalPrio < 140 := by
      rw [hn, normalPrio]
      simp only [maxRtPrio]
      split <;> omega
    simp only [rtMutexGetprio]
    split
    · exact hnp
    · next w hpi =>
      have := hw w (by simp [hpi])
      simp only [maxPrio, maxRtPrio] at this
      omega
  waiter_mem := hw
  boost := rfl
  class_eq := .inl rfl

end CtlOk

/-- What a change of the first waiter makes of a task. -/
def inherited (waiter : Option ℤ) (c : TaskControl) : TaskControl :=
  let c := { c with piTopWaiter := waiter }
  if c.prio ≠ rtMutexGetprio c then
    { c with schedClass := classFor c.policy (rtMutexGetprio c), prio := rtMutexGetprio c }
  else c

theorem CtlOk.inherited {c : TaskControl} (h : CtlOk c) {waiter : Option ℤ}
    (hw : ∀ w ∈ waiter, 0 ≤ w ∧ w < maxPrio) : CtlOk (inherited waiter c) := by
  rw [Sched.inherited]
  split
  · have := CtlOk.of_getprio (c := { c with piTopWaiter := waiter }) h.normal h.rtPriority_pos
      h.rtPriority_lt h.staticPrio_mem hw
    exact this
  · next heq =>
    have heq : c.prio = rtMutexGetprio { c with piTopWaiter := waiter } := not_not.mp heq
    exact ⟨h.normal, h.rtPriority_pos, h.rtPriority_lt, h.staticPrio_mem, h.prio_mem, hw,
      congrArg rtPrio heq, h.class_eq⟩

theorem CtlOk.setscheduler {c : TaskControl} (h : CtlOk c) {policy : Policy} {prio : ℤ}
    (reset : Bool) (hvalid : validParam c policy prio = true) :
    CtlOk (setschedulerCtl policy prio { c with schedResetOnFork := reset }) := by
  obtain ⟨hmem, hiff⟩ : (0 ≤ prio ∧ prio < 100) ∧ (rtPolicy policy = true ↔ prio ≠ 0) := by
    simp only [validParam, maxRtPrio] at hvalid
    constructor
    · cases hmm : c.mm <;> simp_all <;> omega
    · cases hrt : rtPolicy policy <;> simp_all
  have := CtlOk.of_getprio
    (c := { c with
      schedResetOnFork := reset, policy := policy, rtPriority := prio.toNat
      normalPrio := normalPrio { c with policy := policy, rtPriority := prio.toNat } })
    rfl (by rw [hiff]; dsimp only; omega) (by dsimp only; omega) h.staticPrio_mem h.waiter_mem
  exact this

theorem CtlOk.staticPrio {c : TaskControl} (h : CtlOk c) (hrt : rtPolicy c.policy = true)
    {nice : ℤ} (hnice : ¬(nice < -20 ∨ 19 < nice)) :
    CtlOk { c with staticPrio := niceToPrio nice } where
  normal := by rw [h.normal, normalPrio, normalPrio, if_pos hrt, if_pos hrt]
  rtPriority_pos := h.rtPriority_pos
  rtPriority_lt := h.rtPriority_lt
  staticPrio_mem := by simp only [niceToPrio, maxRtPrio]; omega
  prio_mem := h.prio_mem
  waiter_mem := h.waiter_mem
  boost := h.boost
  class_eq := h.class_eq

/-- A task inherits a real-time priority from its first waiter or has one of its own. -/
theorem rtPrio_rtMutexGetprio (c : TaskControl) : rtPrio (rtMutexGetprio c) =
    (c.piTopWaiter.elim false rtPrio || rtPrio c.normalPrio) := by
  rw [rtMutexGetprio]
  split <;> simp [rtPrio, *]

theorem classFor_congr {policy : Policy} {prio prio' : ℤ} (h : rtPrio prio = rtPrio prio') :
    classFor policy prio = classFor policy prio' := by rw [classFor, classFor, h]

theorem CtlOk.reniced {c : TaskControl} (h : CtlOk c) (hrt : rtPolicy c.policy = false)
    {nice : ℤ} (hnice : ¬(nice < -20 ∨ 19 < nice)) : CtlOk (reniced nice c) := by
  have hs : 100 ≤ niceToPrio nice ∧ niceToPrio nice < 140 := by
    simp only [niceToPrio, maxRtPrio]; omega
  have hnormal : normalPrio { c with staticPrio := niceToPrio nice } = niceToPrio nice := by
    simp [normalPrio, hrt]
  have hnormal₀ : 100 ≤ c.normalPrio := by
    have := h.staticPrio_mem
    rw [h.normal, normalPrio, hrt]
    simpa using this.1
  -- the new normal priority is not real-time either, so that a boost stays a boost
  have hprio : rtPrio (Sched.reniced nice c).prio = rtPrio c.prio := by
    simp only [Sched.reniced, effectivePrio, hnormal]
    cases hc : rtPrio c.prio
    · simp only [Bool.not_false, if_true, rtPrio, maxRtPrio, decide_eq_false_iff_not]
      omega
    · simpa using hc
  have hget : rtPrio (rtMutexGetprio (Sched.reniced nice c)) = rtPrio (rtMutexGetprio c) := by
    have hold : rtPrio c.normalPrio = false := rtPrio_eq_false_iff.mpr hnormal₀
    have hnew : rtPrio (niceToPrio nice) = false := rtPrio_eq_false_iff.mpr hs.1
    rw [rtPrio_rtMutexGetprio, rtPrio_rtMutexGetprio, hold]
    simp [Sched.reniced, effectivePrio, hnormal, hnew]
  refine ⟨?_, h.rtPriority_pos, h.rtPriority_lt, hs, ?_, h.waiter_mem, ?_, ?_⟩
  · simp [Sched.reniced, effectivePrio, normalPrio, hrt]
  · have := h.prio_mem
    simp only [Sched.reniced, effectivePrio, hnormal]
    split <;> omega
  · rw [hprio, hget, h.boost]
  · rcases h.class_eq with hc | ⟨hp, hc, hr⟩
    · exact .inl (hc.trans (classFor_congr hprio.symm))
    · exact .inr ⟨hp, hc, hprio.trans hr⟩

/-- A fair task without waiters whose priority is its nice value. -/
theorem CtlOk.of_fair {c : TaskControl} (hpol : rtPolicy c.policy = false)
    (hrt : c.rtPriority = 0) (hs : 100 ≤ c.staticPrio ∧ c.staticPrio < 140)
    (hprio : c.prio = c.staticPrio) (hnormal : c.normalPrio = c.staticPrio)
    (hw : c.piTopWaiter = none) (hclass : c.schedClass = .fair) : CtlOk c := by
  have hnot : rtPrio c.prio = false := rtPrio_eq_false_iff.mpr (by rw [hprio]; exact hs.1)
  refine ⟨?_, by simp [hpol, hrt], by omega, hs, by omega, by simp [hw], ?_, ?_⟩
  · rw [hnormal, normalPrio, hpol]
    rfl
  · rw [rtPrio_rtMutexGetprio, hw, hnormal, ← hprio]
    rfl
  · by_cases hp : c.policy = .ras
    · exact .inr ⟨hp, hclass, hnot⟩
    · exact .inl (by simp [classFor, hp, hnot, hclass])

/-- The control fields of a forked task. -/
def childCtl (parent : TaskControl) : TaskControl :=
  forkedCtl parent.normalPrio { parent with piTopWaiter := none, onRq := false }

/-- A forked task has the normal priority of its parent, and is a fair task unless that is
real-time. -/
theorem CtlOk.forked {c : TaskControl} (h : CtlOk c) :
    CtlOk (childCtl c) := by
  have hs := h.staticPrio_mem
  have hnormal := h.normal
  have hzero : 100 ≤ niceToPrio 0 ∧ niceToPrio 0 < 140 := by decide
  rw [childCtl, forkedCtl]
  cases c.schedResetOnFork with
  | true =>
    simp only [if_true]
    cases hpol : rtPolicy c.policy with
    | true =>
      simp only [if_true, show rtPrio (niceToPrio 0) = false from rfl, Bool.not_false]
      exact .of_fair rfl rfl hzero rfl rfl rfl rfl
    | false =>
      have hrt : c.rtPriority = 0 := by
        have := h.rtPriority_pos
        simp only [hpol, Bool.false_eq_true, false_iff, not_lt] at this
        omega
      simp only [Bool.false_eq_true, if_false]
      split
      · simp only [show rtPrio (niceToPrio 0) = false from rfl, Bool.not_false, if_true]
        exact .of_fair hpol hrt hzero rfl rfl rfl rfl
      · simp only [rtPrio_eq_false_iff.mpr hs.1, Bool.not_false, if_true]
        exact .of_fair hpol hrt hs rfl rfl rfl rfl
  | false =>
    simp only [Bool.false_eq_true, if_false]
    cases hpol : rtPolicy c.policy with
    | true =>
      -- a real-time parent has a real-time priority and is in the real-time class
      have hpos := h.rtPriority_pos.mp hpol
      have hlt := h.rtPriority_lt
      have hn : c.normalPrio = 99 - c.rtPriority := by
        rw [hnormal, normalPrio, if_pos hpol, maxRtPrio]; omega
      have hnprio : rtPrio c.normalPrio = true := by
        rw [rtPrio_eq_true_iff, maxRtPrio]; omega
      have hne : c.policy ≠ .ras := fun hp => by rw [hp] at hpol; cases hpol
      have hclass : c.schedClass = classFor c.policy c.normalPrio := by
        rcases h.class_eq with hc | ⟨hp, -, -⟩
        · rw [hc]
          exact classFor_congr (by rw [h.boost, rtPrio_rtMutexGetprio, hnprio, Bool.or_true])
        · exact absurd hp hne
      simp only [hnprio, Bool.not_true, Bool.false_eq_true, if_false]
      exact ⟨hnormal, h.rtPriority_pos, hlt, hs, by dsimp only; omega, by simp, rfl, .inl hclass⟩
    | false =>
      have hrt : c.rtPriority = 0 := by
        have := h.rtPriority_pos
        simp only [hpol, Bool.false_eq_true, false_iff, not_lt] at this
        omega
      have hn : c.normalPrio = c.staticPrio := by rw [hnormal, normalPrio, hpol]; rfl
      simp only [rtPrio_eq_false_iff.mpr (hn ▸ hs.1 : maxRtPrio ≤ c.normalPrio), Bool.not_false,
        if_true]
      exact .of_fair hpol hrt hs hn hn rfl rfl

end OsProject.Sched
