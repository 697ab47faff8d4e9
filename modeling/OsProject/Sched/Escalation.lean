import OsProject.Sched.RunQueue

/-!
# Unprivileged calls of `sched_setscheduler`

The permission checks of `__sched_setscheduler` refuse an unprivileged caller the policies that
`rt_policy` names, when the target has no real-time limit. The class chain serves a third policy
before the fair class, `SCHED_RAS`, and the checks let it through. So a sequence of unprivileged
calls keeps its target out of the classes before the fair class exactly when none of them asks
for `SCHED_RAS` with the right to change the target at all.

## Main results

* `unprivileged_calls_keep_fair_iff`.
-/

namespace OsProject.Sched

open Transition

variable {τ Q : Type*} [DecidableEq τ] {K : Kernel τ Q} {s s' : Rq τ Q} {p : τ}

/-- The class of the task is not served strictly before the fair class. -/
def NotBeforeFair (s : Rq τ Q) (p : τ) : Prop :=
  SchedClass.fair.rank ≤ (s.task p).schedClass.rank

/-- A call of `sched_setscheduler` or `sched_setparam` on `p` by a caller without `CAP_SYS_NICE`. -/
def UnprivilegedCall (p : τ) (e : Event τ) : Prop :=
  ∃ caller policy prio, e.op = .setscheduler caller p policy prio true ∧ caller.capSysNice = false

/-- A step that is not about the policy, the waiters or the birth of `p`. -/
def LeavesClass (p : τ) (e : Event τ) : Prop :=
  match e.op with
  | .setscheduler _ q _ _ _ => q ≠ p
  | .rtMutexAdjustPrio q _ => q ≠ p
  | .fork child => child ≠ p
  | _ => True

/-- The call asks to switch `p` to `SCHED_RAS`, by a caller that owns it and is not refused for
leaving `SCHED_IDLE`, for clearing the reset flag or by the security module. -/
def AsksForRas (p : τ) (s : Rq τ Q) (e : Event τ) : Prop :=
  ∃ caller policy reset, e.op = .setscheduler caller p policy 0 true ∧
    requested (s.ctl p) policy = some (.ras, reset) ∧ (s.task p).policy ≠ .ras ∧
    caller.sameOwner = true ∧ caller.security = 0 ∧
    ((s.task p).policy = .idle → canNice caller (s.task p) (prioToNice (s.task p).staticPrio)) ∧
    ((s.task p).schedResetOnFork = true → reset = true)

/-- A fair task has neither a real-time policy nor a real-time waiter. -/
theorem CtlOk.of_schedClass_fair {c : TaskControl} (h : CtlOk c) (hc : c.schedClass = .fair) :
    rtPolicy c.policy = false ∧ c.piTopWaiter.elim false rtPrio = false := by
  have hprio : rtPrio (rtMutexGetprio c) = false := by
    rw [← h.boost, rtPrio_eq_false_iff]
    exact h.le_prio hc
  rw [rtPrio_rtMutexGetprio, Bool.or_eq_false_iff] at hprio
  refine ⟨?_, hprio.1⟩
  by_contra hpol
  have hpol : rtPolicy c.policy = true := by simpa using hpol
  have hpos := h.rtPriority_pos.mp hpol
  have hnormal := rtPrio_eq_false_iff.mp hprio.2
  rw [h.normal, normalPrio, if_pos hpol, maxRtPrio] at hnormal
  omega

/-- A switch to a policy that is neither real-time nor `SCHED_RAS` gives a task without a real-time
waiter to the fair class. -/
theorem setschedulerCtl_schedClass {c : TaskControl} (h : CtlOk c) {policy : Policy} {prio : ℤ}
    {reset : Bool} (hrt : rtPolicy policy = false) (hras : policy ≠ .ras)
    (hw : c.piTopWaiter.elim false rtPrio = false) :
    (setschedulerCtl policy prio { c with schedResetOnFork := reset }).schedClass = .fair := by
  have hs : rtPrio c.staticPrio = false := rtPrio_eq_false_iff.mpr h.staticPrio_mem.1
  simp only [setschedulerCtl, classFor, if_neg hras, rtPrio_rtMutexGetprio, normalPrio, hrt, hw,
    Bool.false_eq_true, if_false, hs, Bool.or_self]

/-- What the permission checks come to for a policy that is not real-time. -/
theorem unprivilegedMay_iff (caller : Caller) (t : TaskStruct) {policy : Policy} (reset : Bool)
    (prio : ℤ) (hrt : rtPolicy policy = false) (hidle : policy ≠ .idle) :
    unprivilegedMay caller t policy reset prio = true ↔ caller.sameOwner = true ∧
      (t.policy = .idle → canNice caller t (prioToNice t.staticPrio)) ∧
      (t.schedResetOnFork = true → reset = true) := by
  cases hr : t.schedResetOnFork <;> cases reset <;> simp [unprivilegedMay, hrt, hidle, hr] <;> tauto

/-- A call on a task that is not the stopper thread is granted a switch to `SCHED_RAS` if and only
if it asks for it. -/
theorem setschedulerCheck_ras_iff (hstop : s.stop ≠ some p) {caller : Caller}
    (hcap : caller.capSysNice = false) {policy prio : ℤ} {reset : Bool} :
    setschedulerCheck K s caller p policy prio true = .ok (.ras, reset) ↔
      requested (s.ctl p) policy = some (.ras, reset) ∧ prio = 0 ∧ (s.task p).policy ≠ .ras ∧
      caller.sameOwner = true ∧ caller.security = 0 ∧
      ((s.task p).policy = .idle → canNice caller (s.task p) (prioToNice (s.task p).staticPrio)) ∧
      ((s.task p).schedResetOnFork = true → reset = true) := by
  have hvalid : validParam (s.ctl p) .ras prio = true ↔ prio = 0 := by
    by_cases hprio : prio = 0
    · subst hprio
      cases hmm : (s.ctl p).mm <;> simp [validParam, rtPolicy, maxRtPrio, hmm]
    · simp [validParam, rtPolicy, hprio]
  have hsame : setschedulerNoChange (s.ctl p) .ras prio = true ↔ (s.task p).policy = .ras := by
    have : Policy.ras = (s.ctl p).policy ↔ (s.task p).policy = .ras := eq_comm
    simp [setschedulerNoChange, rtPolicy, this]
  have hmay := unprivilegedMay_iff caller (s.task p) reset prio
    (show rtPolicy .ras = false from rfl) (by decide)
  constructor
  · intro h
    obtain ⟨hreq, hv, hperm, -, hno⟩ := setschedulerCheck_ok h
    obtain ⟨howner, hidle, hreset⟩ := hmay.mp (hperm rfl hcap)
    have hsec : caller.security = 0 := by
      by_contra hne
      rw [setschedulerCheck, hreq] at h
      simp [hv, hperm rfl hcap, hne] at h
    exact ⟨hreq, hvalid.mp hv, fun hp => by simp [hsame.mpr hp] at hno, howner, hsec, hidle, hreset⟩
  · rintro ⟨hreq, hprio, hne, howner, hsec, hidle, hreset⟩
    have hno : setschedulerNoChange (s.ctl p) .ras prio = false :=
      Bool.eq_false_iff.mpr fun h => hne (hsame.mp h)
    rw [setschedulerCheck, hreq]
    simp [hvalid.mpr hprio, hmay.mpr ⟨howner, hidle, hreset⟩, hsec, hstop, hno, rtGroupForbids,
      rtPolicy]

/-- What the steps of a sequence find: a state of the invariant, in which the target is a fair task
without a real-time limit. -/
structure FairTarget (K : Kernel τ Q) (s : Rq τ Q) (p : τ) : Prop where
  inv : Inv K s
  fair : (s.task p).schedClass = .fair
  rtprio : (s.task p).rlim.rtprio = 0

namespace FairTarget

theorem ne_idle (h : FairTarget K s p) : p ≠ s.idle := fun hp => by
  have : (s.task p).schedClass = .idle := hp ▸ h.inv.idle_class
  rw [h.fair] at this
  cases this

theorem stop_ne (h : FairTarget K s p) : s.stop ≠ some p := fun hs => by
  have : (s.task p).schedClass = .stop := h.inv.stop_class p hs
  rw [h.fair] at this
  cases this

theorem ctlOk (h : FairTarget K s p) : CtlOk (s.ctl p) := h.inv.ctl p h.ne_idle h.stop_ne

/-- No call of an unprivileged caller is granted a real-time policy. -/
theorem rtPolicy_eq_false (h : FairTarget K s p) {caller : Caller}
    (hcap : caller.capSysNice = false) {policy prio : ℤ} {newPolicy : Policy} {reset : Bool}
    (hcheck : setschedulerCheck K s caller p policy prio true = .ok (newPolicy, reset)) :
    rtPolicy newPolicy = false := by
  obtain ⟨-, -, hmay, -, -⟩ := setschedulerCheck_ok hcheck
  have hmay := hmay rfl hcap
  have hrt := (h.ctlOk.of_schedClass_fair h.fair).1
  by_contra hnew
  have hnew : rtPolicy newPolicy = true := by simpa using hnew
  have hne : newPolicy ≠ (s.task p).policy := by
    intro he
    rw [he] at hnew
    exact absurd (hnew.symm.trans hrt) (by decide)
  simp [unprivilegedMay, hnew, hne, h.rtprio] at hmay

theorem atTime (h : FairTarget K s p) (now : ℤ) : FairTarget K (atTime s now) p :=
  ⟨h.inv.atTime now, h.fair, h.rtprio⟩

/-- A call that does not ask for `SCHED_RAS` leaves the target a fair task, and one that does makes
it a RAS task. -/
theorem call (h : FairTarget K s p) {caller : Caller} (hcap : caller.capSysNice = false)
    (policy prio : ℤ) :
    ((schedSetscheduler K s caller p policy prio true).2.ctl p).rlim = (s.ctl p).rlim ∧
    ((schedSetscheduler K s caller p policy prio true).2.ctl p).schedClass =
      if ∃ reset, setschedulerCheck K s caller p policy prio true = .ok (.ras, reset) then .ras
      else .fair := by
  rcases schedSetscheduler_cases K s caller p policy prio true with
    ⟨r, hcheck, hres⟩ | ⟨newPolicy, reset, hcheck, hres⟩
  · rw [hres, if_neg (by simp [hcheck])]
    exact ⟨rfl, h.fair⟩
  · obtain ⟨-, hvalid, -⟩ := setschedulerCheck_ok hcheck
    have hctl := (rewrites_changePolicy (K := K) h.ctlOk reset hvalid).ctl_self
    rw [hres]
    dsimp only
    rw [hctl]
    refine ⟨rfl, ?_⟩
    by_cases hras : newPolicy = .ras
    · subst hras
      rw [if_pos ⟨reset, hcheck⟩]
      simp [setschedulerCtl, classFor]
    · rw [if_neg (by simp [hcheck, hras])]
      exact setschedulerCtl_schedClass h.ctlOk (h.rtPolicy_eq_false hcap hcheck) hras
        (h.ctlOk.of_schedClass_fair h.fair).2

/-- A step that is not about the policy, the waiters or the birth of the target leaves it a fair
task with the same limits. -/
theorem leavesClass (h : FairTarget K s p) {e : Event τ} (he : LeavesClass p e)
    (hstep : CtlStep K (Sched.atTime s e.now) e.op p (s.ctl p) (s'.ctl p)) :
    (s'.ctl p).schedClass = .fair ∧ (s'.ctl p).rlim = (s.ctl p).rlim := by
  rw [LeavesClass] at he
  generalize hc : s.ctl p = c at hstep
  have hfair : c.schedClass = .fair := hc ▸ h.fair
  generalize s'.ctl p = c' at hstep
  cases hstep with
  | activity h => rw [h]; exact ⟨hfair, rfl⟩
  | fork hop => rw [hop] at he; exact absurd rfl he
  | setscheduler hop _ => rw [hop] at he; exact absurd rfl he
  | inherit hop => rw [hop] at he; exact absurd rfl he
  | staticPrio _ _ => exact ⟨hfair, rfl⟩
  | renice _ _ => exact ⟨hfair, rfl⟩
  | move _ => exact ⟨hfair, rfl⟩

/-- One step of a sequence: it makes the target a RAS task when it is a call that asks for it, and
leaves it a fair task otherwise. -/
theorem step (h : FairTarget K s p) {e : Event τ} (he : UnprivilegedCall p e ∨ LeavesClass p e)
    (hx : exec K s e = some s') :
    (AsksForRas p s e → (s'.task p).schedClass = .ras) ∧
      (¬ AsksForRas p s e → FairTarget K s' p) := by
  have hstep : (system K).step s e s' := hx
  obtain ⟨hen, hop, hinv⟩ := step_inv h.inv hstep
  have hinv' := (execOp_spec hinv hen hop).1
  rcases he with ⟨caller, policy, prio, he, hcap⟩ | he
  · rw [he] at hop
    obtain rfl := Option.some.inj hop
    obtain ⟨hrlim, hclass⟩ := (h.atTime e.now).call hcap policy prio
    have hasks : AsksForRas p s e ↔ ∃ reset,
        setschedulerCheck K (Sched.atTime s e.now) caller p policy prio true = .ok (.ras, reset) := by
      simp only [setschedulerCheck_ras_iff (h.atTime e.now).stop_ne hcap, AsksForRas, he]
      constructor
      · rintro ⟨caller', policy', reset, hcall, hreq, hask⟩
        obtain ⟨rfl, -, rfl, rfl, -⟩ := Op.setscheduler.inj hcall
        exact ⟨reset, hreq, rfl, hask⟩
      · rintro ⟨reset, hreq, rfl, hask⟩
        exact ⟨caller, policy, reset, rfl, hreq, hask⟩
    refine ⟨fun hask => ?_, fun hask => ⟨hinv', ?_, (congrArg Rlimits.rtprio hrlim).trans h.rtprio⟩⟩
    · exact hclass.trans (if_pos (hasks.mp hask))
    · exact hclass.trans (if_neg fun hr => hask (hasks.mpr hr))
  · obtain ⟨hfair, hrlim⟩ := h.leavesClass he (step_ctlStep h.inv hstep p)
    refine ⟨fun hask => ?_, fun _ => ⟨hinv', hfair, (congrArg Rlimits.rtprio hrlim).trans h.rtprio⟩⟩
    obtain ⟨caller, policy, reset, hop, -⟩ := hask
    rw [LeavesClass, hop] at he
    exact absurd rfl he

/-- A call that asks for `SCHED_RAS` can be made. -/
theorem exec_of_asks (h : FairTarget K s p) {e : Event τ} (hask : AsksForRas p s e) :
    ∃ s', exec K s e = some s' := by
  obtain ⟨caller, policy, reset, hop, -⟩ := hask
  have hen : Enabled s e.op := by rw [hop]; exact h.ne_idle
  rw [exec, if_pos hen, hop]
  exact ⟨_, rfl⟩

end FairTarget

/-- Unprivileged calls on a fair task without a real-time limit, between any other steps that are
not about its class, leave it in a class that is not served before the fair class after every
step, if and only if none of them asks for `SCHED_RAS` when it is made. -/
theorem unprivileged_calls_keep_fair_iff (h : Reachable (system K) s)
    (hfair : (s.task p).schedClass = .fair) (hlim : (s.task p).rlim.rtprio = 0)
    {steps : List (Event τ)} (hsteps : ∀ e ∈ steps, UnprivilegedCall p e ∨ LeavesClass p e) :
    Along (exec K) (fun s e => ∀ s', exec K s e = some s' → NotBeforeFair s' p) s steps ↔
      Along (exec K) (fun s e => ¬ AsksForRas p s e) s steps := by
  refine along_congr (I := fun s => FairTarget K s p) (fun s e hs he => ?_)
    (fun s e s' hs he hask hx => (hs.step he hx).2 hask) ⟨reachable_inv h, hfair, hlim⟩ hsteps
  constructor
  · intro hkeep hask
    obtain ⟨s', hx⟩ := hs.exec_of_asks hask
    have hclass := hkeep s' hx
    rw [NotBeforeFair, (hs.step he hx).1 hask] at hclass
    exact absurd hclass (by decide)
  · intro hask s' hx
    rw [NotBeforeFair, ((hs.step he hx).2 hask).fair]

/-- A call of `sched_setscheduler` by the owner of the task, who has no privileges. -/
def setschedulerByOwner (p : ℕ) (policy prio : ℤ) : Event ℕ :=
  ⟨0, .setscheduler {} p policy prio true⟩

theorem unprivilegedCall_setschedulerByOwner (p : ℕ) (policy prio : ℤ) :
    UnprivilegedCall p (setschedulerByOwner p policy prio) := ⟨{}, policy, prio, rfl, rfl⟩

/-- A fair task is woken. -/
def fairTask : List (Op ℕ) := [.wakeUpNewTask 1]

/-- The owner of a fair task asks for `SCHED_FIFO` in vain, and then for `SCHED_BATCH`. -/
theorem unprivileged_calls_keep_fair_iff_batch :
    ∃ s, referenceRun fairTask = some s ∧
      Along (exec (referenceKernel ℕ))
        (fun s e => ∀ s', exec (referenceKernel ℕ) s e = some s' → NotBeforeFair s' 1) s
        [setschedulerByOwner 1 1 50, setschedulerByOwner 1 3 0] := by
  have hrun : referenceRun fairTask = some ((referenceRun fairTask).get (by decide +kernel)) := by
    simp
  refine ⟨_, hrun, (unprivileged_calls_keep_fair_iff (reachable_referenceRun hrun)
    (by decide +kernel) (by decide +kernel) ?_).mpr ⟨?_, fun _ _ => ⟨?_, fun _ _ => trivial⟩⟩⟩
  · simp [unprivilegedCall_setschedulerByOwner]
  · rintro ⟨_, _, _, hop, -⟩
    cases hop
  · rintro ⟨_, _, _, hop, hreq, -⟩
    cases hop
    simp [requested, schedResetOnForkFlag, Policy.ofInt] at hreq

/-- The owner of a fair task asks for `SCHED_RAS`, and the task is served before the fair tasks. -/
theorem not_unprivileged_calls_keep_fair :
    ¬ ∀ (s : Rq ℕ (Arrivals ℕ)) (p : ℕ) (steps : List (Event ℕ)),
      Reachable (system (referenceKernel ℕ)) s → (s.task p).schedClass = .fair →
      (s.task p).rlim.rtprio = 0 → (∀ e ∈ steps, UnprivilegedCall p e) →
      Along (exec (referenceKernel ℕ))
        (fun s e => ∀ s', exec (referenceKernel ℕ) s e = some s' → NotBeforeFair s' p) s steps := by
  intro h
  have hrun : referenceRun fairTask = some ((referenceRun fairTask).get (by decide +kernel)) := by
    simp
  have hkeep := h _ 1 [setschedulerByOwner 1 6 0] (reachable_referenceRun hrun) (by decide +kernel)
    (by decide +kernel) (by simp [unprivilegedCall_setschedulerByOwner])
  have hras := hkeep.1 _ (Option.some_get (by decide +kernel)).symm
  revert hras
  rw [NotBeforeFair]
  decide +kernel

end OsProject.Sched
