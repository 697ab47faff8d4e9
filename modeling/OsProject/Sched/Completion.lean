import Mathlib.Data.List.Nodup
import Mathlib.Data.Nat.ModEq
import OsProject.Sched.WaitQueue

/-!
# Completions

A completion counts what has been posted and not yet been taken, and has a queue for the tasks
that wait for a post. `complete` posts once, `complete_all` half of all numbers. A waiter queues
itself exclusively, sleeps, and looks again when it runs: it takes a post or goes back to sleep.
The lock of the queue makes the code between two sleeps one step, so that the steps of a system
with a completion are those of the scheduler, the posts, and the two parts of
`do_wait_for_common` before and after `schedule_timeout`. Any task may run, wake others and be
preempted in between, and a waiter may also be woken by a timer or by a signal.

## Main definitions

* `Completion`, `complete`, `completeAll`, `tryWaitForCompletion`.
* `doWaitForCommon`, `waitResume` — a waiter up to its call of `schedule_timeout`, and from its
  return on.
* `completionSystem` — the scheduler and a completion, with a record of posts and returns.

## Main results

* `execOp_rouses` — a step of the scheduler does not put a woken task back to sleep.
* `completion_conserved` — every post is taken by one waiter or still there.
* `completion_no_lost_wakeup` — of the waiters, as many are awake as there are posts to take.

Source: `kernel/sched/core.c`, `include/linux/sched.h`.
-/

namespace OsProject.Sched

open Transition

variable {τ Q : Type*}

/-! ### Completions -/

/-- `struct completion`. -/
structure Completion (τ : Type*) where
  done : UInt32 := 0
  wait : List (WaitQueueEntry τ) := []

/-- `TASK_INTERRUPTIBLE`. -/
def taskInterruptible : ℕ := 1

/-- `TASK_UNINTERRUPTIBLE`. -/
def taskUninterruptible : ℕ := 2

/-- `TASK_WAKEKILL`. -/
def taskWakekill : ℕ := 128

/-- `TASK_KILLABLE`. -/
def taskKillable : ℕ := taskWakekill ||| taskUninterruptible

/-- `ERESTARTSYS`. -/
def erestartsys : ℤ := 512

/-- The signals of a task: whether one is pending, and whether a fatal one is. -/
structure Signals where
  pending : Bool := false
  fatal : Bool := false
  deriving DecidableEq, Repr

def signalPendingState (state : ℕ) (p : Signals) : Bool :=
  if state &&& (taskInterruptible ||| taskWakekill) = 0 then false
  else if !p.pending then false
  else state &&& taskInterruptible ≠ 0 ∨ p.fatal

/-- The run queue and a completion, the `state` arguments of the calls in which tasks wait for it,
and a record of the past: how often the completion was posted, and what the calls returned. -/
structure Waits (τ Q : Type*) where
  rq : Rq τ Q
  x : Completion τ
  mode : τ → ℕ
  posted : ℕ
  returned : List (τ × ℤ)

section Operations

variable [DecidableEq τ]

/-- What `complete` and `complete_all` do: add to `done` and wake waiters. -/
def post (K : Kernel τ Q) (s : Waits τ Q) (n : ℕ) (nrExclusive : ℤ) : Waits τ Q :=
  { s with
    rq := wakeUpCommon K taskNormal 0 s.rq nrExclusive s.x.wait
    x := { s.x with done := s.x.done + UInt32.ofNat n }
    posted := s.posted + n }

def complete (K : Kernel τ Q) (s : Waits τ Q) : Waits τ Q := post K s 1 1

/-- `UINT_MAX / 2`. -/
def halfOfAll : ℕ := 0x7fffffff

def completeAll (K : Kernel τ Q) (s : Waits τ Q) : Waits τ Q := post K s halfOfAll 0

/-- The current task returns from a call. -/
def Waits.ret (s : Waits τ Q) (value : ℤ) : Waits τ Q :=
  { s with returned := s.returned ++ [(s.rq.curr, value)] }

def tryWaitForCompletion (s : Waits τ Q) : Waits τ Q :=
  if s.x.done = 0 then s.ret 0
  else { s with x := { s.x with done := s.x.done - 1 } }.ret 1

/-- The end of `do_wait_for_common` that takes a post, `timeout ?: 1`. -/
def takePost (s : Waits τ Q) (timeout : ℤ) : Waits τ Q :=
  { s with x := { s.x with done := s.x.done - 1 } }.ret (if timeout ≠ 0 then timeout else 1)

/-- The end of `do_wait_for_common` after its loop, for a waiter that is queued. -/
def waitLeave (s : Waits τ Q) (timeout : ℤ) : Waits τ Q :=
  let s := { s with x := { s.x with wait := s.x.wait.erase ⟨s.rq.curr, true⟩ } }
  if s.x.done = 0 then s.ret timeout else takePost s timeout

/-- The body of the loop of `do_wait_for_common` up to the call of `schedule_timeout`. -/
def waitLoop (s : Waits τ Q) (signals : Signals) : Waits τ Q :=
  if signalPendingState (s.mode s.rq.curr) signals then waitLeave s (-erestartsys)
  else
    { s with rq := s.rq.modifyCtl s.rq.curr fun p => { p with state := s.mode s.rq.curr } }

/-- `do_wait_for_common` up to its first call of `schedule_timeout`. -/
def doWaitForCommon (s : Waits τ Q) (timeout : ℤ) (state : ℕ) (signals : Signals) : Waits τ Q :=
  if s.x.done = 0 then
    waitLoop
      { s with
        x := { s.x with wait := s.x.wait ++ [⟨s.rq.curr, true⟩] }
        mode := Function.update s.mode s.rq.curr state } signals
  else takePost s timeout

/-- `do_wait_for_common` from the return of `schedule_timeout`, with the jiffies it returns, up to
the next call of it. -/
def waitResume (s : Waits τ Q) (timeout : ℤ) (signals : Signals) : Waits τ Q :=
  if s.x.done = 0 ∧ timeout ≠ 0 then waitLoop s signals else waitLeave s timeout

end Operations

/-! ### The system -/

/-- A step of the system. -/
inductive WaitOp (τ : Type*)
  | sched (e : Event τ)
  | complete
  | completeAll
  | tryWait
  | wait (timeout : ℤ) (state : ℕ) (signals : Signals)
  | resume (timeout : ℤ) (signals : Signals)

/-- The task waits for the completion. -/
def Waits.Waiting (s : Waits τ Q) (t : τ) : Prop := ⟨t, true⟩ ∈ s.x.wait

instance [DecidableEq τ] (s : Waits τ Q) (t : τ) : Decidable (s.Waiting t) :=
  inferInstanceAs (Decidable (_ ∈ _))

/-- A waiter is in `do_wait_for_common`: it does not fork, nor write its state anywhere else. -/
def OutsideWait (s : Waits τ Q) : Op τ → Prop
  | .fork child => ¬s.Waiting s.rq.curr ∧ ¬s.Waiting child
  | .setCurrentState _ => ¬s.Waiting s.rq.curr
  | _ => True

variable [DecidableEq τ]

instance (s : Waits τ Q) (op : Op τ) : Decidable (OutsideWait s op) :=
  match op with
  | .fork _ => inferInstanceAs (Decidable (_ ∧ _))
  | .setCurrentState _ => inferInstanceAs (Decidable (¬_))
  | .wakeUpNewTask _ | .tryToWakeUp .. | .schedule .. | .schedulerTick | .schedYield
  | .setscheduler .. | .rtMutexAdjustPrio .. | .setUserNice .. | .schedMoveTask ..
  | .schedRrGetInterval _ | .rtPeriodTimer _ _ | .writeTrace .. => inferInstanceAs (Decidable True)

/-- The idle task does not wait, a task waits in one of three states, and jiffies are not negative.
A waiter runs on when it is current and has been woken. -/
def WaitEnabled (s : Waits τ Q) : WaitOp τ → Prop
  | .sched e => OutsideWait s e.op
  | .wait timeout state _ =>
    s.rq.curr ≠ s.rq.idle ∧ ¬s.Waiting s.rq.curr ∧ 0 ≤ timeout ∧
      state ∈ [taskInterruptible, taskUninterruptible, taskKillable]
  | .resume timeout _ =>
    s.Waiting s.rq.curr ∧ (s.rq.task s.rq.curr).state = 0 ∧ 0 ≤ timeout
  | .complete | .completeAll | .tryWait => True

instance (s : Waits τ Q) (op : WaitOp τ) : Decidable (WaitEnabled s op) :=
  match op with
  | .sched e => inferInstanceAs (Decidable (OutsideWait s e.op))
  | .wait .. => inferInstanceAs (Decidable (_ ∧ _))
  | .resume .. => inferInstanceAs (Decidable (_ ∧ _))
  | .complete | .completeAll | .tryWait => inferInstanceAs (Decidable True)

def waitExecOp (K : Kernel τ Q) (s : Waits τ Q) : WaitOp τ → Option (Waits τ Q)
  | .sched e => (exec K s.rq e).map fun rq => { s with rq := rq }
  | .complete => some (complete K s)
  | .completeAll => some (completeAll K s)
  | .tryWait => some (tryWaitForCompletion s)
  | .wait timeout state signals => some (doWaitForCommon s timeout state signals)
  | .resume timeout signals => some (waitResume s timeout signals)

def waitExec (K : Kernel τ Q) (s : Waits τ Q) (op : WaitOp τ) : Option (Waits τ Q) :=
  if WaitEnabled s op then waitExecOp K s op else none

/-- A processor after boot, and a completion after `init_completion`. -/
structure CompletionBoot (K : Kernel τ Q) (s : Waits τ Q) : Prop where
  boot : Boot K s.rq
  done : s.x.done = 0
  wait : s.x.wait = []
  posted : s.posted = 0
  returned : s.returned = []

def completionSystem (K : Kernel τ Q) : System (Waits τ Q) (WaitOp τ) :=
  .ofExec (CompletionBoot K) (waitExec K)

/-! ### Steps of the scheduler -/

/-- The task is queued and not about to sleep. -/
def Awake (c : TaskControl) : Prop := c.onRq = true ∧ c.state = 0

instance (c : TaskControl) : Decidable (Awake c) := inferInstanceAs (Decidable (_ ∧ _))

/-- A task that is awake stays awake, any other one is woken or keeps its state. -/
def Rouses (c c' : TaskControl) : Prop := Awake c' ∨ (¬Awake c ∧ c'.state = c.state)

theorem Rouses.of_eq {c c' : TaskControl} (hon : c'.onRq = c.onRq) (hst : c'.state = c.state) :
    Rouses c c' := by
  by_cases h : Awake c
  · exact .inl ⟨hon.trans h.1, hst.trans h.2⟩
  · exact .inr ⟨h, hst⟩

theorem Rouses.refl (c : TaskControl) : Rouses c c := .of_eq rfl rfl

variable {K : Kernel τ Q} {s s' : Rq τ Q} {p t : τ}

theorem Wakes.rouses (h : Wakes K s s' p) (t : τ) : Rouses (s.ctl t) (s'.ctl t) := by
  rw [h.ctl]
  by_cases ht : t = p
  · rw [ht, Function.update_self]
    exact .inl ⟨rfl, rfl⟩
  · rw [Function.update_of_ne ht]
    exact .refl _

theorem Rewrites.sameActivity {f : TaskControl → TaskControl} (h : Rewrites K s s' p f)
    (hon : (f (s.ctl p)).onRq = (s.ctl p).onRq) (hst : (f (s.ctl p)).state = (s.ctl p).state)
    (t : τ) : (s'.ctl t).onRq = (s.ctl t).onRq ∧ (s'.ctl t).state = (s.ctl t).state := by
  by_cases ht : t = p
  · subst ht
    rw [h.ctl_self]
    exact ⟨hon, hst⟩
  · rw [h.ctl_of_ne ht]
    exact ⟨rfl, rfl⟩

/-- A worker that goes to sleep wakes another one, or leaves it as it is. -/
theorem PrevDone.wakes_or_eq (h : Inv K s) (hd : PrevDone K s s') (w : τ) :
    Sched.tryToWakeUpLocal K s' w = s' ∨ Wakes K s' (Sched.tryToWakeUpLocal K s' w) w := by
  by_cases hw : w = s.idle
  · have hzero : (s'.ctl w).state = 0 := by rw [hw, hd.ctl_idle, h.idle_state]
    refine .inl ?_
    change (s'.task w).state = 0 at hzero
    rw [Sched.tryToWakeUpLocal, hzero, Nat.zero_and]
    simp
  · have hclass := (hd.activity w).schedClass
    have hprio : (s'.ctl w).prio = (s.ctl w).prio := by
      have := congrArg TaskControl.prio (hd.activity w)
      exact this
    exact (wakes_tryToWakeUpLocal (by rw [hclass]; exact h.schedClass_ne_idle hw)
      (by rw [hclass, hprio]; exact h.prio_lt)).imp_right fun hw => hw.2.2

/-- The first part of a context switch puts only a task to sleep that is not awake. -/
theorem schedulePrev_rouses (h : Inv K s) (preempt signalPending : Bool) (toWakeup : Option τ)
    (t : τ) :
    Rouses (s.ctl t) ((schedulePrev K s preempt signalPending toWakeup).ctl t) := by
  rw [schedulePrev]
  dsimp only
  split
  · next hsleep =>
    have hstate : (s.ctl s.curr).state ≠ 0 := hsleep.1
    have hidle : s.curr ≠ s.idle := fun he => hstate (he ▸ h.idle_state)
    have hon : (s.ctl s.curr).onRq = true := h.curr.resolve_left hidle
    split
    · -- a pending signal wakes the task before it has slept
      rw [ctl_modifyCtl]
      by_cases ht : t = s.curr
      · subst ht
        rw [Function.update_self]
        exact .inl ⟨hon, rfl⟩
      · rw [Function.update_of_ne ht]
        exact .refl _
    · obtain ⟨u, hu⟩ : ∃ u, u = (deactivateTask K s s.curr true).modifyCtl s.curr fun p =>
          { p with onRq := false } := ⟨_, rfl⟩
      have hdeq : Dequeues K s (deactivateTask K s s.curr true) s.curr := dequeueTask_holds
      have hctl : u.ctl = Function.update s.ctl s.curr { s.ctl s.curr with onRq := false } := by
        rw [hu, ctl_modifyCtl, hdeq.ctl]
      have hrouses : ∀ t, Rouses (s.ctl t) (u.ctl t) := fun t => by
        rw [hctl]
        by_cases ht : t = s.curr
        · subst ht
          rw [Function.update_self]
          exact .inr ⟨fun ha => hstate ha.2, rfl⟩
        · rw [Function.update_of_ne ht]
          exact .refl _
      rw [← hu]
      cases toWakeup with
      | none => exact hrouses t
      | some w =>
        have hd : PrevDone K s u := hu ▸ h.prevDone_deactivate hstate
        dsimp only
        rcases hd.wakes_or_eq h w with hsame | hw
        · rw [hsame]
          exact hrouses t
        · by_cases ht : t = w
          · subst ht
            rw [hw.ctl, Function.update_self]
            exact .inl ⟨rfl, rfl⟩
          · rw [hw.ctl, Function.update_of_ne ht]
            exact hrouses t
  · exact .refl _

/-- The steps that queue a task, take it off the queue or write its state. -/
def Op.isActivity : Op τ → Bool
  | .fork _ => true
  | .wakeUpNewTask _ => true
  | .tryToWakeUp _ _ _ => true
  | .schedule _ _ _ => true
  | .setCurrentState _ => true
  | _ => false

/-- The other steps leave alone which tasks are queued and what they sleep in. -/
theorem execOp_sameActivity (h : Inv K s) {op : Op τ} (he : Enabled s op)
    (hx : execOp K s op = some s') (hop : op.isActivity = false) (t : τ) :
    (s'.ctl t).onRq = (s.ctl t).onRq ∧ (s'.ctl t).state = (s.ctl t).state := by
  have hkeep : s'.ctl = s.ctl →
      (s'.ctl t).onRq = (s.ctl t).onRq ∧ (s'.ctl t).state = (s.ctl t).state :=
    fun hc => by rw [hc]; exact ⟨rfl, rfl⟩
  cases op with
  | fork child => cases hop
  | wakeUpNewTask p => cases hop
  | tryToWakeUp p mask flags => cases hop
  | schedule preempt signalPending toWakeup => cases hop
  | setCurrentState state => cases hop
  | schedulerTick =>
    obtain rfl := Option.some.inj hx
    have hk : Keeps K s (schedulerTick K s) := accounts_updateRqClock.keeps.trans keeps_classTaskTick
    exact hkeep hk.ctl
  | schedYield =>
    obtain rfl := Option.some.inj hx
    have hk : Keeps K s (schedYield K s) := keeps_classYieldTask
    exact hkeep hk.ctl
  | setscheduler caller p policy prio user =>
    obtain rfl := Option.some.inj hx
    rcases schedSetscheduler_cases K s caller p policy prio user with
      ⟨r, -, hres⟩ | ⟨newPolicy, reset, hcheck, hres⟩
    · exact hkeep (by rw [hres])
    · obtain ⟨-, hvalid, -, hstop, -⟩ := setschedulerCheck_ok hcheck
      rw [hres]
      exact (rewrites_changePolicy (h.ctl p he hstop) reset hvalid).sameActivity rfl rfl t
  | rtMutexAdjustPrio p waiter =>
    obtain ⟨hp, hstop, hw⟩ := he
    obtain rfl := Option.some.inj hx
    refine (rewrites_rtMutexAdjustPrio (h.ctl p hp hstop) hp hw).sameActivity ?_ ?_ t
    · rw [inherited]; split <;> rfl
    · rw [inherited]; split <;> rfl
  | setUserNice p nice =>
    obtain rfl := Option.some.inj hx
    have hprio : ¬(nice < -20 ∨ 19 < nice) → rtPolicy (s.ctl p).policy = false →
        (s.ctl p).schedClass = .rt →
        0 ≤ (reniced nice (s.ctl p)).prio ∧ (reniced nice (s.ctl p)).prio < maxRtPrio :=
      fun hnice hrt hc => ((h.ctlOk (by simp [hc]) (by simp [hc])).reniced hrt hnice).prio_lt hc
    rcases rewrites_setUserNice (K := K) (h.schedClass_ne_idle he) hprio with
      hsame | ⟨-, -, hr⟩ | ⟨-, -, hr⟩
    · exact hkeep (by rw [hsame])
    · exact hr.sameActivity rfl rfl t
    · exact hr.sameActivity rfl rfl t
  | schedMoveTask p tg =>
    obtain rfl := Option.some.inj hx
    have hr : Rewrites K s (schedMoveTask K s p tg) p fun c => { c with schedTaskGroup := tg } :=
      rewrites_schedMoveTask (h.schedClass_ne_idle he) h.prio_lt
    exact hr.sameActivity rfl rfl t
  | schedRrGetInterval p =>
    obtain rfl := Option.some.inj hx
    have hk : Accounts K s (schedRrGetInterval K s p).2 := accounts_schedRrGetInterval
    exact hkeep hk.ctl
  | rtPeriodTimer g overrun =>
    obtain rfl := Option.some.inj hx
    exact hkeep (h.of_rtPeriodTimer g overrun).2.1
  | writeTrace p wcounts traceFlag =>
    obtain rfl := Option.some.inj hx
    have hk : Accounts K s (s.modifyTask p fun p =>
        { p with wcounts := wcounts, traceFlag := traceFlag }) := accounts_modifyTask fun _ => by rfl
    exact hkeep hk.ctl

/-- No step of the scheduler puts an awake task back to sleep, unless the task writes its state
itself or a new task takes its place. -/
theorem execOp_rouses (h : Inv K s) {op : Op τ} (he : Enabled s op) (hx : execOp K s op = some s')
    (hfork : op ≠ .fork t) (hself : t = s.curr → ∀ state, op ≠ .setCurrentState state) :
    Rouses (s.ctl t) (s'.ctl t) := by
  cases hop : op.isActivity with
  | false =>
    obtain ⟨hon, hst⟩ := execOp_sameActivity h he hx hop t
    exact .of_eq hon hst
  | true =>
    cases op with
    | fork child =>
      obtain ⟨-, -, -, -, hoff, hcurr⟩ := he
      obtain rfl := Option.some.inj hx
      have hr : Rewrites K s (fork K s child) child fun _ => childCtl (s.ctl s.curr) :=
        rewrites_fork hcurr hoff
      rw [hr.ctl_of_ne fun ht => hfork (by rw [ht])]
      exact .refl _
    | wakeUpNewTask p =>
      obtain ⟨hp, hoff, hstate⟩ := he
      obtain rfl := Option.some.inj hx
      exact (wakes_wakeUpNewTask hoff hstate (h.schedClass_ne_idle hp) h.prio_lt).rouses t
    | tryToWakeUp p mask flags =>
      obtain rfl := Option.some.inj hx
      obtain ⟨-, -, -, hctl⟩ := tryToWakeUp_spec h p mask flags
      rw [hctl]
      by_cases ht : t = p
      · subst ht
        split_ifs
        · rw [Function.update_self]
          exact .inl ⟨rfl, rfl⟩
        · exact .refl _
      · split_ifs
        · rw [Function.update_of_ne ht]
          exact .refl _
        · exact .refl _
    | schedule preempt signalPending toWakeup =>
      obtain ⟨m, c, next, u, hm, -, -, hsched, hctl, -⟩ :=
        schedule_spec h preempt signalPending toWakeup
      obtain rfl : u = s' := Option.some.inj (hsched.symm.trans hx)
      rw [hctl, hm, keeps_putPrevTask.ctl]
      exact schedulePrev_rouses h preempt signalPending toWakeup t
    | setCurrentState state =>
      obtain rfl := Option.some.inj hx
      rw [ctl_modifyCtl, Function.update_of_ne fun ht => hself ht state rfl]
      exact .refl _
    | _ => cases hop

/-! ### Every post is taken once -/

/-- How many calls have returned with a post. -/
def Waits.taken (s : Waits τ Q) : ℕ := s.returned.countP fun r => 0 < r.2

omit [DecidableEq τ] in
theorem taken_ret (s : Waits τ Q) (value : ℤ) :
    (s.ret value).taken = s.taken + if 0 < value then 1 else 0 := by
  simp [Waits.taken, Waits.ret, List.countP_cons]

/-- The counters of two states: nothing happens to them, the completion is posted `n` times, or a
post is taken. -/
inductive Counts (s s' : Waits τ Q) : Prop
  | same (hd : s'.x.done = s.x.done) (hp : s'.posted = s.posted) (ht : s'.taken = s.taken)
  | post (n : ℕ) (hd : s'.x.done = s.x.done + UInt32.ofNat n) (hp : s'.posted = s.posted + n)
      (ht : s'.taken = s.taken)
  | take (hne : s.x.done ≠ 0) (hd : s'.x.done = s.x.done - 1) (hp : s'.posted = s.posted)
      (ht : s'.taken = s.taken + 1)

omit [DecidableEq τ] in
theorem counts_takePost {s : Waits τ Q} (hne : s.x.done ≠ 0) {timeout : ℤ} (h : 0 ≤ timeout) :
    Counts s (takePost s timeout) := by
  refine .take hne rfl rfl ?_
  have hpos : 0 < if timeout ≠ 0 then timeout else 1 := by split_ifs <;> omega
  rw [takePost, taken_ret, if_pos hpos]
  rfl

/-- A waiter leaves the queue with a post, or without one when its time is up or a signal came. -/
theorem counts_waitLeave {s : Waits τ Q} {timeout : ℤ} (h0 : s.x.done = 0 → timeout ≤ 0)
    (hne : s.x.done ≠ 0 → 0 ≤ timeout) : Counts s (waitLeave s timeout) := by
  rw [waitLeave]
  dsimp only
  split_ifs with hd
  · refine .same rfl rfl ?_
    rw [taken_ret, if_neg (by have := h0 hd; omega)]
    rfl
  · cases counts_takePost (s := { s with x :=
      { s.x with wait := s.x.wait.erase ⟨s.rq.curr, true⟩ } }) hd (hne hd) with
    | same hd' hp ht => exact .same hd' hp ht
    | post n hd' hp ht => exact .post n hd' hp ht
    | take hne' hd' hp ht => exact .take hne' hd' hp ht

theorem counts_waitLoop {s : Waits τ Q} (h0 : s.x.done = 0) (signals : Signals) :
    Counts s (waitLoop s signals) := by
  rw [waitLoop]
  split_ifs
  · exact counts_waitLeave (fun _ => by decide) fun hne => absurd h0 hne
  · exact .same rfl rfl rfl

/-- What a step does to the counters. -/
theorem waitExecOp_counts {s s' : Waits τ Q} {op : WaitOp τ} (he : WaitEnabled s op)
    (hx : waitExecOp K s op = some s') : Counts s s' := by
  cases op with
  | sched e =>
    obtain ⟨rq, -, rfl⟩ := Option.map_eq_some_iff.mp hx
    exact .same rfl rfl rfl
  | complete =>
    obtain rfl := Option.some.inj hx
    exact .post 1 rfl rfl rfl
  | completeAll =>
    obtain rfl := Option.some.inj hx
    exact .post halfOfAll rfl rfl rfl
  | tryWait =>
    obtain rfl := Option.some.inj hx
    rw [tryWaitForCompletion]
    split_ifs with h0
    · exact .same rfl rfl (by rw [taken_ret]; rfl)
    · exact .take h0 rfl rfl (by rw [taken_ret]; rfl)
  | wait timeout state signals =>
    obtain ⟨-, -, htimeout, -⟩ := he
    obtain rfl := Option.some.inj hx
    rw [doWaitForCommon]
    split_ifs with h0
    · cases counts_waitLoop (s := { s with
        x := { s.x with wait := s.x.wait ++ [⟨s.rq.curr, true⟩] }
        mode := Function.update s.mode s.rq.curr state }) h0 signals with
      | same hd hp ht => exact .same hd hp ht
      | post n hd hp ht => exact .post n hd hp ht
      | take hne hd hp ht => exact .take hne hd hp ht
    · exact counts_takePost h0 htimeout
  | resume timeout signals =>
    obtain ⟨-, -, htimeout⟩ := he
    obtain rfl := Option.some.inj hx
    rw [waitResume]
    split_ifs with h
    · exact counts_waitLoop h.1 signals
    · exact counts_waitLeave (fun h0 => by by_contra ht; exact h ⟨h0, by omega⟩)
        fun _ => htimeout

theorem waitStep_iff {s s' : Waits τ Q} {op : WaitOp τ} :
    (completionSystem K).step s op s' ↔ WaitEnabled s op ∧ waitExecOp K s op = some s' := by
  simp only [completionSystem, System.ofExec, waitExec]
  split <;> simp [*]

theorem toNat_done_sub_one {n : UInt32} (h : n ≠ 0) : 0 < n.toNat ∧ (n - 1).toNat = n.toNat - 1 := by
  have hpos : 0 < n.toNat := Nat.pos_of_ne_zero fun h0 => h (UInt32.toNat_inj.mp h0)
  exact ⟨hpos, UInt32.toNat_sub_of_le n 1 (UInt32.le_iff_toNat_le.mpr hpos)⟩

/-- No post is lost and none is taken twice: what has been posted has been taken, by as many calls
that returned a positive value, or is still there to take. The counter of the completion has 32
bits, so that from `2 ^ 32` posts on this holds up to multiples of that number. -/
theorem completion_conserved {s : Waits τ Q} (h : Reachable (completionSystem K) s) :
    s.posted ≡ s.taken + s.x.done.toNat [MOD 2 ^ 32] ∧
      (s.posted < 2 ^ 32 → s.posted = s.taken + s.x.done.toNat) := by
  induction h with
  | init hs =>
    have hs : CompletionBoot K _ := hs
    simp [hs.posted, hs.done, Waits.taken, hs.returned, Nat.ModEq]
  | @step s s' op _ hstep ih =>
    obtain ⟨he, hx⟩ := waitStep_iff.mp hstep
    obtain ⟨hmod, hexact⟩ := ih
    rcases waitExecOp_counts he hx with ⟨hd, hp, ht⟩ | ⟨n, hd, hp, ht⟩ | ⟨hne, hd, hp, ht⟩
    · rw [hd, hp, ht]
      exact ⟨hmod, hexact⟩
    · rw [hd, hp, ht, UInt32.toNat_add, UInt32.toNat_ofNat']
      constructor
      · calc s.posted + n ≡ s.taken + s.x.done.toNat + n [MOD 2 ^ 32] := hmod.add_right n
          _ = s.taken + (s.x.done.toNat + n) := by rw [add_assoc]
          _ ≡ s.taken + (s.x.done.toNat + n % 2 ^ 32) % 2 ^ 32 [MOD 2 ^ 32] :=
            ((((Nat.mod_modEq n _).add_left _).symm).trans (Nat.mod_modEq _ _).symm).add_left _
      · intro hlt
        have := hexact (by omega)
        omega
    · obtain ⟨hpos, hsub⟩ := toNat_done_sub_one hne
      have hsum : s.taken + 1 + (s.x.done.toNat - 1) = s.taken + s.x.done.toNat := by omega
      rw [hd, hp, ht, hsub, hsum]
      exact ⟨hmod, hexact⟩

/-- A processor and a completion after boot. -/
def referenceWaits : Waits ℕ (Arrivals ℕ) where
  rq := referenceBoot
  x := {}
  mode _ := 0
  posted := 0
  returned := []

theorem completionBoot_referenceWaits : CompletionBoot (referenceKernel ℕ) referenceWaits where
  boot := boot_referenceBoot
  done := rfl
  wait := rfl
  posted := rfl
  returned := rfl

def referenceWaitRun (ops : List (WaitOp ℕ)) : Option (Waits ℕ (Arrivals ℕ)) :=
  execAll (waitExec (referenceKernel ℕ)) referenceWaits ops

theorem reachable_referenceWaitRun {ops : List (WaitOp ℕ)} {s : Waits ℕ (Arrivals ℕ)}
    (h : referenceWaitRun ops = some s) : Reachable (completionSystem (referenceKernel ℕ)) s :=
  (Reachable.init completionBoot_referenceWaits).run (run_of_execAll h)

/-- Two tasks wait, and one post has come. -/
def twoWaitersOnePost : List (WaitOp ℕ) :=
  [.sched ⟨0, .wakeUpNewTask 1⟩, .sched ⟨0, reschedule⟩, .wait 10 2 {},
    .sched ⟨0, .schedule false false none⟩, .sched ⟨0, .wakeUpNewTask 2⟩, .sched ⟨0, reschedule⟩,
    .wait 10 1 {}, .sched ⟨0, .schedule false false none⟩, .complete]

theorem completion_conserved_twoWaitersOnePost :
    ∃ s, referenceWaitRun twoWaitersOnePost = some s ∧ s.posted = 1 ∧
      (s.posted ≡ s.taken + s.x.done.toNat [MOD 2 ^ 32] ∧
        (s.posted < 2 ^ 32 → s.posted = s.taken + s.x.done.toNat)) := by
  have hrun : referenceWaitRun twoWaitersOnePost =
      some ((referenceWaitRun twoWaitersOnePost).get (by decide +kernel)) := by simp
  exact ⟨_, hrun, by decide +kernel, completion_conserved (reachable_referenceWaitRun hrun)⟩

/-! ### No wakeup is lost -/

/-- The number of waiters that are awake. -/
def Waits.awake (s : Waits τ Q) : ℕ := s.x.wait.countP fun w => Awake (s.rq.ctl w.task)

omit [DecidableEq τ] in
theorem countP_lt_of_mem {α : Type*} {p q : α → Bool} {l : List α} {a : α}
    (h : ∀ b ∈ l, p b = true → q b = true) (ha : a ∈ l) (hq : q a = true) (hp : p a = false) :
    l.countP p < l.countP q := by
  obtain ⟨l₁, l₂, rfl⟩ := List.append_of_mem ha
  have h₁ : l₁.countP p ≤ l₁.countP q := List.countP_mono_left fun b hb =>
    h b (List.mem_append_left _ hb)
  have h₂ : l₂.countP p ≤ l₂.countP q := List.countP_mono_left fun b hb =>
    h b (List.mem_append_right _ (List.mem_cons_of_mem _ hb))
  rw [List.countP_append, List.countP_append, List.countP_cons, List.countP_cons, hq, hp]
  simp only [Bool.false_eq_true, if_true, if_false]
  omega

/-- The queue holds the waiters once each, every one awake or asleep in a state that a post wakes,
and as many are awake as there are posts for them. -/
structure CompletionInv (K : Kernel τ Q) (s : Waits τ Q) : Prop where
  reachable : Reachable (system K) s.rq
  exclusive : ∀ w ∈ s.x.wait, w.exclusive = true
  nodup : (s.x.wait.map (·.task)).Nodup
  mode : ∀ w ∈ s.x.wait, s.mode w.task &&& taskNormal ≠ 0
  waits : ∀ w ∈ s.x.wait,
    Awake (s.rq.ctl w.task) ∨ asleepIn taskNormal (s.rq.ctl w.task) = true
  awake : min s.x.done.toNat s.x.wait.length ≤ s.awake

namespace CompletionInv

variable {s s' : Waits τ Q}

/-- A task waits when one of the entries is its own. -/
theorem waiting_iff (h : CompletionInv K s) {t : τ} :
    s.Waiting t ↔ ∃ w ∈ s.x.wait, w.task = t := by
  constructor
  · exact fun ht => ⟨_, ht, rfl⟩
  · rintro ⟨w, hw, rfl⟩
    have hex := h.exclusive w hw
    obtain ⟨t, e⟩ := w
    obtain rfl : e = true := hex
    exact hw

/-- Only the completion and the states of its waiters matter, and fewer posts need fewer waiters
that are awake. -/
theorem congr (h : CompletionInv K s) (hreach : Reachable (system K) s'.rq)
    (hwait : s'.x.wait = s.x.wait) (hmode : s'.mode = s.mode)
    (hctl : ∀ w ∈ s.x.wait, s'.rq.ctl w.task = s.rq.ctl w.task)
    (hdone : s'.x.done.toNat ≤ s.x.done.toNat) : CompletionInv K s' where
  reachable := hreach
  exclusive := by rw [hwait]; exact h.exclusive
  nodup := by rw [hwait]; exact h.nodup
  mode := by rw [hwait, hmode]; exact h.mode
  waits := by
    rw [hwait]
    intro w hw
    rw [hctl w hw]
    exact h.waits w hw
  awake := by
    have hsame : s'.awake = s.awake := by
      rw [Waits.awake, Waits.awake, hwait]
      exact List.countP_congr fun w hw => by rw [hctl w hw]
    rw [hsame, hwait]
    exact (min_le_min_right _ hdone).trans h.awake

/-- A step of the scheduler leaves the waiters that are awake awake. -/
theorem sched (h : CompletionInv K s) {e : Event τ} (he : OutsideWait s e.op) {rq : Rq τ Q}
    (hx : exec K s.rq e = some rq) : CompletionInv K { s with rq := rq } := by
  have hstep : (system K).step s.rq e rq := hx
  have hinv := reachable_inv h.reachable
  obtain ⟨hen, hop, hinv'⟩ := step_inv hinv hstep
  have hrouses : ∀ w ∈ s.x.wait, Rouses (s.rq.ctl w.task) (rq.ctl w.task) := by
    intro w hw
    have hwaits : s.Waiting w.task := h.waiting_iff.mpr ⟨w, hw, rfl⟩
    refine execOp_rouses (s := atTime s.rq e.now) hinv' hen hop (fun hf => ?_) fun hc state hs => ?_
    · rw [hf] at he
      exact he.2 hwaits
    · rw [hs] at he
      have hc : w.task = s.rq.curr := hc
      exact he (hc ▸ hwaits)
  refine ⟨h.reachable.step hstep, h.exclusive, h.nodup, h.mode, fun w hw => ?_, ?_⟩
  · rcases hrouses w hw with ha | ⟨hna, hst⟩
    · exact .inl ha
    · refine .inr ?_
      have hs := (h.waits w hw).resolve_left hna
      rw [asleepIn] at hs ⊢
      rwa [hst]
  · have hle : s.awake ≤ ({ s with rq := rq } : Waits τ Q).awake :=
      List.countP_mono_left fun w hw ha => by
        rcases hrouses w hw with ha' | ⟨hna, -⟩
        · exact decide_eq_true ha'
        · exact absurd (of_decide_eq_true ha) hna
    exact h.awake.trans hle

/-- Who is asleep in a state that a post wakes is not awake. -/
theorem not_awake {c : TaskControl} (h : asleepIn taskNormal c = true) : ¬Awake c := by
  rintro ⟨-, h0⟩
  rw [asleepIn, h0, Nat.zero_and] at h
  simp at h

/-- The waiters that are awake after a post: those that were, and those that it wakes. -/
theorem awake_post_iff (h : CompletionInv K s) (n : ℕ) (nr : ℤ) {w : WaitQueueEntry τ} :
    Awake ((post K s n nr).rq.ctl w.task) ↔ Awake (s.rq.ctl w.task) ∨
      w.task ∈ roused (fun u => asleepIn taskNormal (s.rq.ctl u)) nr s.x.wait := by
  change Awake ((wakeUpCommon K taskNormal 0 s.rq nr s.x.wait).ctl w.task) ↔ _
  rw [(wakeUpCommon_spec (reachable_inv h.reachable) taskNormal 0 nr h.nodup).2.2]
  split_ifs with hr
  · exact ⟨fun _ => .inr hr, fun _ => ⟨rfl, rfl⟩⟩
  · exact ⟨.inl, fun ha => ha.resolve_right hr⟩

/-- A post keeps the invariant when it wakes enough waiters. -/
theorem post (h : CompletionInv K s) (n : ℕ) (nr : ℤ)
    (hawake : min (s.x.done.toNat + n) s.x.wait.length ≤ (post K s n nr).awake) :
    CompletionInv K (post K s n nr) := by
  refine ⟨reachable_wakeUpCommon h.reachable taskNormal 0 nr s.x.wait, h.exclusive, h.nodup, h.mode,
    fun w hw => ?_, ?_⟩
  · by_cases ha : Awake ((Sched.post K s n nr).rq.ctl w.task)
    · exact .inl ha
    · have hr := fun hr => ha ((h.awake_post_iff n nr).mpr (.inr hr))
      have hctl := (wakeUpCommon_spec (reachable_inv h.reachable) taskNormal 0 nr h.nodup).2.2 w.task
      rw [if_neg hr] at hctl
      change Awake ((wakeUpCommon K taskNormal 0 s.rq nr s.x.wait).ctl w.task) ∨
        asleepIn taskNormal ((wakeUpCommon K taskNormal 0 s.rq nr s.x.wait).ctl w.task) = true
      rw [hctl]
      exact h.waits w hw
  · refine le_trans (min_le_min_right _ ?_) hawake
    change (s.x.done + UInt32.ofNat n).toNat ≤ _
    rw [UInt32.toNat_add, UInt32.toNat_ofNat']
    exact (Nat.mod_le _ _).trans (Nat.add_le_add_left (Nat.mod_le _ _) _)

/-- When no waiter sleeps after a post, all are awake. -/
theorem awake_post_of_all (h : CompletionInv K s) (n : ℕ) (nr : ℤ)
    (hall : ∀ w ∈ s.x.wait, asleepIn taskNormal (s.rq.ctl w.task) = true →
      w.task ∈ roused (fun u => asleepIn taskNormal (s.rq.ctl u)) nr s.x.wait) :
    (Sched.post K s n nr).awake = s.x.wait.length := by
  change s.x.wait.countP _ = _
  exact List.countP_eq_length.mpr fun w hw =>
    decide_eq_true ((h.awake_post_iff n nr).mpr ((h.waits w hw).imp_right (hall w hw)))

/-- `complete` wakes the first waiter that is asleep, if there is one. -/
theorem complete (h : CompletionInv K s) : CompletionInv K (complete K s) := by
  refine h.post 1 1 ?_
  have hroused := roused_exclusive (n := 1) (fun u => asleepIn taskNormal (s.rq.ctl u)) (by decide)
    h.exclusive
  rw [Int.natCast_one] at hroused
  cases hsleep : (s.x.wait.map (·.task)).filter fun u => asleepIn taskNormal (s.rq.ctl u) with
  | nil =>
    -- everyone is awake already
    rw [h.awake_post_of_all 1 1 fun w hw hs => absurd hs
      (List.filter_eq_nil_iff.mp hsleep w.task (List.mem_map_of_mem hw))]
    exact min_le_right _ _
  | cons t l =>
    have ht : t ∈ (s.x.wait.map (·.task)).filter fun u => asleepIn taskNormal (s.rq.ctl u) := by
      rw [hsleep]
      exact List.mem_cons_self ..
    obtain ⟨htmem, htsleep⟩ := List.mem_filter.mp ht
    obtain ⟨w, hw, hwt⟩ := List.mem_map.mp htmem
    -- the count grows at the entry of the first sleeper
    have hnew : Awake ((Sched.post K s 1 1).rq.ctl w.task) :=
      (h.awake_post_iff 1 1).mpr (.inr (by simp [hroused, hsleep, hwt]))
    have hold : ¬Awake (s.rq.ctl w.task) := not_awake (hwt ▸ htsleep)
    have hgrow : s.awake < (Sched.post K s 1 1).awake :=
      countP_lt_of_mem (fun v _ ha => decide_eq_true
        ((h.awake_post_iff 1 1).mpr (.inl (of_decide_eq_true ha)))) hw (decide_eq_true hnew)
        (by simpa using hold)
    have := h.awake
    omega

/-- `complete_all` wakes every waiter. -/
theorem completeAll (h : CompletionInv K s) : CompletionInv K (completeAll K s) := by
  refine h.post halfOfAll 0 ?_
  rw [h.awake_post_of_all halfOfAll 0 fun w hw hs => ?_]
  · exact min_le_right _ _
  · rw [roused_all _ le_rfl]
    exact List.mem_filter.mpr ⟨List.mem_map_of_mem hw, hs⟩

/-- A task that does not wait takes a post. -/
theorem tryWait (h : CompletionInv K s) : CompletionInv K (tryWaitForCompletion s) := by
  rw [tryWaitForCompletion]
  split_ifs with h0
  · exact h.congr h.reachable rfl rfl (fun _ _ => rfl) le_rfl
  · refine h.congr h.reachable rfl rfl (fun _ _ => rfl) ?_
    exact (toNat_done_sub_one h0).2 ▸ Nat.sub_le _ _

theorem takePost (h : CompletionInv K s) (h0 : s.x.done ≠ 0) (timeout : ℤ) :
    CompletionInv K (takePost s timeout) :=
  h.congr h.reachable rfl rfl (fun _ _ => rfl) ((toNat_done_sub_one h0).2 ▸ Nat.sub_le _ _)

/-- A waiter goes to sleep when there is nothing to take. -/
theorem sleep (h : CompletionInv K s) (h0 : s.x.done = 0) (hcurr : s.Waiting s.rq.curr)
    (hidle : s.rq.curr ≠ s.rq.idle) : CompletionInv K { s with
      rq := s.rq.modifyCtl s.rq.curr fun p => { p with state := s.mode s.rq.curr } } := by
  have hstep : (system K).step s.rq ⟨s.rq.schedClock, .setCurrentState (s.mode s.rq.curr)⟩
      (s.rq.modifyCtl s.rq.curr fun p => { p with state := s.mode s.rq.curr }) :=
    step_iff.mpr ⟨hidle, rfl⟩
  refine ⟨h.reachable.step hstep, h.exclusive, h.nodup, h.mode, fun w hw => ?_, ?_⟩
  · by_cases hw' : w.task = s.rq.curr
    · refine .inr ?_
      have hm := h.mode _ hcurr
      rw [ctl_modifyCtl, hw', Function.update_self, asleepIn]
      exact decide_eq_true hm
    · rw [ctl_modifyCtl, Function.update_of_ne hw']
      exact h.waits w hw
  · rw [h0]
    exact (min_le_left _ _).trans (Nat.zero_le _)

/-- A waiter leaves the queue, with a post when there is one. -/
theorem leave (h : CompletionInv K s) (hcurr : s.Waiting s.rq.curr)
    (hawake : s.x.done ≠ 0 → Awake (s.rq.ctl s.rq.curr)) (timeout : ℤ) :
    CompletionInv K (waitLeave s timeout) := by
  -- the completion without the waiter, when the post it takes is left out as well
  have hrest : ∀ done : UInt32, done.toNat = s.x.done.toNat - 1 → CompletionInv K { s with
      x := { done := done, wait := s.x.wait.erase ⟨s.rq.curr, true⟩ } } := by
    intro done hdone
    have hsub : (s.x.wait.erase ⟨s.rq.curr, true⟩).Sublist s.x.wait := List.erase_sublist
    refine ⟨h.reachable, fun w hw => h.exclusive w (hsub.subset hw), h.nodup.sublist (hsub.map _),
      fun w hw => h.mode w (hsub.subset hw), fun w hw => h.waits w (hsub.subset hw), ?_⟩
    dsimp only [Waits.awake]
    rw [hdone, List.length_erase_of_mem hcurr]
    by_cases h0 : s.x.done = 0
    · rw [h0]
      exact (min_le_left _ _).trans (Nat.zero_le _)
    · have hle := h.awake
      rw [Waits.awake] at hle
      rw [List.countP_erase, if_pos ⟨hcurr, decide_eq_true (hawake h0)⟩]
      omega
  rw [waitLeave]
  dsimp only
  split_ifs with h0
  · exact (hrest s.x.done (by rw [h0]; rfl)).congr h.reachable rfl rfl (fun _ _ => rfl) le_rfl
  · exact (hrest (s.x.done - 1) (toNat_done_sub_one h0).2).congr h.reachable rfl rfl (fun _ _ => rfl)
      le_rfl

/-- The loop of a waiter, when there is nothing to take. -/
theorem loop (h : CompletionInv K s) (h0 : s.x.done = 0) (hcurr : s.Waiting s.rq.curr)
    (hidle : s.rq.curr ≠ s.rq.idle) (signals : Signals) : CompletionInv K (waitLoop s signals) := by
  rw [waitLoop]
  split_ifs
  · exact h.leave hcurr (fun hne => absurd h0 hne) _
  · exact h.sleep h0 hcurr hidle

/-- A task queues itself when there is nothing to take. -/
theorem queue (h : CompletionInv K s) (h0 : s.x.done = 0) (hcurr : ¬s.Waiting s.rq.curr)
    (hidle : s.rq.curr ≠ s.rq.idle) {state : ℕ} (hmode : state &&& taskNormal ≠ 0)
    (signals : Signals) :
    CompletionInv K (waitLoop
      { s with
        x := { s.x with wait := s.x.wait ++ [⟨s.rq.curr, true⟩] }
        mode := Function.update s.mode s.rq.curr state } signals) := by
  have hne : ∀ w ∈ s.x.wait, w.task ≠ s.rq.curr := fun w hw he =>
    hcurr (h.waiting_iff.mpr ⟨w, hw, he⟩)
  have hupd : ∀ w ∈ s.x.wait, Function.update s.mode s.rq.curr state w.task = s.mode w.task :=
    fun w hw => Function.update_of_ne (hne w hw) _ _
  rw [waitLoop]
  split_ifs
  · -- a signal is pending: the entry is taken off again
    have herase : ∀ w ∉ s.x.wait, (s.x.wait ++ [w]).erase w = s.x.wait := fun w hw => by
      rw [List.erase_append_right _ hw, List.erase_cons_head, List.append_nil]
    rw [waitLeave]
    dsimp only
    rw [if_pos h0, herase _ hcurr]
    exact ⟨h.reachable, h.exclusive, h.nodup, fun w hw => by
      change Function.update s.mode s.rq.curr state w.task &&& taskNormal ≠ 0
      rw [hupd w hw]; exact h.mode w hw, h.waits, h.awake⟩
  · have hstep : (system K).step s.rq ⟨s.rq.schedClock, .setCurrentState state⟩
        (s.rq.modifyCtl s.rq.curr fun p => { p with state := state }) :=
      step_iff.mpr ⟨hidle, rfl⟩
    dsimp only
    rw [Function.update_self]
    refine ⟨h.reachable.step hstep, fun w hw => ?_, ?_, fun w hw => ?_, fun w hw => ?_, ?_⟩
    · rcases List.mem_append.mp hw with hw | hw
      · exact h.exclusive w hw
      · rw [List.mem_singleton.mp hw]
    · rw [List.map_append, List.map_singleton]
      exact h.nodup.append (List.nodup_singleton _)
        (List.disjoint_singleton.mpr fun hm => by
          obtain ⟨w, hw, he⟩ := List.mem_map.mp hm
          exact hne w hw he)
    · rcases List.mem_append.mp hw with hw | hw
      · change Function.update s.mode s.rq.curr state w.task &&& taskNormal ≠ 0
        rw [hupd w hw]
        exact h.mode w hw
      · rw [List.mem_singleton.mp hw]
        change Function.update s.mode s.rq.curr state s.rq.curr &&& taskNormal ≠ 0
        rwa [Function.update_self]
    · rcases List.mem_append.mp hw with hw | hw
      · rw [ctl_modifyCtl, Function.update_of_ne (hne w hw)]
        exact h.waits w hw
      · rw [List.mem_singleton.mp hw, ctl_modifyCtl, Function.update_self, asleepIn]
        exact .inr (decide_eq_true hmode)
    · dsimp only
      rw [h0]
      exact (min_le_left _ _).trans (Nat.zero_le _)

/-- Every step keeps the invariant. -/
theorem step (h : CompletionInv K s) {op : WaitOp τ} (he : WaitEnabled s op)
    (hx : waitExecOp K s op = some s') : CompletionInv K s' := by
  cases op with
  | sched e =>
    obtain ⟨rq, hrq, rfl⟩ := Option.map_eq_some_iff.mp hx
    exact h.sched he hrq
  | complete =>
    obtain rfl := Option.some.inj hx
    exact h.complete
  | completeAll =>
    obtain rfl := Option.some.inj hx
    exact h.completeAll
  | tryWait =>
    obtain rfl := Option.some.inj hx
    exact h.tryWait
  | wait timeout state signals =>
    obtain ⟨hidle, hcurr, -, hstate⟩ := he
    obtain rfl := Option.some.inj hx
    have hmodes : ∀ state ∈ [taskInterruptible, taskUninterruptible, taskKillable],
        state &&& taskNormal ≠ 0 := by decide
    have hmode := hmodes state hstate
    rw [doWaitForCommon]
    split_ifs with h0
    · exact h.queue h0 hcurr hidle hmode signals
    · exact h.takePost h0 timeout
  | resume timeout signals =>
    obtain ⟨hcurr, hstate, -⟩ := he
    obtain rfl := Option.some.inj hx
    obtain ⟨w, hw, hwt⟩ := h.waiting_iff.mp hcurr
    -- a waiter that runs on has been woken
    have hawake : Awake (s.rq.ctl s.rq.curr) := by
      have hstate : (s.rq.ctl s.rq.curr).state = 0 := hstate
      rw [← hwt] at hstate ⊢
      refine (h.waits w hw).resolve_right fun hs => ?_
      rw [asleepIn, hstate, Nat.zero_and] at hs
      simp at hs
    have hidle : s.rq.curr ≠ s.rq.idle := fun hi => by
      have hoff := (reachable_inv h.reachable).idle_onRq
      rw [← hi, hawake.1] at hoff
      cases hoff
    rw [waitResume]
    split_ifs with hd
    · exact h.loop hd.1 hcurr hidle signals
    · exact h.leave hcurr (fun _ => hawake) timeout

end CompletionInv

/-- The invariant holds in every reachable state. -/
theorem reachable_completionInv {s : Waits τ Q} (h : Reachable (completionSystem K) s) :
    CompletionInv K s := by
  induction h with
  | init hs =>
    have hs : CompletionBoot K _ := hs
    refine ⟨.init hs.boot, ?_, ?_, ?_, ?_, ?_⟩ <;> simp [hs.wait]
  | step _ hstep ih =>
    obtain ⟨he, hx⟩ := waitStep_iff.mp hstep
    exact ih.step he hx

/-- In every reachable state at least as many waiters are awake, on the run queue and on their way
to look again, as there are posts to take, unless all waiters are. So no waiter sleeps next to a
post that no other waiter will take, and the scheduler under it has only done what a scheduler
does. -/
theorem completion_no_lost_wakeup {s : Waits τ Q} (h : Reachable (completionSystem K) s) :
    Reachable (system K) s.rq ∧ min s.x.done.toNat s.x.wait.length ≤
      s.x.wait.countP fun w => (s.rq.task w.task).onRq ∧ (s.rq.task w.task).state = 0 :=
  ⟨(reachable_completionInv h).reachable, (reachable_completionInv h).awake⟩

theorem completion_no_lost_wakeup_twoWaitersOnePost :
    ∃ s, referenceWaitRun twoWaitersOnePost = some s ∧ s.x.done = 1 ∧ s.x.wait.length = 2 ∧
      Reachable (system (referenceKernel ℕ)) s.rq ∧ min s.x.done.toNat s.x.wait.length ≤
        s.x.wait.countP fun w => (s.rq.task w.task).onRq ∧ (s.rq.task w.task).state = 0 := by
  have hrun : referenceWaitRun twoWaitersOnePost =
      some ((referenceWaitRun twoWaitersOnePost).get (by decide +kernel)) := by simp
  exact ⟨_, hrun, by decide +kernel, by decide +kernel,
    completion_no_lost_wakeup (reachable_referenceWaitRun hrun)⟩

end OsProject.Sched
