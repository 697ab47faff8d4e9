import Mathlib.Algebra.BigOperators.Group.Finset.Basic
import Mathlib.Data.Fintype.BigOperators
import Mathlib.Data.UInt
import OsProject.Lib.Rollup
import OsProject.Lib.Transition

/-!
# Accounting of processor time

Every tick of a processor is accounted to one field of `kernel_cpustat`, by what the processor did
when it came: the program of a task, the kernel on behalf of a task, an interrupt, or nothing. The
tick of a task is also added to the times of the task and to the statistics of its accounting group
and the groups above it, and the run time that the classes charge to a task is added to the usage
of these groups.

What `times` and its kin report of a task is the run time of the scheduler, split by the ticks in
user mode and in the kernel, and kept from falling.

## Main definitions

* `Accounting` — tasks, accounting groups and the statistics of one processor.
* `accountProcessTick`, `accountIdleTicks` — a tick, and ticks that an idle processor has missed.
* `cpuacctCharge` — run time of a task.
* `taskTimes` — the times that are reported of a task.
* `accountingSystem` — ticks and charges, with groups and tasks that change.

Source: `kernel/sched/core.c`, `kernel/sched/sched.h`.
-/

namespace OsProject.Sched

open Rollup Transition

variable {τ α : Type*}

/-! ### The state -/

/-- The fields of `struct kernel_cpustat`. -/
inductive CpuStat
  | user | nice | system | softirq | irq | idle | iowait | steal | guest | guestNice
  deriving DecidableEq, Repr

/-- `struct cpuacct`, with its counters for the processor. -/
structure CpuAcct where
  cpuusage : UInt64 := 0
  cpustat : CpuStat → UInt64 := fun _ => 0

/-- The fields of `task_struct` that the accounting reads and writes. -/
structure TaskTimes (α : Type*) where
  utime : UInt32 := 0
  stime : UInt32 := 0
  utimescaled : UInt32 := 0
  stimescaled : UInt32 := 0
  gtime : UInt32 := 0
  prevUtime : UInt32 := 0
  prevStime : UInt32 := 0
  sumExecRuntime : UInt64 := 0
  /-- `TASK_NICE`. -/
  taskNice : ℤ := 0
  /-- `PF_VCPU`. -/
  vcpu : Bool := false
  /-- `task_ca`. -/
  cpuacct : α

/-- Tasks and accounting groups. The root group has the statistics of the processor,
`kernel_cpustat`, for its own. -/
structure Accounting (τ α : Type*) where
  task : τ → TaskTimes α
  acct : α → CpuAcct
  /-- The groups there are. -/
  groups : Finset α
  /-- `parent_ca`. -/
  parentCa : α → Option α
  rootCpuacct : α
  /-- `cpuacct_subsys.active`. -/
  active : Bool
  idle : τ
  nrIowait : ℤ

/-- What interrupts the processor serves when a tick comes. -/
structure Irqs where
  irqCount : ℤ
  hardirqCount : ℤ
  servingSoftirq : Bool := false

/-- `HARDIRQ_OFFSET`. -/
def hardirqOffset : ℤ := 0x10000

/-- `cputime_one_jiffy`. -/
def cputimeOneJiffy : UInt32 := 1

/-! ### The source -/

section Source

def CpuAcct.addStat (ca : CpuAcct) (index : CpuStat) (tmp : UInt64) : CpuAcct :=
  { ca with cpustat := Function.update ca.cpustat index (ca.cpustat index + tmp) }

def CpuAcct.addUsage (ca : CpuAcct) (cputime : UInt64) : CpuAcct :=
  { ca with cpuusage := ca.cpuusage + cputime }

namespace Accounting

variable [DecidableEq τ] [DecidableEq α]

def modifyTask (s : Accounting τ α) (p : τ) (f : TaskTimes α → TaskTimes α) : Accounting τ α :=
  { s with task := Function.update s.task p (f (s.task p)) }

/-- Add to a field of `kernel_cpustat`. -/
def addCpustat (s : Accounting τ α) (index : CpuStat) (tmp : UInt64) : Accounting τ α :=
  { s with acct :=
      Function.update s.acct s.rootCpuacct ((s.acct s.rootCpuacct).addStat index tmp) }

/-- `task_group_account_field`: the root group first, then those below it. -/
def taskGroupAccountField (s : Accounting τ α) (p : τ) (index : CpuStat) (tmp : UInt64) :
    Accounting τ α :=
  let s := s.addCpustat index tmp
  if !s.active then s
  else
    let below (ca : Option α) := ca.filter (· ≠ s.rootCpuacct)
    let charge (ca : α) (acct : α → CpuAcct) :=
      Function.update acct ca ((acct ca).addStat index tmp)
    { s with
      acct := walkUp (fun ca => below (s.parentCa ca)) charge s.groups.card
        (below (some (s.task p).cpuacct)) s.acct }

def accountUserTime (s : Accounting τ α) (p : τ) (cputime cputimeScaled : UInt32) :
    Accounting τ α :=
  let s := s.modifyTask p fun p =>
    { p with utime := p.utime + cputime, utimescaled := p.utimescaled + cputimeScaled }
  let index := if 0 < (s.task p).taskNice then CpuStat.nice else CpuStat.user
  s.taskGroupAccountField p index cputime.toUInt64

/-- `account_guest_time`, which leaves the groups below the root group out. -/
def accountGuestTime (s : Accounting τ α) (p : τ) (cputime cputimeScaled : UInt32) :
    Accounting τ α :=
  let s := s.modifyTask p fun p =>
    { p with
      utime := p.utime + cputime
      utimescaled := p.utimescaled + cputimeScaled
      gtime := p.gtime + cputime }
  if 0 < (s.task p).taskNice then
    (s.addCpustat .nice cputime.toUInt64).addCpustat .guestNice cputime.toUInt64
  else (s.addCpustat .user cputime.toUInt64).addCpustat .guest cputime.toUInt64

/-- `__account_system_time`. -/
def accountSystemTimeAs (s : Accounting τ α) (p : τ) (cputime cputimeScaled : UInt32)
    (index : CpuStat) : Accounting τ α :=
  let s := s.modifyTask p fun p =>
    { p with stime := p.stime + cputime, stimescaled := p.stimescaled + cputimeScaled }
  s.taskGroupAccountField p index cputime.toUInt64

def accountSystemTime (s : Accounting τ α) (irqs : Irqs) (p : τ) (offset : ℤ)
    (cputime cputimeScaled : UInt32) : Accounting τ α :=
  if (s.task p).vcpu ∧ irqs.irqCount - offset = 0 then s.accountGuestTime p cputime cputimeScaled
  else
    let index :=
      if irqs.hardirqCount - offset ≠ 0 then CpuStat.irq
      else if irqs.servingSoftirq then CpuStat.softirq
      else CpuStat.system
    s.accountSystemTimeAs p cputime cputimeScaled index

def accountStealTime (s : Accounting τ α) (cputime : UInt32) : Accounting τ α :=
  s.addCpustat .steal cputime.toUInt64

def accountIdleTime (s : Accounting τ α) (cputime : UInt32) : Accounting τ α :=
  s.addCpustat (if 0 < s.nrIowait then .iowait else .idle) cputime.toUInt64

/-- `account_process_tick`; the time of interrupts and of a hypervisor is not accounted by a clock
of its own. -/
def accountProcessTick (s : Accounting τ α) (irqs : Irqs) (p : τ) (userTick : Bool) :
    Accounting τ α :=
  if userTick then s.accountUserTime p cputimeOneJiffy cputimeOneJiffy
  else if p ≠ s.idle ∨ irqs.irqCount ≠ hardirqOffset then
    s.accountSystemTime irqs p hardirqOffset cputimeOneJiffy cputimeOneJiffy
  else s.accountIdleTime cputimeOneJiffy

def accountStealTicks (s : Accounting τ α) (ticks : UInt32) : Accounting τ α :=
  s.accountStealTime ticks

def accountIdleTicks (s : Accounting τ α) (ticks : UInt32) : Accounting τ α :=
  s.accountIdleTime ticks

def cpuacctCharge (s : Accounting τ α) (p : τ) (cputime : UInt64) : Accounting τ α :=
  if !s.active then s
  else
    let charge (ca : α) (acct : α → CpuAcct) :=
      Function.update acct ca ((acct ca).addUsage cputime)
    { s with acct := walkUp s.parentCa charge s.groups.card (some (s.task p).cpuacct) s.acct }

/-- What the classes do with the run time of a task, as `update_curr_rt` and `update_curr_ras`. -/
def chargeRuntime (s : Accounting τ α) (p : τ) (delta : UInt64) : Accounting τ α :=
  (s.modifyTask p fun p => { p with sumExecRuntime := p.sumExecRuntime + delta }).cpuacctCharge p
    delta

/-- `cpuacct_create` for a group below another one. -/
def cpuacctCreate (s : Accounting τ α) (ca parent : α) : Accounting τ α :=
  { s with
    acct := Function.update s.acct ca {}
    groups := insert ca s.groups
    parentCa := Function.update s.parentCa ca (some parent) }

/-- `cpuacct_destroy`. -/
def cpuacctDestroy (s : Accounting τ α) (ca : α) : Accounting τ α :=
  { s with groups := s.groups.erase ca }

/-- `cpuusage_write`: only a reset is accepted. -/
def cpuusageWrite (s : Accounting τ α) (ca : α) (reset : UInt64) : ℤ × Accounting τ α :=
  if reset ≠ 0 then (-22, s)
  else
    (0, { s with acct := Function.update s.acct ca { s.acct ca with cpuusage := 0 } })

end Accounting

/-- `cpuacct_stats_show`: the user and the system time of a group, in ticks. -/
def cpuacctStatsShow (ca : CpuAcct) : UInt64 × UInt64 :=
  (ca.cpustat .user + ca.cpustat .nice,
    ca.cpustat .system + ca.cpustat .irq + ca.cpustat .softirq)

/-! ### Reported times -/

def scaleUtime (utime rtime total : UInt32) : UInt32 :=
  (rtime.toUInt64 * utime.toUInt64 / total.toUInt64).toUInt32

/-- The part that `task_times` and `thread_group_times` share: the run time is split, and compared
with the values reported before. -/
def reportedTimes (utime stime rtime prevUtime prevStime : UInt32) : UInt32 × UInt32 :=
  let total := utime + stime
  let utime := if total ≠ 0 then scaleUtime utime rtime total else rtime
  let prevUtime := max prevUtime utime
  (prevUtime, max prevStime (rtime - prevUtime))

/-- `task_times`, with the conversion `nsecs_to_jiffies`. -/
def taskTimes (nsecsToJiffies : UInt64 → UInt32) (p : TaskTimes α) :
    (UInt32 × UInt32) × TaskTimes α :=
  let times := reportedTimes p.utime p.stime (nsecsToJiffies p.sumExecRuntime) p.prevUtime
    p.prevStime
  (times, { p with prevUtime := times.1, prevStime := times.2 })

end Source

/-! ### The steps -/

/-- A step: a tick while a task runs, ticks that were missed, a charge of run time, a report of
times, or a change of tasks and groups by others. -/
inductive AcctOp (τ α : Type*)
  | tick (p : τ) (userTick : Bool) (irqs : Irqs)
  | idleTicks (ticks : UInt32)
  | stealTicks (ticks : UInt32)
  | charge (p : τ) (delta : UInt64)
  | taskTimes (p : τ)
  | setTask (p : τ) (taskNice : ℤ) (vcpu : Bool)
  | iowait (n : ℤ)
  | activate
  | create (ca parent : α)
  | destroy (ca : α)
  | attach (p : τ) (ca : α)
  | usageWrite (ca : α) (reset : UInt64)

/-- The number of ticks that a step accounts. -/
def AcctOp.jiffies : AcctOp τ α → UInt64
  | .tick _ _ _ => cputimeOneJiffy.toUInt64
  | .idleTicks ticks => ticks.toUInt64
  | .stealTicks ticks => ticks.toUInt64
  | _ => 0

/-- The steps that account ticks. -/
def AcctOp.IsTick : AcctOp τ α → Prop
  | .tick _ _ _ => True
  | .idleTicks _ => True
  | .stealTicks _ => True
  | _ => False

section Steps

variable [DecidableEq τ] [DecidableEq α]

/-- The control groups see to it that a new group is not in use and has a parent, that a group
without children and tasks is destroyed, and that tasks move to groups that exist. -/
def AcctEnabled (s : Accounting τ α) : AcctOp τ α → Prop
  | .create ca parent => s.active = true ∧ ca ∉ s.groups ∧ parent ∈ s.groups
  | .destroy ca => ca ≠ s.rootCpuacct ∧ (∀ a ∈ s.groups, s.parentCa a ≠ some ca) ∧
      ∀ t, (s.task t).cpuacct ≠ ca
  | .attach _ ca => ca ∈ s.groups
  | .usageWrite ca _ => ca ∈ s.groups
  | _ => True

instance [Fintype τ] (s : Accounting τ α) (op : AcctOp τ α) : Decidable (AcctEnabled s op) :=
  match op with
  | .create _ _ => inferInstanceAs (Decidable (_ ∧ _ ∧ _))
  | .destroy ca => inferInstanceAs (Decidable (_ ∧ (∀ a ∈ s.groups, _) ∧
      ∀ t, (s.task t).cpuacct ≠ ca))
  | .attach _ ca => inferInstanceAs (Decidable (ca ∈ s.groups))
  | .usageWrite ca _ => inferInstanceAs (Decidable (ca ∈ s.groups))
  | .tick _ _ _ | .idleTicks _ | .stealTicks _ | .charge _ _ | .taskTimes _ | .setTask _ _ _
  | .iowait _ | .activate => inferInstanceAs (Decidable True)

variable (nsecsToJiffies : UInt64 → UInt32)

def acctExecOp (s : Accounting τ α) : AcctOp τ α → Accounting τ α
  | .tick p userTick irqs => s.accountProcessTick irqs p userTick
  | .idleTicks ticks => s.accountIdleTicks ticks
  | .stealTicks ticks => s.accountStealTicks ticks
  | .charge p delta => s.chargeRuntime p delta
  | .taskTimes p => s.modifyTask p fun p => (taskTimes nsecsToJiffies p).2
  | .setTask p taskNice vcpu => s.modifyTask p fun p => { p with taskNice := taskNice, vcpu := vcpu }
  | .iowait n => { s with nrIowait := n }
  | .activate => { s with active := true }
  | .create ca parent => s.cpuacctCreate ca parent
  | .destroy ca => s.cpuacctDestroy ca
  | .attach p ca => s.modifyTask p fun p => { p with cpuacct := ca }
  | .usageWrite ca reset => (s.cpuusageWrite ca reset).2

def acctExec [Fintype τ] (s : Accounting τ α) (op : AcctOp τ α) : Option (Accounting τ α) :=
  if AcctEnabled s op then some (acctExecOp nsecsToJiffies s op) else none

/-- At boot nothing is accounted, and all tasks are in the root group. -/
structure AcctBoot (s : Accounting τ α) : Prop where
  task : ∀ t, s.task t = { cpuacct := s.rootCpuacct }
  root : s.acct s.rootCpuacct = {}
  groups : s.groups = {s.rootCpuacct}
  parentCa : s.parentCa s.rootCpuacct = none
  active : s.active = false

def accountingSystem [Fintype τ] : System (Accounting τ α) (AcctOp τ α) :=
  .ofExec AcctBoot (acctExec nsecsToJiffies)

end Steps

/-! ### The accounting groups -/

section Groups

variable [DecidableEq α] {s : Accounting τ α} {t : α}

/-- The groups are a tree below the root group, and every task is in one of them. -/
structure AcctOk (s : Accounting τ α) : Prop where
  ranked : ∃ rank, Ranked s.parentCa s.groups rank
  root_mem : s.rootCpuacct ∈ s.groups
  parent_root : s.parentCa s.rootCpuacct = none
  above_root : ∀ a ∈ s.groups, Above s.parentCa a s.rootCpuacct
  task_mem : ∀ t, (s.task t).cpuacct ∈ s.groups
  inactive : s.active = false → s.groups = {s.rootCpuacct}

/-- The accounts of a group and the groups above it change in the same way, and no other does. -/
def PostsTo (parent : α → Option α) (t : α) (f : CpuAcct → CpuAcct) (acct acct' : α → CpuAcct) :
    Prop :=
  (∀ b, Above parent t b → acct' b = f (acct b)) ∧ ∀ b, ¬Above parent t b → acct' b = acct b

omit [DecidableEq α] in
theorem AcctOk.above_root_iff (h : AcctOk s) {b : α} :
    Above s.parentCa s.rootCpuacct b ↔ b = s.rootCpuacct := by
  rw [above_iff, h.parent_root]
  simp [eq_comm]

/-- A write to the statistics of the processor is one to the root group. -/
theorem AcctOk.postsTo_root (h : AcctOk s) (f : CpuAcct → CpuAcct) :
    PostsTo s.parentCa s.rootCpuacct f s.acct
      (Function.update s.acct s.rootCpuacct (f (s.acct s.rootCpuacct))) := by
  refine ⟨fun b hb => ?_, fun b hb => ?_⟩
  · rw [h.above_root_iff.mp hb, Function.update_self]
  · exact Function.update_of_ne (fun he => hb (h.above_root_iff.mpr he)) ..

/-- A loop over the groups visits a group and those above it. -/
theorem AcctOk.postsTo_walkUp (h : AcctOk s) (ht : t ∈ s.groups) (f : CpuAcct → CpuAcct) :
    PostsTo s.parentCa t f s.acct
      (walkUp s.parentCa (fun ca acct => Function.update acct ca (f (acct ca)))
        s.groups.card (some t) s.acct) := by
  obtain ⟨rank, hrank⟩ := h.ranked
  exact walkUp_update hrank f ht (Finset.card_filter_le _ _) s.acct

theorem Accounting.taskGroupAccountField_of_inactive (hact : s.active = false) (p : τ)
    (index : CpuStat) (tmp : UInt64) :
    s.taskGroupAccountField p index tmp = s.addCpustat index tmp := by
  have hact' : (s.addCpustat index tmp).active = false := hact
  rw [taskGroupAccountField]
  dsimp only
  rw [hact']
  rfl

theorem Accounting.taskGroupAccountField_of_active (hact : s.active = true) (p : τ)
    (index : CpuStat) (tmp : UInt64) :
    (s.taskGroupAccountField p index tmp).acct =
      walkUp (fun ca => (s.parentCa ca).filter (· ≠ s.rootCpuacct))
        (fun ca acct => Function.update acct ca ((acct ca).addStat index tmp)) s.groups.card
        ((some (s.task p).cpuacct).filter (· ≠ s.rootCpuacct)) (s.addCpustat index tmp).acct := by
  have hact' : (!(s.addCpustat index tmp).active) = false := by
    rw [show (s.addCpustat index tmp).active = true from hact]
    rfl
  rw [taskGroupAccountField]
  dsimp only
  rw [if_neg (by rw [hact']; exact Bool.false_ne_true)]
  rfl

/-- `task_group_account_field` adds to the group of the task and to those above it. -/
theorem postsTo_taskGroupAccountField (h : AcctOk s) (p : τ) (index : CpuStat) (tmp : UInt64) :
    PostsTo s.parentCa (s.task p).cpuacct (·.addStat index tmp) s.acct
      (s.taskGroupAccountField p index tmp).acct := by
  have hroot := h.postsTo_root (·.addStat index tmp)
  have hmem := h.task_mem p
  obtain ⟨t, ht⟩ : ∃ t, t = (s.task p).cpuacct := ⟨_, rfl⟩
  rw [← ht] at hmem ⊢
  by_cases htroot : t = s.rootCpuacct
  · have hsame : (s.taskGroupAccountField p index tmp).acct = (s.addCpustat index tmp).acct := by
      cases hact : s.active with
      | false => rw [Accounting.taskGroupAccountField_of_inactive hact]
      | true =>
        -- the loop ends at once
        rw [Accounting.taskGroupAccountField_of_active hact, ← ht, htroot, Option.filter_some,
          if_neg (by simp)]
        cases s.groups.card <;> rfl
    rw [hsame, htroot]
    exact hroot
  · have hact : s.active = true := by
      by_contra hinact
      have := h.inactive (by simpa using hinact)
      rw [this, Finset.mem_singleton] at hmem
      exact htroot hmem
    rw [Accounting.taskGroupAccountField_of_active hact, ← ht, Option.filter_some,
      if_pos (by simpa using htroot)]
    obtain ⟨rank, hrank⟩ := h.ranked
    obtain ⟨habove, hother⟩ := walkUp_update (hrank.filter s.rootCpuacct)
      (·.addStat index tmp) hmem (Finset.card_filter_le _ _)
      (Function.update s.acct s.rootCpuacct ((s.acct s.rootCpuacct).addStat index tmp))
    have hiff : ∀ {b}, Above (fun x => (s.parentCa x).filter (· ≠ s.rootCpuacct)) t b ↔
        Above s.parentCa t b ∧ b ≠ s.rootCpuacct := above_filter h.parent_root htroot
    refine ⟨fun b hb => ?_, fun b hb => ?_⟩
    · by_cases hbroot : b = s.rootCpuacct
      · subst hbroot
        exact (hother _ fun hb' => (hiff.mp hb').2 rfl).trans (Function.update_self ..)
      · exact (habove b (hiff.mpr ⟨hb, hbroot⟩)).trans
          (by rw [Function.update_of_ne hbroot])
    · have hbroot : b ≠ s.rootCpuacct := fun he => hb (he ▸ h.above_root t hmem)
      exact (hother b fun hb' => hb (hiff.mp hb').1).trans (Function.update_of_ne hbroot ..)

theorem cpuacctCharge_acct (hact : s.active = true) (p : τ) (cputime : UInt64) :
    (s.cpuacctCharge p cputime).acct =
      walkUp s.parentCa (fun ca acct => Function.update acct ca ((acct ca).addUsage cputime))
        s.groups.card (some (s.task p).cpuacct) s.acct := by
  rw [Accounting.cpuacctCharge, if_neg (by simp [hact])]

/-- A step that changes one task, and posts to the groups. -/
structure Posted (s s' : Accounting τ α) (task : τ → TaskTimes α) (t : α) (f : CpuAcct → CpuAcct) :
    Prop where
  task : s'.task = task
  acct : PostsTo s.parentCa t f s.acct s'.acct
  mem : t ∈ s.groups
  groups : s'.groups = s.groups
  parentCa : s'.parentCa = s.parentCa
  rootCpuacct : s'.rootCpuacct = s.rootCpuacct
  active : s'.active = s.active

end Groups

section Ticks

variable [DecidableEq τ] [DecidableEq α] {s s' : Accounting τ α} {t : α}

omit [DecidableEq α] in
theorem Accounting.modifyTask_self (p : τ) (f : TaskTimes α → TaskTimes α) :
    (s.modifyTask p f).task p = f (s.task p) := Function.update_self ..

omit [DecidableEq α] in
theorem Accounting.modifyTask_of_ne {p q : τ} (hq : q ≠ p) (f : TaskTimes α → TaskTimes α) :
    (s.modifyTask p f).task q = s.task q := Function.update_of_ne hq ..

omit [DecidableEq α] in
theorem AcctOk.modifyTask (h : AcctOk s) (p : τ) {f : TaskTimes α → TaskTimes α}
    (hf : (f (s.task p)).cpuacct ∈ s.groups) : AcctOk (s.modifyTask p f) where
  ranked := h.ranked
  root_mem := h.root_mem
  parent_root := h.parent_root
  above_root := h.above_root
  task_mem t := by
    by_cases ht : t = p
    · subst ht
      rw [Accounting.modifyTask_self]
      exact hf
    · rw [Accounting.modifyTask_of_ne ht]
      exact h.task_mem t
  inactive := h.inactive

/-- Ticks of a task are added to its times, and posted to its group. -/
theorem AcctOk.posted_taskGroupAccountField (h : AcctOk s) (p : τ) {f : TaskTimes α → TaskTimes α}
    (hf : (f (s.task p)).cpuacct = (s.task p).cpuacct) (index : CpuStat) (tmp : UInt64) :
    Posted s ((s.modifyTask p f).taskGroupAccountField p index tmp)
      (Function.update s.task p (f (s.task p))) (s.task p).cpuacct (·.addStat index tmp) := by
  have hok : AcctOk (s.modifyTask p f) := h.modifyTask p (hf ▸ h.task_mem p)
  have hca : ((s.modifyTask p f).task p).cpuacct = (s.task p).cpuacct := by
    rw [Accounting.modifyTask_self, hf]
  have hacct := postsTo_taskGroupAccountField hok p index tmp
  rw [hca] at hacct
  cases hact : s.active with
  | false =>
    have hact' : (s.modifyTask p f).active = false := hact
    rw [Accounting.taskGroupAccountField_of_inactive hact'] at hacct ⊢
    exact ⟨rfl, hacct, h.task_mem p, rfl, rfl, rfl, rfl⟩
  | true =>
    refine ⟨?_, hacct, h.task_mem p, ?_, ?_, ?_, ?_⟩ <;>
      simp [Accounting.taskGroupAccountField, Accounting.addCpustat, Accounting.modifyTask, hact]

omit [DecidableEq τ] in
/-- Ticks of no task are posted to the root group. -/
theorem AcctOk.posted_addCpustat (h : AcctOk s) (index : CpuStat) (tmp : UInt64) :
    Posted s (s.addCpustat index tmp) s.task s.rootCpuacct (·.addStat index tmp) :=
  ⟨rfl, h.postsTo_root (·.addStat index tmp), h.root_mem, rfl, rfl, rfl, rfl⟩

/-- The fields that ticks in user mode go to. -/
def CpuStat.IsUser (index : CpuStat) : Prop := index = .user ∨ index = .nice

/-- The fields that ticks in the kernel go to. -/
def CpuStat.IsSystem (index : CpuStat) : Prop :=
  index = .system ∨ index = .irq ∨ index = .softirq

/-- The fields that ticks of no task go to. -/
def CpuStat.IsIdle (index : CpuStat) : Prop := index = .idle ∨ index = .iowait ∨ index = .steal

/-- The times of a task after `u` ticks of user time, `k` of system time and `g` of guest time. -/
structure Ticked (old new : TaskTimes α) (u k g : UInt32) : Prop where
  utime : new.utime = old.utime + u
  stime : new.stime = old.stime + k
  gtime : new.gtime = old.gtime + g
  prevUtime : new.prevUtime = old.prevUtime
  prevStime : new.prevStime = old.prevStime
  sumExecRuntime : new.sumExecRuntime = old.sumExecRuntime
  cpuacct : new.cpuacct = old.cpuacct

/-- What accounting `c` ticks does. -/
inductive TickStep (s : Accounting τ α) (c : UInt32) (s' : Accounting τ α) : Prop
  /-- The ticks are the user time of a task. -/
  | user (p : τ) (v : TaskTimes α) (index : CpuStat) (hi : index.IsUser)
      (hv : Ticked (s.task p) v c 0 0)
      (h : Posted s s' (Function.update s.task p v) (s.task p).cpuacct
        (·.addStat index c.toUInt64))
  /-- The ticks are user time that a task has given to a guest. -/
  | guest (p : τ) (v : TaskTimes α) (index index' : CpuStat) (hi : index.IsUser)
      (hi' : index' = .guest ∨ index' = .guestNice) (hv : Ticked (s.task p) v c 0 c)
      (h : Posted s s' (Function.update s.task p v) s.rootCpuacct
        fun ca => (ca.addStat index c.toUInt64).addStat index' c.toUInt64)
  /-- The ticks are the system time of a task. -/
  | system (p : τ) (v : TaskTimes α) (index : CpuStat) (hi : index.IsSystem)
      (hv : Ticked (s.task p) v 0 c 0)
      (h : Posted s s' (Function.update s.task p v) (s.task p).cpuacct
        (·.addStat index c.toUInt64))
  | idle (index : CpuStat) (hi : index.IsIdle)
      (h : Posted s s' s.task s.rootCpuacct (·.addStat index c.toUInt64))

theorem tickStep_accountUserTime (h : AcctOk s) (p : τ) (c c' : UInt32) :
    TickStep s c (s.accountUserTime p c c') := by
  refine .user p { s.task p with
    utime := (s.task p).utime + c, utimescaled := (s.task p).utimescaled + c' } _ ?_
    ⟨rfl, by simp, by simp, rfl, rfl, rfl, rfl⟩ (h.posted_taskGroupAccountField p
      (f := fun p => { p with utime := p.utime + c, utimescaled := p.utimescaled + c' }) rfl _ _)
  split
  · exact .inr rfl
  · exact .inl rfl

theorem tickStep_accountSystemTimeAs (h : AcctOk s) (p : τ) (c c' : UInt32) {index : CpuStat}
    (hi : index.IsSystem) : TickStep s c (s.accountSystemTimeAs p c c' index) :=
  .system p { s.task p with
    stime := (s.task p).stime + c, stimescaled := (s.task p).stimescaled + c' } index hi
    ⟨by simp, rfl, by simp, rfl, rfl, rfl, rfl⟩ (h.posted_taskGroupAccountField p
      (f := fun p => { p with stime := p.stime + c, stimescaled := p.stimescaled + c' }) rfl _ _)

theorem tickStep_accountGuestTime (h : AcctOk s) (p : τ) (c c' : UInt32) :
    TickStep s c (s.accountGuestTime p c c') := by
  obtain ⟨f, hf⟩ : ∃ f : TaskTimes α → TaskTimes α, f = fun p => { p with
    utime := p.utime + c, utimescaled := p.utimescaled + c', gtime := p.gtime + c } := ⟨_, rfl⟩
  have hv : Ticked (s.task p) (f (s.task p)) c 0 c := by
    rw [hf]
    exact ⟨rfl, by simp, rfl, rfl, rfl, rfl, rfl⟩
  have hposted : ∀ index index' : CpuStat,
      Posted s (((s.modifyTask p f).addCpustat index c.toUInt64).addCpustat index' c.toUInt64)
        (Function.update s.task p (f (s.task p))) s.rootCpuacct
        fun ca => (ca.addStat index c.toUInt64).addStat index' c.toUInt64 := by
    intro index index'
    refine ⟨rfl, ?_, h.root_mem, rfl, rfl, rfl, rfl⟩
    have hpost := h.postsTo_root fun ca => (ca.addStat index c.toUInt64).addStat index' c.toUInt64
    simpa [Accounting.addCpustat, Accounting.modifyTask] using hpost
  rw [Accounting.accountGuestTime, ← hf]
  split
  · exact .guest p (f (s.task p)) .nice .guestNice (.inr rfl) (.inr rfl) hv (hposted _ _)
  · exact .guest p (f (s.task p)) .user .guest (.inl rfl) (.inl rfl) hv (hposted _ _)

theorem tickStep_accountIdleTime (h : AcctOk s) (c : UInt32) :
    TickStep s c (s.accountIdleTime c) := by
  refine .idle _ ?_ (h.posted_addCpustat _ _)
  split
  · exact .inr (.inl rfl)
  · exact .inl rfl

theorem tickStep_accountStealTime (h : AcctOk s) (c : UInt32) :
    TickStep s c (s.accountStealTime c) :=
  .idle .steal (.inr (.inr rfl)) (h.posted_addCpustat .steal c.toUInt64)

/-- A tick is accounted once. -/
theorem tickStep_accountProcessTick (h : AcctOk s) (irqs : Irqs) (p : τ) (userTick : Bool) :
    TickStep s cputimeOneJiffy (s.accountProcessTick irqs p userTick) := by
  rw [Accounting.accountProcessTick]
  split
  · exact tickStep_accountUserTime h p _ _
  · split
    · rw [Accounting.accountSystemTime]
      split
      · exact tickStep_accountGuestTime h p _ _
      · refine tickStep_accountSystemTimeAs h p _ _ ?_
        split
        · exact .inr (.inl rfl)
        · split
          · exact .inr (.inr rfl)
          · exact .inl rfl
    · exact tickStep_accountIdleTime h _

omit [DecidableEq τ] [DecidableEq α] in
theorem AcctOk.of_posted (h : AcctOk s) {task : τ → TaskTimes α} {f : CpuAcct → CpuAcct}
    (hp : Posted s s' task t f) (htask : ∀ q, (task q).cpuacct = (s.task q).cpuacct) :
    AcctOk s' where
  ranked := by rw [hp.parentCa, hp.groups]; exact h.ranked
  root_mem := by rw [hp.rootCpuacct, hp.groups]; exact h.root_mem
  parent_root := by rw [hp.rootCpuacct, hp.parentCa]; exact h.parent_root
  above_root := by rw [hp.rootCpuacct, hp.parentCa, hp.groups]; exact h.above_root
  task_mem q := by rw [hp.task, hp.groups, htask]; exact h.task_mem q
  inactive := by rw [hp.rootCpuacct, hp.active, hp.groups]; exact h.inactive

omit [DecidableEq α] in
theorem AcctOk.tick (h : AcctOk s) {c : UInt32} (hstep : TickStep s c s') : AcctOk s' := by
  have hupd : ∀ {p v u k g}, Ticked (s.task p) v u k g →
      ∀ q, (Function.update s.task p v q).cpuacct = (s.task q).cpuacct := by
    intro p v u k g hv q
    by_cases hq : q = p
    · rw [hq, Function.update_self, hv.cpuacct]
    · rw [Function.update_of_ne hq]
  cases hstep with
  | user p v index hi hv hp => exact h.of_posted hp (hupd hv)
  | guest p v index index' hi hi' hv hp => exact h.of_posted hp (hupd hv)
  | system p v index hi hv hp => exact h.of_posted hp (hupd hv)
  | idle index hi hp => exact h.of_posted hp fun _ => rfl

/-- Ticks are accounted as many as they are. -/
theorem tickStep_of_jiffies (nsecsToJiffies : UInt64 → UInt32) (h : AcctOk s) {op : AcctOp τ α}
    (hop : op.IsTick) : ∃ c, op.jiffies = c.toUInt64 ∧
      TickStep s c (acctExecOp nsecsToJiffies s op) := by
  cases op with
  | tick p userTick irqs => exact ⟨_, rfl, tickStep_accountProcessTick h irqs p userTick⟩
  | idleTicks ticks => exact ⟨_, rfl, tickStep_accountIdleTime h ticks⟩
  | stealTicks ticks => exact ⟨_, rfl, tickStep_accountStealTime h ticks⟩
  | _ => cases hop

/-- Before the groups are there, run time is that of the task alone. -/
theorem Accounting.chargeRuntime_of_inactive (hact : s.active = false) (p : τ) (delta : UInt64) :
    s.chargeRuntime p delta =
      s.modifyTask p fun p => { p with sumExecRuntime := p.sumExecRuntime + delta } := by
  rw [Accounting.chargeRuntime, Accounting.cpuacctCharge, if_pos]
  simp [Accounting.modifyTask, hact]

/-- Run time is posted to the group of a task. -/
theorem AcctOk.posted_chargeRuntime (h : AcctOk s) (hact : s.active = true) (p : τ)
    (delta : UInt64) : Posted s (s.chargeRuntime p delta)
      (Function.update s.task p { s.task p with
        sumExecRuntime := (s.task p).sumExecRuntime + delta })
      (s.task p).cpuacct (·.addUsage delta) := by
  obtain ⟨u, hu⟩ : ∃ u, u = s.modifyTask p fun p => { p with
    sumExecRuntime := p.sumExecRuntime + delta } := ⟨_, rfl⟩
  have hca : (u.task p).cpuacct = (s.task p).cpuacct := by
    rw [hu, Accounting.modifyTask_self]
  have hactu : u.active = true := by rw [hu]; exact hact
  have hacct := cpuacctCharge_acct hactu p delta
  rw [hca] at hacct
  have hpost := h.postsTo_walkUp (h.task_mem p) (·.addUsage delta)
  have hcharge : (s.chargeRuntime p delta) = u.cpuacctCharge p delta := by
    rw [hu, Accounting.chargeRuntime]
  have hcharge' : u.cpuacctCharge p delta = { u with acct := (u.cpuacctCharge p delta).acct } := by
    rw [Accounting.cpuacctCharge]
    split <;> rfl
  rw [hcharge, hcharge', hacct, hu]
  exact ⟨rfl, hpost, h.task_mem p, rfl, rfl, rfl, rfl⟩

theorem AcctOk.chargeRuntime (h : AcctOk s) (p : τ) (delta : UInt64) :
    AcctOk (s.chargeRuntime p delta) := by
  have hok : AcctOk (s.modifyTask p fun p => { p with
      sumExecRuntime := p.sumExecRuntime + delta }) := h.modifyTask p (h.task_mem p)
  rw [Accounting.chargeRuntime, Accounting.cpuacctCharge]
  split
  · exact hok
  · exact ⟨hok.ranked, hok.root_mem, hok.parent_root, hok.above_root, hok.task_mem, hok.inactive⟩

omit [DecidableEq τ] in
theorem AcctOk.cpuacctCreate (h : AcctOk s) {ca parent : α} (hact : s.active = true)
    (hca : ca ∉ s.groups) (hparent : parent ∈ s.groups) : AcctOk (s.cpuacctCreate ca parent) := by
  obtain ⟨rank, hrank⟩ := h.ranked
  have hroot : s.rootCpuacct ≠ ca := fun he => hca (he ▸ h.root_mem)
  have habove : ∀ a ∈ s.groups,
      Above (Function.update s.parentCa ca (some parent)) a s.rootCpuacct := fun a ha =>
    hrank.above_insert hca ha (h.above_root a ha)
  refine ⟨⟨_, hrank.insert hca hparent⟩, Finset.mem_insert_of_mem h.root_mem,
    (Function.update_of_ne hroot ..).trans h.parent_root, fun a ha => ?_,
    fun t => Finset.mem_insert_of_mem (h.task_mem t), fun hinact => ?_⟩
  · rcases Finset.mem_insert.mp ha with rfl | ha
    · exact above_iff.mpr (.inr ⟨parent, Function.update_self .., habove parent hparent⟩)
    · exact habove a ha
  · exact absurd (hact.symm.trans hinact) Bool.noConfusion

omit [DecidableEq τ] in
theorem AcctOk.cpuacctDestroy (h : AcctOk s) {ca : α} (hroot : ca ≠ s.rootCpuacct)
    (hleaf : ∀ a ∈ s.groups, s.parentCa a ≠ some ca) (htask : ∀ t, (s.task t).cpuacct ≠ ca) :
    AcctOk (s.cpuacctDestroy ca) := by
  obtain ⟨rank, hrank⟩ := h.ranked
  refine ⟨⟨rank, hrank.erase hleaf⟩, Finset.mem_erase.mpr ⟨hroot.symm, h.root_mem⟩, h.parent_root,
    fun a ha => h.above_root a (Finset.mem_of_mem_erase ha),
    fun t => Finset.mem_erase.mpr ⟨htask t, h.task_mem t⟩, fun hinact => ?_⟩
  rw [Accounting.cpuacctDestroy, h.inactive hinact]
  exact Finset.erase_eq_of_notMem (by simpa using hroot)

/-- Every step keeps the groups a tree. -/
theorem AcctOk.execOp (nsecsToJiffies : UInt64 → UInt32) (h : AcctOk s) {op : AcctOp τ α}
    (hen : AcctEnabled s op) : AcctOk (acctExecOp nsecsToJiffies s op) := by
  have htick : op.IsTick → AcctOk (acctExecOp nsecsToJiffies s op) := fun hop => by
    obtain ⟨c, -, hstep⟩ := tickStep_of_jiffies nsecsToJiffies h hop
    exact h.tick hstep
  cases op with
  | tick p userTick irqs => exact htick trivial
  | idleTicks ticks => exact htick trivial
  | stealTicks ticks => exact htick trivial
  | charge p delta => exact h.chargeRuntime p delta
  | taskTimes p =>
    exact h.modifyTask p (f := fun p => (taskTimes nsecsToJiffies p).2) (h.task_mem p)
  | setTask p taskNice vcpu =>
    exact h.modifyTask p (f := fun p => { p with taskNice := taskNice, vcpu := vcpu })
      (h.task_mem p)
  | iowait n =>
    exact ⟨h.ranked, h.root_mem, h.parent_root, h.above_root, h.task_mem, h.inactive⟩
  | activate =>
    exact ⟨h.ranked, h.root_mem, h.parent_root, h.above_root, h.task_mem, fun hf => by cases hf⟩
  | create ca parent => exact h.cpuacctCreate hen.1 hen.2.1 hen.2.2
  | destroy ca => exact h.cpuacctDestroy hen.1 hen.2.1 hen.2.2
  | attach p ca => exact h.modifyTask p (f := fun p => { p with cpuacct := ca }) hen
  | usageWrite ca reset =>
    rw [acctExecOp, Accounting.cpuusageWrite]
    split
    · exact h
    · exact ⟨h.ranked, h.root_mem, h.parent_root, h.above_root, h.task_mem, h.inactive⟩

omit [DecidableEq τ] [DecidableEq α] in
theorem acctOk_of_boot (h : AcctBoot s) : AcctOk s where
  ranked := ⟨fun _ => 0, by
    rw [h.groups]
    refine ⟨fun ha hab => ?_, fun ha hab => ?_⟩ <;>
      rw [Finset.mem_singleton.mp ha, h.parentCa] at hab <;> cases hab⟩
  root_mem := by rw [h.groups]; exact Finset.mem_singleton_self _
  parent_root := h.parentCa
  above_root a ha := by
    rw [h.groups, Finset.mem_singleton] at ha
    rw [ha]
    exact .refl
  task_mem t := by rw [h.groups, h.task]; exact Finset.mem_singleton_self _
  inactive _ := h.groups

theorem acct_step_iff [Fintype τ] {nsecsToJiffies : UInt64 → UInt32} {op : AcctOp τ α} :
    (accountingSystem nsecsToJiffies).step s op s' ↔
      AcctEnabled s op ∧ acctExecOp nsecsToJiffies s op = s' := by
  simp [accountingSystem, System.ofExec, acctExec]

/-- In every reachable state the groups are a tree with all tasks in it. -/
theorem acctOk [Fintype τ] {nsecsToJiffies : UInt64 → UInt32}
    (h : Reachable (accountingSystem nsecsToJiffies) s) : AcctOk s :=
  h.invariant (fun _ => acctOk_of_boot) fun s op s' _ hs hstep => by
    obtain ⟨hen, rfl⟩ := acct_step_iff.mp hstep
    exact hs.execOp nsecsToJiffies hen

end Ticks

end OsProject.Sched
