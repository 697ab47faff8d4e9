import Mathlib.Algebra.BigOperators.Group.Finset.Basic
import Mathlib.Tactic.Abel
import OsProject.Sched.CpuAccounting

/-!
# What the accounting of processor time amounts to

The statistics of the processor, the times of the tasks and the accounts of the groups are written
at the same ticks, and so belong together. Over any run no tick is lost or accounted twice. While
the counters do not wrap, what the groups have adds up to no more than the groups above them have,
and the times that are reported of a task do not fall.

## Main definitions

* `TicksOk` — the statistics of the processor against the ticks and the times of tasks.
* `GroupsCovered` — the accounts of a group against those of its children.
* `Reported` — reported times against the run time and those reported before.

## Main results

* `ticks_conserved`.
* `cpuacct_groups_le` — groups of which none is below another, and one above them.
* `task_times_monotone`.

Source: `kernel/sched/core.c`.
-/

namespace OsProject.Sched

open Rollup Transition

variable {τ α : Type*}

/-! ### No tick is lost -/

section Conservation

variable [Fintype τ] [DecidableEq τ] [DecidableEq α] {s s' : Accounting τ α}

omit [Fintype τ] [DecidableEq τ] [DecidableEq α] in
theorem sum_update_add [Fintype τ] [DecidableEq τ] {β G : Type*} [AddCommMonoid G] {task : τ → β}
    {p : τ} {v : β} (f : β → G) {c : G} (hv : f v = f (task p) + c) :
    ∑ t, f (Function.update task p v t) = ∑ t, f (task t) + c := by
  rw [← Finset.add_sum_erase Finset.univ (fun t => f (Function.update task p v t))
      (Finset.mem_univ p), ← Finset.add_sum_erase Finset.univ (fun t => f (task t))
      (Finset.mem_univ p), Function.update_self, hv, add_right_comm]
  congr 2
  exact Finset.sum_congr rfl fun t ht => by
    rw [Function.update_of_ne (Finset.ne_of_mem_erase ht)]

/-- The ticks in all fields but those of guests, whose time is in the fields of users. -/
def CpuAcct.total (ca : CpuAcct) : UInt64 :=
  ca.cpustat .user + ca.cpustat .nice + ca.cpustat .system + ca.cpustat .softirq +
    ca.cpustat .irq + ca.cpustat .idle + ca.cpustat .iowait + ca.cpustat .steal

def CpuAcct.guestTotal (ca : CpuAcct) : UInt64 := ca.cpustat .guest + ca.cpustat .guestNice

/-! Ticks added to one field. -/

variable {ca : CpuAcct} {v : UInt64} {index : CpuStat}

theorem total_addStat (hi : index.IsUser ∨ index.IsSystem ∨ index.IsIdle) :
    (ca.addStat index v).total = ca.total + v := by
  rcases hi with (rfl | rfl) | (rfl | rfl | rfl) | (rfl | rfl | rfl) <;>
    simp [CpuAcct.total, CpuAcct.addStat] <;> abel

theorem total_addStat_guest (hi : index = .guest ∨ index = .guestNice) :
    (ca.addStat index v).total = ca.total := by
  rcases hi with rfl | rfl <;> simp [CpuAcct.total, CpuAcct.addStat]

theorem shown_addStat_user (hi : index.IsUser) : cpuacctStatsShow (ca.addStat index v) =
    ((cpuacctStatsShow ca).1 + v, (cpuacctStatsShow ca).2) := by
  rcases hi with rfl | rfl <;> simp [cpuacctStatsShow, CpuAcct.addStat] <;> abel

theorem shown_addStat_system (hi : index.IsSystem) : cpuacctStatsShow (ca.addStat index v) =
    ((cpuacctStatsShow ca).1, (cpuacctStatsShow ca).2 + v) := by
  rcases hi with rfl | rfl | rfl <;> simp [cpuacctStatsShow, CpuAcct.addStat] <;> abel

theorem shown_addStat_idle (hi : index.IsIdle) :
    cpuacctStatsShow (ca.addStat index v) = cpuacctStatsShow ca := by
  rcases hi with rfl | rfl | rfl <;> simp [cpuacctStatsShow, CpuAcct.addStat]

theorem shown_addStat_guest (hi : index = .guest ∨ index = .guestNice) :
    cpuacctStatsShow (ca.addStat index v) = cpuacctStatsShow ca := by
  rcases hi with rfl | rfl <;> simp [cpuacctStatsShow, CpuAcct.addStat]

theorem guestTotal_addStat (hi : index.IsUser ∨ index.IsSystem ∨ index.IsIdle) :
    (ca.addStat index v).guestTotal = ca.guestTotal := by
  rcases hi with (rfl | rfl) | (rfl | rfl | rfl) | (rfl | rfl | rfl) <;>
    simp [CpuAcct.guestTotal, CpuAcct.addStat]

theorem guestTotal_addStat_guest (hi : index = .guest ∨ index = .guestNice) :
    (ca.addStat index v).guestTotal = ca.guestTotal + v := by
  rcases hi with rfl | rfl <;> simp [CpuAcct.guestTotal, CpuAcct.addStat] <;> abel

/-- The statistics of the processor have `n` ticks, and those of tasks are the times of tasks. -/
structure TicksOk (n : UInt64) (s : Accounting τ α) : Prop where
  total : (s.acct s.rootCpuacct).total = n
  utime : ∑ t, (s.task t).utime = (cpuacctStatsShow (s.acct s.rootCpuacct)).1.toUInt32
  stime : ∑ t, (s.task t).stime = (cpuacctStatsShow (s.acct s.rootCpuacct)).2.toUInt32
  gtime : ∑ t, (s.task t).gtime = (s.acct s.rootCpuacct).guestTotal.toUInt32

omit [DecidableEq α] in
/-- Ticks of a task are added to its times and to the statistics of the processor. -/
theorem TicksOk.add {n : UInt64} (hn : TicksOk n s) {p : τ} {v : TaskTimes α} {c u k g : UInt32}
    (hv : Ticked (s.task p) v u k g) (htask : s'.task = Function.update s.task p v)
    (htotal : (s'.acct s'.rootCpuacct).total = (s.acct s.rootCpuacct).total + c.toUInt64)
    (hshown : cpuacctStatsShow (s'.acct s'.rootCpuacct) =
      ((cpuacctStatsShow (s.acct s.rootCpuacct)).1 + u.toUInt64,
        (cpuacctStatsShow (s.acct s.rootCpuacct)).2 + k.toUInt64))
    (hguest : (s'.acct s'.rootCpuacct).guestTotal =
      (s.acct s.rootCpuacct).guestTotal + g.toUInt64) : TicksOk (n + c.toUInt64) s' where
  total := by rw [htotal, hn.total]
  utime := by
    rw [htask, sum_update_add TaskTimes.utime hv.utime, hn.utime, hshown]
    simp
  stime := by
    rw [htask, sum_update_add TaskTimes.stime hv.stime, hn.stime, hshown]
    simp
  gtime := by
    rw [htask, sum_update_add TaskTimes.gtime hv.gtime, hn.gtime, hguest]
    simp

omit [DecidableEq α] in
theorem TicksOk.step {n : UInt64} (hn : TicksOk n s) (h : AcctOk s) {c : UInt32}
    (hstep : TickStep s c s') : TicksOk (n + c.toUInt64) s' := by
  have hroot : ∀ {f task t}, Posted s s' task t f →
      s'.acct s'.rootCpuacct = f (s.acct s.rootCpuacct) := fun {f task t} hp => by
    rw [hp.rootCpuacct]
    exact hp.acct.1 _ (h.above_root t hp.mem)
  cases hstep with
  | user p v index hi hv hp =>
    refine hn.add hv hp.task ?_ ?_ ?_ <;> rw [hroot hp]
    · exact total_addStat (.inl hi)
    · rw [shown_addStat_user hi]; simp
    · rw [guestTotal_addStat (.inl hi)]; simp
  | guest p v index index' hi hi' hv hp =>
    refine hn.add hv hp.task ?_ ?_ ?_ <;> rw [hroot hp]
    · rw [total_addStat_guest hi', total_addStat (.inl hi)]
    · rw [shown_addStat_guest hi', shown_addStat_user hi]; simp
    · rw [guestTotal_addStat_guest hi', guestTotal_addStat (.inl hi)]
  | system p v index hi hv hp =>
    refine hn.add hv hp.task ?_ ?_ ?_ <;> rw [hroot hp]
    · exact total_addStat (.inr (.inl hi))
    · rw [shown_addStat_system hi]; simp
    · rw [guestTotal_addStat (.inr (.inl hi))]; simp
  | idle index hi hp =>
    refine ⟨?_, ?_, ?_, ?_⟩ <;> rw [hroot hp]
    · rw [total_addStat (.inr (.inr hi)), hn.total]
    · rw [hp.task, shown_addStat_idle hi, hn.utime]
    · rw [hp.task, shown_addStat_idle hi, hn.stime]
    · rw [hp.task, guestTotal_addStat (.inr (.inr hi)), hn.gtime]

omit [DecidableEq τ] [DecidableEq α] in
theorem TicksOk.congr {n : UInt64} (hn : TicksOk n s)
    (hstat : (s'.acct s'.rootCpuacct).cpustat = (s.acct s.rootCpuacct).cpustat)
    (hu : ∀ t, (s'.task t).utime = (s.task t).utime)
    (hs : ∀ t, (s'.task t).stime = (s.task t).stime)
    (hg : ∀ t, (s'.task t).gtime = (s.task t).gtime) : TicksOk n s' where
  total := by rw [CpuAcct.total, hstat]; exact hn.total
  utime := by
    rw [cpuacctStatsShow, hstat, Finset.sum_congr rfl fun t _ => hu t]
    exact hn.utime
  stime := by
    rw [cpuacctStatsShow, hstat, Finset.sum_congr rfl fun t _ => hs t]
    exact hn.stime
  gtime := by
    rw [CpuAcct.guestTotal, hstat, Finset.sum_congr rfl fun t _ => hg t]
    exact hn.gtime

omit [DecidableEq α] in
theorem TicksOk.modifyTask {n : UInt64} (hn : TicksOk n s) {p : τ}
    {f : TaskTimes α → TaskTimes α} (hu : (f (s.task p)).utime = (s.task p).utime)
    (hs : (f (s.task p)).stime = (s.task p).stime)
    (hg : (f (s.task p)).gtime = (s.task p).gtime) : TicksOk n (s.modifyTask p f) := by
  have hfield : ∀ {β : Type} (get : TaskTimes α → β), get (f (s.task p)) = get (s.task p) →
      ∀ t, get ((s.modifyTask p f).task t) = get (s.task t) := by
    intro β get hget t
    by_cases ht : t = p
    · rw [ht, Accounting.modifyTask_self, hget]
    · rw [Accounting.modifyTask_of_ne ht]
  exact hn.congr rfl (hfield TaskTimes.utime hu) (hfield TaskTimes.stime hs)
    (hfield TaskTimes.gtime hg)

/-- The other steps do not account ticks. -/
theorem TicksOk.other {n : UInt64} (nsecsToJiffies : UInt64 → UInt32) (hn : TicksOk n s)
    (h : AcctOk s) {op : AcctOp τ α} (hen : AcctEnabled s op) (hop : ¬op.IsTick) :
    TicksOk n (acctExecOp nsecsToJiffies s op) := by
  cases op with
  | tick p userTick irqs => exact absurd trivial hop
  | idleTicks ticks => exact absurd trivial hop
  | stealTicks ticks => exact absurd trivial hop
  | charge p delta =>
    have htask : TicksOk n (s.modifyTask p fun p => { p with
        sumExecRuntime := p.sumExecRuntime + delta }) := hn.modifyTask rfl rfl rfl
    cases hact : s.active with
    | false =>
      rw [acctExecOp, Accounting.chargeRuntime_of_inactive hact]
      exact htask
    | true =>
      have hp := h.posted_chargeRuntime hact p delta
      have hroot := hp.acct.1 _ (h.above_root _ hp.mem)
      refine htask.congr ?_ (fun t => ?_) (fun t => ?_) fun t => ?_
      · rw [acctExecOp, hp.rootCpuacct, hroot]
        rfl
      · rw [acctExecOp, hp.task]; rfl
      · rw [acctExecOp, hp.task]; rfl
      · rw [acctExecOp, hp.task]; rfl
  | taskTimes p =>
    exact hn.modifyTask (p := p) (f := fun p => (taskTimes nsecsToJiffies p).2) rfl rfl rfl
  | setTask p taskNice vcpu =>
    exact hn.modifyTask (p := p) (f := fun p => { p with taskNice := taskNice, vcpu := vcpu }) rfl
      rfl rfl
  | iowait m => exact hn.congr rfl (fun _ => rfl) (fun _ => rfl) fun _ => rfl
  | activate => exact hn.congr rfl (fun _ => rfl) (fun _ => rfl) fun _ => rfl
  | create ca parent =>
    have hroot : s.rootCpuacct ≠ ca := fun he => hen.2.1 (he ▸ h.root_mem)
    refine hn.congr ?_ (fun _ => rfl) (fun _ => rfl) fun _ => rfl
    exact congrArg CpuAcct.cpustat (Function.update_of_ne hroot ..)
  | destroy ca => exact hn.congr rfl (fun _ => rfl) (fun _ => rfl) fun _ => rfl
  | attach p ca =>
    exact hn.modifyTask (p := p) (f := fun p => { p with cpuacct := ca }) rfl rfl rfl
  | usageWrite ca reset =>
    rw [acctExecOp, Accounting.cpuusageWrite]
    split
    · exact hn
    · refine hn.congr ?_ (fun _ => rfl) (fun _ => rfl) fun _ => rfl
      dsimp only
      by_cases hca : s.rootCpuacct = ca
      · rw [hca, Function.update_self]
      · rw [Function.update_of_ne hca]

omit [DecidableEq τ] [DecidableEq α] in
theorem ticksOk_of_boot (h : AcctBoot s) : TicksOk 0 s where
  total := by rw [h.root]; rfl
  utime := by rw [h.root]; simp [h.task, cpuacctStatsShow]
  stime := by rw [h.root]; simp [h.task, cpuacctStatsShow]
  gtime := by rw [h.root]; simp [h.task, CpuAcct.guestTotal]

/-- Over every run the statistics of the processor hold as many ticks as were accounted, each in
one field, and the ticks in user mode, in the kernel and in guests are those of the tasks
together. -/
theorem ticks_conserved {nsecsToJiffies : UInt64 → UInt32} {s₀ : Accounting τ α}
    {ops : List (AcctOp τ α)} (hboot : AcctBoot s₀)
    (h : Run (accountingSystem nsecsToJiffies) s₀ ops s) :
    TicksOk (ops.map AcctOp.jiffies).sum s := by
  have hrun : ∀ {u : Accounting τ α} {n : UInt64},
      Run (accountingSystem nsecsToJiffies) u ops s → AcctOk u → TicksOk n u →
        TicksOk (n + (ops.map AcctOp.jiffies).sum) s := by
    clear h
    intro u n h
    induction h generalizing n with
    | nil => intro _ hn; simpa using hn
    | @cons u u' _ op ops hstep _ ih =>
      intro hok hn
      obtain ⟨hen, rfl⟩ := acct_step_iff.mp hstep
      have hok' := hok.execOp nsecsToJiffies hen
      rw [List.map_cons, List.sum_cons, ← add_assoc]
      refine ih hok' ?_
      by_cases hop : op.IsTick
      · obtain ⟨c, hc, htick⟩ := tickStep_of_jiffies nsecsToJiffies hok hop
        rw [hc]
        exact hn.step hok htick
      · have hzero : op.jiffies = 0 := by
          cases op with
          | tick p userTick irqs => exact absurd trivial hop
          | idleTicks ticks => exact absurd trivial hop
          | stealTicks ticks => exact absurd trivial hop
          | _ => rfl
        rw [hzero, add_zero]
        exact hn.other nsecsToJiffies hok hen hop
  have := hrun h (acctOk_of_boot hboot) (ticksOk_of_boot hboot)
  rwa [zero_add] at this

/-- A task `true` beside the idle task `false`, in the root group `0`. -/
def referenceAccounting : Accounting Bool ℕ where
  task _ := { cpuacct := 0 }
  acct _ := {}
  groups := {0}
  parentCa _ := none
  rootCpuacct := 0
  active := false
  idle := false
  nrIowait := 0

/-- `nsecs_to_jiffies` with a hundred ticks a second. -/
def jiffiesAt100 (n : UInt64) : UInt32 := (n / 10000000).toUInt32

theorem acctBoot_referenceAccounting : AcctBoot referenceAccounting :=
  ⟨fun _ => rfl, rfl, rfl, rfl, rfl⟩

/-- The task is in group `3` below group `1`, and runs in user mode, in the kernel, with a guest and
in an interrupt; then it moves to group `2`, and the processor is idle. -/
def accountedRun : List (AcctOp Bool ℕ) :=
  [.activate, .create 1 0, .create 2 0, .create 3 1, .attach true 3,
    .tick true true ⟨0x10000, 0x10000, false⟩, .charge true 10000000,
    .tick true false ⟨0x10000, 0x10000, false⟩, .charge true 9000000, .taskTimes true,
    .setTask true 5 true, .tick true false ⟨0x10000, 0x10000, false⟩, .charge true 10000000,
    .attach true 2, .tick true false ⟨0x20000, 0x20000, false⟩, .charge true 12000000,
    .iowait 1, .tick false false ⟨0x10000, 0x10000, false⟩, .idleTicks 7, .stealTicks 2]

def accountedState : Option (Accounting Bool ℕ) :=
  execAll (acctExec jiffiesAt100) referenceAccounting accountedRun

theorem ticks_conserved_accountedRun :
    ∃ s, accountedState = some s ∧ (s.acct 0).cpustat .iowait = 8 ∧ (s.acct 1).cpustat .system = 1 ∧
      (s.acct 2).cpustat .irq = 1 ∧ (s.task true).utime = 2 ∧
      TicksOk (accountedRun.map AcctOp.jiffies).sum s := by
  obtain ⟨s, hs⟩ : ∃ s, s = accountedState.get (by decide +kernel) := ⟨_, rfl⟩
  have hrun : accountedState = some s := by simp [hs]
  refine ⟨s, hrun, ?_, ?_, ?_, ?_,
    ticks_conserved acctBoot_referenceAccounting (run_of_execAll hrun)⟩ <;>
    rw [hs] <;> decide +kernel

end Conservation

/-! ### Groups have no more than those above them -/

section Hierarchy

variable [DecidableEq τ] [DecidableEq α] {s s' : Accounting τ α}

def CpuStat.all : List CpuStat :=
  [.user, .nice, .system, .softirq, .irq, .idle, .iowait, .steal, .guest, .guestNice]

theorem CpuStat.mem_all (index : CpuStat) : index ∈ CpuStat.all := by cases index <;> decide

/-- The counters of the processor have room for what a step adds, and no group is reset. -/
def Roomy (s : Accounting τ α) : AcctOp τ α → Prop
  | .tick _ _ _ => ∀ i ∈ CpuStat.all,
      ((s.acct s.rootCpuacct).cpustat i).toNat + cputimeOneJiffy.toNat < 2 ^ 64
  | .idleTicks ticks => ∀ i ∈ CpuStat.all,
      ((s.acct s.rootCpuacct).cpustat i).toNat + ticks.toNat < 2 ^ 64
  | .stealTicks ticks => ∀ i ∈ CpuStat.all,
      ((s.acct s.rootCpuacct).cpustat i).toNat + ticks.toNat < 2 ^ 64
  | .charge _ delta => (s.acct s.rootCpuacct).cpuusage.toNat + delta.toNat < 2 ^ 64
  | .usageWrite _ reset => reset ≠ 0
  | _ => True

instance (s : Accounting τ α) (op : AcctOp τ α) : Decidable (Roomy s op) :=
  match op with
  | .tick _ _ _ => inferInstanceAs (Decidable (∀ i ∈ CpuStat.all, _ < _))
  | .idleTicks _ => inferInstanceAs (Decidable (∀ i ∈ CpuStat.all, _ < _))
  | .stealTicks _ => inferInstanceAs (Decidable (∀ i ∈ CpuStat.all, _ < _))
  | .charge _ _ => inferInstanceAs (Decidable (_ < _))
  | .usageWrite _ reset => inferInstanceAs (Decidable (reset ≠ 0))
  | .taskTimes _ | .setTask _ _ _ | .iowait _ | .activate | .create _ _ | .destroy _
  | .attach _ _ => inferInstanceAs (Decidable True)

/-- No group has less of a counter than its children together. -/
def CoveredBy (s : Accounting τ α) (get : CpuAcct → UInt64) : Prop :=
  Covered s.parentCa s.groups fun a => (get (s.acct a)).toNat

/-- No group has less in any of its accounts than its children together. -/
structure GroupsCovered (s : Accounting τ α) : Prop where
  cpustat : ∀ i, CoveredBy s fun ca => ca.cpustat i
  cpuusage : CoveredBy s CpuAcct.cpuusage

omit [DecidableEq τ] in
/-- A group has no more than the root group. -/
theorem CoveredBy.le_root {get : CpuAcct → UInt64} (hc : CoveredBy s get) (h : AcctOk s) {a : α}
    (ha : a ∈ s.groups) : (get (s.acct a)).toNat ≤ (get (s.acct s.rootCpuacct)).toNat := by
  obtain ⟨rank, hrank⟩ := h.ranked
  have hle := hc.sum_antichain_le hrank h.root_mem (S := {a})
    (fun x hx => by rw [Finset.mem_singleton.mp hx]; exact ⟨ha, h.above_root a ha⟩)
    (by rw [Finset.coe_singleton]; exact Set.subsingleton_singleton.isAntichain _)
  simpa using hle

omit [DecidableEq τ] in
/-- An amount that is posted where the processor has room for it. -/
theorem CoveredBy.posted {get : CpuAcct → UInt64} (hc : CoveredBy s get) (h : AcctOk s)
    {task : τ → TaskTimes α} {t : α} {f : CpuAcct → CpuAcct} (hp : Posted s s' task t f)
    {v : UInt64} (hget : ∀ ca, get (f ca) = get ca + v)
    (hroom : (get (s.acct s.rootCpuacct)).toNat + v.toNat < 2 ^ 64) : CoveredBy s' get := by
  obtain ⟨rank, hrank⟩ := h.ranked
  rw [CoveredBy, hp.parentCa, hp.groups]
  refine Covered.post (t := t) (v := v.toNat) hc hrank (Nat.zero_le _) (fun b hb => ?_)
    fun b hb => by rw [hp.acct.2 b hb]
  have hle := hc.le_root h (hrank.mem_of_above hp.mem hb)
  rw [hp.acct.1 b hb, hget, UInt64.toNat_add]
  exact Nat.mod_eq_of_lt (by omega)

omit [DecidableEq τ] in
theorem GroupsCovered.posted (hc : GroupsCovered s) (h : AcctOk s) {task : τ → TaskTimes α} {t : α}
    {f : CpuAcct → CpuAcct} (hp : Posted s s' task t f) {c : ℕ}
    (hstat : ∀ i, ∃ v : UInt64, v.toNat ≤ c ∧ ∀ ca, (f ca).cpustat i = ca.cpustat i + v)
    (husage : ∀ ca, (f ca).cpuusage = ca.cpuusage)
    (hroom : ∀ i, ((s.acct s.rootCpuacct).cpustat i).toNat + c < 2 ^ 64) : GroupsCovered s' where
  cpustat i := by
    obtain ⟨v, hv, hget⟩ := hstat i
    exact (hc.cpustat i).posted h hp hget ((Nat.add_le_add_left hv _).trans_lt (hroom i))
  cpuusage := hc.cpuusage.posted h hp (v := 0) (fun ca => by rw [husage, add_zero])
    (UInt64.toNat_lt _)

theorem cpustat_addStat (ca : CpuAcct) (index i : CpuStat) (v : UInt64) :
    (ca.addStat index v).cpustat i = ca.cpustat i + if i = index then v else 0 := by
  by_cases hi : i = index
  · subst hi
    simp [CpuAcct.addStat]
  · simp [CpuAcct.addStat, hi]

/-- A tick is added to a counter of a group when it is added to that of its parent. -/
theorem GroupsCovered.tick (hc : GroupsCovered s) (h : AcctOk s) {c : UInt32}
    (hstep : TickStep s c s')
    (hroom : ∀ i, ((s.acct s.rootCpuacct).cpustat i).toNat + c.toNat < 2 ^ 64) :
    GroupsCovered s' := by
  have hle : ∀ P : Prop, ∀ [Decidable P], (if P then c.toUInt64 else 0).toNat ≤ c.toNat := by
    intro P _
    split
    · exact (UInt32.toNat_toUInt64 c).le
    · exact Nat.zero_le _
  have hone : ∀ {index task t}, Posted s s' task t (·.addStat index c.toUInt64) →
      GroupsCovered s' := fun {index task t} hp =>
    hc.posted h hp (fun i => ⟨_, hle (i = index), fun ca => cpustat_addStat ca index i _⟩)
      (fun _ => rfl) hroom
  cases hstep with
  | user p v index hi hv hp => exact hone hp
  | system p v index hi hv hp => exact hone hp
  | idle index hi hp => exact hone hp
  | guest p v index index' hi hi' hv hp =>
    refine hc.posted h hp (fun i => ⟨_, hle (i = index ∨ i = index'), fun ca => ?_⟩)
      (fun _ => rfl) hroom
    have hne : index ≠ index' := by
      rcases hi with rfl | rfl <;> rcases hi' with rfl | rfl <;> decide
    rw [cpustat_addStat, cpustat_addStat, add_assoc]
    by_cases hindex : i = index
    · subst hindex
      simp [hne]
    · simp [hindex]

omit [DecidableEq τ] in
/-- A new group has used nothing. -/
theorem CoveredBy.cpuacctCreate {get : CpuAcct → UInt64} (hc : CoveredBy s get) (h : AcctOk s)
    (hget : get {} = 0) {ca parent : α} (hca : ca ∉ s.groups) :
    CoveredBy (s.cpuacctCreate ca parent) get := by
  obtain ⟨rank, hrank⟩ := h.ranked
  have hupd : (fun a => (get ((s.cpuacctCreate ca parent).acct a)).toNat) =
      Function.update (fun a => (get (s.acct a)).toNat) ca 0 := by
    funext a
    change (get (Function.update s.acct ca {} a)).toNat = _
    by_cases ha : a = ca
    · rw [ha, Function.update_self, Function.update_self, hget]
      rfl
    · rw [Function.update_of_ne ha, Function.update_of_ne ha]
  rw [CoveredBy, hupd]
  exact Covered.insertLeaf hc hrank hca

omit [DecidableEq τ] in
theorem CoveredBy.cpuacctDestroy {get : CpuAcct → UInt64} (hc : CoveredBy s get) (ca : α) :
    CoveredBy (s.cpuacctDestroy ca) get :=
  Covered.eraseLeaf hc fun _ => Nat.zero_le _

theorem GroupsCovered.chargeRuntime (hc : GroupsCovered s) (h : AcctOk s) (p : τ) (delta : UInt64)
    (hroom : (s.acct s.rootCpuacct).cpuusage.toNat + delta.toNat < 2 ^ 64) :
    GroupsCovered (s.chargeRuntime p delta) := by
  cases hact : s.active with
  | false =>
    rw [Accounting.chargeRuntime_of_inactive hact]
    exact ⟨hc.cpustat, hc.cpuusage⟩
  | true =>
    have hp := h.posted_chargeRuntime hact p delta
    exact ⟨fun i => (hc.cpustat i).posted h hp (v := 0) (fun _ => (add_zero _).symm)
      (UInt64.toNat_lt _), hc.cpuusage.posted h hp (fun _ => rfl) hroom⟩

/-- No step gives a group more than the one above it, while the counters do not wrap. -/
theorem GroupsCovered.execOp (nsecsToJiffies : UInt64 → UInt32) (hc : GroupsCovered s)
    (h : AcctOk s) {op : AcctOp τ α} (hen : AcctEnabled s op) (hroom : Roomy s op) :
    GroupsCovered (acctExecOp nsecsToJiffies s op) := by
  cases op with
  | tick p userTick irqs =>
    exact hc.tick h (tickStep_accountProcessTick h irqs p userTick) fun i => hroom i i.mem_all
  | idleTicks ticks =>
    exact hc.tick h (tickStep_accountIdleTime h ticks) fun i => hroom i i.mem_all
  | stealTicks ticks =>
    exact hc.tick h (tickStep_accountStealTime h ticks) fun i => hroom i i.mem_all
  | charge p delta => exact hc.chargeRuntime h p delta hroom
  | taskTimes p => exact ⟨hc.cpustat, hc.cpuusage⟩
  | setTask p taskNice vcpu => exact ⟨hc.cpustat, hc.cpuusage⟩
  | iowait m => exact ⟨hc.cpustat, hc.cpuusage⟩
  | activate => exact ⟨hc.cpustat, hc.cpuusage⟩
  | create ca parent =>
    exact ⟨fun i => (hc.cpustat i).cpuacctCreate h rfl hen.2.1,
      hc.cpuusage.cpuacctCreate h rfl hen.2.1⟩
  | destroy ca =>
    exact ⟨fun i => (hc.cpustat i).cpuacctDestroy ca, hc.cpuusage.cpuacctDestroy ca⟩
  | attach p ca => exact ⟨hc.cpustat, hc.cpuusage⟩
  | usageWrite ca reset =>
    have hreset : reset ≠ 0 := hroom
    rw [acctExecOp, Accounting.cpuusageWrite, if_pos hreset]
    exact hc

omit [DecidableEq τ] in
theorem groupsCovered_of_boot (h : AcctBoot s) : GroupsCovered s := by
  have hcover : ∀ get, CoveredBy s get := fun get a ha => by
    rw [h.groups, Finset.mem_singleton] at ha
    simp [h.groups, h.parentCa, Finset.filter_singleton]
  exact ⟨fun i => hcover _, hcover _⟩

variable [Fintype τ]

theorem groupsCovered {nsecsToJiffies : UInt64 → UInt32}
    (h : Reachable ((accountingSystem nsecsToJiffies).restrict Roomy) s) : GroupsCovered s := by
  refine h.invariant (P := GroupsCovered) (fun _ => groupsCovered_of_boot)
    fun s op s' hreach hs hstep => ?_
  obtain ⟨hen, rfl⟩ := acct_step_iff.mp hstep.2
  exact hs.execOp nsecsToJiffies (acctOk hreach.of_restrict) hen hstep.1

/-- While no counter wraps and no group is reset, groups of which none is below another have
together no more than a group above them all: in every field of their statistics, and in their
usage. -/
theorem cpuacct_groups_le {nsecsToJiffies : UInt64 → UInt32}
    (h : Reachable ((accountingSystem nsecsToJiffies).restrict Roomy) s) {ca : α}
    (hca : ca ∈ s.groups) {groups : Finset α}
    (hbelow : ∀ a ∈ groups, a ∈ s.groups ∧ Above s.parentCa a ca)
    (hanti : IsAntichain (Above s.parentCa) (groups : Set α)) :
    (∀ i, ∑ a ∈ groups, ((s.acct a).cpustat i).toNat ≤ ((s.acct ca).cpustat i).toNat) ∧
      ∑ a ∈ groups, (s.acct a).cpuusage.toNat ≤ (s.acct ca).cpuusage.toNat := by
  obtain ⟨rank, hrank⟩ := (acctOk h.of_restrict).ranked
  have hcover := groupsCovered h
  exact ⟨fun i => Covered.sum_antichain_le (hcover.cpustat i) hrank hca hbelow hanti,
    Covered.sum_antichain_le hcover.cpuusage hrank hca hbelow hanti⟩

/-- Execute steps for which the counters have room. -/
def roomyState : Option (Accounting Bool ℕ) :=
  execAll (fun s op => if Roomy s op then acctExec jiffiesAt100 s op else none)
    referenceAccounting accountedRun

theorem reachable_roomyState {s : Accounting Bool ℕ} (h : roomyState = some s) :
    Reachable ((accountingSystem jiffiesAt100).restrict Roomy) s :=
  (Reachable.init acctBoot_referenceAccounting).run (run_restrict_of_execAll h)

/-- The usage of groups `2` and `3` is that of the processor. -/
theorem cpuacct_groups_le_roomyState :
    ∃ s, roomyState = some s ∧
      (∀ i, ∑ a ∈ {2, 3}, ((s.acct a).cpustat i).toNat ≤ ((s.acct 0).cpustat i).toNat) ∧
      ∑ a ∈ {2, 3}, (s.acct a).cpuusage.toNat ≤ (s.acct 0).cpuusage.toNat := by
  have htree : (roomyState.map fun s =>
      (s.groups, s.parentCa 0, s.parentCa 1, s.parentCa 2, s.parentCa 3)) =
        some ({0, 1, 2, 3}, none, some 0, some 0, some 1) := by decide +kernel
  obtain ⟨s, hrun, hs⟩ := Option.map_eq_some_iff.mp htree
  simp only [Prod.mk.injEq] at hs
  obtain ⟨hgroups, h0, h1, h2, h3⟩ := hs
  have habove0 : ∀ b, Above s.parentCa 0 b ↔ 0 = b := fun b => by simp [above_iff (a := 0), h0]
  have habove1 : ∀ b, Above s.parentCa 1 b ↔ 1 = b ∨ 0 = b := fun b => by
    simp [above_iff (a := 1), h1, habove0]
  have habove2 : ∀ b, Above s.parentCa 2 b ↔ 2 = b ∨ 0 = b := fun b => by
    simp [above_iff (a := 2), h2, habove0]
  have habove3 : ∀ b, Above s.parentCa 3 b ↔ 3 = b ∨ 1 = b ∨ 0 = b := fun b => by
    simp [above_iff (a := 3), h3, habove1]
  refine ⟨s, hrun, cpuacct_groups_le (reachable_roomyState hrun) (by simp [hgroups])
    (fun a ha => ?_) fun a ha b hb hne hab => ?_⟩
  · rcases Finset.mem_insert.mp ha with rfl | ha
    · simp [hgroups, habove2]
    · rw [Finset.mem_singleton.mp ha]
      simp [hgroups, habove3]
  · simp only [Finset.coe_insert, Finset.coe_singleton, Set.mem_insert_iff,
      Set.mem_singleton_iff] at ha hb
    rcases ha with rfl | rfl <;> rcases hb with rfl | rfl
    · exact hne rfl
    · exact absurd ((habove2 3).mp hab) (by decide)
    · exact absurd ((habove3 2).mp hab) (by decide)
    · exact hne rfl

end Hierarchy

/-! ### Reported times do not fall -/

section Reported

theorem toNat_scaleUtime_le {utime rtime total : UInt32} (hle : utime.toNat ≤ total.toNat) :
    (scaleUtime utime rtime total).toNat ≤ rtime.toNat := by
  have hlt : rtime.toNat * utime.toNat < 2 ^ 64 :=
    Nat.lt_of_lt_of_eq (Nat.mul_lt_mul'' (UInt32.toNat_lt rtime) (UInt32.toNat_lt utime)) rfl
  have hdiv : rtime.toNat * utime.toNat / total.toNat ≤ rtime.toNat :=
    Nat.div_le_of_le_mul ((Nat.mul_le_mul_left _ hle).trans_eq (Nat.mul_comm ..))
  rw [scaleUtime, UInt64.toNat_toUInt32, UInt64.toNat_div, UInt64.toNat_mul, UInt32.toNat_toUInt64,
    UInt32.toNat_toUInt64, UInt32.toNat_toUInt64, Nat.mod_eq_of_lt hlt]
  exact (Nat.mod_le _ _).trans hdiv

theorem toNat_max (a b : UInt32) : (max a b).toNat = max a.toNat b.toNat := by
  change (if a ≤ b then b else a).toNat = _
  split
  · next hle => exact (max_eq_right (UInt32.le_iff_toNat_le.mp hle)).symm
  · next hle => exact (max_eq_left (Nat.not_le.mp (mt UInt32.le_iff_toNat_le.mpr hle)).le).symm

/-- User and system time do not exceed the run time each. -/
structure Within (rtime : UInt32) (times : UInt32 × UInt32) : Prop where
  utime : times.1.toNat ≤ rtime.toNat
  stime : times.2.toNat ≤ rtime.toNat

theorem Within.mono {rtime rtime' : UInt32} {times : UInt32 × UInt32} (h : Within rtime times)
    (hle : rtime.toNat ≤ rtime'.toNat) : Within rtime' times :=
  ⟨h.utime.trans hle, h.stime.trans hle⟩

/-- Reported times are no less than before, do not exceed the run time and make up for it. -/
structure Reported (rtime : UInt32) (prev times : UInt32 × UInt32) : Prop extends
    Within rtime times where
  utime_le : prev.1.toNat ≤ times.1.toNat
  stime_le : prev.2.toNat ≤ times.2.toNat
  rtime_le : rtime.toNat ≤ times.1.toNat + times.2.toNat

theorem reported_reportedTimes {utime stime rtime prevUtime prevStime : UInt32}
    (hprev : Within rtime (prevUtime, prevStime)) (hsum : utime.toNat + stime.toNat < 2 ^ 32) :
    Reported rtime (prevUtime, prevStime)
      (reportedTimes utime stime rtime prevUtime prevStime) := by
  obtain ⟨u, hu, hscaled⟩ : ∃ u, (if utime + stime ≠ 0 then
      scaleUtime utime rtime (utime + stime) else rtime) = u ∧ u.toNat ≤ rtime.toNat := by
    refine ⟨_, rfl, ?_⟩
    split
    · refine toNat_scaleUtime_le ?_
      rw [UInt32.toNat_add, Nat.mod_eq_of_lt hsum]
      exact Nat.le_add_right _ _
    · exact le_rfl
  have htimes : reportedTimes utime stime rtime prevUtime prevStime =
      (max prevUtime u, max prevStime (rtime - max prevUtime u)) := by
    rw [reportedTimes, hu]
  have hmax : (max prevUtime u).toNat ≤ rtime.toNat := by
    rw [toNat_max]
    exact max_le hprev.utime hscaled
  -- the difference does not wrap
  have hsub : (rtime - max prevUtime u).toNat = rtime.toNat - (max prevUtime u).toNat :=
    UInt32.toNat_sub_of_le _ _ (UInt32.le_iff_toNat_le.mpr hmax)
  rw [htimes]
  refine ⟨⟨hmax, ?_⟩, ?_, ?_, ?_⟩
  · rw [toNat_max, hsub]
    exact max_le hprev.stime (Nat.sub_le _ _)
  · rw [toNat_max]
    exact le_max_left _ _
  · rw [toNat_max]
    exact le_max_left _ _
  · rw [toNat_max prevStime, hsub]
    exact le_add_tsub.trans (Nat.add_le_add_left (le_max_right _ _) _)

variable [DecidableEq τ] [DecidableEq α] {s s' : Accounting τ α} {nsecsToJiffies : UInt64 → UInt32}
  {limit : UInt64}

/-- The run time of a task stays within the limit of the conversion, and its ticks do not wrap. -/
def Convertible (limit : UInt64) (s : Accounting τ α) : AcctOp τ α → Prop
  | .charge p delta => (s.task p).sumExecRuntime.toNat + delta.toNat ≤ limit.toNat
  | .taskTimes p => (s.task p).utime.toNat + (s.task p).stime.toNat < 2 ^ 32
  | _ => True

instance (limit : UInt64) (s : Accounting τ α) (op : AcctOp τ α) :
    Decidable (Convertible limit s op) :=
  match op with
  | .charge _ _ => inferInstanceAs (Decidable (_ ≤ _))
  | .taskTimes _ => inferInstanceAs (Decidable (_ < _))
  | .tick _ _ _ | .idleTicks _ | .stealTicks _ | .setTask _ _ _ | .iowait _ | .activate
  | .create _ _ | .destroy _ | .attach _ _ | .usageWrite _ _ => inferInstanceAs (Decidable True)

/-- What was reported of a task does not exceed its run time. -/
def ReportedWithin (nsecsToJiffies : UInt64 → UInt32) (limit : UInt64) (p : TaskTimes α) : Prop :=
  p.sumExecRuntime ≤ limit ∧
    Within (nsecsToJiffies p.sumExecRuntime) (p.prevUtime, p.prevStime)

/-- The conversion of run time to ticks does not fall up to the limit. -/
def Ascending (nsecsToJiffies : UInt64 → UInt32) (limit : UInt64) : Prop :=
  ∀ a b, a ≤ b → b ≤ limit → (nsecsToJiffies a).toNat ≤ (nsecsToJiffies b).toNat

omit [DecidableEq τ] [DecidableEq α] in
theorem ReportedWithin.report {p : TaskTimes α} (h : ReportedWithin nsecsToJiffies limit p)
    (hsum : p.utime.toNat + p.stime.toNat < 2 ^ 32) :
    Reported (nsecsToJiffies p.sumExecRuntime) (p.prevUtime, p.prevStime)
      (taskTimes nsecsToJiffies p).1 :=
  reported_reportedTimes h.2 hsum

/-- The values that reports are made of, other than the ticks. -/
structure SameReport (old new : TaskTimes α) : Prop where
  sumExecRuntime : new.sumExecRuntime = old.sumExecRuntime
  prevUtime : new.prevUtime = old.prevUtime
  prevStime : new.prevStime = old.prevStime

omit [DecidableEq α] in
theorem sameReport_modifyTask {p : τ} {f : TaskTimes α → TaskTimes α}
    (hf : SameReport (s.task p) (f (s.task p))) (t : τ) :
    SameReport (s.task t) ((s.modifyTask p f).task t) := by
  by_cases ht : t = p
  · subst ht
    rwa [Accounting.modifyTask_self]
  · rw [Accounting.modifyTask_of_ne ht]
    exact ⟨rfl, rfl, rfl⟩

omit [DecidableEq α] in
/-- Ticks do not change them. -/
theorem TickStep.sameReport {c : UInt32} (hstep : TickStep s c s') (t : τ) :
    SameReport (s.task t) (s'.task t) := by
  have hupd : ∀ {p v u k g}, Ticked (s.task p) v u k g →
      s'.task = Function.update s.task p v → SameReport (s.task t) (s'.task t) := by
    intro p v u k g hv htask
    rw [htask]
    exact sameReport_modifyTask (f := fun _ => v)
      ⟨hv.sumExecRuntime, hv.prevUtime, hv.prevStime⟩ t
  cases hstep with
  | user p v index hi hv hp => exact hupd hv hp.task
  | guest p v index index' hi hi' hv hp => exact hupd hv hp.task
  | system p v index hi hv hp => exact hupd hv hp.task
  | idle index hi hp =>
    rw [hp.task]
    exact ⟨rfl, rfl, rfl⟩

theorem task_chargeRuntime (h : AcctOk s) (p : τ) (delta : UInt64) :
    (s.chargeRuntime p delta).task = Function.update s.task p { s.task p with
      sumExecRuntime := (s.task p).sumExecRuntime + delta } := by
  cases hact : s.active with
  | false =>
    rw [Accounting.chargeRuntime_of_inactive hact]
    rfl
  | true => exact (h.posted_chargeRuntime hact p delta).task

/-- What a step does to the values that reports are made of. -/
theorem report_execOp (nsecsToJiffies : UInt64 → UInt32) (h : AcctOk s) (op : AcctOp τ α) (t : τ) :
    SameReport (s.task t) ((acctExecOp nsecsToJiffies s op).task t) ∨
      (∃ delta, op = .charge t delta ∧ (acctExecOp nsecsToJiffies s op).task t =
        { s.task t with sumExecRuntime := (s.task t).sumExecRuntime + delta }) ∨
      op = .taskTimes t ∧
        (acctExecOp nsecsToJiffies s op).task t = (taskTimes nsecsToJiffies (s.task t)).2 := by
  cases op with
  | tick p userTick irqs =>
    exact .inl ((tickStep_accountProcessTick h irqs p userTick).sameReport t)
  | idleTicks ticks => exact .inl ((tickStep_accountIdleTime h ticks).sameReport t)
  | stealTicks ticks => exact .inl ((tickStep_accountStealTime h ticks).sameReport t)
  | charge p delta =>
    rw [acctExecOp, task_chargeRuntime h]
    by_cases ht : t = p
    · subst ht
      exact .inr (.inl ⟨delta, rfl, Function.update_self ..⟩)
    · rw [Function.update_of_ne ht]
      exact .inl ⟨rfl, rfl, rfl⟩
  | taskTimes p =>
    by_cases ht : t = p
    · subst ht
      refine .inr (.inr ⟨rfl, ?_⟩)
      rw [acctExecOp, Accounting.modifyTask_self]
    · refine .inl ?_
      rw [acctExecOp, Accounting.modifyTask_of_ne ht]
      exact ⟨rfl, rfl, rfl⟩
  | setTask p taskNice vcpu =>
    rw [acctExecOp]
    exact .inl (sameReport_modifyTask ⟨rfl, rfl, rfl⟩ t)
  | iowait m => exact .inl ⟨rfl, rfl, rfl⟩
  | activate => exact .inl ⟨rfl, rfl, rfl⟩
  | create ca parent => exact .inl ⟨rfl, rfl, rfl⟩
  | destroy ca => exact .inl ⟨rfl, rfl, rfl⟩
  | attach p ca =>
    rw [acctExecOp]
    exact .inl (sameReport_modifyTask ⟨rfl, rfl, rfl⟩ t)
  | usageWrite ca reset =>
    refine .inl ?_
    rw [acctExecOp, Accounting.cpuusageWrite]
    split <;> exact ⟨rfl, rfl, rfl⟩

/-- A step does not lower the values that were reported before, and keeps them within the run
time. -/
theorem ReportedWithin.execOp (hconv : Ascending nsecsToJiffies limit) (hok : AcctOk s) {t : τ}
    (h : ReportedWithin nsecsToJiffies limit (s.task t)) {op : AcctOp τ α}
    (hop : Convertible limit s op) :
    ReportedWithin nsecsToJiffies limit ((acctExecOp nsecsToJiffies s op).task t) ∧
      (s.task t).prevUtime.toNat ≤ ((acctExecOp nsecsToJiffies s op).task t).prevUtime.toNat ∧
      (s.task t).prevStime.toNat ≤ ((acctExecOp nsecsToJiffies s op).task t).prevStime.toNat := by
  rcases report_execOp nsecsToJiffies hok op t with hsame | ⟨delta, rfl, htask⟩ | ⟨rfl, htask⟩
  · rw [ReportedWithin, hsame.sumExecRuntime, hsame.prevUtime, hsame.prevStime]
    exact ⟨h, le_rfl, le_rfl⟩
  · rw [htask]
    have hroom : (s.task t).sumExecRuntime.toNat + delta.toNat ≤ limit.toNat := hop
    have hsum : ((s.task t).sumExecRuntime + delta).toNat =
        (s.task t).sumExecRuntime.toNat + delta.toNat := by
      rw [UInt64.toNat_add]
      exact Nat.mod_eq_of_lt (hroom.trans_lt (UInt64.toNat_lt _))
    have hlimit : (s.task t).sumExecRuntime + delta ≤ limit := by
      rw [UInt64.le_iff_toNat_le, hsum]
      exact hroom
    have hgrow : (s.task t).sumExecRuntime ≤ (s.task t).sumExecRuntime + delta := by
      rw [UInt64.le_iff_toNat_le, hsum]
      exact Nat.le_add_right _ _
    exact ⟨⟨hlimit, h.2.mono (hconv _ _ hgrow hlimit)⟩, le_rfl, le_rfl⟩
  · rw [htask]
    have hrep := h.report hop
    exact ⟨⟨h.1, hrep.toWithin⟩, hrep.utime_le, hrep.stime_le⟩

variable [Fintype τ]

/-- Over a run the values that were reported of a task do not fall. -/
theorem reported_run (hconv : Ascending nsecsToJiffies limit) {ops : List (AcctOp τ α)} {t : τ}
    (h : Run ((accountingSystem nsecsToJiffies).restrict (Convertible limit)) s ops s') :
    AcctOk s → ReportedWithin nsecsToJiffies limit (s.task t) →
      ReportedWithin nsecsToJiffies limit (s'.task t) ∧
      (s.task t).prevUtime.toNat ≤ (s'.task t).prevUtime.toNat ∧
      (s.task t).prevStime.toNat ≤ (s'.task t).prevStime.toNat := by
  induction h with
  | nil s => exact fun _ hs => ⟨hs, le_rfl, le_rfl⟩
  | cons hstep _ ih =>
    intro hok hs
    obtain ⟨hen, rfl⟩ := acct_step_iff.mp hstep.2
    obtain ⟨hs', hu, hst⟩ := hs.execOp hconv hok hstep.1
    obtain ⟨hs'', hu', hst'⟩ := ih (hok.execOp nsecsToJiffies hen) hs'
    exact ⟨hs'', hu.trans hu', hst.trans hst'⟩

theorem reportedWithin (hconv : Ascending nsecsToJiffies limit) (t : τ)
    (h : Reachable ((accountingSystem nsecsToJiffies).restrict (Convertible limit)) s) :
    ReportedWithin nsecsToJiffies limit (s.task t) := by
  refine h.invariant (P := fun s => ReportedWithin nsecsToJiffies limit (s.task t))
    (fun s hs => ?_) fun s op s' hreach hs hstep => ?_
  · have hboot : AcctBoot s := hs
    rw [hboot.task]
    exact ⟨UInt64.zero_le, Nat.zero_le _, Nat.zero_le _⟩
  · obtain ⟨-, rfl⟩ := acct_step_iff.mp hstep.2
    exact (hs.execOp hconv (acctOk hreach.of_restrict) hstep.1).1

/-- Over every run in which the run time of tasks can be converted, the times that are reported of
a task are no less than those reported of it before; neither exceeds the run time, and together
they make up for it. -/
theorem task_times_monotone (hconv : Ascending nsecsToJiffies limit) {ops : List (AcctOp τ α)}
    {t : τ} (hs : Reachable ((accountingSystem nsecsToJiffies).restrict (Convertible limit)) s)
    (h : Run ((accountingSystem nsecsToJiffies).restrict (Convertible limit)) s
      (.taskTimes t :: ops) s') (hlast : Convertible limit s' (.taskTimes (α := α) t)) :
    Reported (nsecsToJiffies (s'.task t).sumExecRuntime) (taskTimes nsecsToJiffies (s.task t)).1
      (taskTimes nsecsToJiffies (s'.task t)).1 := by
  have hok := acctOk hs.of_restrict
  have hwithin := reportedWithin hconv t hs
  cases h with
  | cons hstep hrest =>
    obtain ⟨hen, rfl⟩ := acct_step_iff.mp hstep.2
    have hwithin' := (hwithin.execOp hconv hok hstep.1).1
    obtain ⟨hlastWithin, hu, hst⟩ :=
      reported_run hconv hrest (hok.execOp nsecsToJiffies hen) hwithin'
    rw [acctExecOp, Accounting.modifyTask_self] at hu hst
    have hrep := hlastWithin.report hlast
    exact ⟨hrep.toWithin, hu.trans hrep.utime_le, hst.trans hrep.stime_le, hrep.rtime_le⟩

/-- The ticks that 32 bits hold. -/
theorem ascending_jiffiesAt100 : Ascending jiffiesAt100 42949672959999999 := by
  intro a b hab hb
  have hb' : b.toNat ≤ 42949672959999999 := UInt64.le_iff_toNat_le.mp hb
  have hab' : a.toNat ≤ b.toNat := UInt64.le_iff_toNat_le.mp hab
  have htoNat : ∀ n : UInt64, n.toNat ≤ 42949672959999999 →
      (jiffiesAt100 n).toNat = n.toNat / 10000000 := fun n hn => by
    rw [jiffiesAt100, UInt64.toNat_toUInt32, UInt64.toNat_div]
    exact Nat.mod_eq_of_lt (by change n.toNat / 10000000 < _; omega)
  rw [htoNat a (hab'.trans hb'), htoNat b hb']
  exact Nat.div_le_div_right hab'

/-- Execute steps that keep the run time convertible. -/
def convertibleExec : Accounting Bool ℕ → List (AcctOp Bool ℕ) → Option (Accounting Bool ℕ) :=
  execAll fun s op => if Convertible 42949672959999999 s op then acctExec jiffiesAt100 s op else none

/-- The task is reported before its turn in the guest and after it. -/
theorem task_times_monotone_accountedRun :
    ∃ s s', convertibleExec referenceAccounting (accountedRun.take 9) = some s ∧
      convertibleExec s (accountedRun.drop 9) = some s' ∧
      (taskTimes jiffiesAt100 (s.task true)).1 = (0, 1) ∧
      (taskTimes jiffiesAt100 (s'.task true)).1 = (2, 2) ∧
      Reported (jiffiesAt100 (s'.task true).sumExecRuntime)
        (taskTimes jiffiesAt100 (s.task true)).1 (taskTimes jiffiesAt100 (s'.task true)).1 := by
  obtain ⟨s, hs⟩ : ∃ s, s = (convertibleExec referenceAccounting (accountedRun.take 9)).get
    (by decide +kernel) := ⟨_, rfl⟩
  have hrun : convertibleExec referenceAccounting (accountedRun.take 9) = some s := by simp [hs]
  have hlast : ((convertibleExec s (accountedRun.drop 9)).map fun s =>
      ((taskTimes jiffiesAt100 (s.task true)).1, decide (Convertible 42949672959999999 s
        (.taskTimes (α := ℕ) true)))) = some ((2, 2), true) := by
    rw [hs]
    decide +kernel
  obtain ⟨s', hrun', hvalues⟩ := Option.map_eq_some_iff.mp hlast
  obtain ⟨htimes, hconv⟩ := Prod.mk.inj hvalues
  refine ⟨s, s', hrun, hrun', ?_, htimes, task_times_monotone ascending_jiffiesAt100
    ((Reachable.init acctBoot_referenceAccounting).run (run_restrict_of_execAll hrun))
    (run_restrict_of_execAll hrun') (of_decide_eq_true hconv)⟩
  rw [hs]
  decide +kernel

end Reported

end OsProject.Sched
