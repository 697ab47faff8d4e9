import Mathlib.Algebra.BigOperators.Group.Finset.Basic
import Mathlib.Algebra.BigOperators.Fin
import Mathlib.Data.Fintype.Basic
import OsProject.Lib.Transition
import OsProject.Sched.LoadAverage

/-!
# Folding the active tasks of all processors

No one counts the active tasks of all processors at once. Each processor remembers how many it has
reported, and adds what has changed since to a global count, at a tick or when it goes idle. Idle
processors add to one of two idle deltas, which is folded into the global count once every five
seconds, when the load averages are sampled. All of this runs without locks: a processor takes the
change from its own counters, and adds it later, with anything in between on other processors.

Here every operation on a global count is a step of its own, and so is every read that decides which
idle delta a change goes to; what a processor holds in a local variable between two steps is part of
the state. The averages and the time of the next sample, which only the timekeeper writes, change in
one step, and a test of the time against that of the next sample is part of the step after it.

## Main definitions

* `LoadCpu`, `Load` — a processor, and the global variables.
* `accountActive`, `enterIdle`, `globalLoad`, `continueOp` — the first part of a function, and what
  follows it.
* `loadSystem` — any number of processors, in any interleaving.

## Main results

* `load_conserved` — no change is lost, and none is counted twice.
* `avenrun_le` — the load averages do not wrap around.
* `nohz_agrees_with_plain` — making up for missed samples.

Source: `kernel/sched/core.c`.
-/

namespace OsProject.Sched

open Transition

/-! ### Time -/

/-- `time_before`: the difference is negative as a `long`. -/
def timeBefore (a b : UInt32) : Bool := 2 ^ 31 ≤ (a - b).toNat

/-- `LOAD_FREQ`. -/
def loadFreq (hz : ℕ) : ℕ := 5 * hz + 1

/-! ### The state -/

/-- What a processor is in the middle of: the change it holds in a local variable. -/
inductive Pending
  | none
  /-- `calc_load_account_active`, before it adds to `calc_load_tasks`. -/
  | account (delta : ℤ)
  /-- `calc_load_enter_idle`, before it chooses an idle delta. -/
  | enterIdle (delta : ℤ)
  /-- `calc_load_write_idx`, after it has read the index. -/
  | readIdx (delta : ℤ) (idx : ℕ)
  /-- `calc_load_write_idx`, after it has read the time as well. -/
  | readTime (delta : ℤ) (idx : ℕ) (jiffies : UInt32)
  /-- `calc_load_enter_idle`, before it adds to the idle delta it has chosen. -/
  | addIdle (delta : ℤ) (idx : Fin 2)
  /-- `calc_global_load`, before it adds to `calc_load_tasks`. -/
  | global (delta : ℤ)
  /-- `calc_global_load`, before it samples. -/
  | sample
  /-- `calc_global_nohz`. -/
  | nohz
  deriving DecidableEq, Repr

/-- The change that is held. -/
def Pending.delta : Pending → ℤ
  | .account delta | .enterIdle delta | .readIdx delta _ | .readTime delta _ _ | .addIdle delta _
  | .global delta => delta
  | .none | .sample | .nohz => 0

/-- The fields of `struct rq` that the load averages read and write. -/
structure LoadCpu where
  nrRunning : ℤ := 0
  nrUninterruptible : ℤ := 0
  calcLoadActive : ℤ := 0
  calcLoadUpdate : UInt32 := 0
  pending : Pending := .none
  deriving DecidableEq, Repr

/-- `avenrun`. -/
structure Avenrun where
  avg1 : UInt32 := 0
  avg5 : UInt32 := 0
  avg15 : UInt32 := 0
  deriving DecidableEq, Repr

structure Load (ι : Type*) where
  cpu : ι → LoadCpu
  jiffies : UInt32
  calcLoadTasks : ℤ
  calcLoadUpdate : UInt32
  avenrun : Avenrun
  calcLoadIdle : Fin 2 → ℤ
  calcLoadIdx : ℕ

variable {ι : Type*}

/-- `calc_load_fold_active`. -/
def calcLoadFoldActive (rq : LoadCpu) : ℤ × LoadCpu :=
  let nrActive := rq.nrRunning + rq.nrUninterruptible
  if nrActive ≠ rq.calcLoadActive then
    (nrActive - rq.calcLoadActive, { rq with calcLoadActive := nrActive })
  else (0, rq)

/-- The index of a counter, `idx & 1`. -/
def idxOf (n : ℕ) : Fin 2 := ⟨n % 2, Nat.mod_lt n (by decide)⟩

/-- `calc_load_write_idx`, from what it has read of the index, the time and the time of the next
sample. -/
def calcLoadWriteIdx (idx : ℕ) (jiffies calcLoadUpdate : UInt32) : Fin 2 :=
  if !timeBefore jiffies calcLoadUpdate then idxOf (idx + 1) else idxOf idx

def calcLoadReadIdx (s : Load ι) : Fin 2 := idxOf s.calcLoadIdx

/-- `calc_load_exit_idle`. -/
def calcLoadExitIdle (hz : ℕ) (s : Load ι) (rq : LoadCpu) : LoadCpu :=
  if timeBefore s.jiffies rq.calcLoadUpdate then rq
  else if timeBefore s.jiffies (s.calcLoadUpdate + 10) then
    { rq with calcLoadUpdate := s.calcLoadUpdate + UInt32.ofNat (loadFreq hz) }
  else { rq with calcLoadUpdate := s.calcLoadUpdate }

/-- The number of active tasks as a fixed-point number, `active > 0 ? active * FIXED_1 : 0`. -/
def fixedActive (tasks : ℤ) : UInt32 := UInt32.ofNat (tasks.toNat * fixed1.toNat)

/-- The part of `calc_global_load` that samples. -/
def sampleLoad (hz : ℕ) (s : Load ι) : Load ι :=
  let active := fixedActive s.calcLoadTasks
  { s with
    avenrun :=
      { avg1 := calcLoad s.avenrun.avg1 exp1 active
        avg5 := calcLoad s.avenrun.avg5 exp5 active
        avg15 := calcLoad s.avenrun.avg15 exp15 active }
    calcLoadUpdate := s.calcLoadUpdate + UInt32.ofNat (loadFreq hz) }

/-- The number of samples that `calc_global_nohz` makes up for, when it does. -/
def missed (hz : ℕ) (s : Load ι) : ℕ :=
  1 + (s.jiffies - s.calcLoadUpdate - 10).toNat / loadFreq hz

def calcGlobalNohz (hz : ℕ) (s : Load ι) : Load ι :=
  let s :=
    if !timeBefore s.jiffies (s.calcLoadUpdate + 10) then
      let n := missed hz s
      let active := fixedActive s.calcLoadTasks
      { s with
        avenrun :=
          { avg1 := calcLoadN s.avenrun.avg1 exp1 active n
            avg5 := calcLoadN s.avenrun.avg5 exp5 active n
            avg15 := calcLoadN s.avenrun.avg15 exp15 active n }
        calcLoadUpdate := s.calcLoadUpdate + UInt32.ofNat (n * loadFreq hz) }
    else s
  { s with calcLoadIdx := s.calcLoadIdx + 1 }

/-! ### The steps -/

/-- A step: time passes, the tasks of a processor change, a processor enters one of the functions,
goes on with it, or leaves its tasks to the others for good. -/
inductive LoadOp (ι : Type*)
  | time (jiffies : UInt32)
  | tasks (c : ι) (nrRunning nrUninterruptible : ℤ)
  | accountActive (c : ι)
  | enterIdle (c : ι)
  | exitIdle (c : ι)
  | globalLoad (c : ι)
  | goOn (c : ι)
  | globalLoadRemove (c : ι)

variable [DecidableEq ι]

def Load.setCpu (s : Load ι) (c : ι) (rq : LoadCpu) : Load ι :=
  { s with cpu := Function.update s.cpu c rq }

/-- What a processor in the middle of a function does next. -/
def continueOp (hz : ℕ) (s : Load ι) (c : ι) : Load ι :=
  let rq := s.cpu c
  let done := s.setCpu c { rq with pending := .none }
  match rq.pending with
  | .none => s
  | .account delta => { done with calcLoadTasks := s.calcLoadTasks + delta }
  | .enterIdle delta =>
    if delta = 0 then done else s.setCpu c { rq with pending := .readIdx delta s.calcLoadIdx }
  | .readIdx delta idx => s.setCpu c { rq with pending := .readTime delta idx s.jiffies }
  | .readTime delta idx jiffies =>
    s.setCpu c { rq with
      pending := .addIdle delta (calcLoadWriteIdx idx jiffies s.calcLoadUpdate) }
  | .addIdle delta idx =>
    { done with calcLoadIdle := Function.update s.calcLoadIdle idx (s.calcLoadIdle idx + delta) }
  | .global delta =>
    { s.setCpu c { rq with pending := .sample } with calcLoadTasks := s.calcLoadTasks + delta }
  | .sample => sampleLoad hz (s.setCpu c { rq with pending := .nohz })
  | .nohz => calcGlobalNohz hz done

/-- The first part of `calc_load_account_active`. -/
def accountActive (hz : ℕ) (s : Load ι) (c : ι) : Load ι :=
  let rq := s.cpu c
  if timeBefore s.jiffies rq.calcLoadUpdate then s
  else
    let (delta, rq) := calcLoadFoldActive rq
    s.setCpu c { rq with
      calcLoadUpdate := rq.calcLoadUpdate + UInt32.ofNat (loadFreq hz), pending := .account delta }

/-- The first part of `calc_load_enter_idle`. -/
def enterIdle (s : Load ι) (c : ι) : Load ι :=
  let (delta, rq) := calcLoadFoldActive (s.cpu c)
  s.setCpu c { rq with pending := .enterIdle delta }

/-- The first part of `calc_global_load`, with `calc_load_fold_idle`. -/
def globalLoad (s : Load ι) (c : ι) : Load ι :=
  if timeBefore s.jiffies (s.calcLoadUpdate + 10) then s
  else
    let idx := calcLoadReadIdx s
    { s.setCpu c { s.cpu c with pending := .global (s.calcLoadIdle idx) } with
      calcLoadIdle := Function.update s.calcLoadIdle idx 0 }

def loadExec (hz : ℕ) (s : Load ι) : LoadOp ι → Option (Load ι)
  | .time jiffies => some { s with jiffies := jiffies }
  | .tasks c nrRunning nrUninterruptible =>
    some (s.setCpu c { s.cpu c with
      nrRunning := nrRunning, nrUninterruptible := nrUninterruptible })
  | .goOn c => some (continueOp hz s c)
  -- a processor is in one function at a time
  | .accountActive c => if (s.cpu c).pending = .none then some (accountActive hz s c) else none
  | .enterIdle c => if (s.cpu c).pending = .none then some (enterIdle s c) else none
  | .exitIdle c =>
    if (s.cpu c).pending = .none then some (s.setCpu c (calcLoadExitIdle hz s (s.cpu c))) else none
  | .globalLoad c => if (s.cpu c).pending = .none then some (globalLoad s c) else none
  | .globalLoadRemove c =>
    if (s.cpu c).pending = .none then
      some { s.setCpu c { s.cpu c with calcLoadActive := 0 } with
        calcLoadTasks := s.calcLoadTasks - (s.cpu c).calcLoadActive }
    else none

/-- `sched_init` has run: no task has been reported. -/
structure LoadBoot (s : Load ι) : Prop where
  active : ∀ c, (s.cpu c).calcLoadActive = 0
  pending : ∀ c, (s.cpu c).pending = .none
  tasks : s.calcLoadTasks = 0
  idle : ∀ i, s.calcLoadIdle i = 0
  avenrun : s.avenrun = {}

def loadSystem (hz : ℕ) : System (Load ι) (LoadOp ι) := .ofExec LoadBoot (loadExec hz)

/-! ### Conservation -/

section Conservation

variable [Fintype ι] {s s' : Load ι} {c : ι}

/-- What of a processor's active tasks the global variables should know about. -/
def LoadCpu.share (rq : LoadCpu) : ℤ := rq.calcLoadActive - rq.pending.delta

/-- The global variables, as one number. -/
def Load.known (s : Load ι) : ℤ := s.calcLoadTasks + ∑ i, s.calcLoadIdle i

/-- The global variables add up to what the processors have reported. -/
def LoadBalanced (s : Load ι) : Prop := ∑ c, (s.cpu c).share = s.known

theorem sum_share_update (cpu : ι → LoadCpu) (c : ι) (rq : LoadCpu) :
    ∑ d, (Function.update cpu c rq d).share = ∑ d, (cpu d).share + (rq.share - (cpu c).share) := by
  have h₁ := Finset.add_sum_erase Finset.univ (fun d => (Function.update cpu c rq d).share)
    (Finset.mem_univ c)
  have h₂ := Finset.add_sum_erase Finset.univ (fun d => (cpu d).share) (Finset.mem_univ c)
  have h₃ : ∑ d ∈ Finset.univ.erase c, (Function.update cpu c rq d).share =
      ∑ d ∈ Finset.univ.erase c, (cpu d).share := Finset.sum_congr rfl fun d hd => by
    rw [Function.update_of_ne (Finset.ne_of_mem_erase hd)]
  simp only [Function.update_self] at h₁
  omega

/-- A step that moves a change between one processor and the global variables. -/
theorem LoadBalanced.move (h : LoadBalanced s) {rq : LoadCpu}
    (hcpu : s'.cpu = Function.update s.cpu c rq)
    (hmove : rq.share - (s.cpu c).share = s'.known - s.known) : LoadBalanced s' := by
  rw [LoadBalanced] at h ⊢
  rw [hcpu, sum_share_update, h, hmove]
  omega

/-- A step that changes nothing about what a processor should have reported. -/
theorem LoadBalanced.keep (h : LoadBalanced s) {c : ι} (rq : LoadCpu)
    (hshare : rq.share = (s.cpu c).share) : LoadBalanced (s.setCpu c rq) :=
  h.move rfl (by rw [hshare, sub_self]; exact (sub_self s.known).symm)

/-- Adding to one of the idle deltas adds to what is known. -/
theorem known_idle (idle : Fin 2 → ℤ) (i : Fin 2) (x : ℤ) :
    ∑ j, Function.update idle i x j = ∑ j, idle j + (x - idle i) := by
  rw [Fin.sum_univ_two, Fin.sum_univ_two]
  match i with
  | 0 => simp; omega
  | 1 => simp

theorem calcLoadFoldActive_share (rq : LoadCpu) (hp : rq.pending = .none) (update : UInt32)
    {p : Pending} (hdelta : p.delta = (calcLoadFoldActive rq).1) :
    ({ (calcLoadFoldActive rq).2 with calcLoadUpdate := update, pending := p } : LoadCpu).share =
      rq.share := by
  have h0 : Pending.none.delta = 0 := rfl
  rw [LoadCpu.share, LoadCpu.share, hp, h0]
  dsimp only
  rw [hdelta, calcLoadFoldActive]
  split_ifs
  · dsimp only
    omega
  · rfl

/-- A processor that goes on with a function keeps the balance. -/
theorem LoadBalanced.continueOp (h : LoadBalanced s) (hz : ℕ) (c : ι) :
    LoadBalanced (continueOp hz s c) := by
  rw [Sched.continueOp]
  cases hp : (s.cpu c).pending with
  | none => exact h
  | account delta =>
    refine h.move (c := c) rfl ?_
    simp only [LoadCpu.share, hp, Pending.delta, Load.known, Load.setCpu]
    omega
  | enterIdle delta =>
    dsimp only
    split_ifs with h0
    · exact h.keep _ (by simp [LoadCpu.share, hp, Pending.delta, h0])
    · exact h.keep _ (by simp [LoadCpu.share, hp, Pending.delta])
  | readIdx delta idx => exact h.keep _ (by simp [LoadCpu.share, hp, Pending.delta])
  | readTime delta idx jiffies => exact h.keep _ (by simp [LoadCpu.share, hp, Pending.delta])
  | addIdle delta idx =>
    refine h.move (c := c) rfl ?_
    simp only [LoadCpu.share, hp, Pending.delta, Load.known, known_idle, Load.setCpu]
    omega
  | global delta =>
    refine h.move (c := c) rfl ?_
    simp only [LoadCpu.share, hp, Pending.delta, Load.known, Load.setCpu]
    omega
  | sample =>
    refine h.move (c := c) rfl ?_
    simp only [LoadCpu.share, hp, Pending.delta, sub_self]
    exact (sub_self s.known).symm
  | nohz =>
    dsimp only [calcGlobalNohz]
    split_ifs
    · refine h.move (c := c) rfl ?_
      simp only [LoadCpu.share, hp, Pending.delta, sub_self]
      exact (sub_self s.known).symm
    · refine h.move (c := c) rfl ?_
      simp only [LoadCpu.share, hp, Pending.delta, sub_self]
      exact (sub_self s.known).symm

/-- Every step keeps the balance. -/
theorem LoadBalanced.step (h : LoadBalanced s) {hz : ℕ} {op : LoadOp ι}
    (hx : loadExec hz s op = some s') : LoadBalanced s' := by
  cases op with
  | time jiffies =>
    obtain rfl := Option.some.inj hx
    exact h
  | tasks c nrRunning nrUninterruptible =>
    obtain rfl := Option.some.inj hx
    exact h.move (c := c) rfl (by simp [LoadCpu.share, Load.known, Load.setCpu])
  | goOn c =>
    obtain rfl := Option.some.inj hx
    exact h.continueOp hz c
  | accountActive c =>
    obtain ⟨hp, hx⟩ := Option.ite_none_right_eq_some.mp hx
    obtain rfl := Option.some.inj hx
    rw [accountActive]
    split_ifs
    · exact h
    · exact h.keep _ (calcLoadFoldActive_share (s.cpu c) hp _ rfl)
  | enterIdle c =>
    obtain ⟨hp, hx⟩ := Option.ite_none_right_eq_some.mp hx
    obtain rfl := Option.some.inj hx
    exact h.keep _ (calcLoadFoldActive_share (s.cpu c) hp _ rfl)
  | exitIdle c =>
    obtain ⟨hp, hx⟩ := Option.ite_none_right_eq_some.mp hx
    obtain rfl := Option.some.inj hx
    refine h.keep _ ?_
    rw [calcLoadExitIdle]
    split_ifs <;> rfl
  | globalLoad c =>
    obtain ⟨hp, hx⟩ := Option.ite_none_right_eq_some.mp hx
    obtain rfl := Option.some.inj hx
    rw [globalLoad]
    split_ifs
    · exact h
    · refine h.move (c := c) rfl ?_
      simp only [LoadCpu.share, hp, Pending.delta, Load.known, known_idle, Load.setCpu]
      omega
  | globalLoadRemove c =>
    obtain ⟨hp, hx⟩ := Option.ite_none_right_eq_some.mp hx
    obtain rfl := Option.some.inj hx
    refine h.move (c := c) rfl ?_
    simp only [LoadCpu.share, hp, Pending.delta, Load.known, Load.setCpu]
    omega

/-- No change of the number of active tasks is lost and none is counted twice: at every moment, in
every interleaving, the global count and the idle deltas, with what processors have taken and not
yet added, make up what all processors have reported. Once every processor has reported its tasks
and added what it took, that is the number of running and uninterruptible tasks. -/
theorem load_conserved {hz : ℕ} (h : Reachable (loadSystem hz) s) :
    s.calcLoadTasks + ∑ i, s.calcLoadIdle i + ∑ c, (s.cpu c).pending.delta =
        ∑ c, (s.cpu c).calcLoadActive ∧
      ((∀ c, (s.cpu c).pending = .none ∧
          (s.cpu c).calcLoadActive = (s.cpu c).nrRunning + (s.cpu c).nrUninterruptible) →
        s.calcLoadTasks + ∑ i, s.calcLoadIdle i =
          ∑ c, ((s.cpu c).nrRunning + (s.cpu c).nrUninterruptible)) := by
  have hbal : LoadBalanced s := by
    refine h.invariant (fun s (hs : LoadBoot s) => ?_) fun s op s' _ ih hstep => ih.step hstep
    simp [LoadBalanced, LoadCpu.share, Load.known, hs.active, hs.pending, Pending.delta, hs.tasks,
      hs.idle]
  have hsum : ∑ c, (s.cpu c).share = ∑ c, (s.cpu c).calcLoadActive - ∑ c, (s.cpu c).pending.delta :=
    Finset.sum_sub_distrib ..
  rw [LoadBalanced, hsum, Load.known] at hbal
  refine ⟨by omega, fun hall => ?_⟩
  have hnone : ∑ c, (s.cpu c).pending.delta = 0 :=
    Finset.sum_eq_zero fun c _ => by rw [(hall c).1]; rfl
  have hactive : ∑ c, (s.cpu c).calcLoadActive =
      ∑ c, ((s.cpu c).nrRunning + (s.cpu c).nrUninterruptible) :=
    Finset.sum_congr rfl fun c _ => (hall c).2
  omega

/-- Two processors after `sched_init`. -/
def referenceLoad : Load Bool where
  cpu _ := {}
  jiffies := 0
  calcLoadTasks := 0
  calcLoadUpdate := 501
  avenrun := {}
  calcLoadIdle _ := 0
  calcLoadIdx := 0

def referenceLoadRun (ops : List (LoadOp Bool)) : Option (Load Bool) :=
  execAll (loadExec 100) referenceLoad ops

theorem reachable_referenceLoadRun {ops : List (LoadOp Bool)} {s : Load Bool}
    (h : referenceLoadRun ops = some s) : Reachable (loadSystem 100) s := by
  have hboot : LoadBoot referenceLoad :=
    ⟨fun _ => rfl, fun _ => rfl, rfl, fun _ => rfl, rfl⟩
  exact (Reachable.init hboot).run (run_of_execAll h)

/-- One processor samples the load while the other one goes idle. -/
def sampledWhileIdle : List (LoadOp Bool) :=
  [.tasks false 3 1, .tasks true 2 0, .time 501, .accountActive false, .goOn false,
    .accountActive true, .goOn true, .tasks true 0 0, .time 511, .globalLoad false,
    .enterIdle true, .goOn true, .goOn false, .goOn true, .goOn true, .goOn true, .goOn false]

theorem load_conserved_sampledWhileIdle :
    ∃ s, referenceLoadRun sampledWhileIdle = some s ∧
      (s.calcLoadTasks + ∑ i, s.calcLoadIdle i + ∑ c, (s.cpu c).pending.delta =
          ∑ c, (s.cpu c).calcLoadActive ∧
        ((∀ c, (s.cpu c).pending = .none ∧
            (s.cpu c).calcLoadActive = (s.cpu c).nrRunning + (s.cpu c).nrUninterruptible) →
          s.calcLoadTasks + ∑ i, s.calcLoadIdle i =
            ∑ c, ((s.cpu c).nrRunning + (s.cpu c).nrUninterruptible))) := by
  have hrun : referenceLoadRun sampledWhileIdle =
      some ((referenceLoadRun sampledWhileIdle).get (by decide +kernel)) := by simp
  exact ⟨_, hrun, load_conserved (reachable_referenceLoadRun hrun)⟩

end Conservation

/-! ### The load averages -/

variable {s s' : Load ι} {hz : ℕ}

/-- A step that samples, when it does so with at most `m` active tasks. -/
def SamplesAtMost (m : ℕ) (s : Load ι) : LoadOp ι → Prop
  | .goOn c => (s.cpu c).pending = .sample ∨ (s.cpu c).pending = .nohz → s.calcLoadTasks ≤ m
  | _ => True

instance (m : ℕ) (s : Load ι) (op : LoadOp ι) : Decidable (SamplesAtMost m s op) :=
  match op with
  | .goOn _ => inferInstanceAs (Decidable (_ → _))
  | .time _ | .tasks .. | .accountActive _ | .enterIdle _ | .exitIdle _ | .globalLoad _
  | .globalLoadRemove _ => inferInstanceAs (Decidable True)

/-- The three averages are at most `m`. -/
def Avenrun.AtMost (a : Avenrun) (m : ℕ) : Prop :=
  a.avg1.toNat ≤ m * 2 ^ 11 ∧ a.avg5.toNat ≤ m * 2 ^ 11 ∧ a.avg15.toNat ≤ m * 2 ^ 11

theorem fixedActive_toNat {tasks : ℤ} {m : ℕ} (hm : m ≤ 1023) (h : tasks ≤ m) :
    (fixedActive tasks).toNat = tasks.toNat * 2 ^ 11 := by
  rw [fixedActive, UInt32.toNat_ofNat', toNat_fixed1, Nat.mod_eq_of_lt (by omega)]

theorem fixedActive_le {tasks : ℤ} {m : ℕ} (hm : m ≤ 1023) (h : tasks ≤ m) :
    (fixedActive tasks).toNat ≤ m * 2 ^ 11 := by
  rw [fixedActive_toNat hm h]
  exact Nat.mul_le_mul_right _ (by omega)

theorem calcLoadN_le {load exp active : UInt32} {m : ℕ} (hm : m ≤ 1023)
    (he : exp.toNat ≤ 2 ^ 11) (hl : load.toNat ≤ m * 2 ^ 11) (ha : active.toNat ≤ m * 2 ^ 11)
    (n : ℕ) : (calcLoadN load exp active n).toNat ≤ m * 2 ^ 11 :=
  have hpow : (fixedPowerInt exp 11 n).toNat = FixedPoint.expPow 11 exp.toNat n :=
    fixedPowerInt_toNat (by decide) (by decide) he n
  calcLoad_le hm (hpow ▸ FixedPoint.expPow_le (by decide) he n) hl ha

omit [DecidableEq ι] in
theorem sampleLoad_atMost {m : ℕ} (hm : m ≤ 1023) (htasks : s.calcLoadTasks ≤ m)
    (h : s.avenrun.AtMost m) : (sampleLoad hz s).avenrun.AtMost m :=
  ⟨calcLoad_le hm (by decide) h.1 (fixedActive_le hm htasks),
    calcLoad_le hm (by decide) h.2.1 (fixedActive_le hm htasks),
    calcLoad_le hm (by decide) h.2.2 (fixedActive_le hm htasks)⟩

omit [DecidableEq ι] in
theorem calcGlobalNohz_atMost {m : ℕ} (hm : m ≤ 1023) (htasks : s.calcLoadTasks ≤ m)
    (h : s.avenrun.AtMost m) : (calcGlobalNohz hz s).avenrun.AtMost m := by
  rw [calcGlobalNohz]
  dsimp only
  split_ifs
  · exact ⟨calcLoadN_le hm (by decide) h.1 (fixedActive_le hm htasks) _,
      calcLoadN_le hm (by decide) h.2.1 (fixedActive_le hm htasks) _,
      calcLoadN_le hm (by decide) h.2.2 (fixedActive_le hm htasks) _⟩
  · exact h

/-- Only a processor that goes on with `calc_global_load` writes the averages. -/
theorem loadExec_atMost {m : ℕ} (hm : m ≤ 1023) {op : LoadOp ι} (hok : SamplesAtMost m s op)
    (h : s.avenrun.AtMost m) (hx : loadExec hz s op = some s') : s'.avenrun.AtMost m := by
  cases op with
  | time jiffies =>
    obtain rfl := Option.some.inj hx
    exact h
  | tasks c nrRunning nrUninterruptible =>
    obtain rfl := Option.some.inj hx
    exact h
  | goOn c =>
    obtain rfl := Option.some.inj hx
    rw [continueOp]
    cases hp : (s.cpu c).pending with
    | none => exact h
    | account delta => exact h
    | enterIdle delta =>
      dsimp only
      split_ifs <;> exact h
    | readIdx delta idx => exact h
    | readTime delta idx jiffies => exact h
    | addIdle delta idx => exact h
    | global delta => exact h
    | sample => exact sampleLoad_atMost hm (hok (.inl hp)) h
    | nohz => exact calcGlobalNohz_atMost hm (hok (.inr hp)) h
  | accountActive c =>
    obtain ⟨-, hx⟩ := Option.ite_none_right_eq_some.mp hx
    obtain rfl := Option.some.inj hx
    rw [accountActive]
    split_ifs <;> exact h
  | enterIdle c =>
    obtain ⟨-, hx⟩ := Option.ite_none_right_eq_some.mp hx
    obtain rfl := Option.some.inj hx
    exact h
  | exitIdle c =>
    obtain ⟨-, hx⟩ := Option.ite_none_right_eq_some.mp hx
    obtain rfl := Option.some.inj hx
    exact h
  | globalLoad c =>
    obtain ⟨-, hx⟩ := Option.ite_none_right_eq_some.mp hx
    obtain rfl := Option.some.inj hx
    rw [globalLoad]
    split_ifs <;> exact h
  | globalLoadRemove c =>
    obtain ⟨-, hx⟩ := Option.ite_none_right_eq_some.mp hx
    obtain rfl := Option.some.inj hx
    exact h

/-- A sample takes the rounded means. -/
def SamplesMeans (hz : ℕ) (s : Load ι) : Prop :=
  (sampleLoad hz s).avenrun.avg1.toNat =
      FixedPoint.relax 11 s.avenrun.avg1.toNat exp1.toNat (s.calcLoadTasks.toNat * 2 ^ 11) ∧
    (sampleLoad hz s).avenrun.avg5.toNat =
      FixedPoint.relax 11 s.avenrun.avg5.toNat exp5.toNat (s.calcLoadTasks.toNat * 2 ^ 11) ∧
    (sampleLoad hz s).avenrun.avg15.toNat =
      FixedPoint.relax 11 s.avenrun.avg15.toNat exp15.toNat (s.calcLoadTasks.toNat * 2 ^ 11)

/-- The load averages never exceed the greatest number of tasks they have been sampled with. So up
to 1023 tasks nothing in their arithmetic wraps around, however long a machine has idled. -/
theorem avenrun_le {m : ℕ} (hm : m ≤ 1023)
    (h : Reachable ((loadSystem hz).restrict (SamplesAtMost m)) s) :
    s.avenrun.AtMost m ∧ (s.calcLoadTasks ≤ m → SamplesMeans hz s) := by
  have hle : s.avenrun.AtMost m := by
    induction h with
    | init hs =>
      have hs : LoadBoot _ := hs
      rw [hs.avenrun]
      exact ⟨Nat.zero_le _, Nat.zero_le _, Nat.zero_le _⟩
    | step _ hstep ih => exact loadExec_atMost hm hstep.1 ih hstep.2
  refine ⟨hle, fun htasks => ?_⟩
  have hactive := fixedActive_le hm htasks
  rw [SamplesMeans, ← fixedActive_toNat hm htasks]
  exact ⟨calcLoad_toNat hm (by decide) hle.1 hactive, calcLoad_toNat hm (by decide) hle.2.1 hactive,
    calcLoad_toNat hm (by decide) hle.2.2 hactive⟩

theorem avenrun_le_sampledWhileIdle :
    ∃ s, execAll (fun s a => if SamplesAtMost 1023 s a then loadExec 100 s a else none)
        referenceLoad sampledWhileIdle = some s ∧
      (s.avenrun.AtMost 1023 ∧ (s.calcLoadTasks ≤ (1023 : ℕ) → SamplesMeans 100 s)) := by
  have hboot : LoadBoot referenceLoad := ⟨fun _ => rfl, fun _ => rfl, rfl, fun _ => rfl, rfl⟩
  have hrun : execAll (fun s a => if SamplesAtMost 1023 s a then loadExec 100 s a else none)
      referenceLoad sampledWhileIdle = some ((execAll (fun s a =>
        if SamplesAtMost 1023 s a then loadExec 100 s a else none) referenceLoad
          sampledWhileIdle).get (by decide +kernel)) := by simp
  exact ⟨_, hrun, avenrun_le (by decide)
    ((Reachable.init hboot).run (run_restrict_of_execAll hrun))⟩

/-! ### Making up for missed samples -/

omit [DecidableEq ι] in
/-- Samples one after the other. -/
theorem sampleLoad_iterate (hz : ℕ) (s : Load ι) (n : ℕ) :
    ((sampleLoad hz)^[n] s).jiffies = s.jiffies ∧
      ((sampleLoad hz)^[n] s).calcLoadTasks = s.calcLoadTasks ∧
      ((sampleLoad hz)^[n] s).calcLoadUpdate =
        s.calcLoadUpdate + UInt32.ofNat (n * loadFreq hz) ∧
      ((sampleLoad hz)^[n] s).avenrun =
        { avg1 := (fun l => calcLoad l exp1 (fixedActive s.calcLoadTasks))^[n] s.avenrun.avg1
          avg5 := (fun l => calcLoad l exp5 (fixedActive s.calcLoadTasks))^[n] s.avenrun.avg5
          avg15 := (fun l => calcLoad l exp15 (fixedActive s.calcLoadTasks))^[n]
            s.avenrun.avg15 } := by
  induction n with
  | zero => simp
  | succ n ih =>
    obtain ⟨hj, ht, hu, ha⟩ := ih
    simp only [Function.iterate_succ_apply']
    refine ⟨hj, ht, ?_, ?_⟩
    · change ((sampleLoad hz)^[n] s).calcLoadUpdate + UInt32.ofNat (loadFreq hz) = _
      rw [hu, Nat.add_one_mul, UInt32.ofNat_add, UInt32.add_assoc]
    · simp only [sampleLoad, ht, ha]

omit [DecidableEq ι] in
/-- Whether `k` samples later it is still too late for one more. -/
theorem timeBefore_later {k : ℕ} (hfreq : loadFreq hz ≤ 2 ^ 31)
    (hlate : timeBefore s.jiffies (s.calcLoadUpdate + 10) = false) (hk : k ≤ missed hz s) :
    timeBefore s.jiffies (s.calcLoadUpdate + UInt32.ofNat (k * loadFreq hz) + 10) =
      decide (k = missed hz s) := by
  obtain ⟨d, hd⟩ : ∃ d, d = (s.jiffies - s.calcLoadUpdate - 10).toNat := ⟨_, rfl⟩
  obtain ⟨l, hl⟩ : ∃ l, l = loadFreq hz := ⟨_, rfl⟩
  have hl₀ : 0 < l := by rw [hl, loadFreq]; omega
  rw [missed, ← hd, ← hl] at hk ⊢
  rw [← hl] at hfreq
  have hten : (10 : UInt32).toNat = 10 := rfl
  have hu := s.calcLoadUpdate.toNat_lt
  have hj := s.jiffies.toNat_lt
  have hdiv : d / l * l + d % l = d := by rw [Nat.mul_comm]; exact Nat.div_add_mod d l
  have hmod : d % l < l := Nat.mod_lt d hl₀
  simp only [timeBefore, decide_eq_false_iff_not, UInt32.toNat_sub, UInt32.toNat_add, hten] at hlate
  simp only [UInt32.toNat_sub, hten] at hd
  have hdlt : d < 2 ^ 31 := by omega
  simp only [timeBefore, decide_eq_decide, UInt32.toNat_sub, UInt32.toNat_add, UInt32.toNat_ofNat',
    hten]
  by_cases hlast : k = 1 + d / l
  · have hkl : k * l = l + d / l * l := by rw [hlast, Nat.add_mul, Nat.one_mul]
    rw [hkl]
    omega
  · have hkl : k * l ≤ d / l * l := Nat.mul_le_mul_right l (by omega)
    omega

/-- The samples that were missed are made up for: the next sample is due when it would be after
sampling one after the other while it is too late for the next one, and the load averages are those
of all these samples, up to rounding. -/
def CatchesUp (hz : ℕ) (s : Load ι) : Prop :=
  ∃ n, (∀ k < n, timeBefore s.jiffies (((sampleLoad hz)^[k] s).calcLoadUpdate + 10) = false) ∧
    timeBefore s.jiffies (((sampleLoad hz)^[n] s).calcLoadUpdate + 10) = true ∧
    (calcGlobalNohz hz s).calcLoadUpdate = ((sampleLoad hz)^[n] s).calcLoadUpdate ∧
    ∀ avg ∈ [Avenrun.avg1, Avenrun.avg5, Avenrun.avg15],
      |((avg (calcGlobalNohz hz s).avenrun).toNat : ℚ) -
        (avg ((sampleLoad hz)^[n] s).avenrun).toNat| ≤
          (n + 1) / 2 + |((avg s.avenrun).toNat : ℚ) - (fixedActive s.calcLoadTasks).toNat| *
            (n / 2 / 2 ^ 11)

omit [DecidableEq ι] in
/-- A processor that has idled for long catches up in one go, with up to 1023 active tasks, averages
that are no greater, and a period of the samples that is at most half the range of `jiffies`. -/
theorem nohz_agrees_with_plain {m : ℕ} (hm : m ≤ 1023) (hfreq : loadFreq hz ≤ 2 ^ 31)
    (htasks : s.calcLoadTasks ≤ m) (havg : s.avenrun.AtMost m) : CatchesUp hz s := by
  cases hlate : timeBefore s.jiffies (s.calcLoadUpdate + 10) with
  | true =>
    refine ⟨0, by simp, hlate, by simp [calcGlobalNohz, hlate], fun avg _ => ?_⟩
    simp [calcGlobalNohz, hlate]
  | false =>
    have hnohz : calcGlobalNohz hz s = { s with
        avenrun :=
          { avg1 := calcLoadN s.avenrun.avg1 exp1 (fixedActive s.calcLoadTasks) (missed hz s)
            avg5 := calcLoadN s.avenrun.avg5 exp5 (fixedActive s.calcLoadTasks) (missed hz s)
            avg15 := calcLoadN s.avenrun.avg15 exp15 (fixedActive s.calcLoadTasks) (missed hz s) }
        calcLoadUpdate := s.calcLoadUpdate + UInt32.ofNat (missed hz s * loadFreq hz)
        calcLoadIdx := s.calcLoadIdx + 1 } := by
      simp [calcGlobalNohz, hlate]
    have hupdate := fun n => (sampleLoad_iterate hz s n).2.2.1
    refine ⟨missed hz s, fun k hk => ?_, ?_, ?_, fun avg havgs => ?_⟩
    · rw [hupdate, timeBefore_later hfreq hlate hk.le]
      exact decide_eq_false hk.ne
    · rw [hupdate, timeBefore_later hfreq hlate le_rfl]
      exact decide_eq_true rfl
    · rw [hnohz, hupdate]
    · have hactive := fixedActive_le hm htasks
      rw [hnohz, (sampleLoad_iterate hz s _).2.2.2]
      simp only [List.mem_cons, List.not_mem_nil, or_false] at havgs
      rcases havgs with rfl | rfl | rfl
      · exact calc_load_n_agrees hm (by decide) havg.1 hactive (missed hz s)
      · exact calc_load_n_agrees hm (by decide) havg.2.1 hactive (missed hz s)
      · exact calc_load_n_agrees hm (by decide) havg.2.2 hactive (missed hz s)

theorem nohz_agrees_with_plain_late :
    CatchesUp 100
      { referenceLoad with
        jiffies := 50000, calcLoadTasks := 2, avenrun := { avg1 := 4096, avg5 := 100 } } :=
  nohz_agrees_with_plain (m := 2) (by decide) (by decide) (by decide)
    ⟨by decide, by decide, by decide⟩

end OsProject.Sched
