import Mathlib.Data.Nat.Log
import Mathlib.Tactic.Ring
import OsProject.Sched.Reference
import OsProject.Sched.Queues

/-!
# The slice of a RAS task

A slice is granted in three places, at an enqueue, at an expiry and by a query of the interval. All
three grant the same slice, which the group and the write count of the task decide: a weight falls
by one each time the write count doubles, from 16 writes on, and each unit of it is worth ten
milliseconds on top of a base for the group.

## Main definitions

* `documentedWeight`, `documentedSlice` — the rule, in milliseconds.
* `SliceRow`, `sliceTable` — the two tables of the report.

## Main results

* `calcRasWeight_eq` — the weight is the documented one.
* `one_slice_rule` — the three places grant the documented slice.

Source: `kernel/sched/ras.c`, `include/linux/sched.h`, `report.md`.
-/

namespace OsProject.Sched

variable {τ Q : Type*} [DecidableEq τ] {K : Kernel τ Q} {s : Rq τ Q} {p : τ}

/-! ### The documented rule -/

/-- The weight of a task: ten, and one less each time the write count doubles from 16 on. The
subtraction from the logarithm stops at zero, which is also the logarithm of zero. -/
def documentedWeight (wcounts : ℕ) : ℕ := 10 - min 10 (Nat.log 2 wcounts - 3)

/-- The slice in milliseconds. -/
def documentedSlice (path : String) (wcounts : ℕ) : ℕ :=
  (if path = "/" then 50 else 30) + 10 * documentedWeight wcounts

/-- A row of the tables: the least write count, the one from which the next row starts, the weight,
and the slices in milliseconds of a foreground and a background task. -/
structure SliceRow where
  least : ℕ
  next : Option ℕ
  weight : ℕ
  foreground : ℕ
  background : ℕ
  deriving DecidableEq, Repr

/-- The tables of the report for foreground and for background tasks, side by side. -/
def sliceTable : List SliceRow :=
  [⟨0, some 16, 10, 150, 130⟩, ⟨16, some 32, 9, 140, 120⟩, ⟨32, some 64, 8, 130, 110⟩,
    ⟨64, some 128, 7, 120, 100⟩, ⟨128, some 256, 6, 110, 90⟩, ⟨256, some 512, 5, 100, 80⟩,
    ⟨512, some 1024, 4, 90, 70⟩, ⟨1024, some 2048, 3, 80, 60⟩, ⟨2048, some 4096, 2, 70, 50⟩,
    ⟨4096, some 8192, 1, 60, 40⟩, ⟨8192, none, 0, 50, 30⟩]

/-- The row is the one for this write count. -/
def SliceRow.Covers (r : SliceRow) (wcounts : ℕ) : Prop :=
  r.least ≤ wcounts ∧ ∀ n ∈ r.next, wcounts < n

/-! ### The weight -/

theorem documentedWeight_of_log {n k : ℕ} (hlow : 2 ^ k ≤ n) (hhigh : n < 2 ^ (k + 1)) :
    documentedWeight n = 10 - min 10 (k - 3) := by
  rw [documentedWeight, Nat.log_eq_of_pow_le_of_lt_pow hlow hhigh]

theorem documentedWeight_of_lt {n : ℕ} (hn : n < 16) : documentedWeight n = 10 := by
  have hlog : Nat.log 2 n < 4 := by
    rcases Nat.eq_zero_or_pos n with rfl | hpos
    · simp
    · exact (Nat.log_lt_iff_lt_pow (by omega) hpos.ne').mpr hn
  rw [documentedWeight]
  omega

theorem documentedWeight_of_ge {n : ℕ} (hn : 8192 ≤ n) : documentedWeight n = 0 := by
  have hlog : 13 ≤ Nat.log 2 n := (Nat.le_log_iff_pow_le (by omega) (by omega)).mpr hn
  rw [documentedWeight]
  omega

omit [DecidableEq τ] in
/-- The thresholds of `calc_ras_weight` give the documented weight. -/
theorem calcRasWeight_eq (t : TaskStruct) : calcRasWeight t = documentedWeight t.wcounts.toNat := by
  obtain ⟨n, hn⟩ : ∃ n, n = t.wcounts.toNat := ⟨_, rfl⟩
  have hlog : ∀ k, 2 ^ k ≤ n → n < 2 ^ (k + 1) → 10 - min 10 (k - 3) = documentedWeight n :=
    fun k hlow hhigh => (documentedWeight_of_log hlow hhigh).symm
  simp only [calcRasWeight, ← hn, Nat.reduceShiftLeft]
  split_ifs
  · exact (documentedWeight_of_lt (by omega)).symm
  · exact hlog 4 (by omega) (by omega)
  · exact hlog 5 (by omega) (by omega)
  · exact hlog 6 (by omega) (by omega)
  · exact hlog 7 (by omega) (by omega)
  · exact hlog 8 (by omega) (by omega)
  · exact hlog 9 (by omega) (by omega)
  · exact hlog 10 (by omega) (by omega)
  · exact hlog 11 (by omega) (by omega)
  · exact hlog 12 (by omega) (by omega)
  · exact (documentedWeight_of_ge (by omega)).symm

/-- Between the first row and the last one, the write count doubles and the weight falls by one. -/
theorem sliceTable_rows {r : SliceRow} (hr : r ∈ sliceTable) :
    (r.next = some 16 ∧ r.weight = 10) ∨
      (∃ k < 13, r.least = 2 ^ k ∧ r.next = some (2 ^ (k + 1)) ∧ r.weight = 10 - min 10 (k - 3)) ∨
      (r.least = 8192 ∧ r.weight = 0) := by
  revert r
  decide

theorem sliceTable_slices {r : SliceRow} (hr : r ∈ sliceTable) :
    r.foreground = 50 + 10 * r.weight ∧ r.background = 30 + 10 * r.weight := by
  revert r
  decide

/-- The rows of the tables give the documented weight and slices. -/
theorem documented_of_covers {r : SliceRow} (hr : r ∈ sliceTable) {n : ℕ} (hn : r.Covers n) :
    documentedWeight n = r.weight ∧ documentedSlice "/" n = r.foreground ∧
      ∀ path, path ≠ "/" → documentedSlice path n = r.background := by
  have hweight : documentedWeight n = r.weight := by
    obtain ⟨hleast, hnext⟩ := hn
    rcases sliceTable_rows hr with ⟨hrow, hw⟩ | ⟨k, -, hrow, hrow', hw⟩ | ⟨hrow, hw⟩
    · rw [hw, documentedWeight_of_lt (hnext 16 hrow)]
    · rw [hw, documentedWeight_of_log (hrow ▸ hleast) (hnext _ hrow')]
    · rw [hw, documentedWeight_of_ge (hrow ▸ hleast)]
  obtain ⟨hforeground, hbackground⟩ := sliceTable_slices hr
  refine ⟨hweight, ?_, fun path hpath => ?_⟩
  · rw [documentedSlice, hweight, if_pos rfl, hforeground]
  · rw [documentedSlice, hweight, if_neg hpath, hbackground]

/-! ### The granted slice -/

theorem documentedWeight_le (n : ℕ) : documentedWeight n ≤ 10 := Nat.sub_le _ _

theorem documentedWeight_anti {m n : ℕ} (h : m ≤ n) : documentedWeight n ≤ documentedWeight m := by
  have hlog : Nat.log 2 m ≤ Nat.log 2 n := Nat.log_mono_right h
  rw [documentedWeight, documentedWeight]
  omega

theorem calcRasWeight_le (t : TaskStruct) : calcRasWeight t ≤ 10 := by
  rw [calcRasWeight_eq]
  exact documentedWeight_le _

/-- The slice that a task is granted depends on its group and its write count only. -/
theorem rasSlice_of_eq {hz : ℕ} {t t' : TaskStruct} (hgroup : t'.schedTaskGroup = t.schedTaskGroup)
    (hwcounts : t'.wcounts = t.wcounts) : rasSlice hz t' = rasSlice hz t := by
  rw [rasSlice, rasSlice, taskGroupPath, taskGroupPath, hgroup, calcRasWeight, calcRasWeight,
    hwcounts]

/-- A granted slice in ticks. It fits the counter. -/
theorem rasSlice_toNat (K : Kernel τ Q) (t : TaskStruct) : (rasSlice K.hz t).toNat =
    (if taskGroupPath t = "/" then rasFgTimeslice K.hz else rasBgTimeslice K.hz) +
      calcRasWeight t * rasIncTime K.hz := by
  have hfits := K.slice_fits
  have hbase : (if taskGroupPath t = "/" then rasFgTimeslice K.hz else rasBgTimeslice K.hz) ≤
      50 * K.hz / 1000 := by
    rw [rasFgTimeslice, rasBgTimeslice]
    split <;> omega
  have hinc : calcRasWeight t * rasIncTime K.hz ≤ 10 * (10 * K.hz / 1000) :=
    Nat.mul_le_mul (calcRasWeight_le t) le_rfl
  rw [rasSlice, UInt32.toNat_ofNat_of_lt']
  rw [UInt32.size]
  omega

/-- A granted slice has a tick, and at most as many as that of a foreground task without writes. -/
theorem rasSlice_bounds (K : Kernel τ Q) (t : TaskStruct) : 1 ≤ (rasSlice K.hz t).toNat ∧
    (rasSlice K.hz t).toNat ≤ rasFgTimeslice K.hz + 10 * rasIncTime K.hz := by
  have hone := K.one_le_slice
  have hinc : calcRasWeight t * rasIncTime K.hz ≤ 10 * rasIncTime K.hz :=
    Nat.mul_le_mul (calcRasWeight_le t) le_rfl
  have hbase : 1 ≤ (if taskGroupPath t = "/" then rasFgTimeslice K.hz else rasBgTimeslice K.hz) ∧
      (if taskGroupPath t = "/" then rasFgTimeslice K.hz else rasBgTimeslice K.hz) ≤
        rasFgTimeslice K.hz := by
    rw [rasFgTimeslice, rasBgTimeslice]
    split <;> omega
  rw [rasSlice_toNat]
  omega

/-- With a whole number of ticks in ten milliseconds the slice is the documented one. -/
theorem rasSlice_milliseconds (K : Kernel τ Q) (h100 : 100 ∣ K.hz) (t : TaskStruct) :
    1000 * (rasSlice K.hz t).toNat = documentedSlice (taskGroupPath t) t.wcounts.toNat * K.hz := by
  obtain ⟨m, hm⟩ := h100
  have hfg : rasFgTimeslice K.hz = 5 * m := by rw [rasFgTimeslice]; omega
  have hbg : rasBgTimeslice K.hz = 3 * m := by rw [rasBgTimeslice]; omega
  have hinc : rasIncTime K.hz = m := by rw [rasIncTime]; omega
  rw [rasSlice_toNat, documentedSlice, ← calcRasWeight_eq, hfg, hbg, hinc, hm]
  split <;> ring

/-- The slice of a queued task after an enqueue, an expiry or a query. -/
theorem enqueueTaskRas_timeSlice (K : Kernel τ Q) (s : Rq τ Q) (p : τ) (flags : EnqueueFlags) :
    ((enqueueTaskRas K s p flags).task p).ras.timeSlice = rasSlice K.hz (s.task p) := by
  rw [enqueueTaskRas]
  simp only [rasSlice_eq, Rq.modifyTask, Function.update_self]

/-- A tick changes neither the group nor the write count. -/
theorem countTick_rasSlice (hz : ℕ) :
    rasSlice hz ((countTick K s p).task p) = rasSlice hz (s.task p) := by
  have hctl : ((countTick K s p).task p).toTaskControl = (s.task p).toTaskControl :=
    congrFun (accounts_countTick (K := K)).ctl p
  have hcharge : ((updateCurrRas s).task p).wcounts = (s.task p).wcounts := by
    rw [updateCurrRas]
    split
    · rfl
    · by_cases hp : p = s.curr
      · subst hp
        simp [chargeCurr, Rq.modifyTask]
      · simp [chargeCurr, Rq.modifyTask, hp]
  have hwatch : ∀ t, (watchdogRas K.hz t).wcounts = t.wcounts := fun t => by
    rw [watchdogRas]
    split <;> rfl
  refine rasSlice_of_eq (by rw [hctl]) ?_
  simp [countTick, Rq.modifyTask, hwatch, hcharge]

theorem taskTickRas_timeSlice (hexpired : (s.task p).ras.timeSlice - 1 = 0) :
    ((taskTickRas K s p).task p).ras.timeSlice = rasSlice K.hz (s.task p) := by
  have hgrant : (((countTick K s p).modifyTask p (grantSlice K.hz)).task p).ras.timeSlice =
      rasSlice K.hz (s.task p) := by
    rw [← countTick_rasSlice (K := K)]
    simp [Rq.modifyTask, grantSlice]
  rw [taskTickRas_eq, if_neg (not_not.mpr hexpired)]
  split
  · rw [← hgrant, requeueTaskRas]
    split <;> rfl
  · exact hgrant

/-! ### One rule -/

/-- The slices that a task `p` is granted, and the tables. -/
structure SliceRule (K : Kernel τ Q) (s : Rq τ Q) (p : τ) : Prop where
  enqueue : ∀ flags,
    1000 * ((enqueueTaskRas K s p flags).task p).ras.timeSlice.toNat =
      documentedSlice (taskGroupPath (s.task p)) (s.task p).wcounts.toNat * K.hz
  expiry : (s.task p).ras.timeSlice - 1 = 0 →
    1000 * ((taskTickRas K s p).task p).ras.timeSlice.toNat =
      documentedSlice (taskGroupPath (s.task p)) (s.task p).wcounts.toNat * K.hz
  query : 1000 * (getRrIntervalRas K s p).1.toNat =
    documentedSlice (taskGroupPath (s.task p)) (s.task p).wcounts.toNat * K.hz
  /-- The three are the same value. -/
  same : ∀ flags, ((enqueueTaskRas K s p flags).task p).ras.timeSlice = (getRrIntervalRas K s p).1 ∧
    ((s.task p).ras.timeSlice - 1 = 0 →
      ((taskTickRas K s p).task p).ras.timeSlice = (getRrIntervalRas K s p).1)

/-- The slice set by an enqueue, the one set at an expiry and the answer to a query are the same. A
tick lasts `1000 / HZ` milliseconds, so that the slice is the documented one, which the tables of the
report list. It falls as the write count grows, and a foreground task gets twenty milliseconds more
than a background task with the same write count. -/
theorem one_slice_rule (K : Kernel τ Q) (h100 : 100 ∣ K.hz) :
    (∀ s p, SliceRule K s p) ∧
    (∀ r ∈ sliceTable, ∀ n, r.Covers n → documentedWeight n = r.weight ∧
      documentedSlice "/" n = r.foreground ∧
      ∀ path, path ≠ "/" → documentedSlice path n = r.background) ∧
    (∀ t t' : TaskStruct, taskGroupPath t' = taskGroupPath t → t.wcounts ≤ t'.wcounts →
      rasSlice K.hz t' ≤ rasSlice K.hz t) ∧
    ∀ t t' : TaskStruct, taskGroupPath t = "/" → taskGroupPath t' ≠ "/" →
      t.wcounts = t'.wcounts →
      1000 * (rasSlice K.hz t).toNat = 1000 * (rasSlice K.hz t').toNat + 20 * K.hz := by
  refine ⟨fun s p => ?_, fun r hr n hn => documented_of_covers hr hn, fun t t' hpath hle => ?_,
    fun t t' hpath hpath' hsame => ?_⟩
  · have hms := rasSlice_milliseconds K h100 (s.task p)
    refine ⟨fun flags => ?_, fun hexpired => ?_, ?_, fun flags => ⟨?_, fun hexpired => ?_⟩⟩
    · rw [enqueueTaskRas_timeSlice, hms]
    · rw [taskTickRas_timeSlice hexpired, hms]
    · rw [getRrIntervalRas_eq, hms]
    · rw [enqueueTaskRas_timeSlice, getRrIntervalRas_eq]
    · rw [taskTickRas_timeSlice hexpired, getRrIntervalRas_eq]
  · have hweight : calcRasWeight t' ≤ calcRasWeight t := by
      rw [calcRasWeight_eq, calcRasWeight_eq]
      exact documentedWeight_anti (UInt32.le_iff_toNat_le.mp hle)
    rw [UInt32.le_iff_toNat_le, rasSlice_toNat, rasSlice_toNat, hpath]
    exact Nat.add_le_add_left (Nat.mul_le_mul hweight le_rfl) _
  · rw [rasSlice_milliseconds K h100, rasSlice_milliseconds K h100, documentedSlice,
      documentedSlice, if_pos hpath, if_neg hpath', hsame]
    ring

/-- The tasks are in the last tick of their slices, and have written 20 times. -/
def expiringRq : Rq ℕ (Arrivals ℕ) :=
  bootRq 0 fun _ => { wcounts := 20, ras := { timeSlice := 1 } }

theorem one_slice_rule_hundred : SliceRule (referenceKernel ℕ) expiringRq 1 ∧
    (expiringRq.task 1).ras.timeSlice - 1 = 0 ∧
    ((taskTickRas (referenceKernel ℕ) expiringRq 1).task 1).ras.timeSlice = 14 ∧
    documentedSlice "/" 20 = 140 := by
  have hrule := one_slice_rule (referenceKernel ℕ) (by decide)
  exact ⟨hrule.1 _ 1, by decide, by decide +kernel,
    (hrule.2.1 ⟨16, some 32, 9, 140, 120⟩ (by decide) 20 ⟨by decide, by decide⟩).2.1⟩

end OsProject.Sched
