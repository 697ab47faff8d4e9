import Mathlib.Algebra.Order.Field.Rat
import Mathlib.Algebra.Order.Field.Basic
import Mathlib.Tactic.Linarith
import Mathlib.Tactic.Ring
import Mathlib.Tactic.FieldSimp
import Mathlib.Tactic.Positivity
import Mathlib.Tactic.NormNum
import OsProject.Lib.Transition

/-!
# The load of one processor

At every tick a run queue updates five means of its load, the `i`-th with weight `2 ^ i - 1` for
the old mean and `1` for the current load. Ticks that an idle processor has missed count as a load
of zero: `decay_load_missed` decays the old mean by a table, one factor for each bit of the number
of missed ticks, instead of tick by tick.

## Main definitions

* `decayLoadMissed`, `updateCpuLoad`.
* `cpuLoadSystem` — the updates of one run queue, at any times and under any loads.

## Main results

* `update_cpu_load_error` — how far an update after missed ticks is off.
* `cpu_load_settles` — the means stay below the greatest load, and reach a constant one.

Source: `kernel/sched/core.c`.
-/

namespace OsProject.Sched

open Transition

/-! ### The source -/

/-- `CPU_LOAD_IDX_MAX`. -/
def cpuLoadIdxMax : ℕ := 5

def degradeZeroTicks : List ℕ := [0, 8, 32, 64, 128]

/-- `degrade_factor`; what a row leaves out is zero. -/
def degradeFactor : List (List ℕ) :=
  [[0, 0, 0, 0, 0, 0, 0, 0],
   [64, 32, 8, 0, 0, 0, 0, 0],
   [96, 72, 40, 12, 1, 0, 0],
   [112, 98, 75, 43, 15, 1, 0],
   [120, 112, 98, 76, 45, 16, 2]]

/-- An entry of `degrade_factor`. -/
def degradeFactorAt (idx j : ℕ) : ℕ := (degradeFactor.getD idx []).getD j 0

/-- The loop of `decay_load_missed`, with `DEGRADE_SHIFT`. -/
def decayLoop (idx : ℕ) (load : UInt32) (missedUpdates j : ℕ) : UInt32 :=
  if missedUpdates = 0 then load
  else
    decayLoop idx
      (if missedUpdates % 2 = 1 then (load * UInt32.ofNat (degradeFactorAt idx j)) >>> 7 else load)
      (missedUpdates / 2) (j + 1)
termination_by missedUpdates
decreasing_by omega

def decayLoadMissed (load : UInt32) (missedUpdates idx : ℕ) : UInt32 :=
  if missedUpdates = 0 then load
  else if degradeZeroTicks.getD idx 0 ≤ missedUpdates then 0
  else if idx = 1 then load >>> UInt32.ofNat missedUpdates
  else decayLoop idx load missedUpdates 0

/-- The fields of `struct rq` that `update_cpu_load` reads and writes; `load` is `load.weight`. -/
structure CpuLoad where
  load : UInt32
  cpuLoad : ℕ → UInt32
  lastLoadUpdateTick : UInt32
  nrLoadUpdates : ℕ

/-- The body of the loop of `update_cpu_load`. -/
def updatedLoad (thisLoad oldLoad : UInt32) (pendingUpdates i : ℕ) : UInt32 :=
  let scale := (1 : UInt32) <<< UInt32.ofNat i
  let oldLoad := decayLoadMissed oldLoad (pendingUpdates - 1) i
  -- round up the averaging division if load is increasing
  let newLoad := if oldLoad < thisLoad then thisLoad + (scale - 1) else thisLoad
  (oldLoad * (scale - 1) + newLoad) >>> UInt32.ofNat i

def updateCpuLoad (s : CpuLoad) (jiffies : UInt32) : CpuLoad :=
  let s := { s with nrLoadUpdates := s.nrLoadUpdates + 1 }
  if jiffies = s.lastLoadUpdateTick then s
  else
    let pendingUpdates := (jiffies - s.lastLoadUpdateTick).toNat
    { s with
      lastLoadUpdateTick := jiffies
      cpuLoad := fun i =>
        if i = 0 then s.load
        else if i < cpuLoadIdxMax then updatedLoad s.load (s.cpuLoad i) pendingUpdates i
        else s.cpuLoad i }

/-! ### Missed ticks -/

/-- The factors of the table for the bits of a number of `k` bits, as a numerator over `128 ^ k`. -/
def decayFactor (idx : ℕ) : ℕ → ℕ → ℕ → ℕ
  | 0, _, _ => 1
  | k + 1, n, j =>
    (if n % 2 = 1 then degradeFactorAt idx j else 128) * decayFactor idx k (n / 2) (j + 1)

theorem decayFactor_zero (idx : ℕ) : ∀ k j : ℕ, decayFactor idx k 0 j = 128 ^ k
  | 0, _ => rfl
  | k + 1, j => by
    rw [decayFactor, if_neg (by decide), Nat.zero_div, decayFactor_zero idx k, pow_succ, mul_comm]

theorem degradeFactorAt_le (idx j : ℕ) : degradeFactorAt idx j ≤ 128 := by
  have htable : ∀ row ∈ degradeFactor, ∀ c ∈ row, c ≤ 128 := by decide
  rw [degradeFactorAt, List.getD_eq_getElem?_getD, List.getD_eq_getElem?_getD]
  cases hrow : degradeFactor[idx]? with
  | none => simp
  | some row =>
    cases hc : row[j]? with
    | none => simp [hc]
    | some c =>
      simpa [hc] using htable row (List.mem_of_getElem? hrow) c (List.mem_of_getElem? hc)

theorem decayFactor_le (idx : ℕ) : ∀ k n j : ℕ, decayFactor idx k n j ≤ 128 ^ k
  | 0, _, _ => le_rfl
  | k + 1, n, j => by
    rw [decayFactor, pow_succ']
    refine Nat.mul_le_mul ?_ (decayFactor_le idx k _ _)
    split_ifs
    · exact degradeFactorAt_le idx j
    · exact le_rfl

/-- One factor, rounded down. -/
theorem toNat_mul_degradeFactor {load : UInt32} (hload : load.toNat * 128 < 2 ^ 32) (idx j : ℕ) :
    ((load * UInt32.ofNat (degradeFactorAt idx j)) >>> 7).toNat =
      load.toNat * degradeFactorAt idx j / 128 := by
  have hc := degradeFactorAt_le idx j
  have hle : load.toNat * degradeFactorAt idx j ≤ load.toNat * 128 := Nat.mul_le_mul_left _ hc
  have hseven : (7 : UInt32).toNat % 32 = 7 := rfl
  rw [UInt32.toNat_shiftRight, UInt32.toNat_mul, UInt32.toNat_ofNat', hseven,
    Nat.mod_eq_of_lt (by omega : degradeFactorAt idx j < 2 ^ 32), Nat.mod_eq_of_lt (by omega),
    Nat.shiftRight_eq_div_pow]

/-- The loop multiplies by the factors of the bits, and loses less than one at each. -/
theorem decayLoop_bounds (idx : ℕ) : ∀ {k n : ℕ} {load : UInt32} (j : ℕ), n < 2 ^ k →
    load.toNat * 128 < 2 ^ 32 →
    ((decayLoop idx load n j).toNat : ℚ) ≤ load.toNat * (decayFactor idx k n j / 128 ^ k) ∧
      load.toNat * (decayFactor idx k n j / 128 ^ k : ℚ) ≤ (decayLoop idx load n j).toNat + k := by
  intro k
  induction k with
  | zero =>
    intro n load j hn _
    obtain rfl : n = 0 := by omega
    rw [decayLoop, if_pos rfl]
    simp [decayFactor]
  | succ k ih =>
    intro n load j hn hload
    by_cases h0 : n = 0
    · subst h0
      rw [decayLoop, if_pos rfl, decayFactor_zero]
      have hone : ((128 ^ (k + 1) : ℕ) : ℚ) / 128 ^ (k + 1) = 1 := by
        push_cast
        exact div_self (by positivity)
      rw [hone, mul_one]
      exact ⟨le_rfl, le_add_of_nonneg_right (by positivity)⟩
    · obtain ⟨c, hc⟩ : ∃ c, c = if n % 2 = 1 then degradeFactorAt idx j else 128 := ⟨_, rfl⟩
      obtain ⟨next, hnext⟩ : ∃ next : UInt32, next = if n % 2 = 1 then
          (load * UInt32.ofNat (degradeFactorAt idx j)) >>> 7 else load := ⟨_, rfl⟩
      have hnat : next.toNat = load.toNat * c / 128 := by
        rw [hnext, hc]
        split_ifs
        · exact toNat_mul_degradeFactor hload idx j
        · rw [Nat.mul_div_cancel _ (by decide)]
      have hc' : c ≤ 128 := by
        rw [hc]
        split_ifs
        · exact degradeFactorAt_le idx j
        · exact le_rfl
      have hnext' : next.toNat * 128 < 2 ^ 32 := by
        have := Nat.mul_le_mul_left load.toNat hc'
        omega
      -- the rest of the bits
      obtain ⟨d, hd⟩ : ∃ d : ℚ, d = decayFactor idx k (n / 2) (j + 1) / 128 ^ k := ⟨_, rfl⟩
      have hd₀ : 0 ≤ d := by rw [hd]; positivity
      have hd₁ : d ≤ 1 := by
        rw [hd, div_le_one (by positivity)]
        exact_mod_cast decayFactor_le idx k (n / 2) (j + 1)
      obtain ⟨hup, hlow⟩ := ih (j + 1) (by omega : n / 2 < 2 ^ k) hnext'
      rw [← hd] at hup hlow
      have hfactor : (load.toNat : ℚ) * (decayFactor idx (k + 1) n j / 128 ^ (k + 1)) =
          load.toNat * c / 128 * d := by
        rw [decayFactor, ← hc, hd, pow_succ]
        push_cast
        field_simp
      have hfloor : (next.toNat : ℚ) ≤ load.toNat * c / 128 ∧
          (load.toNat : ℚ) * c / 128 ≤ next.toNat + 1 := by
        have h₁ : next.toNat * 128 ≤ load.toNat * c := by omega
        have h₂ : load.toNat * c ≤ (next.toNat + 1) * 128 := by omega
        constructor
        · rw [le_div_iff₀ (by norm_num)]
          exact_mod_cast h₁
        · rw [div_le_iff₀ (by norm_num)]
          exact_mod_cast h₂
      rw [decayLoop, if_neg h0, ← hnext, hfactor]
      constructor
      · exact hup.trans (mul_le_mul_of_nonneg_right hfloor.1 hd₀)
      · calc (load.toNat : ℚ) * c / 128 * d ≤ (next.toNat + 1) * d :=
              mul_le_mul_of_nonneg_right hfloor.2 hd₀
          _ = next.toNat * d + d := by ring
          _ ≤ (decayLoop idx next (n / 2) (j + 1)).toNat + (k + 1 : ℕ) := by
            push_cast
            linarith

/-- The table is off by a hundredth at most, and to the low side. -/
theorem decayFactor_approx : ∀ idx ∈ [2, 3, 4], ∀ n < degradeZeroTicks.getD idx 0,
    decayFactor idx 7 n 0 * (2 ^ idx) ^ n ≤ (2 ^ idx - 1) ^ n * 128 ^ 7 ∧
      (2 ^ idx - 1) ^ n * 128 ^ 7 * 100 ≤
        (decayFactor idx 7 n 0 * 100 + 128 ^ 7) * (2 ^ idx) ^ n := by
  decide +kernel

/-- From `degrade_zero_ticks` on less than a hundredth would be left. -/
theorem degradeZeroTicks_approx : ∀ idx ∈ [1, 2, 3, 4],
    (2 ^ idx - 1) ^ degradeZeroTicks.getD idx 0 * 100 ≤
      (2 ^ idx) ^ degradeZeroTicks.getD idx 0 := by
  decide +kernel

/-- The weight of an old mean after `n` ticks without load. -/
def exactDecay (idx n : ℕ) : ℚ := ((2 ^ idx - 1 : ℕ) / 2 ^ idx) ^ n

theorem exactDecay_nonneg (idx n : ℕ) : 0 ≤ exactDecay idx n := by
  rw [exactDecay]
  positivity

theorem exactDecay_anti (idx : ℕ) {m n : ℕ} (h : m ≤ n) : exactDecay idx n ≤ exactDecay idx m := by
  rw [exactDecay, exactDecay]
  refine pow_le_pow_of_le_one (by positivity) ?_ h
  rw [div_le_one (by positivity)]
  exact_mod_cast Nat.sub_le _ _

/-- The decay by the table is that of all the missed ticks one after the other, without any
rounding, up to a hundredth of the load and 7. -/
theorem decayLoadMissed_bounds {load : UInt32} (hload : load.toNat * 128 < 2 ^ 32) {idx : ℕ}
    (hidx : idx ∈ [1, 2, 3, 4]) (n : ℕ) :
    ((decayLoadMissed load n idx).toNat : ℚ) ≤ load.toNat * exactDecay idx n ∧
      load.toNat * exactDecay idx n ≤
        (decayLoadMissed load n idx).toNat + load.toNat / 100 + 7 := by
  have hl₀ : (0 : ℚ) ≤ load.toNat := Nat.cast_nonneg _
  rw [decayLoadMissed]
  split_ifs with hn hz h1
  · -- no tick was missed
    rw [hn, exactDecay, pow_zero, mul_one]
    exact ⟨le_rfl, by linarith [div_nonneg hl₀ (by norm_num : (0 : ℚ) ≤ 100)]⟩
  · -- so many that next to nothing is left
    have hsmall : exactDecay idx n ≤ 1 / 100 := by
      refine (exactDecay_anti idx hz).trans ?_
      have hnat := degradeZeroTicks_approx idx hidx
      rw [exactDecay, div_pow, div_le_iff₀ (by positivity)]
      have hcast : (((2 ^ idx - 1 : ℕ) : ℚ)) ^ degradeZeroTicks.getD idx 0 * 100 ≤
          (2 ^ idx) ^ degradeZeroTicks.getD idx 0 := by exact_mod_cast hnat
      linarith
    have hzero : ((0 : UInt32).toNat : ℚ) = 0 := rfl
    rw [hzero]
    refine ⟨mul_nonneg hl₀ (exactDecay_nonneg idx n), ?_⟩
    have := mul_le_mul_of_nonneg_left hsmall hl₀
    linarith
  · -- halving is exact
    subst h1
    have hn8 : n < 8 := not_le.mp hz
    have hshift : (UInt32.ofNat n).toNat % 32 = n := by
      rw [UInt32.toNat_ofNat']
      omega
    have hexact : exactDecay 1 n = 1 / 2 ^ n := by
      rw [exactDecay, div_pow]
      norm_num
    have hpos : (0 : ℚ) < 2 ^ n := by positivity
    rw [UInt32.toNat_shiftRight, hshift, Nat.shiftRight_eq_div_pow, hexact, mul_one_div]
    have h₁ : load.toNat / 2 ^ n * 2 ^ n ≤ load.toNat := Nat.div_mul_le_self _ _
    have h₂ : load.toNat < (load.toNat / 2 ^ n + 1) * 2 ^ n :=
      Nat.lt_mul_of_div_lt (Nat.lt_succ_self _) (Nat.two_pow_pos n)
    have h₁' : ((load.toNat / 2 ^ n : ℕ) : ℚ) * 2 ^ n ≤ load.toNat := by exact_mod_cast h₁
    have h₂' : (load.toNat : ℚ) ≤ ((load.toNat / 2 ^ n : ℕ) + 1) * 2 ^ n := by
      exact_mod_cast h₂.le
    rw [le_div_iff₀ hpos, div_le_iff₀ hpos]
    refine ⟨h₁', h₂'.trans (mul_le_mul_of_nonneg_right ?_ hpos.le)⟩
    linarith [div_nonneg hl₀ (by norm_num : (0 : ℚ) ≤ 100)]
  · have hk : n < 2 ^ 7 := by
      have hall : ∀ idx ∈ [1, 2, 3, 4], degradeZeroTicks.getD idx 0 ≤ 2 ^ 7 := by decide
      have := hall idx hidx
      omega
    have hidx' : idx ∈ [2, 3, 4] := by
      simp only [List.mem_cons, List.not_mem_nil, or_false] at hidx ⊢
      omega
    obtain ⟨hup, hlow⟩ := decayLoop_bounds idx 0 hk hload
    obtain ⟨happ₁, happ₂⟩ := decayFactor_approx idx hidx' n (by omega)
    have hup' : (decayFactor idx 7 n 0 : ℚ) / 128 ^ 7 ≤ exactDecay idx n := by
      rw [exactDecay, div_pow, div_le_div_iff₀ (by positivity) (by positivity)]
      exact_mod_cast happ₁
    have hlow' : exactDecay idx n ≤ decayFactor idx 7 n 0 / 128 ^ 7 + 1 / 100 := by
      have hcast : (((2 ^ idx - 1 : ℕ) : ℚ)) ^ n * 128 ^ 7 * 100 ≤
          (decayFactor idx 7 n 0 * 100 + 128 ^ 7) * (2 ^ idx) ^ n := by exact_mod_cast happ₂
      rw [exactDecay, div_pow, div_le_iff₀ (by positivity)]
      rw [show (decayFactor idx 7 n 0 : ℚ) / 128 ^ 7 + 1 / 100 =
        (decayFactor idx 7 n 0 * 100 + 128 ^ 7) / (128 ^ 7 * 100) by field_simp,
        div_mul_eq_mul_div, le_div_iff₀ (by positivity)]
      linarith
    have hmul₁ := mul_le_mul_of_nonneg_left hup' hl₀
    have hmul₂ := mul_le_mul_of_nonneg_left hlow' hl₀
    push_cast at hlow
    exact ⟨hup.trans hmul₁, by linarith⟩

/-! ### Updates -/

/-- A mean decays to no more than it was. -/
theorem decayLoadMissed_le {load : UInt32} (hload : load.toNat * 128 < 2 ^ 32) {idx : ℕ}
    (hidx : idx ∈ [1, 2, 3, 4]) (n : ℕ) : (decayLoadMissed load n idx).toNat ≤ load.toNat := by
  have hle := exactDecay_anti idx (Nat.zero_le n)
  rw [exactDecay, exactDecay, pow_zero] at hle
  have hbound : (load.toNat : ℚ) * exactDecay idx n ≤ load.toNat :=
    mul_le_of_le_one_right (Nat.cast_nonneg _) hle
  exact_mod_cast (decayLoadMissed_bounds hload hidx n).1.trans hbound

/-- The mean of an old and a new load, rounded towards the new one. -/
def meanTowards (i old new : ℕ) : ℕ :=
  (old * (2 ^ i - 1) + (if old < new then new + (2 ^ i - 1) else new)) / 2 ^ i

/-- An update, when nothing wraps around. -/
theorem updatedLoad_toNat {thisLoad oldLoad : UInt32} {m i : ℕ} (hm : m * 128 < 2 ^ 32)
    (hi : i ∈ [1, 2, 3, 4]) (hthis : thisLoad.toNat ≤ m) (hold : oldLoad.toNat ≤ m) (n : ℕ) :
    (updatedLoad thisLoad oldLoad n i).toNat =
      meanTowards i (decayLoadMissed oldLoad (n - 1) i).toNat thisLoad.toNat := by
  obtain ⟨o, ho⟩ : ∃ o, o = decayLoadMissed oldLoad (n - 1) i := ⟨_, rfl⟩
  have hom : o.toNat ≤ m := by
    rw [ho]
    exact (decayLoadMissed_le (by omega) hi _).trans hold
  have hi' : i < 5 ∧ 1 ≤ i := by
    simp only [List.mem_cons, List.not_mem_nil, or_false] at hi
    omega
  have hpow : 2 ^ i ≤ 2 ^ 4 := Nat.pow_le_pow_right (by decide) (by omega)
  have hpos : 0 < 2 ^ i := Nat.two_pow_pos i
  have hiu : (UInt32.ofNat i).toNat = i := by
    rw [UInt32.toNat_ofNat', Nat.mod_eq_of_lt (by omega)]
  have hscale : ((1 : UInt32) <<< UInt32.ofNat i).toNat = 2 ^ i := by
    rw [UInt32.toNat_shiftLeft, hiu, Nat.mod_eq_of_lt (by omega : i < 32), Nat.shiftLeft_eq,
      show (1 : UInt32).toNat = 1 from rfl, Nat.one_mul, Nat.mod_eq_of_lt (by omega)]
  have hpred : ((1 : UInt32) <<< UInt32.ofNat i - 1).toNat = 2 ^ i - 1 := by
    rw [UInt32.toNat_sub_of_le _ _ (UInt32.le_iff_toNat_le.mpr (by rw [hscale]; exact hpos)),
      hscale]
    rfl
  have hmul : o.toNat * (2 ^ i - 1) ≤ m * 15 := Nat.mul_le_mul hom (by omega)
  rw [updatedLoad, ← ho, UInt32.toNat_shiftRight, hiu, Nat.mod_eq_of_lt (by omega : i < 32),
    Nat.shiftRight_eq_div_pow, UInt32.toNat_add, UInt32.toNat_mul, hpred, meanTowards,
    Nat.mod_eq_of_lt (by omega : o.toNat * (2 ^ i - 1) < 2 ^ 32)]
  by_cases hlt : o < thisLoad
  · rw [if_pos hlt, if_pos (UInt32.lt_iff_toNat_lt.mp hlt), UInt32.toNat_add, hpred,
      Nat.mod_eq_of_lt (by omega : thisLoad.toNat + (2 ^ i - 1) < 2 ^ 32),
      Nat.mod_eq_of_lt (by omega)]
  · rw [if_neg hlt, if_neg fun h => hlt (UInt32.lt_iff_toNat_lt.mpr h), Nat.mod_eq_of_lt (by omega)]

/-- The means stay between the old and the new load. -/
theorem meanTowards_mem (i old new : ℕ) :
    (old ≤ new → old ≤ meanTowards i old new ∧ meanTowards i old new ≤ new ∧
        (old < new → old < meanTowards i old new)) ∧
      (new ≤ old → new ≤ meanTowards i old new ∧ meanTowards i old new ≤ old ∧
        (new < old → meanTowards i old new < old)) := by
  obtain ⟨s, hs⟩ : ∃ s, 2 ^ i = s + 1 := ⟨2 ^ i - 1, by have := Nat.two_pow_pos i; omega⟩
  rw [meanTowards, hs, Nat.add_sub_cancel]
  constructor
  · intro hle
    obtain ⟨d, rfl⟩ := Nat.exists_eq_add_of_le hle
    by_cases hlt : old < old + d
    · rw [if_pos hlt]
      refine ⟨?_, ?_, fun _ => ?_⟩
      · rw [Nat.le_div_iff_mul_le (by omega), Nat.mul_succ]
        omega
      · rw [Nat.div_le_iff_le_mul_add_pred (by omega)]
        nlinarith
      · rw [Nat.lt_iff_add_one_le, Nat.le_div_iff_mul_le (by omega)]
        nlinarith
    · obtain rfl : d = 0 := by omega
      rw [if_neg hlt, Nat.add_zero]
      have : old * s + old = old * (s + 1) := by ring
      rw [this, Nat.mul_div_cancel _ (by omega)]
      exact ⟨le_rfl, le_rfl, fun h => h⟩
  · intro hle
    obtain ⟨d, rfl⟩ := Nat.exists_eq_add_of_le hle
    rw [if_neg (by omega)]
    refine ⟨?_, ?_, fun hlt => ?_⟩
    · rw [Nat.le_div_iff_mul_le (by omega)]
      nlinarith
    · exact Nat.div_le_of_le_mul (by nlinarith)
    · rw [Nat.div_lt_iff_lt_mul (by omega)]
      nlinarith

/-- The mean is rounded by less than one. -/
theorem abs_meanTowards_sub_le (i old new : ℕ) :
    |(meanTowards i old new : ℚ) - (old * (2 ^ i - 1) + new) / 2 ^ i| ≤ 1 := by
  obtain ⟨s, hs⟩ : ∃ s, 2 ^ i = s + 1 := ⟨2 ^ i - 1, by have := Nat.two_pow_pos i; omega⟩
  have hs' : (2 : ℚ) ^ i = s + 1 := by exact_mod_cast hs
  have hpos : (0 : ℚ) < s + 1 := by positivity
  obtain ⟨r, hr⟩ : ∃ r, r = old * s + (if old < new then new + s else new) := ⟨_, rfl⟩
  have hmean : meanTowards i old new = r / (s + 1) := by
    rw [meanTowards, hs, Nat.add_sub_cancel, hr]
  have hlo : old * s + new ≤ r ∧ r ≤ old * s + new + s := by
    rw [hr]
    split_ifs <;> omega
  have hdiv : (s + 1) * (r / (s + 1)) + r % (s + 1) = r := Nat.div_add_mod r (s + 1)
  have hmod : r % (s + 1) < s + 1 := Nat.mod_lt _ (Nat.succ_pos s)
  rw [hmean, hs', show (s : ℚ) + 1 - 1 = s by ring, abs_le]
  have hdiv' : ((s : ℚ) + 1) * (r / (s + 1) : ℕ) + (r % (s + 1) : ℕ) = r := by exact_mod_cast hdiv
  have hmod' : ((r % (s + 1) : ℕ) : ℚ) ≤ s + 1 := by exact_mod_cast hmod.le
  have hmod₀ : (0 : ℚ) ≤ (r % (s + 1) : ℕ) := Nat.cast_nonneg _
  have hlo₁ : (old : ℚ) * s + new ≤ r := by exact_mod_cast hlo.1
  have hlo₂ : (r : ℚ) ≤ old * s + new + s := by exact_mod_cast hlo.2
  constructor
  · rw [le_sub_iff_add_le, ← sub_eq_neg_add, sub_le_iff_le_add, div_le_iff₀ hpos]
    linarith
  · rw [sub_le_iff_le_add, ← sub_le_iff_le_add', le_div_iff₀ hpos]
    linarith

/-- An update after `n` ticks, all but the last of them missed, is that of the exact means, for loads
below `2 ^ 25`: the old load decays at each missed tick, then the new load comes in. The table, the
shifts and the rounding together are off by a hundredth of the old load and 8. Greater loads wrap
around in the product with an entry of the table. -/
theorem update_cpu_load_error {thisLoad oldLoad : UInt32} {m i : ℕ} (hm : m * 128 < 2 ^ 32)
    (hi : i ∈ [1, 2, 3, 4]) (hthis : thisLoad.toNat ≤ m) (hold : oldLoad.toNat ≤ m) (n : ℕ) :
    |((updatedLoad thisLoad oldLoad n i).toNat : ℚ) -
      (oldLoad.toNat * exactDecay i (n - 1) * (2 ^ i - 1) + thisLoad.toNat) / 2 ^ i| ≤
        oldLoad.toNat / 100 + 8 := by
  obtain ⟨o, ho⟩ : ∃ o : ℕ, o = (decayLoadMissed oldLoad (n - 1) i).toNat := ⟨_, rfl⟩
  obtain ⟨hup, hlow⟩ := decayLoadMissed_bounds (by omega : oldLoad.toNat * 128 < 2 ^ 32) hi (n - 1)
  rw [updatedLoad_toNat hm hi hthis hold, ← ho]
  rw [← ho] at hup hlow
  have hpos : (0 : ℚ) < 2 ^ i := by positivity
  have hone : (1 : ℚ) ≤ 2 ^ i := one_le_pow₀ (by norm_num)
  have hround := abs_meanTowards_sub_le i o thisLoad.toNat
  -- the error of the decay, in the mean
  obtain ⟨x, hx⟩ : ∃ x : ℚ, x = oldLoad.toNat * exactDecay i (n - 1) := ⟨_, rfl⟩
  rw [← hx] at hup hlow ⊢
  have hsplit : ((o : ℚ) * (2 ^ i - 1) + thisLoad.toNat) / 2 ^ i -
      (x * (2 ^ i - 1) + thisLoad.toNat) / 2 ^ i = (o - x) * ((2 ^ i - 1) / 2 ^ i) := by
    field_simp
    ring
  have hw₀ : (0 : ℚ) ≤ (2 ^ i - 1) / 2 ^ i := div_nonneg (by linarith) hpos.le
  have hw₁ : ((2 : ℚ) ^ i - 1) / 2 ^ i ≤ 1 := by
    rw [div_le_one hpos]
    linarith
  have hdecay : |((o : ℚ) - x) * ((2 ^ i - 1) / 2 ^ i)| ≤ oldLoad.toNat / 100 + 7 := by
    rw [abs_mul, abs_of_nonneg hw₀]
    have habs : |(o : ℚ) - x| ≤ oldLoad.toNat / 100 + 7 := by
      rw [abs_le]
      constructor <;> linarith
    calc _ ≤ ((oldLoad.toNat : ℚ) / 100 + 7) * 1 :=
          mul_le_mul habs hw₁ hw₀ (by positivity)
      _ = oldLoad.toNat / 100 + 7 := mul_one _
  have hadd := abs_sub_le (meanTowards i o thisLoad.toNat : ℚ)
    (((o : ℚ) * (2 ^ i - 1) + thisLoad.toNat) / 2 ^ i)
    ((x * (2 ^ i - 1) + thisLoad.toNat) / 2 ^ i)
  rw [hsplit] at hadd
  linarith

theorem update_cpu_load_error_twenty :
    |((updatedLoad 512 1024 20 3).toNat : ℚ) -
      ((1024 : UInt32).toNat * exactDecay 3 (20 - 1) * (2 ^ 3 - 1) + (512 : UInt32).toNat) /
        2 ^ 3| ≤ ((1024 : UInt32).toNat : ℚ) / 100 + 8 :=
  update_cpu_load_error (m := 1024) (by decide) (by decide) (by decide) (by decide) 20

/-! ### Runs -/

/-- The load of the run queue changes, or its means are updated. -/
inductive CpuLoadOp
  | setLoad (load : UInt32)
  | update (jiffies : UInt32)

def cpuLoadExec (s : CpuLoad) : CpuLoadOp → Option CpuLoad
  | .setLoad load => some { s with load := load }
  | .update jiffies => some (updateCpuLoad s jiffies)

/-- `sched_init` has run. -/
structure CpuLoadBoot (s : CpuLoad) : Prop where
  load : s.load = 0
  cpuLoad : ∀ i, s.cpuLoad i = 0

def cpuLoadSystem : System CpuLoad CpuLoadOp := .ofExec CpuLoadBoot cpuLoadExec

/-- The load is at most `m`. -/
def LoadAtMost (m : ℕ) (_ : CpuLoad) : CpuLoadOp → Prop
  | .setLoad load => load.toNat ≤ m
  | .update _ => True

/-- The load and the five means are at most `m`. -/
structure CpuLoad.AtMost (s : CpuLoad) (m : ℕ) : Prop where
  load : s.load.toNat ≤ m
  cpuLoad : ∀ i < cpuLoadIdxMax, (s.cpuLoad i).toNat ≤ m

theorem mem_idx {i : ℕ} (h0 : i ≠ 0) (hi : i < cpuLoadIdxMax) : i ∈ [1, 2, 3, 4] := by
  rw [cpuLoadIdxMax] at hi
  simp only [List.mem_cons, List.not_mem_nil, or_false]
  omega

theorem CpuLoad.AtMost.update {s : CpuLoad} {m : ℕ} (hm : m * 128 < 2 ^ 32) (h : s.AtMost m)
    (jiffies : UInt32) : (updateCpuLoad s jiffies).AtMost m := by
  rw [updateCpuLoad]
  dsimp only
  split_ifs
  · exact ⟨h.load, h.cpuLoad⟩
  · refine ⟨h.load, fun i hi => ?_⟩
    dsimp only
    split_ifs with h0
    · exact h.load
    · have hidx := mem_idx h0 hi
      rw [updatedLoad_toNat hm hidx h.load (h.cpuLoad i hi)]
      have hdecay := (decayLoadMissed_le (by have := h.cpuLoad i hi; omega) hidx
        ((jiffies - s.lastLoadUpdateTick).toNat - 1)).trans (h.cpuLoad i hi)
      have hthis := h.load
      obtain ⟨hup, hdown⟩ := meanTowards_mem i (decayLoadMissed (s.cpuLoad i)
        ((jiffies - s.lastLoadUpdateTick).toNat - 1) i).toNat s.load.toNat
      rcases le_total (decayLoadMissed (s.cpuLoad i)
        ((jiffies - s.lastLoadUpdateTick).toNat - 1) i).toNat s.load.toNat with hle | hle
      · have := hup hle; omega
      · have := hdown hle; omega

theorem CpuLoad.AtMost.step {s s' : CpuLoad} {m : ℕ} {op : CpuLoadOp} (hm : m * 128 < 2 ^ 32)
    (h : s.AtMost m) (hop : LoadAtMost m s op) (hx : cpuLoadExec s op = some s') : s'.AtMost m := by
  cases op with
  | setLoad load =>
    obtain rfl := Option.some.inj hx
    exact ⟨hop, h.cpuLoad⟩
  | update jiffies =>
    obtain rfl := Option.some.inj hx
    exact h.update hm jiffies

/-- The update at the next tick. -/
def nextTick (s : CpuLoad) : CpuLoad := updateCpuLoad s (s.lastLoadUpdateTick + 1)

/-- No tick has been missed. -/
theorem nextTick_cpuLoad {s : CpuLoad} {m i : ℕ} (hm : m * 128 < 2 ^ 32) (h : s.AtMost m)
    (hi : i < cpuLoadIdxMax) : ((nextTick s).cpuLoad i).toNat =
      if i = 0 then s.load.toNat else meanTowards i (s.cpuLoad i).toNat s.load.toNat := by
  have hne : s.lastLoadUpdateTick + 1 ≠ s.lastLoadUpdateTick := fun he => by
    have := congrArg UInt32.toNat he
    rw [UInt32.toNat_add, show (1 : UInt32).toNat = 1 from rfl] at this
    omega
  have hone : (s.lastLoadUpdateTick + 1 - s.lastLoadUpdateTick).toNat = 1 := by
    have hlt := s.lastLoadUpdateTick.toNat_lt
    rw [UInt32.toNat_sub, UInt32.toNat_add, show (1 : UInt32).toNat = 1 from rfl]
    omega
  rw [nextTick, updateCpuLoad]
  dsimp only
  rw [if_neg hne, hone]
  dsimp only
  split_ifs with h0
  · rfl
  · rw [updatedLoad_toNat hm (mem_idx h0 hi) h.load (h.cpuLoad i hi)]
    rfl

theorem nextTick_load (s : CpuLoad) : (nextTick s).load = s.load := by
  rw [nextTick, updateCpuLoad]
  dsimp only
  split_ifs <;> rfl

/-- The means come closer to the load at every tick, until they reach it. -/
theorem settles {m : ℕ} (hm : m * 128 < 2 ^ 32) : ∀ {d k : ℕ} {s : CpuLoad}, s.AtMost m →
    (∀ i < cpuLoadIdxMax, (s.cpuLoad i).toNat ≤ s.load.toNat + d ∧
      s.load.toNat ≤ (s.cpuLoad i).toNat + d) →
    d ≤ k → ∀ i < cpuLoadIdxMax, (nextTick^[k] s).cpuLoad i = s.load := by
  intro d k
  induction k generalizing d with
  | zero =>
    intro s _ hd hdk i hi
    obtain rfl : d = 0 := by omega
    have := hd i hi
    exact UInt32.toNat_inj.mp (by simp only [Function.iterate_zero, id_eq]; omega)
  | succ k ih =>
    intro s h hd hdk i hi
    rw [Function.iterate_succ_apply, ← nextTick_load s]
    have hnext : (nextTick s).AtMost m := h.update hm _
    refine ih (d := d - 1) hnext (fun j hj => ?_) (by omega) i hi
    have hdj := hd j hj
    rw [nextTick_load, nextTick_cpuLoad hm h hj]
    split_ifs
    · omega
    · obtain ⟨hup, hdown⟩ := meanTowards_mem j (s.cpuLoad j).toNat s.load.toNat
      rcases le_total (s.cpuLoad j).toNat s.load.toNat with hle | hle
      · have := hup hle; omega
      · have := hdown hle; omega

/-- In every run with loads up to `m`, which is below `2 ^ 25`, the means are up to `m`, and nothing
wraps around. Under a constant load all of them reach it, in no more than `m` ticks, and stay there:
the rounding "prevents us from getting stuck on 9 if the load is 10". -/
theorem cpu_load_settles {m : ℕ} (hm : m * 128 < 2 ^ 32) {s : CpuLoad}
    (h : Reachable (cpuLoadSystem.restrict (LoadAtMost m)) s) :
    s.AtMost m ∧ ∀ k ≥ m, ∀ i < cpuLoadIdxMax, (nextTick^[k] s).cpuLoad i = s.load := by
  have hmost : s.AtMost m := by
    induction h with
    | init hs =>
      have hs : CpuLoadBoot _ := hs
      exact ⟨by rw [hs.load]; exact Nat.zero_le _,
        fun i _ => by rw [hs.cpuLoad]; exact Nat.zero_le _⟩
    | step _ hstep ih => exact ih.step hm hstep.1 hstep.2
  refine ⟨hmost, fun k hk i hi => settles hm hmost (fun j hj => ?_) hk i hi⟩
  have h₁ := hmost.load
  have h₂ := hmost.cpuLoad j hj
  omega

theorem cpu_load_settles_ten :
    ∃ s, CpuLoad.AtMost s 10 ∧ ∀ k ≥ 10, ∀ i < cpuLoadIdxMax, (nextTick^[k] s).cpuLoad i = s.load := by
  have hboot : CpuLoadBoot
      { load := 0, cpuLoad := fun _ => 0, lastLoadUpdateTick := 0, nrLoadUpdates := 0 } :=
    ⟨rfl, fun _ => rfl⟩
  have hload : (cpuLoadSystem.restrict (LoadAtMost 10)).step
      { load := 0, cpuLoad := fun _ => 0, lastLoadUpdateTick := 0, nrLoadUpdates := 0 }
      (.setLoad 10) _ := ⟨show (10 : UInt32).toNat ≤ 10 by decide, rfl⟩
  exact ⟨_, cpu_load_settles (by decide) (Reachable.step (.init hboot) hload)⟩

end OsProject.Sched
