import OsProject.Lib.FixedPoint

/-!
# Load averages

The load averages are exponentially decaying means of the number of active tasks, kept in
fixed-point numbers of `FSHIFT` fractional bits. Every five seconds `calc_load` takes one step. A
processor that has idled for longer makes up for the steps it has missed with one step of a weight
that `fixed_power_int` computes. All arithmetic is that of `unsigned long`, which has 32 bits, and
wraps around.

## Main definitions

* `calcLoad`, `fixedPowerInt`, `calcLoadN` — a step, powers, and many steps in one.

## Main results

* `calcLoad_toNat` — up to 1023 active tasks nothing wraps around.
* `fixed_power_int_error` — how far a power is off.
* `calc_load_n_agrees` — the step that stands for many is as good as the many, up to rounding.
* `calc_load_rests` — where the load average comes to rest under a constant number of tasks.

Source: `kernel/sched/core.c`, `include/linux/sched.h`.
-/

namespace OsProject.Sched

open FixedPoint

/-- `FIXED_1`, with `FSHIFT` fractional bits. -/
def fixed1 : UInt32 := (1 : UInt32) <<< 11

/-- `EXP_1`. -/
def exp1 : UInt32 := 1884

/-- `EXP_5`. -/
def exp5 : UInt32 := 2014

/-- `EXP_15`. -/
def exp15 : UInt32 := 2037

def calcLoad (load exp active : UInt32) : UInt32 :=
  (load * exp + active * (fixed1 - exp) + (1 : UInt32) <<< (11 - 1)) >>> 11

/-- The loop of `fixed_power_int`. -/
def fixedPowerLoop (fracBits result x : UInt32) (n : ℕ) : UInt32 :=
  let result :=
    if n % 2 = 1 then (result * x + (1 : UInt32) <<< (fracBits - 1)) >>> fracBits else result
  if n / 2 = 0 then result
  else fixedPowerLoop fracBits result ((x * x + (1 : UInt32) <<< (fracBits - 1)) >>> fracBits) (n / 2)
termination_by n
decreasing_by omega

def fixedPowerInt (x fracBits : UInt32) (n : ℕ) : UInt32 :=
  let result := (1 : UInt32) <<< fracBits
  if n ≠ 0 then fixedPowerLoop fracBits result x n else result

def calcLoadN (load exp active : UInt32) (n : ℕ) : UInt32 :=
  calcLoad load (fixedPowerInt exp 11 n) active

/-! ### Without wrapping around -/

theorem toNat_fixed1 : fixed1.toNat = 2 ^ 11 := rfl

/-- One step, as a mean of numbers, when no product wraps around. -/
theorem calcLoad_toNat {load exp active : UInt32} {m : ℕ} (hm : m ≤ 1023)
    (he : exp.toNat ≤ 2 ^ 11) (hl : load.toNat ≤ m * 2 ^ 11) (ha : active.toNat ≤ m * 2 ^ 11) :
    (calcLoad load exp active).toNat = relax 11 load.toNat exp.toNat active.toNat := by
  have hsub : (fixed1 - exp).toNat = 2 ^ 11 - exp.toNat := by
    rw [UInt32.toNat_sub_of_le _ _ (UInt32.le_iff_toNat_le.mpr he), toNat_fixed1]
  have hsum : load.toNat * exp.toNat + active.toNat * (2 ^ 11 - exp.toNat) ≤ m * 2 ^ 11 * 2 ^ 11 :=
    (Nat.add_le_add (Nat.mul_le_mul_right _ hl) (Nat.mul_le_mul_right _ ha)).trans
      (weights he _).le
  have hfirst := Nat.le_of_add_right_le hsum
  have hsecond := Nat.le_of_add_left_le hsum
  have hhalf : ((1 : UInt32) <<< (11 - 1)).toNat = 2 ^ (11 - 1) := rfl
  have hshift : (11 : UInt32).toNat % 32 = 11 := rfl
  rw [calcLoad, UInt32.toNat_shiftRight, UInt32.toNat_add, UInt32.toNat_add, UInt32.toNat_mul,
    UInt32.toNat_mul, hsub, hhalf, hshift, relax, scaleDown, Nat.shiftRight_eq_div_pow,
    Nat.mod_eq_of_lt (by omega : load.toNat * exp.toNat < 2 ^ 32),
    Nat.mod_eq_of_lt (by omega : active.toNat * (2 ^ 11 - exp.toNat) < 2 ^ 32),
    Nat.mod_eq_of_lt (by omega :
      load.toNat * exp.toNat + active.toNat * (2 ^ 11 - exp.toNat) < 2 ^ 32),
    Nat.mod_eq_of_lt (by omega)]

/-- A step stays below what the load and the active tasks are below. -/
theorem calcLoad_le {load exp active : UInt32} {m : ℕ} (hm : m ≤ 1023)
    (he : exp.toNat ≤ 2 ^ 11) (hl : load.toNat ≤ m * 2 ^ 11) (ha : active.toNat ≤ m * 2 ^ 11) :
    (calcLoad load exp active).toNat ≤ m * 2 ^ 11 := by
  rw [calcLoad_toNat hm he hl ha]
  exact relax_le (by decide) he hl ha

theorem toNat_one_shiftLeft {k : UInt32} (hk : k.toNat < 32) :
    ((1 : UInt32) <<< k).toNat = 2 ^ k.toNat := by
  have hpow : 2 ^ k.toNat < 2 ^ 32 := Nat.pow_lt_pow_right (by decide) hk
  rw [UInt32.toNat_shiftLeft, Nat.mod_eq_of_lt hk, Nat.shiftLeft_eq,
    show (1 : UInt32).toNat = 1 from rfl, Nat.one_mul, Nat.mod_eq_of_lt hpow]

/-- A rounded product of machine words, for numbers up to one of up to 15 fractional bits. -/
theorem toNat_mul_round {x y fracBits : UInt32} (h₀ : 0 < fracBits.toNat) (h₁ : fracBits.toNat ≤ 15)
    (hx : x.toNat ≤ 2 ^ fracBits.toNat) (hy : y.toNat ≤ 2 ^ fracBits.toNat) :
    ((x * y + (1 : UInt32) <<< (fracBits - 1)) >>> fracBits).toNat =
      mul fracBits.toNat x.toNat y.toNat := by
  have hmod : fracBits.toNat % 32 = fracBits.toNat := Nat.mod_eq_of_lt (by omega)
  have hpred : (fracBits - 1).toNat = fracBits.toNat - 1 :=
    UInt32.toNat_sub_of_le _ _ (UInt32.le_iff_toNat_le.mpr h₀)
  have hpow : 2 ^ (fracBits.toNat - 1) ≤ 2 ^ 14 := Nat.pow_le_pow_right (by decide) (by omega)
  have hone : ((1 : UInt32) <<< (fracBits - 1)).toNat = 2 ^ (fracBits.toNat - 1) := by
    rw [toNat_one_shiftLeft (by omega), hpred]
  have hbound : x.toNat * y.toNat ≤ 2 ^ 15 * 2 ^ 15 := Nat.mul_le_mul
    (hx.trans (Nat.pow_le_pow_right (by decide) h₁))
    (hy.trans (Nat.pow_le_pow_right (by decide) h₁))
  rw [UInt32.toNat_shiftRight, UInt32.toNat_add, UInt32.toNat_mul, hone, hmod,
    Nat.shiftRight_eq_div_pow, Nat.mod_eq_of_lt (by omega : x.toNat * y.toNat < 2 ^ 32),
    Nat.mod_eq_of_lt (by omega), mul, scaleDown]

theorem fixedPowerLoop_toNat {fracBits : UInt32} (h₀ : 0 < fracBits.toNat)
    (h₁ : fracBits.toNat ≤ 15) : ∀ {n : ℕ} {result x : UInt32},
      result.toNat ≤ 2 ^ fracBits.toNat → x.toNat ≤ 2 ^ fracBits.toNat →
      (fixedPowerLoop fracBits result x n).toNat =
        powLoop fracBits.toNat result.toNat x.toNat n := by
  intro n
  induction n using Nat.strong_induction_on with
  | _ n ih =>
    intro result x hr hx
    by_cases hn : n = 0
    · subst hn
      rw [fixedPowerLoop, powLoop_zero]
      rfl
    · obtain ⟨next, hnext⟩ : ∃ next : UInt32, next =
          if n % 2 = 1 then (result * x + (1 : UInt32) <<< (fracBits - 1)) >>> fracBits else result :=
        ⟨_, rfl⟩
      have hnat : next.toNat =
          if n % 2 = 1 then mul fracBits.toNat result.toNat x.toNat else result.toNat := by
        rw [hnext]
        split_ifs
        · exact toNat_mul_round h₀ h₁ hr hx
        · rfl
      have hle : next.toNat ≤ 2 ^ fracBits.toNat := by
        rw [hnat]
        split_ifs
        · exact mul_le h₀ hr hx
        · exact hr
      have hsq := toNat_mul_round h₀ h₁ hx hx
      rw [fixedPowerLoop, powLoop_pos _ _ _ hn, ← hnext, ← hnat]
      split_ifs with hlast
      · rw [hlast, powLoop_zero]
      · rw [ih (n / 2) (by omega) hle (hsq ▸ mul_le h₀ hx hx), hsq]

theorem fixedPowerInt_toNat {x fracBits : UInt32} (h₀ : 0 < fracBits.toNat)
    (h₁ : fracBits.toNat ≤ 15) (hx : x.toNat ≤ 2 ^ fracBits.toNat) (n : ℕ) :
    (fixedPowerInt x fracBits n).toNat = expPow fracBits.toNat x.toNat n := by
  have hone : ((1 : UInt32) <<< fracBits).toNat = 2 ^ fracBits.toNat :=
    toNat_one_shiftLeft (by omega)
  rw [fixedPowerInt, expPow, ← hone]
  split_ifs with hn
  · exact fixedPowerLoop_toNat h₀ h₁ hone.le hx
  · obtain rfl : n = 0 := not_not.mp hn
    rw [powLoop_zero]

/-! ### Accuracy -/

/-- `fixed_power_int` computes a power of a number up to one, with up to 15 fractional bits, as it
would with numbers of any size, and with an error of at most half a unit of the last place for each
factor. -/
theorem fixed_power_int_error {x fracBits : UInt32} (h₀ : 0 < fracBits.toNat)
    (h₁ : fracBits.toNat ≤ 15) (hx : x.toNat ≤ 2 ^ fracBits.toNat) (n : ℕ) :
    (fixedPowerInt x fracBits n).toNat = expPow fracBits.toNat x.toNat n ∧
      |((fixedPowerInt x fracBits n).toNat : ℚ) -
        2 ^ fracBits.toNat * ((x.toNat : ℚ) / 2 ^ fracBits.toNat) ^ n| ≤ n / 2 := by
  refine ⟨fixedPowerInt_toNat h₀ h₁ hx n, ?_⟩
  rw [fixedPowerInt_toNat h₀ h₁ hx]
  exact abs_expPow_sub_le h₀ hx n

theorem fixed_power_int_error_exp5 :
    (fixedPowerInt exp5 11 60).toNat = expPow (11 : UInt32).toNat exp5.toNat 60 ∧
      |((fixedPowerInt exp5 11 60).toNat : ℚ) -
        2 ^ (11 : UInt32).toNat * ((exp5.toNat : ℚ) / 2 ^ (11 : UInt32).toNat) ^ 60| ≤
          ((60 : ℕ) : ℚ) / 2 :=
  fixed_power_int_error (by decide) (by decide) (by decide) 60

/-- Steps one after the other, as means of numbers. -/
theorem calcLoad_iterate_toNat {load exp active : UInt32} {m : ℕ} (hm : m ≤ 1023)
    (he : exp.toNat ≤ 2 ^ 11) (hl : load.toNat ≤ m * 2 ^ 11) (ha : active.toNat ≤ m * 2 ^ 11)
    (n : ℕ) : ((fun l => calcLoad l exp active)^[n] load).toNat =
        (fun l => relax 11 l exp.toNat active.toNat)^[n] load.toNat ∧
      ((fun l => calcLoad l exp active)^[n] load).toNat ≤ m * 2 ^ 11 := by
  induction n with
  | zero => exact ⟨rfl, hl⟩
  | succ n ih =>
    obtain ⟨heq, hle⟩ := ih
    rw [Function.iterate_succ_apply', Function.iterate_succ_apply']
    refine ⟨?_, calcLoad_le hm he hle ha⟩
    rw [calcLoad_toNat hm he hle ha, heq]

/-- The step that stands for `n` missed ones is as good as these, up to rounding: half a unit for
each, and half a unit of the weight. -/
theorem calc_load_n_agrees {load exp active : UInt32} {m : ℕ} (hm : m ≤ 1023)
    (he : exp.toNat ≤ 2 ^ 11) (hl : load.toNat ≤ m * 2 ^ 11) (ha : active.toNat ≤ m * 2 ^ 11)
    (n : ℕ) :
    |((calcLoadN load exp active n).toNat : ℚ) -
      ((fun l => calcLoad l exp active)^[n] load).toNat| ≤
        (n + 1) / 2 + |(load.toNat : ℚ) - active.toNat| * (n / 2 / 2 ^ 11) := by
  have hpow : (fixedPowerInt exp 11 n).toNat = expPow 11 exp.toNat n :=
    fixedPowerInt_toNat (by decide) (by decide) he n
  have hle : (fixedPowerInt exp 11 n).toNat ≤ 2 ^ 11 := hpow ▸ expPow_le (by decide) he n
  rw [calcLoadN, calcLoad_toNat hm hle hl ha, hpow, (calcLoad_iterate_toNat hm he hl ha n).1]
  exact abs_relax_expPow_sub_iterate_le (by decide) he load.toNat active.toNat n

/-- Under a constant number of active tasks, up to 1023, a load average that is no greater than 1023
comes to rest, after no more samples than the two are units apart, and stays there for ever: short of
the active tasks when it rises, above them when it falls. So the load average of an idle machine does
not fall to zero. -/
theorem calc_load_rests {load exp active : UInt32} {m : ℕ} (hm : m ≤ 1023)
    (he : exp.toNat < 2 ^ 11) (hl : load.toNat ≤ m * 2 ^ 11) (ha : active.toNat ≤ m * 2 ^ 11)
    {n : ℕ} (h₁ : load.toNat ≤ active.toNat + n) (h₂ : active.toNat ≤ load.toNat + n) :
    ((fun l => calcLoad l exp active)^[n] load).toNat =
      if load.toNat ≤ active.toNat then
        max load.toNat (active.toNat - 1023 / (2048 - exp.toNat))
      else min load.toNat (active.toNat + 1024 / (2048 - exp.toNat)) := by
  rw [(calcLoad_iterate_toNat hm he.le hl ha n).1]
  exact relax_iterate_eq (by decide) he h₁ h₂ le_rfl

/-- A task that has run for long is gone: the average over 15 minutes stays at 0.045. -/
theorem calc_load_rests_idle :
    ((fun l => calcLoad l exp15 0)^[2048] 2048).toNat =
      if (2048 : UInt32).toNat ≤ (0 : UInt32).toNat then
        max (2048 : UInt32).toNat ((0 : UInt32).toNat - 1023 / (2048 - exp15.toNat))
      else min (2048 : UInt32).toNat ((0 : UInt32).toNat + 1024 / (2048 - exp15.toNat)) :=
  calc_load_rests (m := 1) (by decide) (by decide) (by decide) (by decide) (by decide) (by decide)

end OsProject.Sched
