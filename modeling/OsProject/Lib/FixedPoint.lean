import Mathlib.Algebra.Order.Field.Rat
import Mathlib.Algebra.Order.Field.Basic
import Mathlib.Tactic.Linarith
import Mathlib.Tactic.Ring
import Mathlib.Tactic.FieldSimp
import Mathlib.Tactic.Positivity
import Mathlib.Tactic.NormNum

/-!
# Fixed-point arithmetic

A natural number `x` stands for `x / 2 ^ f`. Products are divided by `2 ^ f` and rounded to the
nearest number, halves up. The results compare what a program computes with the exact rational
value, in units of the last place.

## Main definitions

* `FixedPoint.scaleDown`, `FixedPoint.mul` — rounded division by `2 ^ f`, and rounded products.
* `FixedPoint.powLoop` — powers by repeated squaring.
* `FixedPoint.relax` — the weighted mean of a value and the value it tends to.

## Main results

* `FixedPoint.abs_powLoop_sub_le` — a power by repeated squaring is off by half a unit for each
  factor at most, although it takes only logarithmically many products.
* `FixedPoint.abs_relax_iterate_sub_le`, `FixedPoint.abs_relax_expPow_sub_le` — many means one
  after the other, and all of them in one step.
* `FixedPoint.relax_eq_self_iff`, `FixedPoint.relax_iterate_eq` — where repeated means come to rest.
-/

namespace FixedPoint

variable {f x y n load exp active : ℕ}

/-! ### Rounded division -/

/-- Division by `2 ^ f`, rounded to the nearest number, halves up. -/
def scaleDown (f x : ℕ) : ℕ := (x + 2 ^ (f - 1)) / 2 ^ f

theorem two_mul_half (hf : 0 < f) : 2 * 2 ^ (f - 1) = 2 ^ f := by
  rw [← pow_succ', Nat.sub_add_cancel hf]

theorem scaleDown_mono (f : ℕ) (h : x ≤ y) : scaleDown f x ≤ scaleDown f y :=
  Nat.div_le_div_right (Nat.add_le_add_right h _)

theorem scaleDown_mul (hf : 0 < f) (x : ℕ) : scaleDown f (x * 2 ^ f) = x := by
  have hhalf := two_mul_half hf
  have hpos : 0 < 2 ^ (f - 1) := Nat.two_pow_pos _
  rw [scaleDown, Nat.add_comm, Nat.add_mul_div_right _ _ (Nat.two_pow_pos f),
    Nat.div_eq_of_lt (by omega), Nat.zero_add]

theorem scaleDown_le (hf : 0 < f) (h : x ≤ y * 2 ^ f) : scaleDown f x ≤ y :=
  (scaleDown_mono f h).trans (scaleDown_mul hf y).le

theorem le_scaleDown (hf : 0 < f) (h : y * 2 ^ f ≤ x) : y ≤ scaleDown f x :=
  (scaleDown_mul hf y).ge.trans (scaleDown_mono f h)

/-- Rounding is off by half a unit at most. -/
theorem abs_scaleDown_sub_le (hf : 0 < f) (x : ℕ) :
    |(scaleDown f x : ℚ) - x / 2 ^ f| ≤ 1 / 2 := by
  have hpos : (0 : ℚ) < 2 ^ f := by positivity
  have hhalf : 2 * (2 : ℚ) ^ (f - 1) = 2 ^ f := by exact_mod_cast two_mul_half hf
  have hdiv : 2 ^ f * scaleDown f x + (x + 2 ^ (f - 1)) % 2 ^ f = x + 2 ^ (f - 1) :=
    Nat.div_add_mod _ _
  have hmod : (x + 2 ^ (f - 1)) % 2 ^ f < 2 ^ f := Nat.mod_lt _ (Nat.two_pow_pos f)
  obtain ⟨r, hr⟩ : ∃ r, r = (x + 2 ^ (f - 1)) % 2 ^ f := ⟨_, rfl⟩
  rw [← hr] at hdiv hmod
  have hdiv' : (2 : ℚ) ^ f * scaleDown f x + r = x + 2 ^ (f - 1) := by exact_mod_cast hdiv
  have hmod' : (r : ℚ) < 2 ^ f := by exact_mod_cast hmod
  have hr0 : (0 : ℚ) ≤ r := Nat.cast_nonneg r
  have heq : (scaleDown f x : ℚ) - x / 2 ^ f = (2 ^ (f - 1) - r) / 2 ^ f := by
    field_simp
    linarith
  rw [heq, abs_le]
  constructor
  · rw [le_div_iff₀ hpos]
    linarith
  · rw [div_le_iff₀ hpos]
    linarith

/-! ### Products -/

/-- The rounded product. -/
def mul (f x y : ℕ) : ℕ := scaleDown f (x * y)

/-- Numbers up to one have products up to one. -/
theorem mul_le (hf : 0 < f) (hx : x ≤ 2 ^ f) (hy : y ≤ 2 ^ f) : mul f x y ≤ 2 ^ f :=
  scaleDown_le hf (Nat.mul_le_mul hx hy)

/-- The errors of the factors add up, and half a unit is added. -/
theorem abs_mul_sub_le (hf : 0 < f) (hx : x ≤ 2 ^ f) {ξ η a b : ℚ} (hη₀ : 0 ≤ η) (hη₁ : η ≤ 1)
    (ha : |(x : ℚ) - 2 ^ f * ξ| ≤ a) (hb : |(y : ℚ) - 2 ^ f * η| ≤ b) :
    |(mul f x y : ℚ) - 2 ^ f * (ξ * η)| ≤ a + b + 1 / 2 := by
  have hpos : (0 : ℚ) < 2 ^ f := by positivity
  have hx₁ : (x : ℚ) / 2 ^ f ≤ 1 := by
    rw [div_le_one hpos]
    exact_mod_cast hx
  have hx₀ : (0 : ℚ) ≤ (x : ℚ) / 2 ^ f := by positivity
  have hround := abs_scaleDown_sub_le hf (x * y)
  have hb₀ : 0 ≤ b := (abs_nonneg _).trans hb
  have ha₀ : 0 ≤ a := (abs_nonneg _).trans ha
  have hsplit : (mul f x y : ℚ) - 2 ^ f * (ξ * η) =
      ((scaleDown f (x * y) : ℚ) - ((x * y : ℕ) : ℚ) / 2 ^ f) +
        (x / 2 ^ f * (y - 2 ^ f * η) + (x - 2 ^ f * ξ) * η) := by
    rw [mul]
    push_cast
    field_simp
    ring
  have hleft : |(x : ℚ) / 2 ^ f * (y - 2 ^ f * η)| ≤ b := by
    rw [abs_mul, abs_of_nonneg hx₀]
    calc (x : ℚ) / 2 ^ f * |(y : ℚ) - 2 ^ f * η| ≤ 1 * b :=
          mul_le_mul hx₁ hb (abs_nonneg _) zero_le_one
      _ = b := one_mul b
  have hright : |((x : ℚ) - 2 ^ f * ξ) * η| ≤ a := by
    rw [abs_mul, abs_of_nonneg hη₀]
    calc |(x : ℚ) - 2 ^ f * ξ| * η ≤ a * 1 := mul_le_mul ha hη₁ hη₀ ha₀
      _ = a := mul_one a
  rw [hsplit]
  calc _ ≤ |(scaleDown f (x * y) : ℚ) - ((x * y : ℕ) : ℚ) / 2 ^ f| +
          |(x : ℚ) / 2 ^ f * (y - 2 ^ f * η) + (x - 2 ^ f * ξ) * η| := abs_add_le _ _
    _ ≤ 1 / 2 + (b + a) := add_le_add hround ((abs_add_le _ _).trans (add_le_add hleft hright))
    _ = a + b + 1 / 2 := by ring

/-! ### Powers -/

/-- Powers by repeated squaring: `result` times the `n`-th power of `x`. -/
def powLoop (f result x n : ℕ) : ℕ :=
  if n = 0 then result
  else powLoop f (if n % 2 = 1 then mul f result x else result) (mul f x x) (n / 2)
termination_by n
decreasing_by omega

theorem powLoop_zero (f result x : ℕ) : powLoop f result x 0 = result := by rw [powLoop, if_pos rfl]

theorem powLoop_pos (f result x : ℕ) (hn : n ≠ 0) :
    powLoop f result x n =
      powLoop f (if n % 2 = 1 then mul f result x else result) (mul f x x) (n / 2) := by
  rw [powLoop, if_neg hn]

theorem powLoop_le (hf : 0 < f) : ∀ {n result x : ℕ}, result ≤ 2 ^ f → x ≤ 2 ^ f →
    powLoop f result x n ≤ 2 ^ f := by
  intro n
  induction n using Nat.strong_induction_on with
  | _ n ih =>
    intro result x hr hx
    by_cases hn : n = 0
    · rw [hn, powLoop_zero]
      exact hr
    · rw [powLoop_pos f result x hn]
      refine ih (n / 2) (by omega) ?_ (mul_le hf hx hx)
      split_ifs
      · exact mul_le hf hr hx
      · exact hr

/-- The error of a power: that of the start value, and for each factor that of the base and half a
unit. A squaring doubles the error of the base, but it halves the number of factors. -/
theorem abs_powLoop_sub_le (hf : 0 < f) : ∀ {n result x : ℕ} {ρ ξ a b : ℚ}, result ≤ 2 ^ f →
    x ≤ 2 ^ f → 0 ≤ ξ → ξ ≤ 1 → |(result : ℚ) - 2 ^ f * ρ| ≤ a → |(x : ℚ) - 2 ^ f * ξ| ≤ b →
    |(powLoop f result x n : ℚ) - 2 ^ f * (ρ * ξ ^ n)| ≤ a + n * (b + 1 / 2) := by
  intro n
  induction n using Nat.strong_induction_on with
  | _ n ih =>
    intro result x ρ ξ a b hr hx hξ₀ hξ₁ ha hb
    by_cases hn : n = 0
    · rw [hn, powLoop_zero]
      simpa using ha
    · rw [powLoop_pos f result x hn]
      have hsq : |(mul f x x : ℚ) - 2 ^ f * (ξ * ξ)| ≤ b + b + 1 / 2 :=
        abs_mul_sub_le hf hx hξ₀ hξ₁ hb hb
      have hξξ₀ : 0 ≤ ξ * ξ := mul_nonneg hξ₀ hξ₀
      have hξξ₁ : ξ * ξ ≤ 1 := mul_le_one₀ hξ₁ hξ₀ hξ₁
      have hlt : n / 2 < n := by omega
      rcases Nat.mod_two_eq_zero_or_one n with he | ho
      · -- an even number of factors
        rw [if_neg (by omega)]
        have := ih (n / 2) hlt hr (mul_le hf hx hx) hξξ₀ hξξ₁ ha hsq
        have hn2 : (n : ℚ) = 2 * (n / 2 : ℕ) := by exact_mod_cast (by omega : n = 2 * (n / 2))
        have hpow : (ξ * ξ) ^ (n / 2) = ξ ^ n := by
          rw [← pow_two, ← pow_mul, show 2 * (n / 2) = n by omega]
        rw [hpow] at this
        refine this.trans (le_of_eq ?_)
        rw [hn2]
        ring
      · -- an odd number of factors: one of them goes to the result
        rw [if_pos ho]
        have hres := abs_mul_sub_le hf hr hξ₀ hξ₁ ha hb
        have := ih (n / 2) hlt (mul_le hf hr hx) (mul_le hf hx hx) hξξ₀ hξξ₁ hres hsq
        have hn2 : (n : ℚ) = 2 * (n / 2 : ℕ) + 1 := by
          exact_mod_cast (by omega : n = 2 * (n / 2) + 1)
        have hpow : ρ * ξ * (ξ * ξ) ^ (n / 2) = ρ * ξ ^ n := by
          rw [← pow_two, ← pow_mul, mul_assoc, ← pow_succ', show 2 * (n / 2) + 1 = n by omega]
        rw [hpow] at this
        refine this.trans (le_of_eq ?_)
        rw [hn2]
        ring

/-! ### Means -/

/-- The rounded mean of `load` and `active` with the weights `exp` and `2 ^ f - exp`. -/
def relax (f load exp active : ℕ) : ℕ := scaleDown f (load * exp + active * (2 ^ f - exp))

theorem weights (he : exp ≤ 2 ^ f) (x : ℕ) : x * exp + x * (2 ^ f - exp) = x * 2 ^ f := by
  rw [← Nat.mul_add, Nat.add_sub_cancel' he]

/-- A mean is no greater than what both values are not greater than. -/
theorem relax_le (hf : 0 < f) (he : exp ≤ 2 ^ f) (hl : load ≤ y) (ha : active ≤ y) :
    relax f load exp active ≤ y :=
  scaleDown_le hf ((Nat.add_le_add (Nat.mul_le_mul_right _ hl) (Nat.mul_le_mul_right _ ha)).trans
    (weights he y).le)

theorem le_relax (hf : 0 < f) (he : exp ≤ 2 ^ f) (hl : y ≤ load) (ha : y ≤ active) :
    y ≤ relax f load exp active :=
  le_scaleDown hf ((weights he y).ge.trans
    (Nat.add_le_add (Nat.mul_le_mul_right _ hl) (Nat.mul_le_mul_right _ ha)))

/-- A mean is off by half a unit at most. -/
theorem abs_relax_sub_le (hf : 0 < f) (he : exp ≤ 2 ^ f) (load active : ℕ) :
    |(relax f load exp active : ℚ) - (active + (load - active) * (exp / 2 ^ f))| ≤ 1 / 2 := by
  have hround := abs_scaleDown_sub_le hf (load * exp + active * (2 ^ f - exp))
  have heq : ((load * exp + active * (2 ^ f - exp) : ℕ) : ℚ) / 2 ^ f =
      active + (load - active) * (exp / 2 ^ f) := by
    rw [Nat.cast_add, Nat.cast_mul, Nat.cast_mul, Nat.cast_sub he]
    push_cast
    field_simp
    ring
  rwa [heq] at hround

/-- Means one after the other: half a unit for each. -/
theorem abs_relax_iterate_sub_le (hf : 0 < f) (he : exp ≤ 2 ^ f) (load active n : ℕ) :
    |(((fun l => relax f l exp active)^[n] load : ℕ) : ℚ) -
      (active + (load - active) * (exp / 2 ^ f) ^ n)| ≤ n / 2 := by
  have hpos : (0 : ℚ) < 2 ^ f := by positivity
  have he₀ : (0 : ℚ) ≤ exp / 2 ^ f := by positivity
  have he₁ : (exp : ℚ) / 2 ^ f ≤ 1 := by
    rw [div_le_one hpos]
    exact_mod_cast he
  induction n with
  | zero => simp
  | succ n ih =>
    rw [Function.iterate_succ_apply']
    obtain ⟨l, hl⟩ : ∃ l, l = (fun l => relax f l exp active)^[n] load := ⟨_, rfl⟩
    rw [← hl] at ih ⊢
    have hstep := abs_relax_sub_le hf he l active
    -- one more step takes the error so far down, and adds its own
    have hsplit : (relax f l exp active : ℚ) - (active + (load - active) * (exp / 2 ^ f) ^ (n + 1)) =
        (relax f l exp active - (active + (l - active) * (exp / 2 ^ f))) +
          (l - (active + (load - active) * (exp / 2 ^ f) ^ n)) * (exp / 2 ^ f) := by
      rw [pow_succ]
      ring
    have hright : |((l : ℚ) - (active + (load - active) * (exp / 2 ^ f) ^ n)) * (exp / 2 ^ f)| ≤
        n / 2 := by
      rw [abs_mul, abs_of_nonneg he₀]
      calc _ ≤ (n : ℚ) / 2 * 1 := mul_le_mul ih he₁ he₀ (by positivity)
        _ = n / 2 := mul_one _
    rw [hsplit]
    refine (abs_add_le _ _).trans ((add_le_add hstep hright).trans (le_of_eq ?_))
    push_cast
    ring

/-- The weight of many steps, by a power. -/
def expPow (f exp n : ℕ) : ℕ := powLoop f (2 ^ f) exp n

theorem expPow_le (hf : 0 < f) (he : exp ≤ 2 ^ f) (n : ℕ) : expPow f exp n ≤ 2 ^ f :=
  powLoop_le hf le_rfl he

theorem abs_expPow_sub_le (hf : 0 < f) (he : exp ≤ 2 ^ f) (n : ℕ) :
    |(expPow f exp n : ℚ) - 2 ^ f * (exp / 2 ^ f) ^ n| ≤ n / 2 := by
  have hpos : (0 : ℚ) < 2 ^ f := by positivity
  have he₁ : (exp : ℚ) / 2 ^ f ≤ 1 := by
    rw [div_le_one hpos]
    exact_mod_cast he
  have hone : |((2 ^ f : ℕ) : ℚ) - 2 ^ f * 1| ≤ 0 := by simp
  have hbase : |(exp : ℚ) - 2 ^ f * (exp / 2 ^ f)| ≤ 0 := by
    rw [mul_div_cancel₀ _ hpos.ne']
    simp
  have := abs_powLoop_sub_le (n := n) hf le_rfl he (by positivity) he₁ hone hbase
  rw [one_mul] at this
  refine this.trans (le_of_eq ?_)
  ring

/-- Many means in one step: half a unit, and for each step half a unit of the weight. -/
theorem abs_relax_expPow_sub_le (hf : 0 < f) (he : exp ≤ 2 ^ f) (load active n : ℕ) :
    |(relax f load (expPow f exp n) active : ℚ) -
      (active + (load - active) * (exp / 2 ^ f) ^ n)| ≤
        1 / 2 + |(load : ℚ) - active| * (n / 2 / 2 ^ f) := by
  have hpos : (0 : ℚ) < 2 ^ f := by positivity
  have hstep := abs_relax_sub_le hf (expPow_le hf he n) load active
  have hpow := abs_expPow_sub_le hf he n
  have hsplit : (relax f load (expPow f exp n) active : ℚ) -
      (active + (load - active) * (exp / 2 ^ f) ^ n) =
        (relax f load (expPow f exp n) active -
          (active + (load - active) * (expPow f exp n / 2 ^ f))) +
        (load - active) * ((expPow f exp n - 2 ^ f * (exp / 2 ^ f) ^ n) / 2 ^ f) := by
    field_simp
    ring
  rw [hsplit]
  refine (abs_add_le _ _).trans (add_le_add hstep ?_)
  rw [abs_mul, abs_div, abs_of_pos hpos]
  exact mul_le_mul_of_nonneg_left (div_le_div_of_nonneg_right hpow hpos.le) (abs_nonneg _)

/-- The step that stands for many is as good as the many, up to rounding. -/
theorem abs_relax_expPow_sub_iterate_le (hf : 0 < f) (he : exp ≤ 2 ^ f) (load active n : ℕ) :
    |(relax f load (expPow f exp n) active : ℚ) -
      ((fun l => relax f l exp active)^[n] load : ℕ)| ≤
        (n + 1) / 2 + |(load : ℚ) - active| * (n / 2 / 2 ^ f) := by
  have h₁ := abs_relax_expPow_sub_le hf he load active n
  have h₂ := abs_relax_iterate_sub_le hf he load active n
  rw [abs_sub_comm] at h₂
  have hadd := abs_sub_le (relax f load (expPow f exp n) active : ℚ)
    (active + (load - active) * (exp / 2 ^ f) ^ n)
    (((fun l => relax f l exp active)^[n] load : ℕ) : ℚ)
  linarith

/-! ### Where means come to rest -/

/-- Repeated means rest at a value when the step they would take is less than half a unit. -/
theorem relax_eq_self_iff (hf : 0 < f) (he : exp ≤ 2 ^ f) :
    relax f load exp active = load ↔
      -(2 : ℤ) ^ (f - 1) ≤ ((active : ℤ) - load) * (2 ^ f - exp) ∧
        ((active : ℤ) - load) * (2 ^ f - exp) < 2 ^ (f - 1) := by
  have hhalf : 2 * (2 : ℤ) ^ (f - 1) = 2 ^ f := by exact_mod_cast two_mul_half hf
  have hsum : ((load * exp + active * (2 ^ f - exp) : ℕ) : ℤ) =
      load * 2 ^ f + (active - load) * (2 ^ f - exp) := by
    rw [Nat.cast_add, Nat.cast_mul, Nat.cast_mul, Nat.cast_sub he]
    push_cast
    ring
  obtain ⟨w, hw⟩ : ∃ w : ℤ, w = ((active : ℤ) - load) * (2 ^ f - exp) := ⟨_, rfl⟩
  rw [← hw] at hsum ⊢
  have hdiv : relax f load exp active = load ↔
      load * 2 ^ f ≤ load * exp + active * (2 ^ f - exp) + 2 ^ (f - 1) ∧
        load * exp + active * (2 ^ f - exp) + 2 ^ (f - 1) < (load + 1) * 2 ^ f := by
    have hpos := Nat.two_pow_pos f
    rw [relax, scaleDown, Nat.div_eq_iff hpos, Nat.le_sub_one_iff_lt (by omega), Nat.add_one_mul]
  rw [hdiv]
  constructor
  · rintro ⟨h₁, h₂⟩
    have h₁' : (load : ℤ) * 2 ^ f ≤ (load * exp + active * (2 ^ f - exp) : ℕ) + 2 ^ (f - 1) := by
      exact_mod_cast h₁
    have h₂' : ((load * exp + active * (2 ^ f - exp) : ℕ) : ℤ) + 2 ^ (f - 1) <
        (load + 1) * 2 ^ f := by exact_mod_cast h₂
    rw [hsum] at h₁' h₂'
    constructor <;> linarith
  · rintro ⟨h₁, h₂⟩
    have h₁' : (load : ℤ) * 2 ^ f ≤ (load * exp + active * (2 ^ f - exp) : ℕ) + 2 ^ (f - 1) := by
      rw [hsum]
      linarith
    have h₂' : ((load * exp + active * (2 ^ f - exp) : ℕ) : ℤ) + 2 ^ (f - 1) <
        (load + 1) * 2 ^ f := by
      rw [hsum]
      linarith
    exact ⟨by exact_mod_cast h₁', by exact_mod_cast h₂'⟩

/-- A step goes towards `active` and not past it. -/
theorem dist_relax_le (hf : 0 < f) (he : exp ≤ 2 ^ f) :
    (load ≤ active → load ≤ relax f load exp active ∧ relax f load exp active ≤ active) ∧
      (active ≤ load → active ≤ relax f load exp active ∧ relax f load exp active ≤ load) :=
  ⟨fun h => ⟨le_relax hf he le_rfl h, relax_le hf he h le_rfl⟩,
    fun h => ⟨le_relax hf he h le_rfl, relax_le hf he le_rfl h⟩⟩

/-- Repeated means come to rest after no more steps than the values are apart, and stay on the side
of `active` where they began. -/
theorem relax_settles (hf : 0 < f) (he : exp ≤ 2 ^ f) (active : ℕ) : ∀ {d load : ℕ},
    load ≤ active + d → active ≤ load + d →
    ∃ l, relax f l exp active = l ∧ (load ≤ active → load ≤ l ∧ l ≤ active) ∧
      (active ≤ load → active ≤ l ∧ l ≤ load) ∧
      ∀ n, d ≤ n → (fun l => relax f l exp active)^[n] load = l := by
  intro d
  induction d with
  | zero =>
    intro load h₁ h₂
    obtain rfl : load = active := by omega
    have hrest : relax f load exp load = load :=
      le_antisymm (relax_le hf he le_rfl le_rfl) (le_relax hf he le_rfl le_rfl)
    exact ⟨load, hrest, fun h => ⟨h, h⟩, fun h => ⟨h, h⟩,
      fun n _ => Function.iterate_fixed (f := fun l => relax f l exp load) hrest n⟩
  | succ d ih =>
    intro load h₁ h₂
    by_cases hrest : relax f load exp active = load
    · exact ⟨load, hrest, fun h => ⟨le_rfl, h⟩, fun h => ⟨h, le_rfl⟩,
        fun n _ => Function.iterate_fixed (f := fun l => relax f l exp active) hrest n⟩
    · obtain ⟨hup, hdown⟩ : _ ∧ (active ≤ load → _ ∧ relax f load exp active ≤ load) :=
        dist_relax_le hf he
      have h₁' : relax f load exp active ≤ active + d := by
        rcases le_total load active with h | h
        · have := hup h; omega
        · have := hdown h; omega
      have h₂' : active ≤ relax f load exp active + d := by
        rcases le_total load active with h | h
        · have := hup h; omega
        · have := hdown h; omega
      obtain ⟨l, hl, hlu, hld, hiter⟩ := ih h₁' h₂'
      refine ⟨l, hl, fun h => ?_, fun h => ?_, fun n hn => ?_⟩
      · exact ⟨(hup h).1.trans (hlu (hup h).2).1, (hlu (hup h).2).2⟩
      · exact ⟨(hld (hdown h).1).1, (hld (hdown h).1).2.trans (hdown h).2⟩
      · obtain ⟨m, rfl⟩ : ∃ m, n = m + 1 := ⟨n - 1, by omega⟩
        rw [Function.iterate_succ_apply]
        exact hiter m (by omega)

theorem relax_mono (f exp active : ℕ) (h : x ≤ y) : relax f x exp active ≤ relax f y exp active :=
  scaleDown_mono f (Nat.add_le_add_right (Nat.mul_le_mul_right _ h) _)

/-- The values at which repeated means rest, as an interval around `active`. -/
theorem relax_eq_self_iff_mem (hf : 0 < f) (he : exp < 2 ^ f) :
    relax f load exp active = load ↔
      active ≤ load + (2 ^ (f - 1) - 1) / (2 ^ f - exp) ∧
        load ≤ active + 2 ^ (f - 1) / (2 ^ f - exp) := by
  have hpos : 0 < 2 ^ (f - 1) := Nat.two_pow_pos _
  obtain ⟨w, hw⟩ : ∃ w, w = 2 ^ f - exp := ⟨_, rfl⟩
  obtain ⟨h, hh⟩ : ∃ h, h = 2 ^ (f - 1) := ⟨_, rfl⟩
  have hw₀ : 0 < w := by omega
  have hwz : ((2 : ℤ) ^ f - exp) = w := by
    rw [hw, Nat.cast_sub he.le]
    push_cast
    rfl
  have hhz : (2 : ℤ) ^ (f - 1) = h := by rw [hh]; push_cast; rfl
  rw [relax_eq_self_iff hf he.le, hwz, hhz, ← hw, ← hh]
  rw [← hh] at hpos
  have hlo : active ≤ load + (h - 1) / w ↔ ((active : ℤ) - load) * w < h := by
    rw [← Nat.sub_le_iff_le_add', Nat.le_div_iff_mul_le hw₀]
    rcases le_total active load with hle | hle
    · have hneg : ((active : ℤ) - load) * w ≤ 0 :=
        mul_nonpos_of_nonpos_of_nonneg (by omega) (by omega)
      rw [Nat.sub_eq_zero_of_le hle, Nat.zero_mul]
      omega
    · rw [← Nat.cast_sub hle, ← Nat.cast_mul]
      omega
  have hhi : load ≤ active + h / w ↔ -(h : ℤ) ≤ ((active : ℤ) - load) * w := by
    rw [← Nat.sub_le_iff_le_add', Nat.le_div_iff_mul_le hw₀]
    rcases le_total load active with hle | hle
    · have hpos' : 0 ≤ ((active : ℤ) - load) * w := mul_nonneg (by omega) (by omega)
      rw [Nat.sub_eq_zero_of_le hle, Nat.zero_mul]
      omega
    · rw [← neg_sub, neg_mul, neg_le_neg_iff, ← Nat.cast_sub hle, ← Nat.cast_mul]
      omega
  rw [hlo, hhi, and_comm]

/-- Repeated means rest at the nearest value at which they can. -/
theorem relax_iterate_eq (hf : 0 < f) (he : exp < 2 ^ f) {d : ℕ} (h₁ : load ≤ active + d)
    (h₂ : active ≤ load + d) {n : ℕ} (hn : d ≤ n) :
    (fun l => relax f l exp active)^[n] load =
      if load ≤ active then max load (active - (2 ^ (f - 1) - 1) / (2 ^ f - exp))
      else min load (active + 2 ^ (f - 1) / (2 ^ f - exp)) := by
  obtain ⟨l, hl, hup, hdown, hiter⟩ := relax_settles hf he.le active h₁ h₂
  obtain ⟨lo, hlo⟩ : ∃ lo, lo = active - (2 ^ (f - 1) - 1) / (2 ^ f - exp) := ⟨_, rfl⟩
  obtain ⟨hi, hhi⟩ : ∃ hi, hi = active + 2 ^ (f - 1) / (2 ^ f - exp) := ⟨_, rfl⟩
  have hrest : ∀ m, relax f m exp active = m ↔ lo ≤ m ∧ m ≤ hi := fun m => by
    rw [relax_eq_self_iff_mem hf he, hlo, hhi, Nat.sub_le_iff_le_add]
  -- a value at which the means rest is not passed
  have hmono : ∀ {a b : ℕ}, a ≤ b → ∀ k,
      (fun l => relax f l exp active)^[k] a ≤ (fun l => relax f l exp active)^[k] b :=
    fun hab k => Monotone.iterate (f := fun l => relax f l exp active)
      (fun _ _ hxy => relax_mono f exp active hxy) k hab
  have hfix : ∀ m, relax f m exp active = m →
      (fun l => relax f l exp active)^[d] m = m := fun m hm =>
    Function.iterate_fixed (f := fun l => relax f l exp active) hm d
  rw [hiter n hn, ← hlo, ← hhi]
  have hl' := (hrest l).mp hl
  have hd := hiter d le_rfl
  split_ifs with hle
  · have hb := hup hle
    rcases le_total lo load with hin | hout
    · have : relax f load exp active = load := (hrest load).mpr ⟨hin, by omega⟩
      rw [hfix load this] at hd
      omega
    · have hlo' : relax f lo exp active = lo := (hrest lo).mpr ⟨le_rfl, by omega⟩
      have := hmono hout d
      rw [hfix lo hlo', hd] at this
      omega
  · have hb := hdown (by omega)
    rcases le_total load hi with hin | hout
    · have : relax f load exp active = load := (hrest load).mpr ⟨by omega, hin⟩
      rw [hfix load this] at hd
      omega
    · have hhi' : relax f hi exp active = hi := (hrest hi).mpr ⟨by omega, le_rfl⟩
      have := hmono hout d
      rw [hfix hi hhi', hd] at this
      omega

end FixedPoint
