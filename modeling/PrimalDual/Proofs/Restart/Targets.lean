/-
  PrimalDual.Proofs.Restart.Targets
  ─────────────────────────────────
  **TARGET ERRORS AND RESCALING FACTORS, RESTART BY RESTART.**

  In the units of the caller, where `length = ‖b‖`, the target error of
  restart `j` and the factor that belongs to it are

      errorAt j    e j  = upsilonʲ C₂ length + delta (upsilon + … + upsilonʲ)
      factorAt j   al j = min (root N length / (C₁ (delta + e j) k)) maxRescale

  The recursion `e (j + 1) = upsilon (delta + e j)` has the fixed point
  `limit = upsilon delta / (1 - upsilon)`, and

      e j - limit = upsilonʲ (C₂ length - limit)

  so the target errors approach it from the side on which they begin.  The
  factor falls where the target error rises, and without noise it reaches
  its cap.
-/
import PrimalDual.Proofs.Restart.Budget
import Mathlib.Analysis.SpecificLimits.Basic

namespace PrimalDual

variable {m : Type → Type} {κ α : Type}

/-! ## §1. Target errors. -/

namespace Target

variable (o : Options m ℝ κ α) (length delta : ℝ)

/-- The target error of restart `j`. -/
noncomputable def errorAt (j : ℕ) : ℝ :=
  o.upsilon ^ j * (o.C2 * length) + delta * ∑ i ∈ Finset.range j, o.upsilon ^ (i + 1)

/-- What the target errors approach. -/
noncomputable def limit : ℝ := o.upsilon * delta / (1 - o.upsilon)

theorem errorAt_zero : errorAt o length delta 0 = o.C2 * length := by
  unfold errorAt
  rw [pow_zero, one_mul, Finset.sum_range_zero, mul_zero, add_zero]

theorem errorAt_succ (j : ℕ) :
    errorAt o length delta (j + 1) = o.upsilon * (delta + errorAt o length delta j) := by
  have hpowers : ∑ i ∈ Finset.range (j + 1), o.upsilon ^ (i + 1)
      = o.upsilon * (1 + ∑ i ∈ Finset.range j, o.upsilon ^ (i + 1)) := by
    rw [Finset.sum_range_succ', mul_add, Finset.mul_sum, add_comm]
    refine congrArg₂ (· + ·) (by ring) (Finset.sum_congr rfl ?_)
    intro i _
    ring
  unfold errorAt
  rw [hpowers]
  ring

/-- The first target error in the units in which `length` is 1. -/
theorem errorAt_zero_div {length : ℝ} (hlength : length ≠ 0) :
    errorAt o length delta 0 / length = o.C2 := by
  rw [errorAt_zero, mul_div_cancel_right₀ _ hlength]

/-- The recursion in the units in which `length` is 1. -/
theorem errorAt_succ_div (j : ℕ) : errorAt o length delta (j + 1) / length
    = o.upsilon * (delta / length + errorAt o length delta j / length) := by
  rw [errorAt_succ, ← add_div, mul_div_assoc]

section Valid

variable {o length delta} (ho : o.Valid)
include ho

theorem limit_eq : o.upsilon * (delta + limit o delta) = limit o delta := by
  have hrate : 1 - o.upsilon ≠ 0 := by linarith [ho.upsilon_lt_one]
  unfold limit
  field_simp
  ring

/-- The distance to the limit shrinks by the same factor with each restart. -/
theorem errorAt_sub_limit (j : ℕ) : errorAt o length delta j - limit o delta
    = o.upsilon ^ j * (o.C2 * length - limit o delta) := by
  induction j with
  | zero => rw [errorAt_zero, pow_zero, one_mul]
  | succ j ih =>
    calc errorAt o length delta (j + 1) - limit o delta
        = o.upsilon * (delta + errorAt o length delta j)
          - o.upsilon * (delta + limit o delta) := by rw [errorAt_succ, limit_eq ho]
      _ = o.upsilon * (errorAt o length delta j - limit o delta) := by ring
      _ = o.upsilon ^ (j + 1) * (o.C2 * length - limit o delta) := by rw [ih, pow_succ]; ring

theorem errorAt_pos (hlength : 0 < length) (hdelta : 0 ≤ delta) (j : ℕ) :
    0 < errorAt o length delta j := by
  have hupsilon := ho.upsilon_pos
  have hC := ho.C2_pos
  have hsum : 0 ≤ ∑ i ∈ Finset.range j, o.upsilon ^ (i + 1) :=
    Finset.sum_nonneg fun i _ => (pow_pos hupsilon _).le
  unfold errorAt
  positivity

/-- A beginning above the limit: the target errors fall and stay above it. -/
theorem limit_le_errorAt (h : limit o delta ≤ o.C2 * length) (j : ℕ) :
    limit o delta ≤ errorAt o length delta j := by
  rw [← sub_nonneg, errorAt_sub_limit ho]
  exact mul_nonneg (pow_pos ho.upsilon_pos j).le (sub_nonneg.2 h)

/-- A beginning below the limit: they rise and stay below it. -/
theorem errorAt_le_limit (h : o.C2 * length ≤ limit o delta) (j : ℕ) :
    errorAt o length delta j ≤ limit o delta := by
  rw [← sub_nonpos, errorAt_sub_limit ho]
  exact mul_nonpos_of_nonneg_of_nonpos (pow_pos ho.upsilon_pos j).le (sub_nonpos.2 h)

/-- A restart moves the target error by a share of its distance to the limit. -/
theorem errorAt_sub_succ (j : ℕ) : errorAt o length delta j - errorAt o length delta (j + 1)
    = (1 - o.upsilon) * (errorAt o length delta j - limit o delta) := by
  rw [errorAt_succ]
  have hlimit : o.upsilon * (delta + limit o delta) = limit o delta := limit_eq ho
  linarith

theorem errorAt_antitone (h : limit o delta ≤ o.C2 * length) :
    Antitone (errorAt o length delta) := by
  apply antitone_nat_of_succ_le
  intro j
  rw [← sub_nonneg, errorAt_sub_succ ho]
  exact mul_nonneg (by linarith [ho.upsilon_lt_one]) (sub_nonneg.2 (limit_le_errorAt ho h j))

theorem errorAt_monotone (h : o.C2 * length ≤ limit o delta) :
    Monotone (errorAt o length delta) := by
  apply monotone_nat_of_le_succ
  intro j
  rw [← sub_nonpos, errorAt_sub_succ ho]
  exact mul_nonpos_of_nonneg_of_nonpos (by linarith [ho.upsilon_lt_one])
    (sub_nonpos.2 (errorAt_le_limit ho h j))

theorem tendsto_errorAt :
    Filter.Tendsto (errorAt o length delta) Filter.atTop (nhds (limit o delta)) := by
  have hpow := tendsto_pow_atTop_nhds_zero_of_lt_one ho.upsilon_pos.le ho.upsilon_lt_one
  have hvalue : errorAt o length delta
      = fun j => o.upsilon ^ j * (o.C2 * length - limit o delta) + limit o delta := by
    funext j
    rw [← errorAt_sub_limit ho, sub_add_cancel]
  rw [hvalue]
  simpa only [zero_mul, zero_add] using
    (hpow.mul_const (o.C2 * length - limit o delta)).add_const (limit o delta)

/-- Without noise the target errors fall below any bound. -/
theorem exists_errorAt_le {bound : ℝ} (hbound : 0 < bound) :
    ∃ J, ∀ j ≥ J, errorAt o length 0 j ≤ bound := by
  have hlimit : limit o 0 < bound := by
    unfold limit
    rwa [mul_zero, zero_div]
  obtain ⟨J, hJ⟩ := Filter.eventually_atTop.1 ((tendsto_errorAt ho).eventually_lt_const hlimit)
  exact ⟨J, fun j hj => (hJ j hj).le⟩

end Valid

end Target

/-! ## §2. Rescaling factors. -/

namespace Rescaling

open Target

theorem maxRescale_real : (maxRescale : ℝ) = 10 ^ 12 := by
  show ((1 : ℕ) : ℝ) * 10 ^ (12 : ℤ) = 10 ^ 12
  rw [Nat.cast_one, one_mul]
  exact zpow_natCast _ 12

variable (o : Options m ℝ κ α) (q : ℕ) (L length delta : ℝ) (kIter : ℤ)

/-- The rescaling factor of restart `j`. -/
noncomputable def factorAt (j : ℕ) : ℝ :=
  min maxRescale
    (root o q * stepBudget o q L * length / (o.C1 * (delta + errorAt o length delta j) * kIter))

variable {o q L length delta kIter} (ho : o.Valid) (hL : o.bound = some L)
variable (hlength : 0 < length) (hdelta : 0 ≤ delta) (hk : 1 ≤ kIter)
include ho hL hlength hdelta hk

/-- All that the factor of a restart is made of is positive. -/
theorem ingredients_pos (j : ℕ) : 0 < root o q ∧ (0 : ℝ) < stepBudget o q L ∧ 0 < o.C1
    ∧ 0 < errorAt o length delta j ∧ (0 : ℝ) < kIter :=
  ⟨root_pos ho, Int.cast_pos.2 (stepBudget_pos ho hL), ho.C1_pos, errorAt_pos ho hlength hdelta j,
    Int.cast_pos.2 (by omega)⟩

/-- The factor before its cap has a positive numerator and a positive denominator. -/
theorem factorAt_parts_pos (j : ℕ) : 0 < root o q * stepBudget o q L * length
    ∧ 0 < o.C1 * (delta + errorAt o length delta j) * kIter := by
  obtain ⟨hroot, hbudget, hC, herror, hk'⟩ :=
    ingredients_pos (q := q) ho hL hlength hdelta hk j
  exact ⟨by positivity, by positivity⟩

/-- **The divisors of the rescaling factor are positive.** -/
theorem divisors_pos (j : ℕ) :
    0 < o.tau * o.upsilon ∧ 0 < root o q * stepBudget o q L
      ∧ 0 < o.C1 * (delta / length + errorAt o length delta j / length)
          / (root o q * stepBudget o q L) * kIter := by
  obtain ⟨hroot, hbudget, hC, herror, hk'⟩ :=
    ingredients_pos (q := q) ho hL hlength hdelta hk j
  exact ⟨mul_pos ho.tau_pos ho.upsilon_pos, by positivity, by positivity⟩

/-- **The factor of a restart, computed in the units in which `‖b‖ = 1`.** -/
theorem factor_errorAt (j : ℕ) :
    factor (errorAt o length delta j / length) (delta / length) kIter o (.whole q)
      = .ok (factorAt o q L length delta kIter j) := by
  obtain ⟨-, hdivisor, hlast⟩ := divisors_pos (q := q) ho hL hlength hdelta hk j
  obtain ⟨-, hdenominator⟩ := factorAt_parts_pos (q := q) ho hL hlength hdelta hk j
  rw [factor_eq, uncapped_eq ho hL, Control.quotient_real _ hlast.ne']
  refine congrArg Except.ok ((min_comm _ _).trans (congrArg (min maxRescale) ?_))
  rw [← add_div]
  field_simp

theorem factorAt_pos (j : ℕ) : 0 < factorAt o q L length delta kIter j := by
  obtain ⟨hnumerator, hdenominator⟩ := factorAt_parts_pos (q := q) ho hL hlength hdelta hk j
  refine lt_min ?_ (div_pos hnumerator hdenominator)
  rw [maxRescale_real]
  positivity

omit ho hL hlength hdelta hk in
theorem factorAt_le (j : ℕ) : factorAt o q L length delta kIter j ≤ maxRescale := min_le_left _ _

/-- The factor of a smaller target error is the greater one. -/
theorem factorAt_le_of_errorAt_le {i j : ℕ}
    (h : errorAt o length delta i ≤ errorAt o length delta j) :
    factorAt o q L length delta kIter j ≤ factorAt o q L length delta kIter i := by
  obtain ⟨hnumerator, hdenominator⟩ := factorAt_parts_pos (q := q) ho hL hlength hdelta hk i
  have hC := ho.C1_pos
  have hk' : (0 : ℝ) < kIter := Int.cast_pos.2 (by omega)
  refine min_le_min_left _ (div_le_div_of_nonneg_left hnumerator.le hdenominator ?_)
  exact mul_le_mul_of_nonneg_right (mul_le_mul_of_nonneg_left (by linarith) hC.le) hk'.le

omit hdelta in
/-- Without noise the factor reaches its cap and stays there. -/
theorem exists_factorAt_eq : ∃ J, ∀ j ≥ J, factorAt o q L length 0 kIter j = maxRescale := by
  obtain ⟨hnumerator, -⟩ := factorAt_parts_pos (q := q) ho hL hlength le_rfl hk 0
  have hC := ho.C1_pos
  have hk' : (0 : ℝ) < kIter := Int.cast_pos.2 (by omega)
  have hcap : (0 : ℝ) < maxRescale := by
    rw [maxRescale_real]
    positivity
  -- The cap is reached where the target error is at most this.
  have hpos := div_pos hnumerator (mul_pos (mul_pos hcap hC) hk')
  obtain ⟨J, hJ⟩ : ∃ J, ∀ j ≥ J, errorAt o length 0 j ≤ _ := exists_errorAt_le ho hpos
  refine ⟨J, fun j hj => min_eq_left ?_⟩
  obtain ⟨-, hdenominator⟩ := factorAt_parts_pos (q := q) ho hL hlength le_rfl hk j
  have h := hJ j hj
  rw [le_div_iff₀ (by positivity)] at h
  rw [le_div_iff₀ hdenominator, zero_add]
  linarith

/-! ## §3. The schedule. -/

omit ho hL hlength hdelta hk

/-- What is promised of the target errors `e` and the factors `al` of the restarts, for
measurements of norm `length` and an operator bound `L`. -/
structure Scheduled (o : Options m ℝ κ α) (L length delta : ℝ) (kIter : ℤ) (e al : ℕ → ℝ) :
    Prop where
  error_eq : ∀ j, e j = o.upsilon ^ j * (o.C2 * length)
    + delta * ∑ i ∈ Finset.range j, o.upsilon ^ (i + 1)
  error_pos : ∀ j, 0 < e j
  falling : o.upsilon * delta / (1 - o.upsilon) ≤ o.C2 * length →
    Antitone e ∧ ∀ j, o.upsilon * delta / (1 - o.upsilon) ≤ e j
  rising : o.C2 * length < o.upsilon * delta / (1 - o.upsilon) →
    Monotone e ∧ ∀ j, e j ≤ o.upsilon * delta / (1 - o.upsilon)
  approach : Filter.Tendsto e Filter.atTop (nhds (o.upsilon * delta / (1 - o.upsilon)))
  /-- The divisors of the three quotients that are taken. -/
  divisors_pos : ∀ j, 0 < o.tau * o.upsilon ∧ 0 < root o o.q * stepBudget o o.q L
    ∧ 0 < o.C1 * (delta / length + e j / length) / (root o o.q * stepBudget o o.q L) * kIter
  factor_returns : ∀ j,
    factor (e j / length) (delta / length) kIter o (.whole o.q) = .ok (al j)
  factor_eq : ∀ j, al j = min (10 ^ 12) (√(o.C2 ^ 2 + o.q)
    * ⌈2 * o.C1 * √(o.C2 ^ 2 + o.q) * L / (o.tau * o.upsilon)⌉ * length
      / (o.C1 * (delta + e j) * kIter))
  factor_pos : ∀ j, 0 < al j
  factor_le : ∀ j, al j ≤ 10 ^ 12
  opposite : ∀ i j, e i ≤ e j → al j ≤ al i
  capped : delta = 0 → ∃ J, ∀ j ≥ J, al j = 10 ^ 12

/-- **Target errors and factors go by the schedule.** -/
theorem scheduled (ho : o.Valid) (hL : o.bound = some L) (hlength : 0 < length)
    (hdelta : 0 ≤ delta) (hk : 1 ≤ kIter) :
    Scheduled o L length delta kIter (errorAt o length delta)
      (factorAt o o.q L length delta kIter) where
  error_eq _ := rfl
  error_pos := errorAt_pos ho hlength hdelta
  falling h := ⟨errorAt_antitone ho h, limit_le_errorAt ho h⟩
  rising h := ⟨errorAt_monotone ho h.le, errorAt_le_limit ho h.le⟩
  approach := tendsto_errorAt ho
  divisors_pos := divisors_pos ho hL hlength hdelta hk
  factor_returns := factor_errorAt ho hL hlength hdelta hk
  factor_eq j := by
    rw [← maxRescale_real]
    rfl
  factor_pos := factorAt_pos ho hL hlength hdelta hk
  factor_le j := (factorAt_le j).trans_eq maxRescale_real
  opposite _ _ := factorAt_le_of_errorAt_le ho hL hlength hdelta hk
  capped h := by
    obtain ⟨J, hJ⟩ := exists_factorAt_eq (q := o.q) ho hL hlength hk
    refine ⟨J, ?_⟩
    intro j hj
    rw [h, hJ j hj, maxRescale_real]

end Rescaling

end PrimalDual
