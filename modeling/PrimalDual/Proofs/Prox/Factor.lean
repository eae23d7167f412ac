/-
  PrimalDual.Proofs.Prox.Factor
  ─────────────────────────────
  **THE FACTORS OF THE DUAL MAP.**

  Both blocks of the dual map multiply by a number that depends on a
  magnitude `r` alone.  With `c = shrinkFactor ρ r` for `ρ ≥ 0`, `r ≥ 0`:

      0 ≤ c ≤ 1                                    it shortens
      (1 - c) r ≤ ρ                                by `ρ` at most
      c (ρ - (1 - c) r) = c (1 - c) normFloor      and by `ρ`, up to the floor
      c r and (1 - c) r grow with r                both parts are monotone

  Projection on the unit disc is the rest that shrinkage by 1 leaves,
  `clipFactor r = 1 - shrinkFactor 1 r`, so its facts are these facts again.
-/
import PrimalDual.Proofs.Prox.DualMap

namespace PrimalDual

namespace Prox

variable {ρ r r' : ℝ}

/-! ## §1. Shrinkage. -/

theorem shrinkFactor_nonneg : 0 ≤ shrinkFactor ρ r := le_max_left _ _

theorem shrinkFactor_le_one (hρ : 0 ≤ ρ) (hr : 0 ≤ r) : shrinkFactor ρ r ≤ 1 := by
  have hf := normFloor_pos
  refine max_le zero_le_one ?_
  linarith [div_nonneg hρ (by linarith : 0 ≤ r + normFloor)]

/-- What is taken away, as a share of the whole. -/
theorem one_sub_shrinkFactor : 1 - shrinkFactor ρ r = min 1 (ρ / (r + normFloor)) := by
  unfold shrinkFactor
  rw [← min_sub_sub_left, sub_zero, sub_sub_cancel]

/-- No more than `ρ` is taken away. -/
theorem shrink_residual_le (hρ : 0 ≤ ρ) (hr : 0 ≤ r) : (1 - shrinkFactor ρ r) * r ≤ ρ := by
  have hf := normFloor_pos
  have hd : 0 < r + normFloor := by linarith
  rw [one_sub_shrinkFactor]
  calc min 1 (ρ / (r + normFloor)) * r
      ≤ ρ / (r + normFloor) * (r + normFloor) :=
        mul_le_mul (min_le_right _ _) (by linarith) hr (div_nonneg hρ hd.le)
    _ = ρ := div_mul_cancel₀ _ hd.ne'

/-- Where anything is left, `ρ` is taken away but for a share of the floor. -/
theorem shrink_slack (hr : 0 ≤ r) :
    shrinkFactor ρ r * (ρ - (1 - shrinkFactor ρ r) * r)
      = shrinkFactor ρ r * ((1 - shrinkFactor ρ r) * normFloor) := by
  have hf := normFloor_pos
  have hd : r + normFloor ≠ 0 := by linarith
  -- Where nothing is left both sides vanish; elsewhere the maximum is the formula.
  rcases le_total (1 - ρ / (r + normFloor)) 0 with h | h
  · rw [show shrinkFactor ρ r = 0 from max_eq_left h, zero_mul, zero_mul]
  · rw [show shrinkFactor ρ r = 1 - ρ / (r + normFloor) from max_eq_right h]
    field_simp
    ring

/-- A greater magnitude keeps a greater share. -/
theorem shrinkFactor_mono (hρ : 0 ≤ ρ) (hr : 0 ≤ r) (h : r ≤ r') :
    shrinkFactor ρ r ≤ shrinkFactor ρ r' := by
  have hf := normFloor_pos
  refine max_le_max le_rfl (sub_le_sub_left ?_ 1)
  exact div_le_div_of_nonneg_left hρ (by linarith) (by linarith)

theorem shrink_mono (hρ : 0 ≤ ρ) (hr : 0 ≤ r) (h : r ≤ r') :
    shrinkFactor ρ r * r ≤ shrinkFactor ρ r' * r' :=
  mul_le_mul (shrinkFactor_mono hρ hr h) h hr shrinkFactor_nonneg

theorem shrink_residual_mono (hρ : 0 ≤ ρ) (hr : 0 ≤ r) (h : r ≤ r') :
    (1 - shrinkFactor ρ r) * r ≤ (1 - shrinkFactor ρ r') * r' := by
  have hf := normFloor_pos
  have hr' : 0 ≤ r' := hr.trans h
  rw [one_sub_shrinkFactor, one_sub_shrinkFactor, min_mul_of_nonneg _ _ hr,
    min_mul_of_nonneg _ _ hr', one_mul, one_mul, div_mul_eq_mul_div, div_mul_eq_mul_div]
  -- Both parts of the minimum grow: `r` itself, and `ρ r / (r + normFloor)`.
  refine min_le_min h ?_
  rw [div_le_div_iff₀ (by linarith) (by linarith)]
  have := mul_nonneg (mul_nonneg hρ hf.le) (sub_nonneg.2 h)
  linarith

/-! ## §2. Projection on the unit disc. -/

theorem clipFactor_eq (r : ℝ) : clipFactor r = 1 - shrinkFactor 1 r :=
  one_sub_shrinkFactor.symm

theorem clipFactor_nonneg (hr : 0 ≤ r) : 0 ≤ clipFactor r := by
  rw [clipFactor_eq, sub_nonneg]
  exact shrinkFactor_le_one zero_le_one hr

theorem clipFactor_le_one : clipFactor r ≤ 1 := min_le_left _ _

/-- The result lies in the unit disc. -/
theorem clipFactor_mul_le_one (hr : 0 ≤ r) : clipFactor r * r ≤ 1 := by
  rw [clipFactor_eq]
  exact shrink_residual_le zero_le_one hr

/-- Where anything is cut off, the result lies on the unit circle but for a share of
the floor. -/
theorem clip_slack (hr : 0 ≤ r) :
    (1 - clipFactor r) * (1 - clipFactor r * r)
      = (1 - clipFactor r) * (clipFactor r * normFloor) := by
  rw [clipFactor_eq, sub_sub_cancel]
  exact shrink_slack hr

end Prox

end PrimalDual
