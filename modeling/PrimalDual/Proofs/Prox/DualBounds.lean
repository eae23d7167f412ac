/-
  PrimalDual.Proofs.Prox.DualBounds
  ─────────────────────────────────
  **WHAT THE DUAL MAP SATISFIES.**

  The exact dual map would be the proximal map of `ρ ‖lead q y‖` plus the
  constraint that the trailing entries lie in the unit disc.  With the floor
  under its divisors, `D = dualMap ρ q` still satisfies

      inBox_dualMap        the constraint, exactly
      dual_variational     the variational inequality of that proximal map,
                           up to `normFloor (ρ + q)`
      norm_lead_residual   ‖lead q (v - D v)‖ ≤ ρ
      dual_complementary   what `D v` and `v - D v` have to do with each other
      dual_firm            firm nonexpansiveness, exactly

  Each is a statement on one vector `u` and a multiple `c u` of it (§1), put
  together from the leading block and the trailing entries.
-/
import PrimalDual.Proofs.Prox.Factor

namespace PrimalDual

namespace Prox

open scoped InnerProductSpace

variable {𝕜 : Type} [RCLike 𝕜]

/-! ## §1. Multiples of a vector. -/

section Radial

variable {E : Type*} [NormedAddCommGroup E] [InnerProductSpace 𝕜 E]

theorem sub_ofReal_smul (c : ℝ) (u : E) : u - (c : 𝕜) • u = ((1 - c : ℝ) : 𝕜) • u := by
  rw [RCLike.ofReal_sub, RCLike.ofReal_one, sub_smul, one_smul]

theorem re_inner_ofReal_smul (a b : ℝ) (u v : E) :
    RCLike.re ⟪(a : 𝕜) • u, (b : 𝕜) • v⟫_𝕜 = a * b * RCLike.re ⟪u, v⟫_𝕜 := by
  rw [inner_smul_left, inner_smul_right, RCLike.conj_ofReal, ← mul_assoc, ← RCLike.ofReal_mul,
    RCLike.re_ofReal_mul]

theorem norm_ofReal_smul {c : ℝ} (hc : 0 ≤ c) (u : E) : ‖(c : 𝕜) • u‖ = c * ‖u‖ := by
  rw [norm_smul, RCLike.norm_ofReal, abs_of_nonneg hc]

/-- The residual of a shortened vector against its distance to another vector. -/
theorem le_re_inner_residual {c : ℝ} (hc : c ≤ 1) (u w : E) :
    (1 - c) * ‖u‖ * (c * ‖u‖ - ‖w‖) ≤ RCLike.re ⟪u - (c : 𝕜) • u, (c : 𝕜) • u - w⟫_𝕜 := by
  -- Of all `w` of one norm, the one along `u` is the worst.
  have hw : RCLike.re ⟪u, w⟫_𝕜 ≤ ‖u‖ * ‖w‖ := re_inner_le_norm u w
  have hexpand : RCLike.re ⟪u - (c : 𝕜) • u, (c : 𝕜) • u - w⟫_𝕜
      = (1 - c) * c * ‖u‖ ^ 2 - (1 - c) * RCLike.re ⟪u, w⟫_𝕜 := by
    rw [sub_ofReal_smul, inner_sub_right, map_sub, re_inner_ofReal_smul, inner_self_eq_norm_sq,
      inner_smul_left, RCLike.conj_ofReal, RCLike.re_ofReal_mul]
  rw [hexpand]
  linarith [mul_le_mul_of_nonneg_left hw (sub_nonneg.2 hc)]

/-- Multiples whose kept and removed lengths grow together are firmly monotone. -/
theorem re_inner_radial_nonneg {a b : ℝ} (ha : 0 ≤ a) (ha' : a ≤ 1) (hb : 0 ≤ b) (hb' : b ≤ 1)
    (u v : E)
    (h : 0 ≤ (a * ‖u‖ - b * ‖v‖) * ((1 - a) * ‖u‖ - (1 - b) * ‖v‖)) :
    0 ≤ RCLike.re
      ⟪(a : 𝕜) • u - (b : 𝕜) • v, (u - (a : 𝕜) • u) - (v - (b : 𝕜) • v)⟫_𝕜 := by
  -- The expression is least for `u` and `v` in one direction, where it is the hypothesis.
  have huv : RCLike.re ⟪u, v⟫_𝕜 ≤ ‖u‖ * ‖v‖ := re_inner_le_norm u v
  have hexpand : RCLike.re
      ⟪(a : 𝕜) • u - (b : 𝕜) • v, (u - (a : 𝕜) • u) - (v - (b : 𝕜) • v)⟫_𝕜
      = a * (1 - a) * ‖u‖ ^ 2 + b * (1 - b) * ‖v‖ ^ 2
        - (a * (1 - b) + b * (1 - a)) * RCLike.re ⟪u, v⟫_𝕜 := by
    rw [sub_ofReal_smul, sub_ofReal_smul, inner_sub_left, inner_sub_right, inner_sub_right,
      map_sub, map_sub, map_sub, re_inner_ofReal_smul, re_inner_ofReal_smul,
      re_inner_ofReal_smul, re_inner_ofReal_smul, inner_self_eq_norm_sq, inner_self_eq_norm_sq,
      inner_re_symm v u]
    ring
  have hcoeff : 0 ≤ a * (1 - b) + b * (1 - a) :=
    add_nonneg (mul_nonneg ha (sub_nonneg.2 hb')) (mul_nonneg hb (sub_nonneg.2 ha'))
  rw [hexpand]
  linarith [mul_le_mul_of_nonneg_left huv hcoeff]

end Radial

/-! ## §2. The leading block. -/

section Lead

variable {E : Type*} [NormedAddCommGroup E] [InnerProductSpace 𝕜 E] {ρ : ℝ}

/-- The floor costs shrinkage no more than `ρ normFloor`. -/
theorem shrink_slack_le (hρ : 0 ≤ ρ) {r : ℝ} (hr : 0 ≤ r) :
    shrinkFactor ρ r * r * (ρ - (1 - shrinkFactor ρ r) * r) ≤ ρ * normFloor := by
  have hf := normFloor_pos.le
  have hres := shrink_residual_le hρ hr
  have hres' : 0 ≤ (1 - shrinkFactor ρ r) * r :=
    mul_nonneg (sub_nonneg.2 (shrinkFactor_le_one hρ hr)) hr
  calc shrinkFactor ρ r * r * (ρ - (1 - shrinkFactor ρ r) * r)
      = r * (shrinkFactor ρ r * (ρ - (1 - shrinkFactor ρ r) * r)) := by ring
    _ = shrinkFactor ρ r * ((1 - shrinkFactor ρ r) * r * normFloor) := by
        rw [shrink_slack hr]
        ring
    _ ≤ 1 * (ρ * normFloor) :=
        mul_le_mul (shrinkFactor_le_one hρ hr) (mul_le_mul_of_nonneg_right hres hf)
          (mul_nonneg hres' hf) zero_le_one
    _ = ρ * normFloor := one_mul _

theorem shrink_variational (hρ : 0 ≤ ρ) (u w : E) :
    ρ * ‖(shrinkFactor ρ ‖u‖ : 𝕜) • u‖ - ρ * ‖w‖
      ≤ RCLike.re ⟪u - (shrinkFactor ρ ‖u‖ : 𝕜) • u, (shrinkFactor ρ ‖u‖ : 𝕜) • u - w⟫_𝕜
        + ρ * normFloor := by
  have hslack := shrink_slack_le hρ (norm_nonneg u)
  have hres := mul_nonneg (norm_nonneg w) (sub_nonneg.2 (shrink_residual_le hρ (norm_nonneg u)))
  have hinner := le_re_inner_residual (𝕜 := 𝕜) (shrinkFactor_le_one hρ (norm_nonneg u)) u w
  rw [norm_ofReal_smul shrinkFactor_nonneg]
  linarith

theorem shrink_complementary (hρ : 0 ≤ ρ) (u : E) :
    ρ * ‖(shrinkFactor ρ ‖u‖ : 𝕜) • u‖
      ≤ RCLike.re ⟪(shrinkFactor ρ ‖u‖ : 𝕜) • u, u - (shrinkFactor ρ ‖u‖ : 𝕜) • u⟫_𝕜
        + ρ * normFloor := by
  have hslack := shrink_slack_le hρ (norm_nonneg u)
  rw [norm_ofReal_smul shrinkFactor_nonneg, sub_ofReal_smul, re_inner_ofReal_smul,
    inner_self_eq_norm_sq]
  linarith

theorem shrink_firm (hρ : 0 ≤ ρ) (u v : E) :
    0 ≤ RCLike.re ⟪(shrinkFactor ρ ‖u‖ : 𝕜) • u - (shrinkFactor ρ ‖v‖ : 𝕜) • v,
      (u - (shrinkFactor ρ ‖u‖ : 𝕜) • u) - (v - (shrinkFactor ρ ‖v‖ : 𝕜) • v)⟫_𝕜 := by
  refine re_inner_radial_nonneg shrinkFactor_nonneg (shrinkFactor_le_one hρ (norm_nonneg u))
    shrinkFactor_nonneg (shrinkFactor_le_one hρ (norm_nonneg v)) u v ?_
  -- Kept and removed lengths are ordered as the norms are, so the product is not negative.
  rcases le_total ‖u‖ ‖v‖ with h | h
  · exact mul_nonneg_of_nonpos_of_nonpos (sub_nonpos.2 (shrink_mono hρ (norm_nonneg u) h))
      (sub_nonpos.2 (shrink_residual_mono hρ (norm_nonneg u) h))
  · exact mul_nonneg (sub_nonneg.2 (shrink_mono hρ (norm_nonneg v) h))
      (sub_nonneg.2 (shrink_residual_mono hρ (norm_nonneg v) h))

end Lead

/-! ## §3. One trailing entry. -/

section Entry

variable (a b w : 𝕜)

theorem norm_clip_le : ‖(clipFactor ‖a‖ : 𝕜) • a‖ ≤ 1 := by
  rw [norm_ofReal_smul (clipFactor_nonneg (norm_nonneg a))]
  exact clipFactor_mul_le_one (norm_nonneg a)

theorem clip_variational (hw : ‖w‖ ≤ 1) :
    -normFloor
      ≤ RCLike.re ⟪a - (clipFactor ‖a‖ : 𝕜) • a, (clipFactor ‖a‖ : 𝕜) • a - w⟫_𝕜 := by
  set c := clipFactor ‖a‖ with hc
  have hf : 0 < (normFloor : ℝ) := normFloor_pos
  have hc₁ : c ≤ 1 := clipFactor_le_one
  have hc₂ : c * ‖a‖ ≤ 1 := clipFactor_mul_le_one (norm_nonneg a)
  have hslack : (1 - c) * (1 - c * ‖a‖) = (1 - c) * (c * normFloor) :=
    clip_slack (norm_nonneg a)
  have hinner := le_re_inner_residual (𝕜 := 𝕜) hc₁ a w
  have hw' : (1 - c) * ‖a‖ * (c * ‖a‖ - 1) ≤ (1 - c) * ‖a‖ * (c * ‖a‖ - ‖w‖) :=
    mul_le_mul_of_nonneg_left (by linarith) (mul_nonneg (by linarith) (norm_nonneg a))
  -- What the floor leaves of the gap between `c ‖a‖` and the circle.
  have hcost : c * ‖a‖ * ((1 - c) * normFloor) ≤ 1 * (1 * normFloor) := by
    have hc₀ : 0 ≤ c := clipFactor_nonneg (norm_nonneg a)
    exact mul_le_mul hc₂ (mul_le_mul_of_nonneg_right (by linarith) hf.le)
      (mul_nonneg (by linarith) hf.le) zero_le_one
  have hvalue : (1 - c) * ‖a‖ * (c * ‖a‖ - 1) = -(c * ‖a‖ * ((1 - c) * normFloor)) := by
    linear_combination (-‖a‖) * hslack
  exact le_trans (by linarith) hinner

theorem clip_complementary :
    (1 - normFloor) * ‖a - (clipFactor ‖a‖ : 𝕜) • a‖
      ≤ RCLike.re ⟪(clipFactor ‖a‖ : 𝕜) • a, a - (clipFactor ‖a‖ : 𝕜) • a⟫_𝕜 := by
  set c := clipFactor ‖a‖ with hc
  have hf : 0 < (normFloor : ℝ) := normFloor_pos
  have hc₁ : c ≤ 1 := clipFactor_le_one
  have hslack : (1 - c) * (1 - c * ‖a‖) = (1 - c) * (c * normFloor) :=
    clip_slack (norm_nonneg a)
  rw [sub_ofReal_smul, re_inner_ofReal_smul, norm_ofReal_smul (by linarith),
    inner_self_eq_norm_sq]
  have hcost : (1 - c) * ‖a‖ * (c * normFloor) ≤ (1 - c) * ‖a‖ * (1 * normFloor) :=
    mul_le_mul_of_nonneg_left (mul_le_mul_of_nonneg_right hc₁ hf.le)
      (mul_nonneg (by linarith) (norm_nonneg a))
  have hvalue : c * (1 - c) * ‖a‖ ^ 2 = (1 - c) * ‖a‖ - (1 - c) * ‖a‖ * (c * normFloor) := by
    linear_combination (-‖a‖) * hslack
  linarith

theorem clip_firm :
    0 ≤ RCLike.re ⟪(clipFactor ‖a‖ : 𝕜) • a - (clipFactor ‖b‖ : 𝕜) • b,
      (a - (clipFactor ‖a‖ : 𝕜) • a) - (b - (clipFactor ‖b‖ : 𝕜) • b)⟫_𝕜 := by
  -- Projection is the rest of shrinkage by 1: what one keeps, the other removes.
  have hrest : ∀ x : 𝕜, (clipFactor ‖x‖ : 𝕜) • x = x - (shrinkFactor 1 ‖x‖ : 𝕜) • x := by
    intro x
    rw [clipFactor_eq, sub_ofReal_smul]
  rw [hrest, hrest, sub_sub_cancel, sub_sub_cancel, inner_re_symm]
  exact shrink_firm zero_le_one a b

end Entry

/-! ## §4. The dual map. -/

section Map

variable {s : List ℕ} {ρ : ℝ} {q : ℕ} (u v w : Space 𝕜 s)

/-- Every dual iterate satisfies the constraint on its trailing entries. -/
theorem inBox_dualMap (ρ : ℝ) (q : ℕ) : InBox q (dualMap ρ q v) := by
  intro i hi
  rw [dualMap_apply, if_neg (by omega)]
  exact norm_clip_le _

/-- The variational inequality of the exact proximal map, up to the floor. -/
theorem dual_variational (hρ : 0 ≤ ρ) (hw : InBox q w) :
    ρ * ‖lead q (dualMap ρ q v)‖ - ρ * ‖lead q w‖
      ≤ RCLike.re ⟪v - dualMap ρ q v, dualMap ρ q v - w⟫_𝕜 + normFloor * (ρ + q) := by
  have hlead := shrink_variational (𝕜 := 𝕜) hρ (lead q v) (lead q w)
  have htrail : -(normFloor * q) ≤ RCLike.re
      ⟪trail q v - clip (trail q v), clip (trail q v) - trail q w⟫_𝕜 := by
    rw [PiLp.inner_apply, map_sum, neg_le, ← Finset.sum_neg_distrib, mul_comm]
    -- Each trailing entry costs one floor, and no other entry costs anything.
    apply sum_trailing_le normFloor_pos.le
    intro i
    by_cases h : (i : ℕ) + q < s.prod
    · simp [trail_apply, clip_apply, h]
    · rw [if_neg h, neg_le]
      exact clip_variational _ _ (hw.norm_trail_le i)
  rw [inner_eq_blocks q, map_add, map_sub, map_sub, map_sub, map_sub, lead_dualMap,
    trail_dualMap]
  linarith

/-- The leading block moves by `ρ` at most. -/
theorem norm_lead_residual (hρ : 0 ≤ ρ) : ‖lead q (v - dualMap ρ q v)‖ ≤ ρ := by
  rw [map_sub, lead_dualMap, sub_ofReal_smul, norm_ofReal_smul]
  · exact shrink_residual_le hρ (norm_nonneg _)
  · exact sub_nonneg.2 (shrinkFactor_le_one hρ (norm_nonneg _))

/-- The result and what was removed from it are aligned, up to the floor. -/
theorem dual_complementary (hρ : 0 ≤ ρ) :
    ρ * ‖lead q (dualMap ρ q v)‖ + (1 - normFloor) * trailSum q (v - dualMap ρ q v)
      ≤ RCLike.re ⟪dualMap ρ q v, v - dualMap ρ q v⟫_𝕜 + ρ * normFloor := by
  have hlead := shrink_complementary (𝕜 := 𝕜) hρ (lead q v)
  have htrail : (1 - normFloor) * trailSum q (v - dualMap ρ q v)
      ≤ RCLike.re ⟪clip (trail q v), trail q v - clip (trail q v)⟫_𝕜 := by
    unfold trailSum
    rw [PiLp.inner_apply, map_sum, Finset.mul_sum, map_sub, trail_dualMap]
    exact Finset.sum_le_sum fun i _ => clip_complementary _
  rw [inner_eq_blocks q, map_add, map_sub (lead q), map_sub (trail q), lead_dualMap,
    trail_dualMap]
  linarith

/-- The dual map is firmly nonexpansive, the floor notwithstanding. -/
theorem dual_firm (hρ : 0 ≤ ρ) :
    0 ≤ RCLike.re ⟪dualMap ρ q u - dualMap ρ q v,
      (u - dualMap ρ q u) - (v - dualMap ρ q v)⟫_𝕜 := by
  have htrail : 0 ≤ RCLike.re ⟪clip (trail q u) - clip (trail q v),
      (trail q u - clip (trail q u)) - (trail q v - clip (trail q v))⟫_𝕜 := by
    rw [PiLp.inner_apply, map_sum]
    exact Finset.sum_nonneg fun i _ => clip_firm _ _
  rw [inner_eq_blocks q, map_add]
  simp only [map_sub, lead_dualMap, trail_dualMap] at htrail ⊢
  exact add_nonneg (shrink_firm hρ _ _) htrail

end Map

end Prox

end PrimalDual
