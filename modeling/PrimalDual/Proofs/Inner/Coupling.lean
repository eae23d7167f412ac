/-
  PrimalDual.Proofs.Inner.Coupling
  ────────────────────────────────
  **THE COUPLED METRIC OF THE PRIMAL-DUAL STEP.**

  Pairs of a primal and a dual vector are measured by

      energy (x, y) = ‖x‖² / τ₁ + ‖y‖² / τ₂ - 2 Re ⟪K x, y⟫

  in which both halves of a step become one proximal step.  Under the step
  condition `τ₁ τ₂ ‖K‖² ≤ 1` it is nonnegative, hence convex: the energy of
  an average is at most the average of the energies.
-/
import PrimalDual.Proofs.Exact.Arithmetic
import Mathlib.Analysis.InnerProductSpace.Adjoint

namespace PrimalDual

namespace Coupling

open scoped InnerProductSpace

variable {𝕜 E F : Type*} [RCLike 𝕜]
variable [NormedAddCommGroup E] [InnerProductSpace 𝕜 E]
variable [NormedAddCommGroup F] [InnerProductSpace 𝕜 F]

/-! ## §1. Pairing and energy. -/

/-- The real inner product of the coupled metric. -/
noncomputable def pairing (K : E →L[𝕜] F) (τ₁ τ₂ : ℝ) (z w : E × F) : ℝ :=
  RCLike.re ⟪z.1, w.1⟫_𝕜 / τ₁ + RCLike.re ⟪z.2, w.2⟫_𝕜 / τ₂
    - RCLike.re ⟪K z.1, w.2⟫_𝕜 - RCLike.re ⟪K w.1, z.2⟫_𝕜

/-- The squared length of the coupled metric. -/
noncomputable def energy (K : E →L[𝕜] F) (τ₁ τ₂ : ℝ) (z : E × F) : ℝ :=
  ‖z.1‖ ^ 2 / τ₁ + ‖z.2‖ ^ 2 / τ₂ - 2 * RCLike.re ⟪K z.1, z.2⟫_𝕜

variable (K : E →L[𝕜] F) {τ₁ τ₂ : ℝ}

theorem pairing_self (z : E × F) : pairing K τ₁ τ₂ z z = energy K τ₁ τ₂ z := by
  unfold pairing energy
  rw [inner_self_eq_norm_sq, inner_self_eq_norm_sq]
  ring

theorem pairing_comm (z w : E × F) : pairing K τ₁ τ₂ z w = pairing K τ₁ τ₂ w z := by
  unfold pairing
  rw [inner_re_symm z.1, inner_re_symm z.2]
  ring

theorem pairing_sub_right (z w w' : E × F) :
    pairing K τ₁ τ₂ z (w - w') = pairing K τ₁ τ₂ z w - pairing K τ₁ τ₂ z w' := by
  unfold pairing
  simp only [Prod.fst_sub, Prod.snd_sub, map_sub, inner_sub_left, inner_sub_right]
  ring

theorem pairing_sum_right {ι : Type*} (t : Finset ι) (z : E × F) (w : ι → E × F) :
    pairing K τ₁ τ₂ z (∑ i ∈ t, w i) = ∑ i ∈ t, pairing K τ₁ τ₂ z (w i) := by
  unfold pairing
  simp only [Prod.fst_sum, Prod.snd_sum, map_sum, inner_sum, sum_inner, Finset.sum_sub_distrib,
    Finset.sum_add_distrib, Finset.sum_div]

theorem pairing_smul_right (c : ℝ) (z w : E × F) :
    pairing K τ₁ τ₂ z ((c : 𝕜) • w) = c * pairing K τ₁ τ₂ z w := by
  unfold pairing
  simp only [Prod.smul_fst, Prod.smul_snd, map_smul, inner_smul_left, inner_smul_right,
    RCLike.conj_ofReal, RCLike.re_ofReal_mul]
  ring

/-- The energy of a difference. -/
theorem energy_sub (z w : E × F) :
    energy K τ₁ τ₂ (z - w)
      = energy K τ₁ τ₂ z - 2 * pairing K τ₁ τ₂ z w + energy K τ₁ τ₂ w := by
  rw [← pairing_self, pairing_sub_right, pairing_comm K (z - w) z, pairing_comm K (z - w) w,
    pairing_sub_right, pairing_sub_right, pairing_self, pairing_self, pairing_comm K w z]
  ring

/-! ## §2. The step condition. -/

variable {K}

/-- The identity satisfies the condition with steps 1. -/
theorem step_condition_id (𝕜 E : Type*) [RCLike 𝕜] [NormedAddCommGroup E]
    [InnerProductSpace 𝕜 E] : (1 : ℝ) * 1 * ‖ContinuousLinearMap.id 𝕜 E‖ ^ 2 ≤ 1 := by
  rw [one_mul, one_mul]
  exact pow_le_one₀ (norm_nonneg _) ContinuousLinearMap.norm_id_le

theorem energy_nonneg (h₁ : 0 < τ₁) (h₂ : 0 < τ₂) (hK : τ₁ * τ₂ * ‖K‖ ^ 2 ≤ 1) (z : E × F) :
    0 ≤ energy K τ₁ τ₂ z := by
  have hinner : RCLike.re ⟪K z.1, z.2⟫_𝕜 ≤ ‖K‖ * ‖z.1‖ * ‖z.2‖ :=
    (re_inner_le_norm _ _).trans
      (mul_le_mul_of_nonneg_right (K.le_opNorm _) (norm_nonneg _))
  have hsquare : 0 ≤ (‖z.1‖ - τ₁ * (‖K‖ * ‖z.2‖)) ^ 2 / τ₁ := by positivity
  have hrest : 0 ≤ (1 - τ₁ * τ₂ * ‖K‖ ^ 2) * ‖z.2‖ ^ 2 / τ₂ :=
    div_nonneg (mul_nonneg (sub_nonneg.2 hK) (sq_nonneg _)) h₂.le
  -- Completing the square in `‖x‖` leaves what the step condition makes nonnegative.
  have hcomplete : ‖z.1‖ ^ 2 / τ₁ + ‖z.2‖ ^ 2 / τ₂ - 2 * (‖K‖ * ‖z.1‖ * ‖z.2‖)
      = (‖z.1‖ - τ₁ * (‖K‖ * ‖z.2‖)) ^ 2 / τ₁ + (1 - τ₁ * τ₂ * ‖K‖ ^ 2) * ‖z.2‖ ^ 2 / τ₂ := by
    field_simp
    ring
  unfold energy
  linarith

/-- With one step size for both halves, the energy is no more than twice the squared lengths. -/
theorem energy_le {τ : ℝ} (hτ : 0 < τ) (hK : τ * ‖K‖ ≤ 1) (z : E × F) :
    energy K τ τ z ≤ 2 / τ * (‖z.1‖ ^ 2 + ‖z.2‖ ^ 2) := by
  -- The mixed term is at most `‖K‖ ‖z.1‖ ‖z.2‖`, and `‖K‖` at most `1 / τ`.
  have hinner : -RCLike.re ⟪K z.1, z.2⟫_𝕜 ≤ ‖K‖ * (‖z.1‖ * ‖z.2‖) := by
    rw [← map_neg, ← inner_neg_right, ← mul_assoc, ← norm_neg z.2]
    exact (re_inner_le_norm _ _).trans
      (mul_le_mul_of_nonneg_right (K.le_opNorm _) (norm_nonneg _))
  have hnorm : ‖K‖ ≤ 1 / τ := by
    rw [le_div_iff₀ hτ, mul_comm]
    exact hK
  have hproduct : 2 * (‖z.1‖ * ‖z.2‖) ≤ ‖z.1‖ ^ 2 + ‖z.2‖ ^ 2 := by
    linarith [two_mul_le_add_sq ‖z.1‖ ‖z.2‖]
  calc energy K τ τ z
      ≤ ‖z.1‖ ^ 2 / τ + ‖z.2‖ ^ 2 / τ + ‖K‖ * (2 * (‖z.1‖ * ‖z.2‖)) := by
        unfold energy
        linarith
    _ ≤ ‖z.1‖ ^ 2 / τ + ‖z.2‖ ^ 2 / τ + 1 / τ * (‖z.1‖ ^ 2 + ‖z.2‖ ^ 2) := by
        refine add_le_add_right (mul_le_mul hnorm hproduct ?_ ?_) _
        · positivity
        · positivity
    _ = 2 / τ * (‖z.1‖ ^ 2 + ‖z.2‖ ^ 2) := by
        field_simp
        ring

/-- What a move from `z` to `w` is paired with uses up at most half of the energy lost. -/
theorem pairing_sub_le (h₁ : 0 < τ₁) (h₂ : 0 < τ₂) (hK : τ₁ * τ₂ * ‖K‖ ^ 2 ≤ 1)
    (z w : E × F) :
    pairing K τ₁ τ₂ w (z - w) ≤ (energy K τ₁ τ₂ z - energy K τ₁ τ₂ w) / 2 := by
  have hdiff := energy_nonneg h₁ h₂ hK (z - w)
  rw [energy_sub] at hdiff
  rw [pairing_sub_right, pairing_self, pairing_comm]
  linarith

/-- The energy of an average is at most the average of the energies. -/
theorem energy_average_le (h₁ : 0 < τ₁) (h₂ : 0 < τ₂) (hK : τ₁ * τ₂ * ‖K‖ ^ 2 ≤ 1)
    {n : ℕ} (hn : 0 < n) (z : ℕ → E × F) :
    n * energy K τ₁ τ₂ (((n : ℝ) : 𝕜)⁻¹ • ∑ i ∈ Finset.range n, z i)
      ≤ ∑ i ∈ Finset.range n, energy K τ₁ τ₂ (z i) := by
  set w := ((n : ℝ) : 𝕜)⁻¹ • ∑ i ∈ Finset.range n, z i with hw
  have hn' : (n : ℝ) ≠ 0 := Nat.cast_ne_zero.2 hn.ne'
  have hself : energy K τ₁ τ₂ w
      = (n : ℝ)⁻¹ * ∑ i ∈ Finset.range n, pairing K τ₁ τ₂ w (z i) := by
    rw [← pairing_sum_right, ← pairing_smul_right, RCLike.ofReal_inv, ← hw, pairing_self]
  have hsum : ∑ i ∈ Finset.range n, pairing K τ₁ τ₂ w (z i) = n * energy K τ₁ τ₂ w := by
    rw [hself, mul_inv_cancel_left₀ hn']
  -- Every term is at a nonnegative distance from the average.
  have hterm : ∀ i ∈ Finset.range n,
      2 * pairing K τ₁ τ₂ w (z i) - energy K τ₁ τ₂ w ≤ energy K τ₁ τ₂ (z i) := by
    intro i _
    have := energy_nonneg h₁ h₂ hK (w - z i)
    rw [energy_sub] at this
    linarith
  have htotal := Finset.sum_le_sum hterm
  rw [Finset.sum_sub_distrib, ← Finset.mul_sum, hsum, Finset.sum_const, Finset.card_range,
    nsmul_eq_mul] at htotal
  linarith

end Coupling

end PrimalDual
