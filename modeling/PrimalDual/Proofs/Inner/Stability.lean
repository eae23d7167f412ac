/-
  PrimalDual.Proofs.Inner.Stability
  ─────────────────────────────────
  **STABILITY IN THE INITIAL VALUES.**

  Two runs that differ in their start alone come no further apart in the
  coupled metric: every step is nonexpansive (`energy_step_le`), hence every
  number of steps is (`energy_after_le`), and so is their average
  (`energy_average_sub_le`).  Nothing is asked of the regulariser but a firmly
  nonexpansive proximal map, nothing of the size that is stated for the
  trailing block, and the entries may be real or complex.
-/
import PrimalDual.Proofs.Inner.Linear
import PrimalDual.Proofs.Prox.DualBounds
import PrimalDual.Proofs.Prox.Minimiser

namespace PrimalDual

open Tensor Coupling Prox
open scoped InnerProductSpace

variable {𝕜 : Type} [RCLike 𝕜] {D S : List ℕ}

/-! ## §1. One step. -/

variable {T : Space 𝕜 D →L[𝕜] Space 𝕜 S} {P : Space 𝕜 D → Space 𝕜 D}
variable {τ₁ τ₂ ε : ℝ} (hP : FirmlyNonexpansive 𝕜 P) (h₁ : 0 < τ₁) (h₂ : 0 < τ₂)
variable (hT : τ₁ * τ₂ * ‖T‖ ^ 2 ≤ 1) (hε : 0 ≤ ε) (b : Space 𝕜 S) (q : ℕ)
variable (z w : Space 𝕜 D × Space 𝕜 S)
include hP h₁ h₂ hT hε

/-- **A step is nonexpansive in the coupled metric.** -/
theorem energy_step_le :
    energy T τ₁ τ₂ ((Scheme.linear T P b τ₁ τ₂ ε q).step z
        - (Scheme.linear T P b τ₁ τ₂ ε q).step w) ≤ energy T τ₁ τ₂ (z - w) := by
  set σ := Scheme.linear T P b τ₁ τ₂ ε q with hσ
  set d := σ.step z - σ.step w with hd
  -- Both halves of the step are firmly nonexpansive in their arguments.
  have hprimal : 0 ≤ RCLike.re ⟪σ.primalResidual z - σ.primalResidual w, d.1⟫_𝕜 := by
    have hfirm := hP (z.1 - (τ₁ : 𝕜) • σ.adjoint z.2) (w.1 - (τ₁ : 𝕜) • σ.adjoint w.2)
    have hsplit : σ.primalResidual z - σ.primalResidual w
        = (z.1 - (τ₁ : 𝕜) • σ.adjoint z.2) - (w.1 - (τ₁ : 𝕜) • σ.adjoint w.2) - d.1 := by
      show (z.1 - (τ₁ : 𝕜) • σ.adjoint z.2 - (σ.step z).1)
        - (w.1 - (τ₁ : 𝕜) • σ.adjoint w.2 - (σ.step w).1) = _
      rw [hd, Prod.fst_sub]
      abel
    rw [hsplit, inner_sub_left, map_sub, inner_self_eq_norm_sq, inner_re_symm, sub_nonneg]
    exact hfirm
  have hdual : 0 ≤ RCLike.re ⟪σ.dualResidual z - σ.dualResidual w, d.2⟫_𝕜 := by
    rw [inner_re_symm]
    exact dual_firm _ _ (mul_nonneg h₂.le hε)
  -- Subtracting the identities of the two runs leaves the step of their difference.
  have hz := Scheme.residual_pairing T P b ε q h₁.ne' h₂.ne' z d
  have hw := Scheme.residual_pairing T P b ε q h₁.ne' h₂.ne' w d
  have hcross : RCLike.re ⟪T (σ.step z).1 - b, d.2⟫_𝕜 - RCLike.re ⟪T (σ.step w).1 - b, d.2⟫_𝕜
      = RCLike.re ⟪T d.1, (σ.step z).2⟫_𝕜 - RCLike.re ⟪T d.1, (σ.step w).2⟫_𝕜 := by
    rw [← map_sub, ← map_sub, ← inner_sub_left, ← inner_sub_right, sub_sub_sub_cancel_right,
      ← map_sub]
    rfl
  -- So the difference of the results is not opposed to what the step has taken off.
  have hpair : 0 ≤ pairing T τ₁ τ₂ d (z - w - d) := by
    have hpoint : z - w - d = (z - σ.step z) - (w - σ.step w) := by
      rw [hd]
      abel
    rw [hpoint, pairing_sub_right, pairing_comm T d, pairing_comm T d]
    rw [inner_sub_left, map_sub] at hprimal hdual
    have := add_nonneg (div_nonneg hprimal h₁.le) (div_nonneg hdual h₂.le)
    rw [sub_div, sub_div] at this
    linarith
  linarith [pairing_sub_le h₁ h₂ hT (z - w) d]

/-! ## §2. Runs and averages. -/

theorem energy_after_le (n : ℕ) :
    energy T τ₁ τ₂ ((Scheme.linear T P b τ₁ τ₂ ε q).after z n
        - (Scheme.linear T P b τ₁ τ₂ ε q).after w n) ≤ energy T τ₁ τ₂ (z - w) := by
  induction n with
  | zero => exact le_rfl
  | succ n ih =>
    rw [Scheme.after_succ, Scheme.after_succ]
    exact (energy_step_le hP h₁ h₂ hT hε b q _ _).trans ih

theorem energy_average_sub_le {n : ℕ} (hn : 0 < n) :
    energy T τ₁ τ₂ (((n : ℝ) : 𝕜)⁻¹ • (Scheme.linear T P b τ₁ τ₂ ε q).total z n
        - ((n : ℝ) : 𝕜)⁻¹ • (Scheme.linear T P b τ₁ τ₂ ε q).total w n)
      ≤ energy T τ₁ τ₂ (z - w) := by
  set σ := Scheme.linear T P b τ₁ τ₂ ε q with hσ
  have hn' : (0 : ℝ) < n := Nat.cast_pos.2 hn
  have haverage := energy_average_le h₁ h₂ hT hn fun i => σ.after z (i + 1) - σ.after w (i + 1)
  have hsum : ∑ i ∈ Finset.range n, energy T τ₁ τ₂ (σ.after z (i + 1) - σ.after w (i + 1))
      ≤ n * energy T τ₁ τ₂ (z - w) := by
    rw [← nsmul_eq_mul, ← Finset.card_range n, ← Finset.sum_const, Finset.card_range]
    exact Finset.sum_le_sum fun i _ => energy_after_le hP h₁ h₂ hT hε b q z w (i + 1)
  rw [Finset.sum_sub_distrib, smul_sub] at haverage
  exact le_of_mul_le_mul_left (haverage.trans hsum) hn'

/-- What two runs of the scheme put out, last iterates or averages alike. -/
theorem energy_output_sub_le {type : OutputType} (htype : type = .last ∨ type = .averaged)
    {n : ℕ} (hn : 0 < n) :
    energy T τ₁ τ₂ ((Scheme.linear T P b τ₁ τ₂ ε q).output type n z
        - (Scheme.linear T P b τ₁ τ₂ ε q).output type n w) ≤ energy T τ₁ τ₂ (z - w) := by
  rcases htype with rfl | rfl
  · exact energy_after_le hP h₁ h₂ hT hε b q z w n
  · exact energy_average_sub_le hP h₁ h₂ hT hε b q z w hn

omit hP h₁ h₂ hT hε

/-! ## §3. What two runs return. -/

/-- **The two-run law.**  Runs whose observer does not fail return, and what they return is
no further apart in the coupled metric than their starts, whatever size is stated for the trailing
block. -/
theorem Inner.energy_results_le {K : Operator (Except (Failure ℝ)) ℝ Unit 𝕜} (hK : K.Acts T)
    {prox : Tensor Unit 𝕜 → ℝ → Except (Failure ℝ) (Tensor Unit 𝕜)}
    (hprox : ∀ v, prox (ofVec D v) τ₁ = .ok (ofVec D (P v))) (hP : FirmlyNonexpansive 𝕜 P)
    (h₁ : 0 < τ₁) (h₂ : 0 < τ₂) (hT : τ₁ * τ₂ * ‖T‖ ^ 2 ≤ 1) (hε : 0 ≤ ε) (q : ℤ)
    (b : Space 𝕜 S) {o : Observer (Except (Failure ℝ)) ℝ Unit 𝕜}
    (ho : o.outputType.number = 1 ∨ o.outputType.number = 4) {kIter : ℤ} (hk : 1 ≤ kIter) :
    (o.Faultless → ∀ x y, ∃ r, Inner.run ⟨ofVec S b, K, τ₁, τ₂, ε, prox, .whole q⟩ o kIter
        (ofVec D x) (ofVec S y) = .ok r)
      ∧ ∀ x y x' y' r r',
        Inner.run ⟨ofVec S b, K, τ₁, τ₂, ε, prox, .whole q⟩ o kIter
          (ofVec D x) (ofVec S y) = .ok r →
        Inner.run ⟨ofVec S b, K, τ₁, τ₂, ε, prox, .whole q⟩ o kIter
          (ofVec D x') (ofVec S y') = .ok r' →
        (r.x.shape = D ∧ r.y.shape = S ∧ r'.x.shape = D ∧ r'.y.shape = S)
          ∧ ‖vec D r.x - vec D r'.x‖ ^ 2 / τ₁ + ‖vec S r.y - vec S r'.y‖ ^ 2 / τ₂
              - 2 * RCLike.re ⟪T (vec D r.x - vec D r'.x), vec S r.y - vec S r'.y⟫_𝕜
            ≤ ‖x - x'‖ ^ 2 / τ₁ + ‖y - y'‖ ^ 2 / τ₂
              - 2 * RCLike.re ⟪T (x - x'), y - y'⟫_𝕜 := by
  have hfollowed := hK.followed_whole hprox b τ₂ ε q
  refine ⟨fun h x y => hfollowed.run_returns h x y kIter, fun x y x' y' r r' hr hr' => ?_⟩
  obtain ⟨hx, hy⟩ := hfollowed.run_output (by omega) hr
  obtain ⟨hx', hy'⟩ := hfollowed.run_output (by omega) hr'
  have htype : o.outputType = .last ∨ o.outputType = .averaged :=
    ho.imp OutputType.number_inj OutputType.number_inj
  rw [hx, hy, hx', hy']
  refine ⟨⟨rfl, rfl, rfl, rfl⟩, ?_⟩
  simp only [vec_ofVec]
  exact energy_output_sub_le hP h₁ h₂ hT hε b _ (x, y) (x', y') htype (by omega)

/-- Averages of five steps for `‖x‖² / 2`, with one entry in the leading block. -/
theorem Inner.energy_results_le_ridge :
    ∃ r r', Inner.run ⟨ofVec [2] (WithLp.toLp 2 fun _ => 1), .identity, 1, 1, 1 / 2,
        Regulariser.prox .ridge, .whole 1⟩ (Observer.silent .averaged) 5
        (ofVec [2] (WithLp.toLp 2 fun _ => 3)) (ofVec [2] 0) = .ok r
      ∧ Inner.run ⟨ofVec [2] (WithLp.toLp 2 fun _ => 1), .identity, 1, 1, 1 / 2,
        Regulariser.prox .ridge, .whole 1⟩ (Observer.silent .averaged) 5
        (ofVec [2] (0 : Space ℝ [2])) (ofVec [2] 0) = .ok r'
      ∧ ‖vec [2] r.x - vec [2] r'.x‖ ^ 2 + ‖vec [2] r.y - vec [2] r'.y‖ ^ 2
          - 2 * ⟪vec [2] r.x - vec [2] r'.x, vec [2] r.y - vec [2] r'.y⟫_ℝ ≤ 18 := by
  obtain ⟨P, hprox, hmin⟩ := (hasProx_ridge (D := [2])).exists_map one_pos
  obtain ⟨hreturns, hbound⟩ := energy_results_le Operator.acts_identity hprox
    (IsProx.firmlyNonexpansive hmin convexOn_ridge one_pos) one_pos one_pos
    (step_condition_id ℝ _) (show (0 : ℝ) ≤ 1 / 2 by norm_num) 1
    (WithLp.toLp 2 fun _ => 1) (o := .silent .averaged) (Or.inr rfl)
    (show (1 : ℤ) ≤ 5 by norm_num)
  obtain ⟨r, hr⟩ := hreturns (Observer.silent_faultless _) (WithLp.toLp 2 fun _ => 3) 0
  obtain ⟨r', hr'⟩ := hreturns (Observer.silent_faultless _) 0 0
  refine ⟨r, r', hr, hr', ?_⟩
  have h := (hbound _ _ _ _ r r' hr hr').2
  have hnorm : ‖(WithLp.toLp 2 fun _ => 3 : Space ℝ [2])‖ ^ 2 = 18 := by
    rw [EuclideanSpace.norm_sq_eq]
    norm_num [Fin.sum_univ_two]
  rw [sub_zero, sub_self, norm_zero, inner_zero_right, hnorm] at h
  norm_num at h ⊢
  exact h

end PrimalDual
