/-
  PrimalDual.Proofs.Prox.Minimiser
  ────────────────────────────────
  **PROXIMAL MAPS OF CONVEX FUNCTIONS.**

  `p` is a proximal point of `J` at `v` with step `t` if it minimises
  `J z + ‖z - v‖² / (2 t)`.  For a convex `J` the minimiser is known by an
  inequality without squares,

      J p - J z ≤ ⟪v - p, p - z⟫ / t     for every z,

  and this inequality is all that the analysis of the solver uses of it.
  `HasProx` says of a map on tensors that it returns proximal points.  The
  ready-made maps of the zero function and of `‖x‖² / 2` do.
-/
import PrimalDual.Proofs.Exact.Space
import PrimalDual.Regulariser
import Mathlib.Analysis.Convex.Mul
import Mathlib.Analysis.Normed.Module.Convex

namespace PrimalDual

open scoped RealInnerProductSpace

/-! ## §1. Proximal points. -/

section Point

variable {E : Type*} [NormedAddCommGroup E] [InnerProductSpace ℝ E]

/-- `p` minimises `J z + ‖z - v‖² / (2 t)`. -/
def IsProx (J : E → ℝ) (t : ℝ) (v p : E) : Prop :=
  ∀ z, J p + ‖p - v‖ ^ 2 / (2 * t) ≤ J z + ‖z - v‖ ^ 2 / (2 * t)

/-- `‖P u - P v‖² ≤ Re ⟪P u - P v, u - v⟫` for every pair of arguments. -/
def FirmlyNonexpansive (𝕜 : Type) {E : Type*} [RCLike 𝕜] [NormedAddCommGroup E]
    [InnerProductSpace 𝕜 E] (P : E → E) : Prop :=
  ∀ u v, ‖P u - P v‖ ^ 2 ≤ RCLike.re (inner 𝕜 (P u - P v) (u - v))

variable {J : E → ℝ} {t : ℝ} {v p : E}

/-- Comparison with a point on the segment from `p` to `z`. -/
theorem IsProx.le_segment (h : IsProx J t v p) (hJ : ConvexOn ℝ Set.univ J) (ht : 0 < t)
    (z : E) {θ : ℝ} (hθ : 0 < θ) (hθ' : θ ≤ 1) :
    J p - J z ≤ ⟪v - p, p - z⟫ / t + θ * (‖p - z‖ ^ 2 / (2 * t)) := by
  -- `p` is compared with the point a share `θ` of the way to `z`.
  have hmin := h ((1 - θ) • p + θ • z)
  have hconv : J ((1 - θ) • p + θ • z) ≤ (1 - θ) * J p + θ * J z :=
    hJ.2 (Set.mem_univ p) (Set.mem_univ z) (sub_nonneg.2 hθ') hθ.le (by ring)
  have hpoint : (1 - θ) • p + θ • z - v = -((v - p) + θ • (p - z)) := by
    rw [sub_smul, one_smul, smul_sub]
    abel
  have hnorm : ‖(1 - θ) • p + θ • z - v‖ ^ 2
      = ‖p - v‖ ^ 2 + 2 * (θ * ⟪v - p, p - z⟫) + θ ^ 2 * ‖p - z‖ ^ 2 := by
    rw [hpoint, norm_neg, norm_add_sq_real, inner_smul_right, norm_smul, norm_sub_rev v p,
      Real.norm_of_nonneg hθ.le, mul_pow]
  rw [hnorm] at hmin
  -- Every term has a factor `θ` now, which the last line takes off.
  have hscaled : θ * (J p - J z)
      ≤ θ * (⟪v - p, p - z⟫ / t + θ * (‖p - z‖ ^ 2 / (2 * t))) := by
    have hsplit : (‖p - v‖ ^ 2 + 2 * (θ * ⟪v - p, p - z⟫) + θ ^ 2 * ‖p - z‖ ^ 2) / (2 * t)
        = ‖p - v‖ ^ 2 / (2 * t) + θ * (⟪v - p, p - z⟫ / t + θ * (‖p - z‖ ^ 2 / (2 * t))) := by
      field_simp
      ring
    linarith
  exact le_of_mul_le_mul_left hscaled hθ

/-- **The variational inequality of a proximal point.** -/
theorem IsProx.variational (h : IsProx J t v p) (hJ : ConvexOn ℝ Set.univ J) (ht : 0 < t)
    (z : E) : J p - J z ≤ ⟪v - p, p - z⟫ / t := by
  -- The quadratic term of a short step towards `z` can be made as small as wanted.
  apply le_of_forall_pos_le_add
  intro ε hε
  set C := ‖p - z‖ ^ 2 / (2 * t) with hC
  have hC₀ : 0 ≤ C := by positivity
  have hstep : 0 < ε / (C + 1) := by positivity
  have hθ : 0 < min 1 (ε / (C + 1)) := lt_min one_pos hstep
  have hsmall : min 1 (ε / (C + 1)) * C ≤ ε := by
    calc min 1 (ε / (C + 1)) * C
        ≤ ε / (C + 1) * (C + 1) :=
          mul_le_mul (min_le_right _ _) (by linarith) hC₀ hstep.le
      _ = ε := div_mul_cancel₀ _ (by linarith)
  linarith [h.le_segment hJ ht z hθ (min_le_left _ _)]

/-- Proximal maps of convex functions are firmly nonexpansive. -/
theorem IsProx.firmlyNonexpansive {P : E → E} (h : ∀ v, IsProx J t v (P v))
    (hJ : ConvexOn ℝ Set.univ J) (ht : 0 < t) : FirmlyNonexpansive ℝ P := by
  intro u v
  -- Each result is the comparison point of the other.
  have hu := (h u).variational hJ ht (P v)
  have hv := (h v).variational hJ ht (P u)
  have hsum : 0 ≤ (⟪u - P u, P u - P v⟫ + ⟪v - P v, P v - P u⟫) / t := by
    rw [add_div]
    linarith
  have hexpand : ⟪u - P u, P u - P v⟫ + ⟪v - P v, P v - P u⟫
      = ⟪P u - P v, u - v⟫ - ‖P u - P v‖ ^ 2 := by
    rw [← neg_sub (P u) (P v), inner_neg_right, ← sub_eq_add_neg, ← inner_sub_left,
      sub_sub_sub_comm, inner_sub_left, real_inner_self_eq_norm_sq, real_inner_comm]
  rwa [hexpand, le_div_iff₀ ht, zero_mul, sub_nonneg] at hsum

end Point

/-! ## §2. Proximal maps on tensors. -/

/-- A map on tensors of a shape returns the proximal points of `J`, for every step. -/
def HasProx {D : List ℕ} (prox : Tensor Unit ℝ → ℝ → Except (Failure ℝ) (Tensor Unit ℝ))
    (J : Space ℝ D → ℝ) : Prop :=
  ∀ (v : Space ℝ D) (t : ℝ), 0 < t →
    ∃ p, prox (Tensor.ofVec D v) t = .ok (Tensor.ofVec D p) ∧ IsProx J t v p

section Maps

variable {D : List ℕ}

/-- At one step, such a map is a map on vectors. -/
theorem HasProx.exists_map {prox : Tensor Unit ℝ → ℝ → Except (Failure ℝ) (Tensor Unit ℝ)}
    {J : Space ℝ D → ℝ} (h : HasProx prox J) {t : ℝ} (ht : 0 < t) :
    ∃ P : Space ℝ D → Space ℝ D, (∀ v, prox (Tensor.ofVec D v) t = .ok (Tensor.ofVec D (P v)))
      ∧ ∀ v, IsProx J t v (P v) := by
  choose P hP using fun v => h v t ht
  exact ⟨P, fun v => (hP v).1, fun v => (hP v).2⟩

theorem hasProx_zero : HasProx (Regulariser.prox .zero) fun _ : Space ℝ D => 0 := by
  intro v t ht
  refine ⟨v, rfl, ?_⟩
  intro z
  show (0 : ℝ) + ‖v - v‖ ^ 2 / (2 * t) ≤ 0 + ‖z - v‖ ^ 2 / (2 * t)
  rw [sub_self, norm_zero, zero_pow two_ne_zero, zero_div, zero_add, zero_add]
  positivity

theorem convexOn_ridge : ConvexOn ℝ Set.univ fun x : Space ℝ D => ‖x‖ ^ 2 / 2 := by
  have h := ((convexOn_univ_norm (E := Space ℝ D)).pow (fun _ _ => norm_nonneg _) 2).smul
    (show (0 : ℝ) ≤ 2⁻¹ by norm_num)
  apply h.congr
  intro x _
  show (2 : ℝ)⁻¹ * ‖x‖ ^ 2 = ‖x‖ ^ 2 / 2
  rw [inv_mul_eq_div]

theorem hasProx_ridge : HasProx (Regulariser.prox .ridge) fun x : Space ℝ D => ‖x‖ ^ 2 / 2 := by
  intro v t ht
  have hs : 1 + t ≠ 0 := by linarith
  refine ⟨(1 + t)⁻¹ • v, ?_, ?_⟩
  · show Except.ok ((Tensor.ofVec D v).divBy (Control.one + t)) = _
    rw [Control.one_real, Tensor.divBy_ofVec]
    rfl
  · intro z
    set p := (1 + t)⁻¹ • v with hp
    have hv : v = (1 + t) • p := by rw [hp, smul_inv_smul₀ hs]
    have hz : ‖z - v‖ ^ 2 = ‖z - p‖ ^ 2 - 2 * t * ⟪z - p, p⟫ + t ^ 2 * ‖p‖ ^ 2 := by
      have hpoint : z - v = (z - p) - t • p := by
        rw [hv, add_smul, one_smul]
        abel
      rw [hpoint, norm_sub_sq_real, real_inner_smul_right, norm_smul, mul_pow, Real.norm_eq_abs,
        sq_abs]
      ring
    have hz' : ‖z‖ ^ 2 = ‖z - p‖ ^ 2 + 2 * ⟪z - p, p⟫ + ‖p‖ ^ 2 := by
      rw [← norm_add_sq_real, sub_add_cancel]
    have hpv : ‖p - v‖ ^ 2 = t ^ 2 * ‖p‖ ^ 2 := by
      rw [hv, add_smul, one_smul, sub_add_cancel_left, norm_neg, norm_smul, mul_pow,
        Real.norm_eq_abs, sq_abs]
    -- The squares around `p` have no linear term left.
    have hgain : 0 ≤ ‖z - p‖ ^ 2 / 2 + ‖z - p‖ ^ 2 / (2 * t) := by positivity
    have hsplit : (‖z - p‖ ^ 2 - 2 * t * ⟪z - p, p⟫ + t ^ 2 * ‖p‖ ^ 2) / (2 * t)
        = ‖z - p‖ ^ 2 / (2 * t) - ⟪z - p, p⟫ + t ^ 2 * ‖p‖ ^ 2 / (2 * t) := by
      field_simp
    show ‖p‖ ^ 2 / 2 + ‖p - v‖ ^ 2 / (2 * t) ≤ ‖z‖ ^ 2 / 2 + ‖z - v‖ ^ 2 / (2 * t)
    rw [hz, hz', hpv, hsplit]
    linarith

end Maps

end PrimalDual
