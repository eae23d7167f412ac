/-
  PrimalDual.Proofs.Inner.Linear
  ──────────────────────────────
  **STEPS WITH A LINEAR OPERATOR.**

  What a proximal map removes from its argument is its *residual*.  With a
  linear operator the residuals of both halves of a step, tested with any
  pair of vectors, are the coupled metric of the step and a term that is
  antisymmetric in old and new data (`residual_pairing`).  The gap bound and
  the stability bound both start from this identity.

  Every linear map is one of a solver's operators (`ofLinear`), and so is
  what it becomes in other coordinates (`transported`).
-/
import PrimalDual.Proofs.Inner.Coupling
import PrimalDual.Proofs.Inner.Scheme
import PrimalDual.Proofs.Operator.Acts

namespace PrimalDual

open Tensor Coupling
open scoped InnerProductSpace InnerProduct

variable {𝕜 : Type} [RCLike 𝕜] {D S : List ℕ}

/-! ## §1. Linear maps as operators. -/

/-- The map `T†T`, whose largest eigenvalue is the square of the norm of `T`. -/
noncomputable def NormEstimate.gram (T : Space 𝕜 D →L[𝕜] Space 𝕜 S) :
    Space 𝕜 D →L[𝕜] Space 𝕜 D := T† ∘L T

/-- The pair of maps of a linear map. -/
noncomputable def Operator.ofLinear (T : Space 𝕜 D →L[𝕜] Space 𝕜 S) :
    Operator (Except (Failure ℝ)) ℝ Unit 𝕜 :=
  .maps (fun x => .ok (ofVec S (T (vec D x)))) fun y => .ok (ofVec D ((T†) (vec S y)))

theorem Operator.acts_ofLinear (T : Space 𝕜 D →L[𝕜] Space 𝕜 S) : (Operator.ofLinear T).Acts T where
  forward x := by
    show Except.ok (ofVec S (T (vec D (ofVec D x)))) = _
    rw [vec_ofVec]
  adjoint y := by
    show Except.ok (ofVec D ((T†) (vec S (ofVec S y)))) = _
    rw [vec_ofVec]

/-- The linear map in other coordinates of its range and in another basis of its domain. -/
noncomputable def transported {S' : List ℕ} (V : Space 𝕜 D ≃ₗᵢ[𝕜] Space 𝕜 D)
    (U : Space 𝕜 S →ₗᵢ[𝕜] Space 𝕜 S') (T : Space 𝕜 D →L[𝕜] Space 𝕜 S) :
    Space 𝕜 D →L[𝕜] Space 𝕜 S' :=
  U.toContinuousLinearMap ∘L (T ∘L V.symm.toLinearIsometry.toContinuousLinearMap)

/-! ## §2. Residuals. -/

namespace Scheme

/-- The scheme of a linear operator and its adjoint. -/
noncomputable def linear (T : Space 𝕜 D →L[𝕜] Space 𝕜 S) (P : Space 𝕜 D → Space 𝕜 D)
    (b : Space 𝕜 S) (τ₁ τ₂ ε : ℝ) (q : ℕ) : Scheme 𝕜 D S where
  forward := T
  adjoint := T†
  prox := P
  b := b
  primalStep := τ₁
  dualStep := τ₂
  epsilon := ε
  q := q

/-- What the primal proximal map removes. -/
noncomputable def primalResidual (σ : Scheme 𝕜 D S) (z : Space 𝕜 D × Space 𝕜 S) : Space 𝕜 D :=
  z.1 - (σ.primalStep : 𝕜) • σ.adjoint z.2 - (σ.step z).1

/-- What the dual map removes. -/
noncomputable def dualResidual (σ : Scheme 𝕜 D S) (z : Space 𝕜 D × Space 𝕜 S) : Space 𝕜 S :=
  σ.dualArgument z (σ.step z).1 - (σ.step z).2

variable (T : Space 𝕜 D →L[𝕜] Space 𝕜 S) (P : Space 𝕜 D → Space 𝕜 D) (b : Space 𝕜 S)
variable {τ₁ τ₂ : ℝ} (ε : ℝ) (q : ℕ)

/-- **The residuals of a step in the coupled metric.** -/
theorem residual_pairing (h₁ : τ₁ ≠ 0) (h₂ : τ₂ ≠ 0) (z d : Space 𝕜 D × Space 𝕜 S) :
    RCLike.re ⟪(linear T P b τ₁ τ₂ ε q).primalResidual z, d.1⟫_𝕜 / τ₁
        + RCLike.re ⟪(linear T P b τ₁ τ₂ ε q).dualResidual z, d.2⟫_𝕜 / τ₂
      = pairing T τ₁ τ₂ (z - (linear T P b τ₁ τ₂ ε q).step z) d
        + RCLike.re ⟪T ((linear T P b τ₁ τ₂ ε q).step z).1 - b, d.2⟫_𝕜
        - RCLike.re ⟪T d.1, ((linear T P b τ₁ τ₂ ε q).step z).2⟫_𝕜 := by
  set z' := (linear T P b τ₁ τ₂ ε q).step z with hz'
  -- Each residual is the move of its half of the step, and a term with `T`.
  have hprimal : RCLike.re ⟪(linear T P b τ₁ τ₂ ε q).primalResidual z, d.1⟫_𝕜
      = RCLike.re ⟪z.1 - z'.1, d.1⟫_𝕜 - τ₁ * RCLike.re ⟪T d.1, z.2⟫_𝕜 := by
    show RCLike.re ⟪z.1 - (τ₁ : 𝕜) • (T†) z.2 - z'.1, d.1⟫_𝕜 = _
    rw [sub_right_comm, inner_sub_left, map_sub, inner_smul_left, RCLike.conj_ofReal,
      RCLike.re_ofReal_mul, ContinuousLinearMap.adjoint_inner_left, inner_re_symm z.2]
  have hdual : RCLike.re ⟪(linear T P b τ₁ τ₂ ε q).dualResidual z, d.2⟫_𝕜
      = RCLike.re ⟪z.2 - z'.2, d.2⟫_𝕜
        + τ₂ * RCLike.re ⟪T z'.1 - b - T (z.1 - z'.1), d.2⟫_𝕜 := by
    -- Extrapolation: `T (2 x' - x)` is `T x'` less `T (x - x')`.
    have hvector : (linear T P b τ₁ τ₂ ε q).dualResidual z
        = z.2 - z'.2 + (τ₂ : 𝕜) • (T z'.1 - b - T (z.1 - z'.1)) := by
      show z.2 + (τ₂ : 𝕜) • T (((2 : ℝ) : 𝕜) • z'.1 - z.1) - (τ₂ : 𝕜) • b - z'.2 = _
      rw [map_sub, map_sub, map_smul, RCLike.ofReal_ofNat, two_smul]
      simp only [smul_sub, smul_add]
      abel
    rw [hvector, inner_add_left, map_add, inner_smul_left, RCLike.conj_ofReal,
      RCLike.re_ofReal_mul]
  -- The terms with `z.2` and with `z.1 - z'.1` are those of the coupled metric.
  rw [hprimal, hdual]
  unfold pairing
  simp only [Prod.fst_sub, Prod.snd_sub, inner_sub_left, inner_sub_right, map_sub]
  field_simp
  ring

end Scheme

/-! ## §3. Problems with a linear operator. -/

section Followed

variable {K : Operator (Except (Failure ℝ)) ℝ Unit 𝕜} {T : Space 𝕜 D →L[𝕜] Space 𝕜 S}
variable {prox : Tensor Unit 𝕜 → ℝ → Except (Failure ℝ) (Tensor Unit 𝕜)}
variable {P : Space 𝕜 D → Space 𝕜 D} {τ₁ : ℝ}

/-- A problem whose operator acts as `T` and whose proximal map as `P` follows the linear scheme,
with as many entries in the trailing block as are left there. -/
theorem Operator.Acts.followed_whole (hK : K.Acts T)
    (hP : ∀ v, prox (ofVec D v) τ₁ = .ok (ofVec D (P v))) (b : Space 𝕜 S) (τ₂ ε : ℝ) (q : ℤ) :
    (Scheme.linear T P b τ₁ τ₂ ε (Prox.tailCount S.prod q)).Followed
      ⟨ofVec S b, K, τ₁, τ₂, ε, prox, .whole q⟩ where
  b := rfl
  forward := hK.forward
  adjoint := hK.adjoint
  prox := hP
  primalStep := rfl
  dualStep := rfl
  epsilon := rfl
  dual ρ v := Prox.dual_ofVec_whole ρ q v

/-- Where the trailing block fits, it has the size that was stated. -/
theorem Operator.Acts.followed (hK : K.Acts T)
    (hP : ∀ v, prox (ofVec D v) τ₁ = .ok (ofVec D (P v))) (b : Space 𝕜 S) (τ₂ ε : ℝ) {q : ℕ}
    (hq : q ≤ S.prod) :
    (Scheme.linear T P b τ₁ τ₂ ε q).Followed ⟨ofVec S b, K, τ₁, τ₂, ε, prox, .whole q⟩ := by
  have hfollowed := hK.followed_whole hP b τ₂ ε q
  rwa [Prox.tailCount_of_le hq] at hfollowed

end Followed

end PrimalDual
