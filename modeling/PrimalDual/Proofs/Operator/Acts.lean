/-
  PrimalDual.Proofs.Operator.Acts
  ───────────────────────────────
  **OPERATORS THAT ACT AS A LINEAR MAP.**

  The solver may be given any pair of maps.  What its users promise is that
  the pair is a linear map `T` between tensors of two shapes with its exact
  adjoint, `⟪T x, y⟫ = ⟪x, T† y⟫`; `Operator.Acts` states this promise.  The
  identity keeps it.

  Adjoints of maps in other coordinates are those of the maps, read in these
  coordinates; `graded` is a linear map whose singular values are known.
-/
import PrimalDual.Proofs.Exact.Block
import Mathlib.Analysis.InnerProductSpace.Adjoint

namespace PrimalDual

open Tensor
open scoped InnerProductSpace InnerProduct

variable {𝕜 : Type} [RCLike 𝕜] {D S : List ℕ}

/-! ## §1. Operators and linear maps. -/

/-- `K` acts as the linear map `T`, and its adjoint as the adjoint of `T`. -/
structure Operator.Acts (K : Operator (Except (Failure ℝ)) ℝ Unit 𝕜)
    (T : Space 𝕜 D →L[𝕜] Space 𝕜 S) : Prop where
  forward : ∀ x, K.forward (ofVec D x) = .ok (ofVec S (T x))
  adjoint : ∀ y, K.adjoint (ofVec S y) = .ok (ofVec D ((T†) y))

namespace Operator

theorem acts_identity :
    (identity : Operator (Except (Failure ℝ)) ℝ Unit 𝕜).Acts
      (ContinuousLinearMap.id 𝕜 (Space 𝕜 D)) where
  forward _ := rfl
  adjoint y := by
    rw [ContinuousLinearMap.adjoint_id]
    rfl

end Operator

/-! ## §2. Linear maps in other coordinates. -/

section Coordinates

variable {D' S' : List ℕ} (T : Space 𝕜 D →L[𝕜] Space 𝕜 S)

/-- An isometry after a linear map is undone first by the adjoint. -/
theorem adjoint_isometry_comp (U : Space 𝕜 S →ₗᵢ[𝕜] Space 𝕜 S') (y : Space 𝕜 S) :
    ((U.toContinuousLinearMap ∘L T)†) (U y) = (T†) y := by
  apply ext_inner_right 𝕜
  intro x
  rw [ContinuousLinearMap.adjoint_inner_left, ContinuousLinearMap.adjoint_inner_left]
  exact U.inner_map_map y (T x)

/-- A change of basis before a linear map is undone last by the adjoint. -/
theorem adjoint_comp_symm (V : Space 𝕜 D ≃ₗᵢ[𝕜] Space 𝕜 D') (y : Space 𝕜 S) :
    ((T ∘L V.symm.toLinearIsometry.toContinuousLinearMap)†) y = V ((T†) y) := by
  apply ext_inner_right 𝕜
  intro x
  rw [ContinuousLinearMap.adjoint_inner_left, LinearIsometryEquiv.inner_map_eq_flip,
    ContinuousLinearMap.adjoint_inner_left]
  rfl

end Coordinates

/-! ## §3. A graded map. -/

/-- Every entry times its position, counted from 1. -/
noncomputable def graded (s : List ℕ) : Space ℝ s →L[ℝ] Space ℝ s :=
  LinearMap.toContinuousLinearMap
    { toFun := fun x => WithLp.toLp 2 fun i => ((i : ℕ) + 1) * x i
      map_add' := fun x y => by
        ext i
        exact mul_add _ _ _
      map_smul' := fun c x => by
        ext i
        exact mul_left_comm _ _ _ }

theorem graded_apply (x : Space ℝ S) (i : Fin S.prod) : graded S x i = ((i : ℕ) + 1) * x i := rfl

/-- The map is its own adjoint. -/
theorem graded_adjoint (y : Space ℝ S) : ((graded S)†) y = graded S y := by
  apply ext_inner_right ℝ
  intro x
  rw [ContinuousLinearMap.adjoint_inner_left, PiLp.inner_apply, PiLp.inner_apply]
  apply Finset.sum_congr rfl
  intro i _
  show ((i : ℕ) + 1) * x i * y i = x i * (((i : ℕ) + 1) * y i)
  ring

/-- The unit vectors are its eigenvectors, each with an eigenvalue of its own. -/
theorem graded_basis (i : Fin S.prod) : graded S (EuclideanSpace.single i 1)
    = ((i : ℕ) + 1 : ℝ) • EuclideanSpace.single i 1 := by
  ext j
  show ((j : ℕ) + 1 : ℝ) * (EuclideanSpace.single i (1 : ℝ) : Space ℝ S) j
    = ((i : ℕ) + 1 : ℝ) * (EuclideanSpace.single i (1 : ℝ) : Space ℝ S) j
  rw [PiLp.single_apply]
  by_cases h : j = i
  · rw [h]
  · rw [if_neg h, mul_zero, mul_zero]

/-- Its norm is the last position. -/
theorem norm_graded (hS : 0 < S.prod) : ‖graded S‖ = S.prod := by
  refine le_antisymm ?_ ?_
  · apply ContinuousLinearMap.opNorm_le_bound _ (Nat.cast_nonneg _)
    intro x
    refine le_of_sq_le_sq ?_ (by positivity)
    rw [EuclideanSpace.norm_sq_eq, mul_pow, EuclideanSpace.norm_sq_eq, Finset.mul_sum]
    apply Finset.sum_le_sum
    intro i _
    have hi : ((i : ℕ) + 1 : ℝ) ≤ S.prod := by exact_mod_cast i.isLt
    rw [graded_apply, norm_mul, mul_pow, Real.norm_of_nonneg (by positivity)]
    exact mul_le_mul_of_nonneg_right (pow_le_pow_left₀ (by positivity) hi 2) (sq_nonneg _)
  · -- The bound is reached by the last unit vector.
    obtain ⟨n, hn⟩ : ∃ n, S.prod = n + 1 := ⟨S.prod - 1, by omega⟩
    have hle := (graded S).le_opNorm (EuclideanSpace.single ⟨n, by omega⟩ 1)
    rw [graded_basis, norm_smul, PiLp.norm_single, norm_one, mul_one, mul_one,
      Real.norm_of_nonneg (by positivity)] at hle
    have hcast : (S.prod : ℝ) = n + 1 := by
      rw [hn, Nat.cast_succ]
    exact hcast.trans_le hle

end PrimalDual
