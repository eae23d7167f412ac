/-
  PrimalDual.Proofs.Prox.Firm
  ───────────────────────────
  **THE MAPS OF THE LIBRARY ARE FIRMLY NONEXPANSIVE.**

  Proximal maps of convex functions satisfy

      ‖P u - P v‖² ≤ Re ⟪P u - P v, u - v⟫

  (`IsProx.firmlyNonexpansive`).  The maps of the library are not proximal
  maps, since a floor stands under each of their divisors, but the inequality
  holds for them as it is.  Each of them multiplies vectors or entries by
  factors that depend on the magnitude alone.  What such a multiple keeps of
  the magnitude and what it removes both grow with it, and this is enough for
  any two directions (`re_inner_radial_nonneg`).

  `Provided` lists the maps, each at a step that it may be called with.
-/
import PrimalDual.Proofs.Prox.Minimiser
import PrimalDual.Proofs.Prox.Threshold

namespace PrimalDual

open scoped InnerProductSpace

/-! ## §1. Firm nonexpansiveness. -/

section Firm

variable {𝕜 : Type} [RCLike 𝕜] {E : Type*} [NormedAddCommGroup E] [InnerProductSpace 𝕜 E]
  {P : E → E}

/-- What is kept and what is removed never point against each other. -/
theorem firmlyNonexpansive_of_residual
    (h : ∀ u v, 0 ≤ RCLike.re ⟪P u - P v, (u - P u) - (v - P v)⟫_𝕜) :
    FirmlyNonexpansive 𝕜 P := by
  intro u v
  have hsplit : (u - P u) - (v - P v) = (u - v) - (P u - P v) := by abel
  have hres := h u v
  rw [hsplit, inner_sub_right, map_sub, inner_self_eq_norm_sq] at hres
  exact sub_nonneg.1 hres

/-- Firmly nonexpansive maps do not increase distances. -/
theorem FirmlyNonexpansive.norm_sub_le (h : FirmlyNonexpansive 𝕜 P) (u v : E) :
    ‖P u - P v‖ ≤ ‖u - v‖ := by
  have hcs : ‖P u - P v‖ * ‖P u - P v‖ ≤ ‖P u - P v‖ * ‖u - v‖ := by
    calc ‖P u - P v‖ * ‖P u - P v‖
        = ‖P u - P v‖ ^ 2 := (sq _).symm
      _ ≤ RCLike.re ⟪P u - P v, u - v⟫_𝕜 := h u v
      _ ≤ ‖P u - P v‖ * ‖u - v‖ := re_inner_le_norm _ _
  -- The distance of the images is cancelled, unless there is none.
  by_cases hzero : ‖P u - P v‖ = 0
  · rw [hzero]
    exact norm_nonneg _
  · exact le_of_mul_le_mul_left hcs (lt_of_le_of_ne (norm_nonneg _) (Ne.symm hzero))

theorem firmlyNonexpansive_id : FirmlyNonexpansive 𝕜 (id : E → E) := by
  apply firmlyNonexpansive_of_residual
  intro u v
  rw [id, id, sub_self, sub_self, sub_self, inner_zero_right, map_zero]

end Firm

namespace Prox

open Tensor

variable {𝕜 : Type} [RCLike 𝕜] {s : List ℕ}

/-! ## §2. Soft thresholding. -/

/-- Every entry shrunk by a level of its own. -/
noncomputable def thresholdMap (level : ℕ → ℝ) (v : Space 𝕜 s) : Space 𝕜 s :=
  WithLp.toLp 2 fun i => (shrinkFactor (level i) ‖v i‖ : 𝕜) • v i

theorem firmlyNonexpansive_threshold {level : ℕ → ℝ} (h : ∀ i < s.prod, 0 ≤ level i) :
    FirmlyNonexpansive 𝕜 (thresholdMap level : Space 𝕜 s → Space 𝕜 s) := by
  apply firmlyNonexpansive_of_residual
  intro u v
  rw [PiLp.inner_apply, map_sum]
  exact Finset.sum_nonneg fun i _ => shrink_firm (h i i.isLt) (u i) (v i)

theorem l1_ofVec {t : Step ℝ Unit 𝕜} (ht : t.Nonneg s) (v : Space 𝕜 s) :
    (l1 (ofVec s v) t : Except (Failure ℝ) _) = .ok (ofVec s (thresholdMap (t.level s) v)) := by
  refine (l1_tabulate ht _).trans (congrArg Except.ok (tabulate_congr _ _ ?_))
  intro i hi
  rw [dif_pos hi, dif_pos hi]
  rfl

/-! ## §3. All maps. -/

/-- The proximal maps of the library on the tensors of a shape, each at one step. -/
inductive Provided (s : List ℕ) : (Tensor Unit 𝕜 → Except (Failure ℝ) (Tensor Unit 𝕜)) → Prop where
  | dual {ρ : ℝ} (hρ : 0 ≤ ρ) {q : ℕ} (hq : q ≤ s.prod) :
      Provided s fun y => Prox.dual y ρ (.whole q)
  | l1 {t : Step ℝ Unit 𝕜} (ht : t.Nonneg s) : Provided s fun x => Prox.l1 x t
  | weightedL1 {w : Step ℝ Unit 𝕜} (hw : w.Nonneg s) {t : ℝ} (ht : 0 ≤ t) :
      Provided s fun x => Prox.weightedL1 w x (.uniform t)
  | zero (t : Step ℝ Unit 𝕜) : Provided s fun x => Prox.zero x t

variable {P : Tensor Unit 𝕜 → Except (Failure ℝ) (Tensor Unit 𝕜)}

/-- Each of the maps is a firmly nonexpansive map of vectors. -/
theorem Provided.exists_map (h : Provided s P) : ∃ F : Space 𝕜 s → Space 𝕜 s,
    (∀ v, P (ofVec s v) = .ok (ofVec s (F v))) ∧ FirmlyNonexpansive 𝕜 F := by
  cases h with
  | @dual ρ hρ q hq =>
    exact ⟨dualMap ρ q, dual_ofVec ρ hq, firmlyNonexpansive_of_residual fun u v =>
      dual_firm u v hρ⟩
  | @l1 t ht =>
    exact ⟨thresholdMap (t.level s), l1_ofVec ht,
      firmlyNonexpansive_threshold fun _ => ht.level_nonneg⟩
  | @weightedL1 w hw t ht =>
    -- Step and weights together are a step of its own.
    obtain ⟨u, hu, hnonneg, -⟩ := hw.times ht
    refine ⟨thresholdMap (u.level s), ?_,
      firmlyNonexpansive_threshold fun _ => hnonneg.level_nonneg⟩
    intro v
    unfold Prox.weightedL1
    rw [hu]
    exact l1_ofVec hnonneg v
  | zero t => exact ⟨id, fun _ => rfl, firmlyNonexpansive_id⟩

/-- **The proximal maps of the library are firmly nonexpansive**, the floor under their
divisors notwithstanding, and so they do not increase distances. -/
theorem provided_firmly_nonexpansive (hP : Provided s P) {x y : Tensor Unit 𝕜} (hx : x.shape = s)
    (hy : y.shape = s) : ∃ p q, P x = .ok p ∧ P y = .ok q ∧ p.shape = s ∧ q.shape = s
      ∧ ‖vec s p - vec s q‖ ^ 2
        ≤ RCLike.re ⟪vec s p - vec s q, vec s x - vec s y⟫_𝕜
      ∧ ‖vec s p - vec s q‖ ≤ ‖vec s x - vec s y‖ := by
  obtain ⟨F, hF, hfirm⟩ := hP.exists_map
  have hpx := hF (vec s x)
  have hpy := hF (vec s y)
  rw [ofVec_vec hx] at hpx
  rw [ofVec_vec hy] at hpy
  refine ⟨_, _, hpx, hpy, rfl, rfl, ?_⟩
  rw [vec_ofVec, vec_ofVec]
  exact ⟨hfirm _ _, hfirm.norm_sub_le _ _⟩

/-- A dual step with one analysis entry, from the pair of tiny and clipped entries and
from zero. -/
theorem provided_firmly_nonexpansive_tinyPair :
    Provided [2] (fun y : Tensor Unit ℝ => dual y 1 (.whole (1 : ℕ)))
      ∧ tinyPair.shape = [2] ∧ tinyPair.zerosLike.shape = [2]
      ∧ ∃ p q : Tensor Unit ℝ, (dual tinyPair 1 (.whole (1 : ℕ)) : Except (Failure ℝ) _) = .ok p
        ∧ (dual tinyPair.zerosLike 1 (.whole (1 : ℕ)) : Except (Failure ℝ) _) = .ok q
        ∧ ‖vec [2] p - vec [2] q‖ ≤ ‖vec [2] tinyPair - vec [2] tinyPair.zerosLike‖ := by
  have hP : Provided [2] (fun y : Tensor Unit ℝ => dual y 1 (.whole (1 : ℕ))) :=
    .dual zero_le_one (by decide)
  obtain ⟨p, q, hp, hq, -, -, -, hle⟩ :=
    provided_firmly_nonexpansive hP (x := tinyPair) (y := tinyPair.zerosLike) rfl rfl
  exact ⟨hP, rfl, rfl, p, q, hp, hq, hle⟩

end Prox

end PrimalDual
