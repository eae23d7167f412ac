/-
  PrimalDual.Proofs.Norm.PowerIteration
  ─────────────────────────────────────
  **THE SEQUENCE OF THE POWER ITERATION.**

  For an operator that acts as the linear map `T`, and in exact arithmetic,
  the estimate of its norm is read off the sequence

      v₀ = v      vₙ₊₁ = T†T vₙ / (‖T†T vₙ‖ + floor)      λₙ = ‖T†T vₙ‖

  of `direction` and `gain`: after `n + 1` iterations the estimate is
  `margin · √λₙ` (`estimate_eq`).  Two facts about the sequence carry the
  bounds of the estimate:

      norm_direction_succ_lt     every direction after the first is shorter than 1
      gain_le_gain_succ          the gains never fall by more than the floor
-/
import PrimalDual.NormEstimate
import PrimalDual.Proofs.Exact.Entries
import PrimalDual.Proofs.Inner.Linear

namespace PrimalDual

open Tensor
open scoped InnerProductSpace InnerProduct

namespace NormEstimate

variable {𝕜 : Type} [RCLike 𝕜] {D S : List ℕ}

/-! ## §1. Directions and gains. -/

/-- The divisor of a renormalisation: the length of the image, lifted by the floor. -/
noncomputable def divisor (T : Space 𝕜 D →L[𝕜] Space 𝕜 S) (v : Space 𝕜 D) : ℝ :=
  ‖gram T v‖ + Prox.normFloor

/-- The image of a vector, renormalised. -/
noncomputable def turn (T : Space 𝕜 D →L[𝕜] Space 𝕜 S) (v : Space 𝕜 D) : Space 𝕜 D :=
  ((divisor T v : ℝ) : 𝕜)⁻¹ • gram T v

/-- The vector after `n` renormalised iterations from `v`. -/
noncomputable def direction (T : Space 𝕜 D →L[𝕜] Space 𝕜 S) (v : Space 𝕜 D) (n : ℕ) : Space 𝕜 D :=
  (turn T)^[n] v

/-- The length of the image of that vector. -/
noncomputable def gain (T : Space 𝕜 D →L[𝕜] Space 𝕜 S) (v : Space 𝕜 D) (n : ℕ) : ℝ :=
  ‖gram T (direction T v n)‖

/-- A vector divided by its length. -/
noncomputable def unit (v : Space 𝕜 D) : Space 𝕜 D := ((‖v‖ : ℝ) : 𝕜)⁻¹ • v

variable (T : Space 𝕜 D →L[𝕜] Space 𝕜 S) (v : Space 𝕜 D)

/-- No iterate is divided by zero, thanks to the floor. -/
theorem divisor_pos : 0 < divisor T v :=
  add_pos_of_nonneg_of_pos (norm_nonneg _) Prox.normFloor_pos

@[simp] theorem direction_zero : direction T v 0 = v := rfl

theorem direction_succ (n : ℕ) : direction T v (n + 1) = turn T (direction T v n) :=
  Function.iterate_succ_apply' _ _ _

/-- The first iteration may be split off. -/
theorem gain_succ (n : ℕ) : gain T v (n + 1) = gain T (turn T v) n := rfl

theorem gain_nonneg (n : ℕ) : 0 ≤ gain T v n := norm_nonneg _

theorem norm_unit {v : Space 𝕜 D} (hv : v ≠ 0) : ‖unit v‖ = 1 := by
  unfold unit
  rw [norm_smul, norm_inv, RCLike.norm_ofReal, abs_norm, inv_mul_cancel₀ (norm_ne_zero_iff.2 hv)]

/-! ## §2. What the estimate computes. -/

variable {T v} {K : Operator (Except (Failure ℝ)) ℝ Unit 𝕜}

/-- One iteration computes the image under the Gram operator and its length. -/
theorem image_eq (hK : K.Acts T) (v : Space 𝕜 D) :
    image K (ofVec D v) = .ok (ofVec D (gram T v), ‖gram T v‖) := by
  unfold image
  rw [hK.forward]
  show (K.adjoint (ofVec S (T v)) >>= _) = _
  rw [hK.adjoint]
  show ((ofVec D (gram T v)).normValue >>= fun length => .ok (ofVec D (gram T v), length)) = _
  rw [normValue_ofVec]
  rfl

/-- The last gain alone decides the result of the iterations. -/
theorem iterate_eq (hK : K.Acts T) (margin : ℝ) (n : ℕ) (v : Space 𝕜 D) (bound : ℝ) :
    iterate K margin (n + 1) (ofVec D v) bound = .ok (margin * √(gain T v n)) := by
  induction n generalizing v bound with
  | zero =>
    unfold iterate
    rw [image_eq hK]
    rfl
  | succ n ih =>
    unfold iterate
    rw [image_eq hK]
    show iterate K margin (n + 1) ((ofVec D (gram T v)).divBy (divisor T v))
      (margin * √‖gram T v‖) = _
    rw [divBy_ofVec, gain_succ]
    exact ih _ _

theorem normalise_eq (v : Space 𝕜 D) :
    (normalise (ofVec D v) : Except (Failure ℝ) _) = .ok (ofVec D (unit v)) := by
  have hstretch : stretch D [] = some D := by
    rw [stretch_comm]
    exact stretch_of_stretches (.nil _)
  unfold normalise
  rw [norm_ofVec]
  refine (zipWith_of_stretch _ _ _ _ (x := ofVec D v) (y := point () ‖v‖) hstretch).trans ?_
  refine congrArg Except.ok (ext_entry rfl rfl ?_)
  intro i hi
  rw [size_tabulate] at hi
  rw [entry_tabulate _ _ _ hi, entry_ofVec _ hi]
  show (ofVec D v).entry (source D D i) / ((‖v‖ : ℝ) : 𝕜) = ((‖v‖ : ℝ) : 𝕜)⁻¹ * v ⟨i, hi⟩
  rw [source_self hi, entry_ofVec v hi, div_eq_inv_mul]

/-- **The estimate after `n + 1` iterations.** -/
theorem estimate_eq (hK : K.Acts T) {draw : List ℕ → Unit → Except (Failure ℝ) (Tensor Unit 𝕜)}
    {probe : Space 𝕜 D} (hdraw : draw D () = .ok (ofVec D probe)) (margin : ℝ) (n : ℕ) :
    estimate draw K D (n + 1 : ℕ) margin () = .ok (margin * √(gain T (unit probe) n)) := by
  unfold estimate
  rw [hdraw]
  show (normalise (ofVec D probe) >>= fun v => iterate K margin (n + 1) v Control.one) = _
  rw [normalise_eq]
  exact iterate_eq hK margin n (unit probe) Control.one

/-! ## §3. Length and growth. -/

/-- The Gram operator is symmetric. -/
theorem inner_gram (u w : Space 𝕜 D) : ⟪gram T u, w⟫_𝕜 = ⟪u, gram T w⟫_𝕜 := by
  show ⟪(T†) (T u), w⟫_𝕜 = ⟪u, (T†) (T w)⟫_𝕜
  rw [ContinuousLinearMap.adjoint_inner_left, ContinuousLinearMap.adjoint_inner_right]

/-- Lengths of images grow at least geometrically. -/
theorem norm_gram_sq_le (v : Space 𝕜 D) : ‖gram T v‖ ^ 2 ≤ ‖v‖ * ‖gram T (gram T v)‖ := by
  have hinner : ‖⟪v, gram T (gram T v)⟫_𝕜‖ = ‖gram T v‖ ^ 2 := by
    rw [← inner_gram, inner_self_eq_norm_sq_to_K, norm_pow, RCLike.norm_ofReal, abs_norm]
  rw [← hinner]
  exact norm_inner_le_norm _ _

/-- The length of an iterate is what is left of that of the image. -/
theorem norm_turn (v : Space 𝕜 D) : ‖turn T v‖ = ‖gram T v‖ / divisor T v := by
  unfold turn
  rw [norm_smul, norm_inv, RCLike.norm_ofReal, abs_of_pos (divisor_pos T v), div_eq_inv_mul]

/-- **Every iterate is shorter than 1**, since the floor is added to the divisor. -/
theorem norm_turn_lt (v : Space 𝕜 D) : ‖turn T v‖ < 1 := by
  rw [norm_turn, div_lt_one (divisor_pos T v)]
  exact lt_add_of_pos_right _ Prox.normFloor_pos

/-- **Every direction after the first is shorter than 1.** -/
theorem norm_direction_succ_lt (v : Space 𝕜 D) (n : ℕ) : ‖direction T v (n + 1)‖ < 1 := by
  rw [direction_succ]
  exact norm_turn_lt _

theorem norm_direction_le (hv : ‖v‖ ≤ 1) : ∀ n, ‖direction T v n‖ ≤ 1
  | 0 => hv
  | n + 1 => (norm_direction_succ_lt v n).le

/-- A renormalised image is lengthened by at least as much as the vector, up to the floor. -/
theorem norm_gram_le_turn {v : Space 𝕜 D} (hv : ‖v‖ ≤ 1) :
    ‖gram T v‖ ≤ ‖gram T (turn T v)‖ + Prox.normFloor := by
  have hpos := divisor_pos T v
  have hturn : ‖gram T (turn T v)‖ = ‖gram T (gram T v)‖ / divisor T v := by
    rw [turn, map_smul, norm_smul, norm_inv, RCLike.norm_ofReal, abs_of_pos hpos, div_eq_inv_mul]
  have hsq : ‖gram T v‖ ^ 2 ≤ ‖gram T (gram T v)‖ :=
    (norm_gram_sq_le v).trans (mul_le_of_le_one_left (norm_nonneg _) hv)
  -- The divisor is the gain and the floor: `(g - floor) (g + floor) ≤ g²`.
  have hfloor : (‖gram T v‖ - Prox.normFloor) * divisor T v ≤ ‖gram T v‖ ^ 2 := by
    unfold divisor
    nlinarith [Prox.normFloor_pos]
  rw [hturn, ← sub_le_iff_le_add, le_div_iff₀ hpos]
  exact hfloor.trans hsq

/-- **The gains never fall by more than the floor.** -/
theorem gain_le_gain_succ (hv : ‖v‖ ≤ 1) (n : ℕ) :
    gain T v n ≤ gain T v (n + 1) + Prox.normFloor := by
  unfold gain
  rw [direction_succ]
  exact norm_gram_le_turn (norm_direction_le hv n)

/-! ## §4. A probe of two directions. -/

/-- The unit vectors belong to the squares of the positions. -/
theorem gram_graded (i : Fin D.prod) : gram (graded D) (EuclideanSpace.single i 1)
    = ((i : ℕ) + 1 : ℝ) ^ 2 • EuclideanSpace.single i 1 := by
  show ((graded D)†) (graded D (EuclideanSpace.single i 1)) = _
  rw [graded_adjoint, graded_basis, map_smul, graded_basis, smul_smul, sq]

/-- The vector `(3, 4)`, which has a part in both directions. -/
noncomputable def threeFour : Space ℝ [2] := WithLp.toLp 2 fun i => (i : ℕ) + 3

theorem norm_threeFour : ‖threeFour‖ = 5 := by
  rw [EuclideanSpace.norm_eq]
  show √(∑ i : Fin 2, ‖((i : ℕ) + 3 : ℝ)‖ ^ 2) = 5
  have hsum : ∑ i : Fin 2, ‖((i : ℕ) + 3 : ℝ)‖ ^ 2 = 5 ^ 2 := by
    rw [Fin.sum_univ_two]
    norm_num
  rw [hsum]
  exact Real.sqrt_sq (by norm_num)

theorem threeFour_ne_zero : threeFour ≠ 0 := by
  rw [← norm_ne_zero_iff, norm_threeFour]
  norm_num

theorem inner_threeFour (i : Fin [2].prod) :
    ‖⟪unit threeFour, EuclideanSpace.single i 1⟫_ℝ‖ = ((i : ℕ) + 3) / 5 := by
  rw [EuclideanSpace.inner_single_right]
  show ‖1 * ((‖threeFour‖ : ℝ)⁻¹ * ((i : ℕ) + 3 : ℝ))‖ = _
  rw [norm_threeFour, one_mul, ← div_eq_inv_mul, Real.norm_of_nonneg (by positivity)]

/-- An environment's draw that always gives this vector. -/
noncomputable def drawThreeFour : List ℕ → Unit → Except (Failure ℝ) (Tensor Unit ℝ) :=
  fun _ _ => .ok (ofVec [2] threeFour)

theorem drawThreeFour_eq : drawThreeFour [2] () = .ok (ofVec [2] threeFour) := rfl

end NormEstimate

end PrimalDual
