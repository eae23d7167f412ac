/-
  PrimalDual.Proofs.Restart.DualBall
  ──────────────────────────────────
  **THE DUAL BALL OF A RESTART.**

  The gaps of objective and constraint are measured against the dual vectors
  of a ball: the leading block has norm at most `C`, each trailing entry has
  magnitude at most 1.  Some vector of it meets a given `v` in the whole

      C ‖lead q v‖ + trailSum q v

  (`exists_support`), and none is farther from `y` than `dualRadius C q y`.
-/
import PrimalDual.Proofs.Exact.Block

namespace PrimalDual

open scoped RealInnerProductSpace

variable {S : List ℕ} {C : ℝ} {q : ℕ}

/-- The leading block has norm at most `C`, the trailing entries magnitude at most 1. -/
def InDualBall (C : ℝ) (q : ℕ) (w : Space ℝ S) : Prop := ‖lead q w‖ ≤ C ∧ InBox q w

/-! ## §1. The radius. -/

/-- The greatest distance of a vector of the ball from `y`. -/
noncomputable def dualRadius (C : ℝ) (q : ℕ) (y : Space ℝ S) : ℝ :=
  sSup ((fun w => ‖w - y‖) '' {w | InDualBall C q w})

/-- The last `q` entries add at most one each to the square of a dual vector. -/
theorem InDualBall.norm_sq_le {w : Space ℝ S} (h : InDualBall C q w) :
    ‖w‖ ^ 2 ≤ C ^ 2 + q := by
  have hlead : ‖lead q w‖ ^ 2 ≤ C ^ 2 := pow_le_pow_left₀ (norm_nonneg _) h.1 2
  have htrail : ‖trail q w‖ ^ 2 ≤ q := by
    rw [EuclideanSpace.norm_sq_eq, ← mul_one (q : ℝ)]
    apply sum_trailing_le zero_le_one
    intro i
    by_cases hi : (i : ℕ) + q < S.prod
    · simp [trail_apply, hi]
    · rw [if_neg hi]
      exact pow_le_one₀ (norm_nonneg _) (h.2.norm_trail_le i)
  rw [norm_sq_eq_blocks q]
  exact add_le_add hlead htrail

/-- A start is no farther from the dual vectors than the radius. -/
theorem norm_sub_le_dualRadius {w : Space ℝ S} (h : InDualBall C q w) (y : Space ℝ S) :
    ‖w - y‖ ≤ dualRadius C q y := by
  refine le_csSup ⟨√(C ^ 2 + q) + ‖y‖, ?_⟩ ⟨w, h, rfl⟩
  rintro _ ⟨w', hw', rfl⟩
  have hnorm : ‖w'‖ ≤ √(C ^ 2 + q) := Real.le_sqrt_of_sq_le hw'.norm_sq_le
  exact (norm_sub_le w' y).trans (add_le_add_left hnorm _)

theorem dualRadius_nonneg (C : ℝ) (q : ℕ) (y : Space ℝ S) : 0 ≤ dualRadius C q y := by
  refine Real.sSup_nonneg ?_
  rintro _ ⟨w, -, rfl⟩
  exact norm_nonneg _

/-- Around the origin the radius is known. -/
theorem dualRadius_zero_sq_le (C : ℝ) (q : ℕ) :
    dualRadius C q (0 : Space ℝ S) ^ 2 ≤ C ^ 2 + q := by
  have hbound : dualRadius C q (0 : Space ℝ S) ≤ √(C ^ 2 + q) := by
    refine Real.sSup_le ?_ (Real.sqrt_nonneg _)
    rintro _ ⟨w, hw, rfl⟩
    show ‖w - 0‖ ≤ _
    rw [sub_zero]
    exact Real.le_sqrt_of_sq_le hw.norm_sq_le
  calc dualRadius C q (0 : Space ℝ S) ^ 2
      ≤ √(C ^ 2 + q) ^ 2 := pow_le_pow_left₀ (dualRadius_nonneg C q 0) hbound 2
    _ = C ^ 2 + q := Real.sq_sqrt (by positivity)

/-! ## §2. Support vectors. -/

/-- The sign of every entry. -/
noncomputable def signs (v : Space ℝ S) : Space ℝ S :=
  WithLp.toLp 2 fun i => (SignType.sign (v i) : ℝ)

/-- The vector of signs attains the sum of the magnitudes. -/
theorem inner_signs (v : Space ℝ S) : ⟪v, signs v⟫ = ∑ i, ‖v i‖ := by
  rw [PiLp.inner_apply]
  apply Finset.sum_congr rfl
  intro i _
  show (SignType.sign (v i) : ℝ) * v i = ‖v i‖
  rw [sign_mul_self, Real.norm_eq_abs]

theorem lead_signs (v : Space ℝ S) : lead q (signs (trail q v)) = 0 := by
  ext i
  by_cases h : i + q < S.prod <;> simp [lead_apply, trail_apply, signs, h]

/-- The signs of a trailing part stand in the trailing part. -/
theorem trail_signs (v : Space ℝ S) : trail q (signs (trail q v)) = signs (trail q v) := by
  ext i
  by_cases h : i + q < S.prod <;> simp [trail_apply, signs, h]

theorem norm_sign_le (r : ℝ) : ‖(SignType.sign r : ℝ)‖ ≤ 1 := by
  rcases lt_trichotomy r 0 with h | h | h <;> simp [h]

/-- **The ball is supported by a vector in every direction.** -/
theorem exists_support (hC : 0 ≤ C) (q : ℕ) (v : Space ℝ S) :
    ∃ w, InDualBall C q w ∧ ⟪v, w⟫ = C * ‖lead q v‖ + trailSum q v := by
  set c := C / ‖lead q v‖ with hc
  set w := c • lead q v + signs (trail q v) with hw
  have hlead : lead q w = c • lead q v := by
    rw [hw, map_add, map_smul, lead_lead, lead_signs, add_zero]
  have htrail : trail q w = signs (trail q v) := by
    rw [hw, map_add, map_smul, trail_lead, smul_zero, zero_add, trail_signs]
  -- A leading block of zeros is met by nothing, and then `c` is 0 as well.
  have hlength : c * ‖lead q v‖ ≤ C ∧ c * ‖lead q v‖ ^ 2 = C * ‖lead q v‖ := by
    rcases eq_or_ne ‖lead q v‖ 0 with h | h
    · rw [h, zero_pow two_ne_zero, mul_zero, mul_zero]
      exact ⟨hC, rfl⟩
    · rw [hc, sq, ← mul_assoc, div_mul_cancel₀ _ h]
      exact ⟨le_rfl, rfl⟩
  refine ⟨w, ⟨?_, ?_⟩, ?_⟩
  · rw [hlead, norm_smul, hc, Real.norm_of_nonneg (div_nonneg hC (norm_nonneg _))]
    exact hlength.1
  · intro i hi
    have hentry : w i = signs (trail q v) i := by
      rw [← htrail, trail_apply, if_neg (by omega)]
    rw [hentry]
    exact norm_sign_le _
  · rw [← RCLike.re_to_real (x := ⟪v, w⟫), inner_eq_blocks q, hlead, htrail, inner_signs,
      inner_smul_right, real_inner_self_eq_norm_sq, hlength.2]
    rfl

end PrimalDual
