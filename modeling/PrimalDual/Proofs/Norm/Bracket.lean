/-
  PrimalDual.Proofs.Norm.Bracket
  ──────────────────────────────
  **HOW FAR A NORM ESTIMATE CAN BE OFF.**

  The estimate is never above `margin · ‖T‖`.  How far it can be below is
  decided by what the probe has of an eigenvector: for `T†T w = λ w` with
  `‖w‖ = 1` and a probe of length 1,

      λᵐ |⟪probe, w⟫| = |⟪(T†T)ᵐ probe, w⟫| ≤ ∏ᵢ (λᵢ + floor) ≤ (λₘ₋₁ + m · floor)ᵐ

  where the first equation moves `T†T` to the other side (`inner_gram_iterate`),
  the next inequality is the renormalisation undone (`gram_iterate`), and the
  last one holds as the gains never fall by more than the floor.  No gap in
  the spectrum is assumed.
-/
import PrimalDual.Proofs.Norm.PowerIteration

namespace PrimalDual

open Tensor
open scoped InnerProductSpace InnerProduct

namespace NormEstimate

variable {𝕜 : Type} [RCLike 𝕜] {D S : List ℕ}
variable {T : Space 𝕜 D →L[𝕜] Space 𝕜 S} {v w : Space 𝕜 D}

/-! ## §1. From above. -/

theorem norm_gram : ‖gram T‖ = ‖T‖ ^ 2 := by
  rw [sq]
  exact ContinuousLinearMap.norm_adjoint_comp_self T

theorem gain_le_norm_sq (hv : ‖v‖ ≤ 1) (n : ℕ) : gain T v n ≤ ‖T‖ ^ 2 := by
  calc gain T v n ≤ ‖gram T‖ * ‖direction T v n‖ := (gram T).le_opNorm _
    _ ≤ ‖gram T‖ * 1 := mul_le_mul_of_nonneg_left (norm_direction_le hv n) (norm_nonneg _)
    _ = ‖T‖ ^ 2 := by rw [mul_one, norm_gram]

/-! ## §2. From below. -/

/-- The renormalisations of `n` iterations, undone. -/
theorem gram_iterate (v : Space 𝕜 D) (n : ℕ) :
    (gram T)^[n] v
      = ((∏ i ∈ Finset.range n, divisor T (direction T v i) : ℝ) : 𝕜) • direction T v n := by
  induction n with
  | zero => simp
  | succ n ih =>
    have hpos : ((divisor T (direction T v n) : ℝ) : 𝕜) ≠ 0 :=
      RCLike.ofReal_ne_zero.2 (divisor_pos T _).ne'
    rw [Function.iterate_succ_apply', ih, map_smul, Finset.prod_range_succ, RCLike.ofReal_mul,
      mul_smul, direction_succ, turn, smul_inv_smul₀ hpos]

/-- Against an eigenvector, an iteration is a multiplication by the eigenvalue. -/
theorem inner_gram_iterate {c : 𝕜} (hw : gram T w = c • w) (v : Space 𝕜 D) (n : ℕ) :
    ⟪(gram T)^[n] v, w⟫_𝕜 = c ^ n * ⟪v, w⟫_𝕜 := by
  induction n generalizing v with
  | zero => rw [Function.iterate_zero_apply, pow_zero, one_mul]
  | succ n ih =>
    rw [Function.iterate_succ_apply, ih, inner_gram, hw, inner_smul_right, pow_succ, mul_assoc]

/-- No gain is above a later one by more than the floor for each step between. -/
theorem gain_le_later (hv : ‖v‖ ≤ 1) (i j : ℕ) :
    gain T v i ≤ gain T v (i + j) + j * Prox.normFloor := by
  induction j with
  | zero => simp
  | succ j ih =>
    have hstep := gain_le_gain_succ (T := T) hv (i + j)
    rw [← Nat.add_assoc]
    push_cast
    linarith

/-- The divisors of `n + 1` iterations are bounded by the last gain. -/
theorem prod_divisor_le (hv : ‖v‖ ≤ 1) (n : ℕ) :
    ∏ i ∈ Finset.range (n + 1), divisor T (direction T v i)
      ≤ (gain T v n + (n + 1 : ℕ) * Prox.normFloor) ^ (n + 1) := by
  have hfactor : ∀ i ∈ Finset.range (n + 1),
      divisor T (direction T v i) ≤ gain T v n + (n + 1 : ℕ) * Prox.normFloor := by
    intro i hi
    -- Of the `n + 1` floors, `j` lead from this gain to the last and one is in the divisor.
    obtain ⟨j, rfl⟩ := Nat.exists_eq_add_of_le (Nat.le_of_lt_succ (Finset.mem_range.1 hi))
    have hgain := gain_le_later (T := T) hv i j
    have hfloor : ((j : ℝ) + 1) * Prox.normFloor ≤ (i + j + 1 : ℕ) * Prox.normFloor := by
      refine mul_le_mul_of_nonneg_right ?_ Prox.normFloor_pos.le
      push_cast
      linarith [(Nat.cast_nonneg i : (0 : ℝ) ≤ i)]
    show gain T v i + Prox.normFloor ≤ _
    linarith
  calc ∏ i ∈ Finset.range (n + 1), divisor T (direction T v i)
      ≤ ∏ _i ∈ Finset.range (n + 1), (gain T v n + (n + 1 : ℕ) * Prox.normFloor) :=
        Finset.prod_le_prod (fun _ _ => (divisor_pos T _).le) hfactor
    _ = _ := by rw [Finset.prod_const, Finset.card_range]

/-- **Every eigenvector that the probe meets holds the last gain up.** -/
theorem eigenvalue_pow_le (hv : ‖v‖ ≤ 1) (hw : ‖w‖ = 1) {c : ℝ} (hc : gram T w = (c : 𝕜) • w)
    (n : ℕ) : c ^ (n + 1) * ‖⟪v, w⟫_𝕜‖
      ≤ (gain T v n + (n + 1 : ℕ) * Prox.normFloor) ^ (n + 1) := by
  set p := ∏ i ∈ Finset.range (n + 1), divisor T (direction T v i) with hp
  have hpnonneg : 0 ≤ p := Finset.prod_nonneg fun i _ => (divisor_pos T _).le
  -- `(T†T)ⁿ⁺¹ v` is the last direction times `p`, and its part along `w` is `cⁿ⁺¹ ⟪v, w⟫`.
  calc c ^ (n + 1) * ‖⟪v, w⟫_𝕜‖
      ≤ ‖(c : 𝕜) ^ (n + 1) * ⟪v, w⟫_𝕜‖ := by
        rw [norm_mul, norm_pow, RCLike.norm_ofReal, ← abs_pow]
        exact mul_le_mul_of_nonneg_right (le_abs_self _) (norm_nonneg _)
    _ = p * ‖⟪direction T v (n + 1), w⟫_𝕜‖ := by
        rw [← inner_gram_iterate hc, gram_iterate, inner_smul_left, norm_mul, RCLike.norm_conj,
          RCLike.norm_ofReal, abs_of_nonneg hpnonneg]
    _ ≤ p * 1 := by
        refine mul_le_mul_of_nonneg_left ?_ hpnonneg
        refine (norm_inner_le_norm _ _).trans ?_
        rw [hw, mul_one]
        exact (norm_direction_succ_lt v n).le
    _ ≤ _ := by
        rw [mul_one]
        exact prod_divisor_le hv n

/-! ## §3. The bracket. -/

/-- The `2 m`-th root of a bound on `m`-th powers. -/
theorem mul_root_le {a c B : ℝ} {m : ℕ} (ha : 0 ≤ a) (hc : 0 ≤ c) (hB : 0 ≤ B) (hm : 1 ≤ m)
    (h : (a ^ 2) ^ m * c ≤ B ^ m) : a * c ^ ((2 * m : ℕ) : ℝ)⁻¹ ≤ √B := by
  have hcount : 2 * m ≠ 0 := by omega
  refine (pow_le_pow_iff_left₀ (by positivity) (Real.sqrt_nonneg B) hcount).1 ?_
  rw [mul_pow, Real.rpow_inv_natCast_pow hc hcount, pow_mul, pow_mul, Real.sq_sqrt hB]
  exact h

/-- **The bracket of the estimate.**  After `m` iterations it is at most `margin · ‖T‖`; and
every eigenvector of `T†T` that the probe meets holds it up, most of all one that belongs to
the norm of `T`. -/
theorem estimate_bracket {K : Operator (Except (Failure ℝ)) ℝ Unit 𝕜} (hK : K.Acts T)
    {draw : List ℕ → Unit → Except (Failure ℝ) (Tensor Unit 𝕜)} {probe : Space 𝕜 D}
    (hdraw : draw D () = .ok (ofVec D probe)) (hprobe : probe ≠ 0) {m : ℕ} (hm : 1 ≤ m)
    {margin : ℝ} (hmargin : 0 < margin) :
    ∃ est, estimate draw K D m margin () = .ok est ∧ est ≤ margin * ‖T‖
      ∧ (∀ w : Space 𝕜 D, ‖w‖ = 1 → ∀ c : ℝ, (T†) (T w) = (c : 𝕜) • w →
          c ^ m * ‖⟪unit probe, w⟫_𝕜‖ ≤ ((est / margin) ^ 2 + m * Prox.normFloor) ^ m)
      ∧ ∀ w : Space 𝕜 D, ‖w‖ = 1 → (T†) (T w) = ((‖T‖ ^ 2 : ℝ) : 𝕜) • w →
          margin * (‖T‖ * ‖⟪unit probe, w⟫_𝕜‖ ^ ((2 * m : ℕ) : ℝ)⁻¹)
            ≤ margin * √((est / margin) ^ 2 + m * Prox.normFloor) := by
  obtain ⟨n, rfl⟩ : ∃ n, m = n + 1 := ⟨m - 1, by omega⟩
  have hunit : ‖unit probe‖ ≤ 1 := (norm_unit hprobe).le
  have hroot : √(gain T (unit probe) n) ≤ ‖T‖ :=
    (Real.sqrt_le_sqrt (gain_le_norm_sq hunit n)).trans_eq (Real.sqrt_sq (norm_nonneg _))
  -- The last gain is read off the estimate.
  have hgain : (margin * √(gain T (unit probe) n) / margin) ^ 2 = gain T (unit probe) n := by
    rw [mul_div_cancel_left₀ _ hmargin.ne', Real.sq_sqrt (gain_nonneg T _ n)]
  have hfloor : 0 ≤ gain T (unit probe) n + ((n + 1 : ℕ) : ℝ) * Prox.normFloor :=
    add_nonneg (gain_nonneg T _ n) (mul_nonneg (Nat.cast_nonneg _) Prox.normFloor_pos.le)
  refine ⟨_, estimate_eq hK hdraw margin n, mul_le_mul_of_nonneg_left hroot hmargin.le, ?_, ?_⟩
  · intro w hw c hc
    rw [hgain]
    exact eigenvalue_pow_le hunit hw hc n
  · intro w hw hc
    rw [hgain]
    refine mul_le_mul_of_nonneg_left ?_ hmargin.le
    exact mul_root_le (norm_nonneg _) (norm_nonneg _) hfloor hm (eigenvalue_pow_le hunit hw hc n)

/-- Three iterations for a map of norm 2 with a second singular value of 1, from a probe that has
a part of 3/5 and one of 4/5 in the two directions. -/
theorem estimate_bracket_graded :
    ∃ est, estimate drawThreeFour (.ofLinear (graded [2])) [2] (3 : ℕ) 1.01 () = .ok est
      ∧ est ≤ 1.01 * 2
      ∧ 1 ^ 3 * (3 / 5) ≤ ((est / 1.01) ^ 2 + (3 : ℕ) * Prox.normFloor) ^ 3
      ∧ 4 ^ 3 * (4 / 5) ≤ ((est / 1.01) ^ 2 + (3 : ℕ) * Prox.normFloor) ^ 3
      ∧ 1.01 * (2 * (4 / 5) ^ ((2 * 3 : ℕ) : ℝ)⁻¹)
        ≤ 1.01 * √((est / 1.01) ^ 2 + (3 : ℕ) * Prox.normFloor) := by
  obtain ⟨est, hest, habove, hbelow, htop⟩ :=
    estimate_bracket (Operator.acts_ofLinear (graded [2])) drawThreeFour_eq threeFour_ne_zero
      (show 1 ≤ 3 by decide) (show (0 : ℝ) < 1.01 by norm_num)
  have htwo : ‖graded [2]‖ = 2 := norm_graded (by decide)
  have hlength : ∀ i : Fin [2].prod, ‖(EuclideanSpace.single i 1 : Space ℝ [2])‖ = 1 := by
    intro i
    rw [PiLp.norm_single, norm_one]
  -- The eigenvalues are 1 and 4, and the second one belongs to the norm.
  have hsmall := hbelow _ (hlength ⟨0, by decide⟩) 1 (by
    refine (gram_graded _).trans ?_
    norm_num)
  have hlarge := hbelow _ (hlength ⟨1, by decide⟩) 4 (by
    refine (gram_graded _).trans ?_
    norm_num)
  have hnorm := htop _ (hlength ⟨1, by decide⟩) (by
    rw [htwo]
    refine (gram_graded _).trans ?_
    norm_num)
  rw [inner_threeFour] at hsmall hlarge hnorm
  rw [htwo] at habove hnorm
  refine ⟨est, hest, habove, ?_, ?_, ?_⟩
  · convert hsmall using 2
    norm_num
  · convert hlarge using 2
    norm_num
  · convert hnorm using 4
    norm_num

end NormEstimate

end PrimalDual
