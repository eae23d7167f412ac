/-
  PrimalDual.Proofs.Inner.FixedPoint
  ──────────────────────────────────
  **FIXED POINTS OF THE STEP SOLVE THE PROBLEM.**

  With `K x = [A x; B x]`, whose lower block has `q` entries, and
  measurements `b = [b_A; 0]`, the step is meant for

      minimise  J x + ‖B x‖₁   subject to   ‖A x - b_A‖ ≤ ε

  A pair that one step returns unchanged is feasible, whatever the operator
  and the regulariser are (`norm_lead_le_of_fixed`): this is a property of
  the dual map alone.  With an exact adjoint and the proximal map of a convex
  `J` it is optimal as well, up to the floor (`objective_le_of_fixed`).  The
  blocks of a vector are its `lead q` and `trail q`.
-/
import PrimalDual.Proofs.Inner.Inversion
import PrimalDual.Proofs.Inner.Linear
import PrimalDual.Proofs.Operator.Stacked
import PrimalDual.Proofs.Prox.DualBounds
import PrimalDual.Proofs.Prox.Minimiser

namespace PrimalDual

open Tensor Prox
open scoped InnerProduct

/-! ## §1. The conditions at a fixed point. -/

variable {D S : List ℕ} {τ₁ τ₂ ε : ℝ} {q : ℕ} {b : Space ℝ S} {x : Space ℝ D} {y : Space ℝ S}

section Vectors

open scoped RealInnerProductSpace

variable {u : Space ℝ S} (hy : dualMap (τ₂ * ε) q (y + τ₂ • u - τ₂ • b) = y)
include hy

/-- What the dual map removes at a fixed point. -/
theorem residual_of_fixed :
    (y + τ₂ • u - τ₂ • b) - dualMap (τ₂ * ε) q (y + τ₂ • u - τ₂ • b) = τ₂ • (u - b) := by
  rw [hy, smul_sub]
  abel

/-- **A fixed point is feasible**, for any image `u` of its primal part. -/
theorem norm_lead_le_of_fixed (h₂ : 0 < τ₂) (hε : 0 ≤ ε) : ‖lead q (u - b)‖ ≤ ε := by
  have hresidual := norm_lead_residual (q := q) (y + τ₂ • u - τ₂ • b) (mul_nonneg h₂.le hε)
  rw [residual_of_fixed hy, map_smul, norm_smul, Real.norm_of_nonneg h₂.le] at hresidual
  exact le_of_mul_le_mul_left hresidual h₂

/-- At a fixed point the dual part is aligned with the residual of the measurements. -/
theorem aligned_of_fixed (h₂ : 0 < τ₂) (hε : 0 ≤ ε) (hb : trail q b = 0) :
    ε * ‖lead q y‖ + (1 - normFloor) * trailSum q u ≤ ⟪y, u - b⟫ + ε * normFloor := by
  have hcompl := dual_complementary (q := q) (y + τ₂ • u - τ₂ • b) (mul_nonneg h₂.le hε)
  rw [residual_of_fixed hy, hy, trailSum_smul, trailSum_sub hb, Real.norm_of_nonneg h₂.le,
    inner_smul_right, RCLike.re_to_real] at hcompl
  refine le_of_mul_le_mul_left ?_ h₂
  linarith

/-- **A fixed point is optimal**, up to the floor. -/
theorem objective_le_of_fixed {J : Space ℝ D → ℝ} {T : Space ℝ D →L[ℝ] Space ℝ S}
    (hu : u = T x) (hx : IsProx J τ₁ (x - τ₁ • (T†) y) x) (hJ : ConvexOn ℝ Set.univ J)
    (h₁ : 0 < τ₁) (h₂ : 0 < τ₂) (hε : 0 ≤ ε) (hb : trail q b = 0) {z : Space ℝ D}
    (hz : ‖lead q (T z - b)‖ ≤ ε) :
    J x + (1 - normFloor) * trailSum q (T x) ≤ J z + trailSum q (T z) + normFloor * ε := by
  -- Optimality in the primal variable, with the dual part as multiplier.
  have hprimal : J x - J z ≤ ⟪y, T z - b⟫ - ⟪y, T x - b⟫ := by
    have hvar := hx.variational hJ h₁ z
    have hvalue : ⟪x - τ₁ • (T†) y - x, x - z⟫ / τ₁ = ⟪y, T z - b⟫ - ⟪y, T x - b⟫ := by
      rw [sub_sub_cancel_left, inner_neg_left, real_inner_smul_left,
        ContinuousLinearMap.adjoint_inner_left, ← inner_sub_right, sub_sub_sub_cancel_right,
        ← map_sub, ← neg_sub x z, map_neg, inner_neg_right]
      field_simp
    rwa [hvalue] at hvar
  have hbox : InBox q y := by
    rw [← hy]
    exact inBox_dualMap _ _ _
  -- No feasible `z` meets the multiplier in more than this, and `x` in no less but for the floor.
  have hother : ⟪y, T z - b⟫ ≤ ε * ‖lead q y‖ + trailSum q (T z) := by
    have hinner := hbox.re_inner_le (T z - b)
    rw [RCLike.re_to_real, real_inner_comm, trailSum_sub hb] at hinner
    linarith [mul_le_mul_of_nonneg_right hz (norm_nonneg (lead q y))]
  have haligned := aligned_of_fixed hy h₂ hε hb
  rw [hu] at haligned
  linarith

end Vectors

/-! ## §2. A fixed point that uses both dual blocks. -/

/-- Twice this number is shortened to it, whether by shrinkage by 1 or by projection. -/
noncomputable def settled : ℝ := 1 - normFloor / 2

/-- The settled estimate is positive. -/
theorem settled_pos : 0 < settled := by
  have hf := normFloor_lt_one
  unfold settled
  linarith

theorem shrinkFactor_settled : shrinkFactor 1 (2 * settled) = 1 / 2 := by
  unfold shrinkFactor settled
  rw [show 2 * (1 - normFloor / 2) + normFloor = (2 : ℝ) by ring]
  norm_num

theorem clipFactor_settled : clipFactor (2 * settled) = 1 / 2 := by
  rw [clipFactor_eq, shrinkFactor_settled]
  norm_num

theorem dualMap_settled :
    dualMap 1 1 (pair (-(2 * settled)) (2 * settled)) = pair (-settled) settled := by
  have hpos : 0 < 2 * settled := mul_pos two_pos settled_pos
  unfold pair
  rw [dualMap_join, norm_single, abs_neg, abs_of_pos hpos, shrinkFactor_settled]
  apply ext_positions
  · intro i
    rw [join_inl, join_inl]
    show (1 / 2 : ℝ) * -(2 * settled) = -settled
    ring
  · intro i
    rw [join_inr, join_inr]
    show clipFactor ‖2 * settled‖ * (2 * settled) = settled
    rw [Real.norm_of_nonneg hpos.le, clipFactor_settled]
    ring

/-- The settled estimates are a fixed point in which both blocks are at work. -/
theorem step_settled :
    (Scheme.linear twice id (pair (2 * settled) 0) 1 1 1 1).step
        (single settled, pair (-settled) settled)
      = (single settled, pair (-settled) settled) := by
  set σ := Scheme.linear twice id (pair (2 * settled) 0) 1 1 1 1 with hσ
  -- The two dual entries cancel in the adjoint, so the primal part does not move.
  have hadjoint : (twice†) (pair (-settled) settled) = 0 := by
    unfold twice pair
    rw [column_adjoint, ContinuousLinearMap.adjoint_id, upper_join, lower_join]
    ext i
    exact neg_add_cancel settled
  have hprimal : σ.primal (single settled, pair (-settled) settled) = single settled := by
    show single settled - ((1 : ℝ) : ℝ) • (twice†) (pair (-settled) settled) = single settled
    rw [hadjoint, smul_zero, sub_zero]
  have hargument : σ.dualArgument (single settled, pair (-settled) settled) (single settled)
      = pair (-(2 * settled)) (2 * settled) := by
    show pair (-settled) settled + (1 : ℝ) • twice ((2 : ℝ) • single settled - single settled)
      - (1 : ℝ) • pair (2 * settled) 0 = _
    rw [two_smul, add_sub_cancel_right, one_smul, one_smul,
      show twice (single settled) = pair settled settled from rfl]
    apply ext_positions
    · intro i
      simp only [PiLp.add_apply, PiLp.sub_apply, pair_inl]
      ring
    · intro i
      simp only [PiLp.add_apply, PiLp.sub_apply, pair_inr]
      ring
  unfold Scheme.step
  rw [hprimal, hargument]
  refine Prod.ext rfl ?_
  show dualMap (1 * 1) 1 _ = _
  rw [mul_one, dualMap_settled]

/-! ## §3. Pairs that a run returns unchanged. -/

section Returned

variable {K : Operator (Except (Failure ℝ)) ℝ Unit ℝ}
variable {prox : Tensor Unit ℝ → ℝ → Except (Failure ℝ) (Tensor Unit ℝ)}
variable {o : Observer (Except (Failure ℝ)) ℝ Unit ℝ} {r : InnerResult ℝ Unit ℝ}
variable (hq : q ≤ S.prod) (ho : o.outputType.number = 1)
variable (hrun : Inner.run ⟨ofVec S b, K, τ₁, τ₂, ε, prox, .whole q⟩ o 1 (ofVec D x) (ofVec S y)
  = .ok r) (hx : r.x = ofVec D x) (hy : r.y = ofVec S y)
include ho hrun hx hy

/-- The step has returned what it was given. -/
theorem advance_of_returned :
    ∃ s, Problem.advance ⟨ofVec S b, K, τ₁, τ₂, ε, prox, .whole q⟩
        (.start (ofVec D x) (ofVec S y)) = .ok s ∧ s.x = ofVec D x ∧ s.y = ofVec S y := by
  obtain ⟨s, records, hadvance, rfl⟩ := Inner.run_one_ok hrun
  have htype : o.outputType = .last := OutputType.number_inj ho
  rw [htype] at hx hy
  exact ⟨s, hadvance, hx, hy⟩

include hq in
/-- A dual estimate that a step returned is its own update. -/
theorem dual_of_returned {u : Space ℝ S} (hu : K.forward (ofVec D x) = .ok (ofVec S u)) :
    dualMap (τ₂ * ε) q (y + τ₂ • u - τ₂ • b) = y := by
  obtain ⟨s, hadvance, hsx, hsy⟩ := advance_of_returned ho hrun hx hy
  obtain ⟨_, _, e, image, _, _, _, he, himage, hdual⟩ := Problem.advance_ok hadvance
  -- The extrapolated iterate is the iterate itself.
  have hpoint : e = ofVec D x := by
    rw [hsx, show (Iterate.start (ofVec D x) (ofVec S y)).x = ofVec D x from rfl,
      Problem.extrapolate_ofVec, RCLike.ofReal_ofNat, two_smul, add_sub_cancel_right] at he
    exact (Except.ok.inj he).symm
  rw [hpoint, hu] at himage
  rw [hsy, ← Except.ok.inj himage] at hdual
  have hupdate := hdual.symm.trans
    (Problem.dualUpdate_ofVec rfl (fun ρ v => Prox.dual_ofVec ρ hq v) y u)
  exact ofVec_injective (Except.ok.inj hupdate).symm

/-- A primal estimate that a step returned is its own proximal point. -/
theorem isProx_of_returned {T : Space ℝ D →L[ℝ] Space ℝ S} {J : Space ℝ D → ℝ} (hK : K.Acts T)
    (hprox : HasProx prox J) (h₁ : 0 < τ₁) : IsProx J τ₁ (x - τ₁ • (T†) y) x := by
  obtain ⟨s, hadvance, hsx, hsy⟩ := advance_of_returned ho hrun hx hy
  obtain ⟨u, v, _, _, hu, hv, hproxv, _⟩ := Problem.advance_ok hadvance
  rw [show (Iterate.start (ofVec D x) (ofVec S y)).y = ofVec S y from rfl, hK.adjoint] at hu
  rw [← Except.ok.inj hu] at hv
  have hargument := hv.symm.trans (Problem.primalArgument_ofVec _ x ((T†) y))
  obtain ⟨p, hp, hmin⟩ := hprox (x - τ₁ • (T†) y) τ₁ h₁
  rw [Except.ok.inj hargument, hsx] at hproxv
  have hsame := ofVec_injective (Except.ok.inj (hp.symm.trans hproxv))
  rwa [hsame] at hmin

end Returned

/-- **Fixed points of one step.**  If a step returns the pair that it was given, its primal
part is feasible for every operator and every regulariser; if the operator is linear with
an exact adjoint and the regulariser convex, it also solves the problem up to the floor. -/
theorem Inner.fixed_point_solves {K : Operator (Except (Failure ℝ)) ℝ Unit ℝ}
    {prox : Tensor Unit ℝ → ℝ → Except (Failure ℝ) (Tensor Unit ℝ)}
    {o : Observer (Except (Failure ℝ)) ℝ Unit ℝ} {r : InnerResult ℝ Unit ℝ}
    (h₁ : 0 < τ₁) (h₂ : 0 < τ₂) (hε : 0 ≤ ε) (hq : q ≤ S.prod) (hb : trail q b = 0)
    (ho : o.outputType.number = 1)
    (hrun : Inner.run ⟨ofVec S b, K, τ₁, τ₂, ε, prox, .whole q⟩ o 1 (ofVec D x) (ofVec S y)
      = .ok r) (hx : r.x = ofVec D x) (hy : r.y = ofVec S y) :
    (∀ u, K.forward (ofVec D x) = .ok (ofVec S u) → ‖lead q (u - b)‖ ≤ ε)
      ∧ ∀ (T : Space ℝ D →L[ℝ] Space ℝ S) (J : Space ℝ D → ℝ), K.Acts T → HasProx prox J →
          ConvexOn ℝ Set.univ J → ∀ z, ‖lead q (T z - b)‖ ≤ ε →
            J x + (1 - normFloor) * trailSum q (T x)
              ≤ J z + trailSum q (T z) + normFloor * ε := by
  constructor
  · intro u hu
    exact norm_lead_le_of_fixed (dual_of_returned hq ho hrun hx hy hu) h₂ hε
  · intro T J hK hprox hJ z hz
    have hdual := dual_of_returned hq ho hrun hx hy (hK.forward x)
    have hprimal := isProx_of_returned ho hrun hx hy hK hprox h₁
    exact objective_le_of_fixed hdual rfl hprimal hJ h₁ h₂ hε hb hz

theorem Inner.fixed_point_solves_stacked :
    ∃ r, Inner.run ⟨ofVec [1 + 1] (pair (2 * settled) 0),
          .stacked .identity .identity (.whole 1), 1, 1, 1, Regulariser.prox .zero, .whole 1⟩
        (Observer.silent .last) 1 (ofVec [1] (single settled))
        (ofVec [1 + 1] (pair (-settled) settled)) = .ok r
      ∧ r.x = ofVec [1] (single settled) ∧ r.y = ofVec [1 + 1] (pair (-settled) settled)
      ∧ ‖lead 1 (twice (single settled) - pair (2 * settled) 0)‖ ≤ 1
      ∧ ∀ z, ‖lead 1 (twice z - pair (2 * settled) 0)‖ ≤ 1 →
          0 + (1 - normFloor) * trailSum 1 (twice (single settled))
            ≤ 0 + trailSum 1 (twice z) + normFloor * 1 := by
  have hprox : ∀ v : Space ℝ [1], (Regulariser.prox .zero (ofVec [1] v) (1 : ℝ)
      : Except (Failure ℝ) _) = .ok (ofVec [1] (id v)) := fun _ => rfl
  have hfollowed := acts_twice.followed hprox (pair (2 * settled) 0) 1 1
    (show 1 ≤ [1 + 1].prod by decide)
  obtain ⟨r, hr⟩ := hfollowed.run_returns (Observer.silent_faultless .last) (single settled)
    (pair (-settled) settled) 1
  obtain ⟨hx, hy⟩ := hfollowed.run_output (by norm_num) hr
  -- The start is a fixed point of the step, so it is what the run returns.
  have hout : (Scheme.linear twice id (pair (2 * settled) 0) 1 1 1 1).output .last 1
      (single settled, pair (-settled) settled)
      = (single settled, pair (-settled) settled) := step_settled
  rw [show (1 : ℤ).toNat = 1 from rfl, show (Observer.silent .last).outputType = .last from rfl,
    hout] at hx hy
  obtain ⟨hfeasible, hoptimal⟩ := fixed_point_solves one_pos one_pos zero_le_one
    (show 1 ≤ [1 + 1].prod by decide) (trail_pair_zero _) rfl hr hx hy
  exact ⟨r, hr, hx, hy, hfeasible _ (acts_twice.forward _),
    hoptimal twice _ acts_twice hasProx_zero (convexOn_const 0 convex_univ)⟩

end PrimalDual
