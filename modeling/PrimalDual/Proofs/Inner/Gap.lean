/-
  PrimalDual.Proofs.Inner.Gap
  ───────────────────────────
  **THE ERGODIC PRIMAL-DUAL GAP.**

  With a linear operator `T` and a convex regulariser `J`, the steps look for
  a saddle point of

      saddle x y = J x + ⟪T x - b, y⟫ - ε ‖lead q y‖

  over the `y` whose trailing entries lie in the unit disc.  One step bounds
  the gap at any comparison pair by the energy that it uses up (`gap_step`),
  the bounds of a run telescope (`gap_run`), and convexity carries them over
  to the averages (`gap_average`).  The floor of the dual map costs
  `normFloor (ε + q / τ₂)` in every step, and as much in the average.
-/
import PrimalDual.Proofs.Inner.Linear
import PrimalDual.Proofs.Prox.DualBounds
import PrimalDual.Proofs.Prox.Minimiser
import Mathlib.Analysis.Convex.Jensen
import Mathlib.Analysis.Normed.Module.Convex

namespace PrimalDual

open Tensor Coupling Prox
open scoped RealInnerProductSpace

variable {D S : List ℕ}

/-! ## §1. The saddle function. -/

/-- The function whose saddle points are looked for. -/
noncomputable def saddle (J : Space ℝ D → ℝ) (T : Space ℝ D →L[ℝ] Space ℝ S) (b : Space ℝ S)
    (ε : ℝ) (q : ℕ) (x : Space ℝ D) (y : Space ℝ S) : ℝ :=
  J x + ⟪T x - b, y⟫ - ε * ‖lead q y‖

variable {J : Space ℝ D → ℝ} {T : Space ℝ D →L[ℝ] Space ℝ S} {P : Space ℝ D → Space ℝ D}
variable {b : Space ℝ S} {τ₁ τ₂ ε : ℝ} {q : ℕ}

theorem convexOn_saddle (hJ : ConvexOn ℝ Set.univ J) (y : Space ℝ S) :
    ConvexOn ℝ Set.univ fun x => saddle J T b ε q x y := by
  refine ⟨convex_univ, ?_⟩
  intro u _ v _ α β hα hβ hαβ
  have hconv := hJ.2 (Set.mem_univ u) (Set.mem_univ v) hα hβ hαβ
  have hb : b = α • b + β • b := by rw [← add_smul, hαβ, one_smul]
  have hinner : ⟪T (α • u + β • v) - b, y⟫ = α * ⟪T u - b, y⟫ + β * ⟪T v - b, y⟫ := by
    have hpoint : T (α • u + β • v) - b = α • (T u - b) + β • (T v - b) := by
      rw [map_add, map_smul, map_smul, smul_sub, smul_sub]
      nth_rewrite 1 [hb]
      abel
    rw [hpoint, inner_add_left, real_inner_smul_left, real_inner_smul_left]
  have hε : ε * ‖lead q y‖ = α * (ε * ‖lead q y‖) + β * (ε * ‖lead q y‖) := by
    rw [← add_mul, hαβ, one_mul]
  simp only [saddle, smul_eq_mul] at hconv ⊢
  rw [hinner]
  linarith

theorem concaveOn_saddle (hε : 0 ≤ ε) (x : Space ℝ D) :
    ConcaveOn ℝ Set.univ fun y => saddle J T b ε q x y := by
  refine ⟨convex_univ, ?_⟩
  intro u _ v _ α β hα hβ hαβ
  have hnorm : ε * ‖lead q (α • u + β • v)‖
      ≤ ε * (α * ‖lead q u‖ + β * ‖lead q v‖) := by
    refine mul_le_mul_of_nonneg_left ?_ hε
    rw [map_add, map_smul, map_smul]
    refine (norm_add_le _ _).trans_eq ?_
    rw [norm_smul, norm_smul, Real.norm_of_nonneg hα, Real.norm_of_nonneg hβ]
  have hJ : J x = α * J x + β * J x := by rw [← add_mul, hαβ, one_mul]
  simp only [saddle, smul_eq_mul, inner_add_right, real_inner_smul_right]
  linarith

/-! ## §2. One step. -/

/-- **A step bounds the gap by the energy that it uses up.** -/
theorem gap_step (hJ : ConvexOn ℝ Set.univ J) (hP : ∀ v, IsProx J τ₁ v (P v)) (h₁ : 0 < τ₁)
    (h₂ : 0 < τ₂) (hT : τ₁ * τ₂ * ‖T‖ ^ 2 ≤ 1) (hε : 0 ≤ ε) (z : Space ℝ D × Space ℝ S)
    (x : Space ℝ D) {y : Space ℝ S} (hy : InBox q y) :
    saddle J T b ε q ((Scheme.linear T P b τ₁ τ₂ ε q).step z).1 y
        - saddle J T b ε q x ((Scheme.linear T P b τ₁ τ₂ ε q).step z).2
      ≤ (energy T τ₁ τ₂ (z - (x, y))
          - energy T τ₁ τ₂ ((Scheme.linear T P b τ₁ τ₂ ε q).step z - (x, y))) / 2
        + normFloor * (ε + q / τ₂) := by
  set σ := Scheme.linear T P b τ₁ τ₂ ε q with hσ
  set z' := σ.step z with hz'
  -- The variational inequalities of both halves of the step.
  have hprimal : J z'.1 - J x ≤ ⟪σ.primalResidual z, z'.1 - x⟫ / τ₁ :=
    (hP _).variational hJ h₁ x
  have hdual : ε * ‖lead q z'.2‖ - ε * ‖lead q y‖
      ≤ ⟪σ.dualResidual z, z'.2 - y⟫ / τ₂ + normFloor * (ε + q / τ₂) := by
    have hvar := dual_variational (σ.dualArgument z z'.1) y (mul_nonneg h₂.le hε) hy
    have hdivided := div_le_div_of_nonneg_right hvar h₂.le
    have hleft : (τ₂ * ε * ‖lead q z'.2‖ - τ₂ * ε * ‖lead q y‖) / τ₂
        = ε * ‖lead q z'.2‖ - ε * ‖lead q y‖ := by field_simp
    have hright : (⟪σ.dualResidual z, z'.2 - y⟫ + normFloor * (τ₂ * ε + q)) / τ₂
        = ⟪σ.dualResidual z, z'.2 - y⟫ / τ₂ + normFloor * (ε + q / τ₂) := by field_simp
    rw [← hleft, ← hright]
    exact hdivided
  -- Their right-hand sides add up to a pairing, which the lost energy bounds.
  have hpair := Scheme.residual_pairing T P b ε q h₁.ne' h₂.ne' z (z' - (x, y))
  have henergy := pairing_sub_le h₁ h₂ hT (z - (x, y)) (z' - (x, y))
  rw [sub_sub_sub_cancel_right, pairing_comm] at henergy
  simp only [RCLike.re_to_real, Prod.fst_sub, Prod.snd_sub, map_sub] at hpair
  simp only [saddle, inner_sub_left, inner_sub_right] at hprimal hdual hpair ⊢
  linarith

/-! ## §3. Runs and averages. -/

variable (hJ : ConvexOn ℝ Set.univ J) (hP : ∀ v, IsProx J τ₁ v (P v)) (h₁ : 0 < τ₁)
variable (h₂ : 0 < τ₂) (hT : τ₁ * τ₂ * ‖T‖ ^ 2 ≤ 1) (hε : 0 ≤ ε)
variable (z : Space ℝ D × Space ℝ S) (x : Space ℝ D) {y : Space ℝ S} (hy : InBox q y)
include hJ hP h₁ h₂ hT hε hy

/-- The energies of a run telescope. -/
theorem gap_run (n : ℕ) :
    ∑ i ∈ Finset.range n,
        (saddle J T b ε q ((Scheme.linear T P b τ₁ τ₂ ε q).after z (i + 1)).1 y
          - saddle J T b ε q x ((Scheme.linear T P b τ₁ τ₂ ε q).after z (i + 1)).2)
      ≤ (energy T τ₁ τ₂ (z - (x, y))
          - energy T τ₁ τ₂ ((Scheme.linear T P b τ₁ τ₂ ε q).after z n - (x, y))) / 2
        + n * (normFloor * (ε + q / τ₂)) := by
  induction n with
  | zero =>
    show (0 : ℝ) ≤ (energy T τ₁ τ₂ (z - (x, y)) - energy T τ₁ τ₂ (z - (x, y))) / 2 + _
    rw [sub_self, zero_div, zero_add, Nat.cast_zero, zero_mul]
  | succ n ih =>
    have hstep := gap_step (b := b) hJ hP h₁ h₂ hT hε
      ((Scheme.linear T P b τ₁ τ₂ ε q).after z n) x hy
    rw [Finset.sum_range_succ, Nat.cast_succ]
    simp only [Scheme.after_succ] at ih hstep ⊢
    linarith

/-- **The gap of the averages.** -/
theorem gap_average {n : ℕ} (hn : 0 < n) :
    saddle J T b ε q ((n : ℝ)⁻¹ • ((Scheme.linear T P b τ₁ τ₂ ε q).total z n).1) y
        - saddle J T b ε q x ((n : ℝ)⁻¹ • ((Scheme.linear T P b τ₁ τ₂ ε q).total z n).2)
      ≤ energy T τ₁ τ₂ (z - (x, y)) / (2 * n) + normFloor * (ε + q / τ₂) := by
  set σ := Scheme.linear T P b τ₁ τ₂ ε q with hσ
  have hn' : (0 : ℝ) < n := Nat.cast_pos.2 hn
  have hweights : ∑ _i ∈ Finset.range n, (n : ℝ)⁻¹ = 1 := by
    rw [Finset.sum_const, Finset.card_range, nsmul_eq_mul, mul_inv_cancel₀ hn'.ne']
  have hweight : ∀ i ∈ Finset.range n, 0 ≤ (n : ℝ)⁻¹ := fun _ _ => by positivity
  have hprimal := (convexOn_saddle (T := T) (b := b) (ε := ε) (q := q) hJ y).map_sum_le hweight
    hweights fun i _ => Set.mem_univ (σ.after z (i + 1)).1
  have hdual := (concaveOn_saddle (J := J) (T := T) (b := b) (q := q) hε x).le_map_sum hweight
    hweights fun i _ => Set.mem_univ (σ.after z (i + 1)).2
  rw [← Finset.smul_sum, ← Finset.smul_sum, ← Prod.fst_sum] at hprimal
  rw [← Finset.smul_sum, ← Finset.smul_sum, ← Prod.snd_sum] at hdual
  -- The last energy of the run is not negative and can be dropped.
  have hrun := gap_run (b := b) hJ hP h₁ h₂ hT hε z x hy n
  have henergy := energy_nonneg h₁ h₂ hT (σ.after z n - (x, y))
  calc saddle J T b ε q ((n : ℝ)⁻¹ • (σ.total z n).1) y
        - saddle J T b ε q x ((n : ℝ)⁻¹ • (σ.total z n).2)
      ≤ (n : ℝ)⁻¹ * ∑ i ∈ Finset.range n, (saddle J T b ε q (σ.after z (i + 1)).1 y
          - saddle J T b ε q x (σ.after z (i + 1)).2) := by
        rw [Finset.sum_sub_distrib, mul_sub]
        exact sub_le_sub hprimal hdual
    _ ≤ (n : ℝ)⁻¹ * (energy T τ₁ τ₂ (z - (x, y)) / 2 + n * (normFloor * (ε + q / τ₂))) :=
        mul_le_mul_of_nonneg_left (by linarith) (inv_nonneg.2 hn'.le)
    _ = energy T τ₁ τ₂ (z - (x, y)) / (2 * n) + normFloor * (ε + q / τ₂) := by field_simp

omit hJ hP h₁ h₂ hT hε hy

/-! ## §4. The averages that a run returns. -/

/-- **The ergodic gap of a run.**  A run whose observer does not fail returns, and the
averages that it returns are within the bound of every comparison pair. -/
theorem Inner.averaged_gap_le {K : Operator (Except (Failure ℝ)) ℝ Unit ℝ} (hK : K.Acts T)
    {prox : Tensor Unit ℝ → ℝ → Except (Failure ℝ) (Tensor Unit ℝ)} (hprox : HasProx prox J)
    (hJ : ConvexOn ℝ Set.univ J) (h₁ : 0 < τ₁) (h₂ : 0 < τ₂) (hT : τ₁ * τ₂ * ‖T‖ ^ 2 ≤ 1)
    (hε : 0 ≤ ε) (hq : q ≤ S.prod) (b : Space ℝ S)
    {o : Observer (Except (Failure ℝ)) ℝ Unit ℝ} (ho : o.outputType.number = 4)
    {kIter : ℤ} (hk : 1 ≤ kIter) (x₀ : Space ℝ D) (y₀ : Space ℝ S) :
    (o.Faultless → ∃ r, Inner.run ⟨ofVec S b, K, τ₁, τ₂, ε, prox, .whole q⟩ o kIter
        (ofVec D x₀) (ofVec S y₀) = .ok r)
      ∧ ∀ r, Inner.run ⟨ofVec S b, K, τ₁, τ₂, ε, prox, .whole q⟩ o kIter
          (ofVec D x₀) (ofVec S y₀) = .ok r →
        r.x.shape = D ∧ r.y.shape = S ∧ ∀ (x : Space ℝ D) (y : Space ℝ S), InBox q y →
          saddle J T b ε q (vec D r.x) y - saddle J T b ε q x (vec S r.y)
            ≤ 1 / (2 * kIter) *
                (‖x - x₀‖ ^ 2 / τ₁ + ‖y - y₀‖ ^ 2 / τ₂ - 2 * ⟪T (x - x₀), y - y₀⟫)
              + normFloor * (ε + q / τ₂) := by
  obtain ⟨P, hP, hmin⟩ := hprox.exists_map h₁
  have hfollowed := hK.followed hP b τ₂ ε hq
  refine ⟨fun h => hfollowed.run_returns h x₀ y₀ kIter, fun r hr => ?_⟩
  obtain ⟨hx, hy⟩ := hfollowed.run_output (by omega) hr
  have htype : o.outputType = .averaged := OutputType.number_inj ho
  rw [htype] at hx hy
  rw [hx, hy]
  refine ⟨rfl, rfl, ?_⟩
  intro x y hbox
  have hgap := gap_average (b := b) hJ hmin h₁ h₂ hT hε (x₀, y₀) x hbox
    (show 0 < kIter.toNat by omega)
  have hcast : (kIter : ℝ) = (kIter.toNat : ℝ) := cast_eq_toNat (by omega)
  -- The energy does not see the order of the difference.
  have henergy : energy T τ₁ τ₂ ((x₀, y₀) - (x, y))
      = ‖x - x₀‖ ^ 2 / τ₁ + ‖y - y₀‖ ^ 2 / τ₂ - 2 * ⟪T (x - x₀), y - y₀⟫ := by
    show ‖x₀ - x‖ ^ 2 / τ₁ + ‖y₀ - y‖ ^ 2 / τ₂ - 2 * ⟪T (x₀ - x), y₀ - y⟫ = _
    rw [norm_sub_rev x₀, norm_sub_rev y₀, ← neg_sub x x₀, ← neg_sub y y₀, map_neg, inner_neg_neg]
  rw [vec_ofVec, vec_ofVec, hcast, one_div_mul_eq_div, ← henergy]
  exact hgap

theorem Inner.averaged_gap_le_ridge :
    ∃ r, Inner.run ⟨ofVec [2] (WithLp.toLp 2 fun _ => 1), .identity, 1, 1, 1 / 2,
        Regulariser.prox .ridge, .whole 1⟩ (Observer.silent .averaged) 3
        (ofVec [2] (0 : Space ℝ [2])) (ofVec [2] 0) = .ok r
      ∧ ∀ x y : Space ℝ [2], InBox 1 y →
        saddle (fun x => ‖x‖ ^ 2 / 2) (.id ℝ _) (WithLp.toLp 2 fun _ => 1) (1 / 2) 1
              (vec [2] r.x) y
            - saddle (fun x => ‖x‖ ^ 2 / 2) (.id ℝ _) (WithLp.toLp 2 fun _ => 1) (1 / 2) 1 x
              (vec [2] r.y)
          ≤ 1 / 6 * (‖x‖ ^ 2 + ‖y‖ ^ 2 - 2 * ⟪x, y⟫) + normFloor * (3 / 2) := by
  obtain ⟨hreturns, hgap⟩ := averaged_gap_le (Operator.acts_identity (D := [2])) hasProx_ridge
    convexOn_ridge one_pos one_pos (step_condition_id ℝ _) (show (0 : ℝ) ≤ 1 / 2 by norm_num)
    (show 1 ≤ [2].prod by decide) (WithLp.toLp 2 fun _ => 1) (o := .silent .averaged) rfl
    (show (1 : ℤ) ≤ 3 by norm_num) 0 0
  obtain ⟨r, hr⟩ := hreturns (Observer.silent_faultless _)
  refine ⟨r, hr, ?_⟩
  intro x y hy
  have h := (hgap r hr).2.2 x y hy
  norm_num at h ⊢
  exact h

end PrimalDual
