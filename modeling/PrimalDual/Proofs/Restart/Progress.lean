/-
  PrimalDual.Proofs.Restart.Progress
  ──────────────────────────────────
  **WHAT ONE RESTART ACHIEVES.**

  A restart with factor `al` solves the problem of `al b` and `al ε` from
  `al psi` and divides the averaged primal vector by `al`.  For a regulariser
  with `J (c x) = c J x` this undoes the rescaling (`saddle_smul`), so the
  ergodic gap of the inner steps bounds, for every feasible `x`,

      sharpnessGap z x = J z + ‖B z‖₁ - J x - ‖B x‖₁ + C₂ (‖A z - b_A‖ - ε)

  at the new estimate `z`.  The comparison vector of the dual side is the one
  of the dual ball that supports the residual of `z` (`exists_support`).
-/
import PrimalDual.Proofs.Inner.Gap
import PrimalDual.Proofs.Operator.Stacked
import PrimalDual.Proofs.Restart.Budget
import PrimalDual.Proofs.Restart.DualBall
import PrimalDual.Solver.Restart

namespace PrimalDual

open Tensor Coupling Prox
open scoped RealInnerProductSpace

variable {D S : List ℕ} {J : Space ℝ D → ℝ} {T : Space ℝ D →L[ℝ] Space ℝ S}
variable {P : Space ℝ D → Space ℝ D} {b : Space ℝ S} {ε C : ℝ} {q : ℕ}

/-- The excess of the objective at `z` over that at `x`, and `C` times the excess of the
residual over the tolerance. -/
noncomputable def sharpnessGap (J : Space ℝ D → ℝ) (T : Space ℝ D →L[ℝ] Space ℝ S)
    (b : Space ℝ S) (ε C : ℝ) (q : ℕ) (z x : Space ℝ D) : ℝ :=
  J z + trailSum q (T z) - J x - trailSum q (T x) + C * (‖lead q (T z - b)‖ - ε)

/-! ## §1. From the saddle function to the gap. -/

/-- A support vector of the residual turns the saddle function into the gap. -/
theorem exists_sharpnessGap_le (hC : 0 ≤ C) (hε : 0 ≤ ε) (hb : trail q b = 0)
    {x : Space ℝ D} (hx : ‖lead q (T x - b)‖ ≤ ε) {Y : Space ℝ S} (hY : InBox q Y)
    (z : Space ℝ D) :
    ∃ w, InDualBall C q w
      ∧ sharpnessGap J T b ε C q z x ≤ saddle J T b ε q z w - saddle J T b ε q x Y := by
  obtain ⟨w, hw, hsupport⟩ := exists_support hC q (T z - b)
  refine ⟨w, hw, ?_⟩
  -- Against the feasible `x`, no dual vector of the box gains more than this.
  have hother : ⟪T x - b, Y⟫ ≤ ε * ‖lead q Y‖ + trailSum q (T x) := by
    have hinner := hY.re_inner_le (T x - b)
    rw [RCLike.re_to_real, trailSum_sub hb] at hinner
    linarith [mul_le_mul_of_nonneg_right hx (norm_nonneg (lead q Y))]
  have hlength : ε * ‖lead q w‖ ≤ ε * C := mul_le_mul_of_nonneg_left hw.1 hε
  rw [trailSum_sub hb] at hsupport
  unfold sharpnessGap saddle
  rw [hsupport]
  linarith

/-- Rescaling the problem rescales the saddle function. -/
theorem saddle_smul {c : ℝ} (hJ : ∀ x, J (c • x) = c * J x) (x : Space ℝ D)
    (y : Space ℝ S) :
    saddle J T (c • b) (c * ε) q (c • x) y = c * saddle J T b ε q x y := by
  unfold saddle
  rw [hJ, map_smul, ← smul_sub, real_inner_smul_left]
  ring

/-! ## §2. The averages of a rescaled problem. -/

section Averages

variable (T P b) (τ₁ τ₂ ε : ℝ) (q : ℕ) (z : Space ℝ D × Space ℝ S)

/-- The trailing entries of the summed dual iterates. -/
theorem norm_total_trailing_le (n : ℕ) {i : Fin S.prod} (hi : S.prod ≤ i + q) :
    ‖((Scheme.linear T P b τ₁ τ₂ ε q).total z n).2 i‖ ≤ n := by
  induction n with
  | zero =>
    rw [Nat.cast_zero]
    exact (norm_zero (E := ℝ)).le
  | succ n ih =>
    rw [Scheme.total_succ, Scheme.after_succ, Nat.cast_succ, Prod.snd_add, PiLp.add_apply]
    exact (norm_add_le _ _).trans (add_le_add ih (inBox_dualMap _ _ _ i hi))

theorem inBox_average {n : ℕ} (hn : 0 < n) :
    InBox q ((n : ℝ)⁻¹ • ((Scheme.linear T P b τ₁ τ₂ ε q).total z n).2) := by
  have hn' : (0 : ℝ) < n := Nat.cast_pos.2 hn
  intro i hi
  rw [PiLp.smul_apply, norm_smul, Real.norm_of_nonneg (inv_nonneg.2 hn'.le), inv_mul_le_iff₀ hn',
    mul_one]
  exact norm_total_trailing_le T P b τ₁ τ₂ ε q z n hi

end Averages

/-- **The gap of a rescaled average.**  The inner steps start from `c psi` and `y` and solve
the problem of `c b` and `c ε` with steps `τ`. -/
theorem sharpnessGap_average_le (hJ : ConvexOn ℝ Set.univ J)
    (hhom : ∀ c : ℝ, 0 < c → ∀ x, J (c • x) = c * J x) {τ : ℝ} (hτ : 0 < τ)
    (hP : ∀ v, IsProx J τ v (P v)) (hT : τ * ‖T‖ ≤ 1) (hC : 0 ≤ C) (hε : 0 ≤ ε)
    (hb : trail q b = 0) {c : ℝ} (hc : 0 < c) (psi : Space ℝ D) (y : Space ℝ S) {x : Space ℝ D}
    (hx : ‖lead q (T x - b)‖ ≤ ε) {n : ℕ} (hn : 0 < n) :
    sharpnessGap J T b ε C q (c⁻¹ • (n : ℝ)⁻¹ •
        ((Scheme.linear T P (c • b) τ τ (c * ε) q).total (c • psi, y) n).1) x
      ≤ 1 / (n * τ) * (c * ‖x - psi‖ ^ 2 + dualRadius C q y ^ 2 / c)
        + normFloor * (ε + q / (τ * c)) := by
  set X := (n : ℝ)⁻¹ • ((Scheme.linear T P (c • b) τ τ (c * ε) q).total (c • psi, y) n).1 with hX
  set Y := (n : ℝ)⁻¹ • ((Scheme.linear T P (c • b) τ τ (c * ε) q).total (c • psi, y) n).2 with hY
  have hn' : (0 : ℝ) < n := Nat.cast_pos.2 hn
  have hXc : X = c • c⁻¹ • X := (smul_inv_smul₀ hc.ne' X).symm
  obtain ⟨w, hw, hgap⟩ := exists_sharpnessGap_le (J := J) hC hε hb hx
    (inBox_average T P (c • b) τ τ (c * ε) q (c • psi, y) hn) (c⁻¹ • X)
  have hstep : τ * τ * ‖T‖ ^ 2 ≤ 1 := by
    rw [show τ * τ * ‖T‖ ^ 2 = (τ * ‖T‖) ^ 2 by ring]
    exact pow_le_one₀ (by positivity) hT
  -- The ergodic gap of the rescaled problem, compared at `c x` and the support vector.
  have haverage := gap_average (b := c • b) hJ hP hτ hτ hstep (mul_nonneg hc.le hε)
    (c • psi, y) (c • x) hw.2 hn
  rw [← hX, ← hY, hXc, saddle_smul (hhom c hc), saddle_smul (hhom c hc)] at haverage
  -- The energy of the start is within the two distances.
  have henergy : energy T τ τ ((c • psi, y) - (c • x, w))
      ≤ 2 / τ * (c ^ 2 * ‖x - psi‖ ^ 2 + dualRadius C q y ^ 2) := by
    refine (energy_le hτ hT _).trans (mul_le_mul_of_nonneg_left (add_le_add ?_ ?_) (by positivity))
    · show ‖c • psi - c • x‖ ^ 2 ≤ _
      rw [← smul_sub, norm_smul, mul_pow, Real.norm_eq_abs, sq_abs, norm_sub_rev]
    · show ‖y - w‖ ^ 2 ≤ _
      rw [norm_sub_rev]
      exact pow_le_pow_left₀ (norm_nonneg _) (norm_sub_le_dualRadius hw y) 2
  refine le_of_mul_le_mul_left ?_ hc
  calc c * sharpnessGap J T b ε C q (c⁻¹ • X) x
      ≤ c * (saddle J T b ε q (c⁻¹ • X) w - saddle J T b ε q x Y) :=
        mul_le_mul_of_nonneg_left hgap hc.le
    _ ≤ energy T τ τ ((c • psi, y) - (c • x, w)) / (2 * n) + normFloor * (c * ε + q / τ) := by
        rw [mul_sub]
        exact haverage
    _ ≤ 2 / τ * (c ^ 2 * ‖x - psi‖ ^ 2 + dualRadius C q y ^ 2) / (2 * n)
          + normFloor * (c * ε + q / τ) :=
        add_le_add_left (div_le_div_of_nonneg_right henergy (by positivity)) _
    _ = c * (1 / (n * τ) * (c * ‖x - psi‖ ^ 2 + dualRadius C q y ^ 2 / c)
          + normFloor * (ε + q / (τ * c))) := by
        field_simp

/-! ## §3. What a restart computes. -/

namespace Schedule

variable {s : Schedule (Except (Failure ℝ)) ℝ Unit ℝ} {al : ℝ} {offset : ℤ}

/-- Neither the error measure nor the callback ever fails. -/
def Faultless (s : Schedule (Except (Failure ℝ)) ℝ Unit ℝ) : Prop :=
  (∀ f ∈ s.options.error, ∀ x, ∃ r, f x = .ok r) ∧ ∀ f ∈ s.callback, ∀ k x, f k x = .ok ()

theorem restart_eq_ok {state : RestartState ℝ Unit ℝ}
    {out : RestartState ℝ Unit ℝ × RestartRecord ℝ Unit ℝ} :
    s.restart state al offset = .ok out ↔ ∃ step type r, stepSize s.options = .ok step
      ∧ OutputType.find s.outputType = .ok type
      ∧ Inner.run (s.problem al step) (s.observer al type offset) s.kIter
          (Tensor.scale al state.psi) state.y = .ok r
      ∧ (⟨r.x.divBy al, r.y, s.nextError state.eps⟩,
          ⟨r.iterates.map (Tensor.scale s.scale), r.errors⟩) = out := by
  constructor
  · intro h
    obtain ⟨step, hstep, h⟩ := bind_eq_ok.1 h
    obtain ⟨type, htype, h⟩ := bind_eq_ok.1 h
    obtain ⟨r, hr, h⟩ := bind_eq_ok.1 h
    exact ⟨step, type, r, hstep, htype, hr, Except.ok.inj h⟩
  · rintro ⟨step, type, r, hstep, htype, hr, rfl⟩
    apply bind_returns hstep
    apply bind_returns htype
    apply bind_returns hr
    rfl

theorem stepSize_eq {m : Type → Type} {κ α : Type} {o : Options m ℝ κ α} (ho : o.Valid) {L : ℝ}
    (hL : o.bound = some L) : stepSize o = .ok (o.tau / L) := by
  unfold stepSize Rescaling.boundOf
  rw [hL]
  exact Control.quotient_real _ (ho.bound_pos L hL).ne'

/-- The problem of a restart follows the scheme of the rescaled data. -/
theorem problem_followed (al : ℝ) (hK : s.K.Acts T) {step : ℝ}
    (hP : ∀ v, s.prox (ofVec D v) step = .ok (ofVec D (P v))) (hb : s.b = ofVec S b)
    (hq : s.options.q ≤ S.prod) :
    (Scheme.linear T P (al • b) step step (al * s.epsilon) s.options.q).Followed
      (s.problem al step) := by
  have hscaled : s.problem al step = ⟨ofVec S (al • b), s.K, step, step, al * s.epsilon, s.prox,
      .whole s.options.q⟩ := by
    unfold problem
    rw [hb, scale_ofVec]
    rfl
  rw [hscaled]
  exact hK.followed hP (al • b) step (al * s.epsilon) hq

theorem find_averaging {R : Type} {given : Quantity R}
    (h : given = .whole 2 ∨ given = .whole 4) :
    ∃ type, OutputType.find given = .ok type ∧ type.averagesPrimal = true := by
  rcases h with rfl | rfl
  · exact ⟨.averagedPrimal, rfl, rfl⟩
  · exact ⟨.averaged, rfl, rfl⟩

section Restart

variable {L : ℝ} (ho : s.options.Valid) (hL : s.options.bound = some L) (hK : s.K.Acts T)
variable (hP : ∀ v, s.prox (ofVec D v) (s.options.tau / L) = .ok (ofVec D (P v)))
variable (hb : s.b = ofVec S b) (hq : s.options.q ≤ S.prod)
variable (houtput : s.outputType = .whole 2 ∨ s.outputType = .whole 4)
variable (psi : Space ℝ D) (y : Space ℝ S) (eps : ℝ)
include ho hL hK hP hb hq houtput

theorem restart_returns (hs : s.Faultless) :
    ∃ out, s.restart ⟨ofVec D psi, ofVec S y, eps⟩ al offset = .ok out := by
  obtain ⟨type, htype, -⟩ := find_averaging houtput
  have hfollowed := problem_followed al hK hP hb hq
  have hobserver : (s.observer al type offset).Faultless := hs
  obtain ⟨r, hr⟩ := hfollowed.run_returns hobserver (al • psi) y s.kIter
  refine ⟨_, restart_eq_ok.2 ⟨_, type, r, stepSize_eq ho hL, htype, ?_, rfl⟩⟩
  show Inner.run _ _ _ (Tensor.scale al (ofVec D psi)) _ = _
  rw [scale_ofVec]
  exact hr

/-- A restart returns the average of the inner steps in the units of its input, and moves
the target error. -/
theorem restart_output (hk : 1 ≤ s.kIter) {out : RestartState ℝ Unit ℝ × RestartRecord ℝ Unit ℝ}
    (h : s.restart ⟨ofVec D psi, ofVec S y, eps⟩ al offset = .ok out) :
    out.1.psi = ofVec D (al⁻¹ • (s.kIter.toNat : ℝ)⁻¹ •
        ((Scheme.linear T P (al • b) (s.options.tau / L) (s.options.tau / L) (al * s.epsilon)
          s.options.q).total (al • psi, y) s.kIter.toNat).1)
      ∧ out.1.eps = s.options.upsilon * (s.delta + eps) := by
  obtain ⟨step, type, r, hstep, htype, hr, rfl⟩ := restart_eq_ok.1 h
  cases (stepSize_eq ho hL).symm.trans hstep
  obtain ⟨type', htype', haverages⟩ := find_averaging houtput
  cases htype'.symm.trans htype
  have hfollowed := problem_followed al hK hP hb hq
  have hstart : Tensor.scale al (ofVec D psi) = ofVec D (al • psi) := scale_ofVec al psi
  rw [hstart] at hr
  obtain ⟨hx, -⟩ := hfollowed.run_output (by omega) hr
  refine ⟨?_, rfl⟩
  show r.x.divBy al = _
  rw [hx, divBy_ofVec]
  unfold Scheme.output
  rw [show (s.observer al type offset).outputType = type from rfl, if_pos haverages]
  rfl

omit hP

/-- The bound of a restart, for any factor. -/
theorem restart_gap_le (hT : s.options.tau * ‖T‖ ≤ L) (hprox : HasProx s.prox J)
    (hJ : ConvexOn ℝ Set.univ J) (hhom : ∀ c : ℝ, 0 < c → ∀ x, J (c • x) = c * J x)
    (hb₀ : trail s.options.q b = 0) (hε : 0 ≤ s.epsilon) (hk : 1 ≤ s.kIter) (hal : 0 < al)
    {out : RestartState ℝ Unit ℝ × RestartRecord ℝ Unit ℝ}
    (h : s.restart ⟨ofVec D psi, ofVec S y, eps⟩ al offset = .ok out) {x : Space ℝ D}
    (hx : ‖lead s.options.q (T x - b)‖ ≤ s.epsilon) :
    sharpnessGap J T b s.epsilon s.options.C2 s.options.q (vec D out.1.psi) x
      ≤ L / (s.kIter * s.options.tau) * (al * ‖x - psi‖ ^ 2
          + dualRadius s.options.C2 s.options.q y ^ 2 / al)
        + normFloor * (s.epsilon + s.options.q * L / (s.options.tau * al)) := by
  have hL₀ : 0 < L := ho.bound_pos L hL
  have htau : 0 < s.options.tau := ho.tau_pos
  have hstep : 0 < s.options.tau / L := div_pos htau hL₀
  have hnorm : s.options.tau / L * ‖T‖ ≤ 1 := by
    rw [div_mul_eq_mul_div, div_le_one hL₀]
    exact hT
  obtain ⟨P, hP, hmin⟩ := hprox.exists_map hstep
  have hpsi := (restart_output ho hL hK hP hb hq houtput psi y eps hk h).1
  have hgap := sharpnessGap_average_le hJ hhom hstep hmin hnorm ho.C2_pos.le hε hb₀ hal psi y hx
    (show 0 < s.kIter.toNat by omega)
  have hk' : (s.kIter : ℝ) = (s.kIter.toNat : ℝ) := cast_eq_toNat (by omega)
  -- The constants of the general bound at the step size `tau / L`.
  have hscale : 1 / (s.kIter.toNat * (s.options.tau / L)) = L / (s.kIter * s.options.tau) := by
    rw [hk']
    field_simp
  have hfloor : (s.options.q : ℝ) / (s.options.tau / L * al)
      = s.options.q * L / (s.options.tau * al) := by field_simp
  rw [hpsi, vec_ofVec, ← hscale, ← hfloor]
  exact hgap

end Restart

/-- With the uncapped factor, enough steps and a dual start at the origin, the first part of
the bound is at most the next target error. -/
theorem first_term_le_nextError {o : Options (Except (Failure ℝ)) ℝ Unit ℝ} (ho : o.Valid)
    {L : ℝ} (hL : o.bound = some L) {eps delta : ℝ} {kIter : ℤ} (hal : 0 < al)
    (hfactor : Rescaling.uncapped eps delta kIter o (.whole o.q) = .ok al)
    (hbudget : Rescaling.stepBudget o o.q L ≤ kIter) {psi x : Space ℝ D}
    (hdist : ‖x - psi‖ ≤ o.C1 * (delta + eps)) :
    L / (kIter * o.tau) * (al * ‖x - psi‖ ^ 2 + dualRadius o.C2 o.q (0 : Space ℝ S) ^ 2 / al)
      ≤ o.upsilon * (delta + eps) := by
  have hradius : dualRadius o.C2 o.q (0 : Space ℝ S) ^ 2 ≤ Rescaling.root o o.q ^ 2 :=
    (dualRadius_zero_sq_le _ _).trans_eq (Real.sq_sqrt (by positivity)).symm
  rw [Rescaling.uncapped_eq ho hL] at hfactor
  exact balanced_bound_le ho.C1_pos (ho.bound_pos L hL) ho.tau_pos ho.upsilon_pos
    (Rescaling.root_pos ho) (Int.le_ceil _) (Int.cast_le.2 hbudget) hal
    (Control.quotient_ok hfactor).2 (norm_nonneg _) hdist hradius

/-- Options for one measured and one analysed entry: `root = 5 / 4`, and ten steps. -/
noncomputable def unitOptions : Options (Except (Failure ℝ)) ℝ Unit ℝ where
  C1 := 1
  C2 := 3 / 4
  store := false
  outputType := .averaged
  upsilon := 1 / 2
  bound := some 2
  tau := 1
  display := false
  error := none
  analysis := some (.operator .identity)
  q := 1

/-- A schedule that looks for the smallest `|x|` with `|x - 1| ≤ 1 / 2`. -/
noncomputable def unitSchedule : Schedule (Except (Failure ℝ)) ℝ Unit ℝ where
  b := ofVec [1 + 1] (pair 1 0)
  K := .stacked .identity .identity (.whole 1)
  epsilon := 1 / 2
  delta := 0
  prox := Regulariser.prox .zero
  kIter := 10
  options := unitOptions
  outputType := .whole 4
  scale := 1
  callback := none

theorem unitOptions_valid : unitOptions.Valid where
  C1_pos := one_pos
  C2_pos := show (0 : ℝ) < 3 / 4 by norm_num
  upsilon_pos := show (0 : ℝ) < 1 / 2 by norm_num
  upsilon_lt_one := show (1 / 2 : ℝ) < 1 by norm_num
  tau_pos := one_pos
  bound_pos := by
    rintro _ ⟨⟩
    exact two_pos

theorem unitOptions_check : unitOptions.settings.check = .ok unitOptions :=
  unitOptions_valid.check ⟨fun h => (nomatch h), fun h => (nomatch h)⟩

theorem unitSchedule_faultless : unitSchedule.Faultless :=
  ⟨fun _ h => (Option.not_mem_none _ h).elim, fun _ h => (Option.not_mem_none _ h).elim⟩

theorem unitOptions_root : Rescaling.root unitOptions 1 = 5 / 4 := by
  show √((3 / 4) ^ 2 + ((1 : ℕ) : ℝ)) = 5 / 4
  rw [Nat.cast_one, show ((3 / 4) ^ 2 + 1 : ℝ) = (5 / 4) ^ 2 by norm_num]
  exact Real.sqrt_sq (by norm_num)

theorem unitOptions_stepBudget : Rescaling.stepBudget unitOptions 1 2 = 10 := by
  unfold Rescaling.stepBudget
  rw [unitOptions_root]
  show ⌈(2 * 1 * (5 / 4) * 2 / (1 * (1 / 2)) : ℝ)⌉ = 10
  rw [show (2 * 1 * (5 / 4) * 2 / (1 * (1 / 2)) : ℝ) = ((10 : ℤ) : ℝ) by norm_num]
  exact Int.ceil_intCast 10

theorem unitOptions_uncapped :
    Rescaling.uncapped 1 0 10 unitOptions (.whole 1) = .ok (5 / 4) := by
  have hvalue : Rescaling.uncapped 1 0 10 unitOptions (.whole (1 : ℕ)) = Control.quotient 1
      (unitOptions.C1 * (0 + 1) / (Rescaling.root unitOptions 1
        * Rescaling.stepBudget unitOptions 1 2) * (10 : ℤ)) :=
    Rescaling.uncapped_eq unitOptions_valid rfl
  rw [unitOptions_root, unitOptions_stepBudget, show unitOptions.C1 = 1 from rfl,
    Control.quotient_real _ (by norm_num)] at hvalue
  refine hvalue.trans (congrArg Except.ok ?_)
  norm_num

/-- **Progress of one restart.**  A restart whose observers do not fail returns, and its
estimate is within the bound of every feasible `x`.  With a dual start at the origin, the
uncapped factor, the steps that it asks for and a distance to `x` within reach, the bound is
the next target error, but for the floor. -/
theorem restart_progress {settings : Settings (Except (Failure ℝ)) ℝ Unit ℝ}
    (hsettings : settings.check = .ok s.options) {L : ℝ} (hL : s.options.bound = some L)
    (hK : s.K.Acts T) (hT : s.options.tau * ‖T‖ ≤ L) (hprox : HasProx s.prox J)
    (hJ : ConvexOn ℝ Set.univ J) (hhom : ∀ c : ℝ, 0 < c → ∀ x, J (c • x) = c * J x)
    (hb : s.b = ofVec S b) (hb₀ : trail s.options.q b = 0) (hq : s.options.q ≤ S.prod)
    (houtput : s.outputType = .whole 2 ∨ s.outputType = .whole 4) (hε : 0 ≤ s.epsilon)
    (hk : 1 ≤ s.kIter) (psi : Space ℝ D) (y : Space ℝ S) (eps : ℝ) (hal : 0 < al)
    (offset : ℤ) :
    (s.Faultless → ∃ out, s.restart ⟨ofVec D psi, ofVec S y, eps⟩ al offset = .ok out)
      ∧ ∀ out, s.restart ⟨ofVec D psi, ofVec S y, eps⟩ al offset = .ok out →
        (out.1.psi.shape = D ∧ out.1.eps = s.options.upsilon * (s.delta + eps))
        ∧ (∀ x, ‖lead s.options.q (T x - b)‖ ≤ s.epsilon →
            sharpnessGap J T b s.epsilon s.options.C2 s.options.q (vec D out.1.psi) x
              ≤ L / (s.kIter * s.options.tau) * (al * ‖x - psi‖ ^ 2
                  + dualRadius s.options.C2 s.options.q y ^ 2 / al)
                + normFloor * (s.epsilon + s.options.q * L / (s.options.tau * al)))
        ∧ (y = 0 →
            Rescaling.uncapped eps s.delta s.kIter s.options (.whole s.options.q) = .ok al →
            ⌈2 * s.options.C1 * √(s.options.C2 ^ 2 + s.options.q) * L
              / (s.options.tau * s.options.upsilon)⌉ ≤ s.kIter →
            Rescaling.factor eps s.delta s.kIter s.options (.whole s.options.q)
                = .ok (min al Rescaling.maxRescale)
              ∧ ∀ x, ‖lead s.options.q (T x - b)‖ ≤ s.epsilon →
                  ‖x - psi‖ ≤ s.options.C1 * (s.delta + eps) →
                    sharpnessGap J T b s.epsilon s.options.C2 s.options.q (vec D out.1.psi) x
                      ≤ s.options.upsilon * (s.delta + eps)
                        + normFloor * (s.epsilon
                          + s.options.q * L / (s.options.tau * al))) := by
  have ho := settings.check_valid hsettings
  obtain ⟨P, hP, -⟩ := hprox.exists_map (div_pos ho.tau_pos (ho.bound_pos L hL))
  refine ⟨restart_returns ho hL hK hP hb hq houtput psi y eps, ?_⟩
  intro out h
  obtain ⟨hpsi, heps⟩ := restart_output ho hL hK hP hb hq houtput psi y eps hk h
  have hbound := fun x => restart_gap_le (x := x) ho hL hK hb hq houtput psi y eps hT hprox hJ hhom
    hb₀ hε hk hal h
  refine ⟨⟨by rw [hpsi]; rfl, heps⟩, hbound, fun hy hfactor hbudget => ⟨?_, ?_⟩⟩
  · rw [Rescaling.factor_eq, hfactor]
    rfl
  · intro x hx hdist
    subst hy
    exact (hbound x hx).trans
      (add_le_add_left (first_term_le_nextError ho hL hal hfactor hbudget hdist) _)

theorem restart_progress_unit :
    ∃ out, unitSchedule.restart ⟨ofVec [1] (single 0), ofVec [1 + 1] 0, 1⟩ (5 / 4) 0 = .ok out
      ∧ out.1.eps = 1 / 2
      ∧ sharpnessGap (fun _ => 0) twice (pair 1 0) (1 / 2) (3 / 4) 1 (vec [1] out.1.psi) (single 1)
          ≤ 1 / 2 + normFloor * (1 / 2 + 2 / (5 / 4)) := by
  have htrail : trail 1 (pair 1 0) = 0 := trail_pair_zero 1
  have hnorm : (1 : ℝ) * ‖twice‖ ≤ 2 := by
    rw [one_mul]
    exact norm_twice_le
  have hfeasible : ‖lead 1 (twice (single 1) - pair 1 0)‖ ≤ 1 / 2 := by
    have hlead : lead 1 (twice (single 1)) = lead 1 (pair 1 0) :=
      (lead_join _ _).trans (lead_join _ _).symm
    rw [map_sub, hlead, sub_self, norm_zero]
    norm_num
  have hdist : ‖single 1 - single 0‖ ≤ 1 * (0 + 1) := by
    rw [show single 1 - single 0 = single 1 from sub_zero _, norm_single, abs_one]
    norm_num
  obtain ⟨hreturns, hprogress⟩ := restart_progress (s := unitSchedule) (L := 2) unitOptions_check
    rfl acts_twice hnorm hasProx_zero (convexOn_const 0 convex_univ)
    (fun c _ _ => (mul_zero c).symm) rfl htrail (show 1 ≤ [1 + 1].prod by decide) (Or.inr rfl)
    (show (0 : ℝ) ≤ 1 / 2 by norm_num) (show (1 : ℤ) ≤ 10 by norm_num) (single 0) 0 1
    (show (0 : ℝ) < 5 / 4 by norm_num) 0
  obtain ⟨out, hout⟩ := hreturns unitSchedule_faultless
  obtain ⟨⟨-, heps⟩, -, hfinal⟩ := hprogress out hout
  have hgap := (hfinal rfl unitOptions_uncapped unitOptions_stepBudget.le).2 (single 1) hfeasible
    hdist
  refine ⟨out, hout, heps.trans ?_, hgap.trans_eq ?_⟩
  · show (1 / 2 : ℝ) * (0 + 1) = 1 / 2
    norm_num
  · show (1 / 2 : ℝ) * (0 + 1) + normFloor * (1 / 2 + ((1 : ℕ) : ℝ) * 2 / (1 * (5 / 4))) = _
    norm_num

end Schedule

end PrimalDual
