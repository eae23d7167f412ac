/-
  PrimalDual.Proofs.Run.Returns
  ─────────────────────────────
  **RUNS OF A LINEAR PROBLEM RETURN.**

  A run stops early only where something in it is refused: a shape, a
  division by zero, a map of the caller.  With a linear operator, a proximal
  map that keeps the shape of its argument, checked options and observers
  that never fail, nothing is (`Linear.restarts_return`): the target errors
  stay positive, and with them every divisor of the rescaling factors.
-/
import PrimalDual.Proofs.Exact.Entries
import PrimalDual.Proofs.Restart.Progress
import PrimalDual.Proofs.Run.Preparation

namespace PrimalDual

open Tensor

variable {𝕜 : Type} [RCLike 𝕜] {D S : List ℕ}

/-! ## §1. Restarts. -/

/-- A state from which a problem between tensors of two shapes can be taken up. -/
structure RestartState.Fits (D S : List ℕ) (state : RestartState ℝ Unit 𝕜) : Prop where
  psi : state.psi.shape = D
  y : state.y.shape = S
  eps_pos : 0 < state.eps

/-- A schedule of a linear problem in which no map fails. -/
structure Schedule.Linear (s : Schedule (Except (Failure ℝ)) ℝ Unit 𝕜)
    (T : Space 𝕜 D →L[𝕜] Space 𝕜 S) : Prop where
  valid : s.options.Valid
  bound : ∃ L, s.options.bound = some L
  acts : s.K.Acts T
  prox : ∀ t v, ∃ w, s.prox (ofVec D v) t = .ok (ofVec D w)
  b : s.b.shape = S
  type : ∃ type, OutputType.find s.outputType = .ok type
  kIter_pos : 1 ≤ s.kIter
  delta_nonneg : 0 ≤ s.delta
  error : ∀ f ∈ s.options.error, ∀ x, ∃ e, f x = .ok e
  callback : ∀ f ∈ s.callback, ∀ k x, f k x = .ok ()

namespace Schedule.Linear

variable {s : Schedule (Except (Failure ℝ)) ℝ Unit 𝕜} {T : Space 𝕜 D →L[𝕜] Space 𝕜 S}
variable (h : s.Linear T)
include h

/-- The next rescaling factor exists where the target error is positive. -/
theorem rescale_returns {eps : ℝ} (heps : 0 < eps) : ∃ al, Solver.rescale s eps = .ok al := by
  unfold Solver.rescale
  by_cases hplain : s.options.outputType = .plain
  · rw [if_pos hplain]
    exact ⟨_, rfl⟩
  · obtain ⟨L, hL⟩ := h.bound
    have hC := h.valid.C1_pos
    have hk : (0 : ℝ) < s.kIter := Int.cast_pos.2 (by have := h.kIter_pos; omega)
    have hN : (0 : ℝ) < Rescaling.stepBudget s.options s.options.q L :=
      Int.cast_pos.2 (Rescaling.stepBudget_pos h.valid hL)
    have hroot := Rescaling.root_pos (q := s.options.q) h.valid
    have herror : 0 < s.delta + eps := by linarith [h.delta_nonneg]
    rw [if_neg hplain, Rescaling.factor_eq, Rescaling.uncapped_eq h.valid hL,
      Control.quotient_real _ (by positivity)]
    exact ⟨_, rfl⟩

/-- A restart returns a state from which the next one can start. -/
theorem restart_returns {state : RestartState ℝ Unit 𝕜} (hstate : state.Fits D S) (al : ℝ)
    (offset : ℤ) : ∃ out, s.restart state al offset = .ok out ∧ out.1.Fits D S := by
  obtain ⟨L, hL⟩ := h.bound
  obtain ⟨type, htype⟩ := h.type
  choose P hP using h.prox (s.options.tau / L)
  have hpsi : ofVec D (vec D (Tensor.scale al state.psi)) = Tensor.scale al state.psi :=
    ofVec_vec ((shape_scale al state.psi).trans hstate.psi)
  have hb : ofVec S (vec S (Tensor.scale al s.b)) = Tensor.scale al s.b :=
    ofVec_vec ((shape_scale al s.b).trans h.b)
  have hfollowed := h.acts.followed_whole hP (vec S (Tensor.scale al s.b)) (s.options.tau / L)
    (al * s.epsilon) s.options.q
  rw [hb] at hfollowed
  have hobserver : (s.observer al type offset).Faultless := ⟨h.error, h.callback⟩
  obtain ⟨r, hr⟩ := hfollowed.run_returns hobserver (vec D (Tensor.scale al state.psi))
    (vec S state.y) s.kIter
  have hk : 0 ≤ s.kIter := by have := h.kIter_pos; omega
  -- What a run of the scheme returns is in its spaces, so its shapes are known.
  obtain ⟨hx, hy⟩ := hfollowed.run_output hk hr
  rw [hpsi, ofVec_vec hstate.y] at hr
  have hrestart : s.restart state al offset = .ok (⟨r.x.divBy al, r.y, s.nextError state.eps⟩,
      ⟨r.iterates.map (Tensor.scale s.scale), r.errors⟩) := by
    apply bind_returns (stepSize_eq h.valid hL)
    apply bind_returns htype
    apply bind_returns hr
    rfl
  refine ⟨_, hrestart, ?_, ?_, ?_⟩
  · show (r.x.divBy al).shape = D
    rw [shape_divBy, hx, shape_ofVec]
  · show r.y.shape = S
    rw [hy, shape_ofVec]
  · exact mul_pos h.valid.upsilon_pos (by linarith [h.delta_nonneg, hstate.eps_pos])

/-- **Any number of restarts return.** -/
theorem restarts_return {env : Environment (Except (Failure ℝ)) ℝ Unit 𝕜} (henv : env.Receptive)
    (n j : ℕ) {state : RestartState ℝ Unit 𝕜} (hstate : state.Fits D S) :
    ∃ out, Solver.restarts env s n j state = .ok out := by
  induction n generalizing j state with
  | zero => exact ⟨_, rfl⟩
  | succ n ih =>
    obtain ⟨al, hal⟩ := h.rescale_returns hstate.eps_pos
    obtain ⟨out, hout, hnext⟩ := h.restart_returns hstate al (j * s.kIter)
    obtain ⟨later, hlater⟩ := ih (j + 1) hnext
    rw [Solver.restarts_succ]
    apply Exists.intro
    apply bind_returns hal
    apply bind_returns (henv.tell _ _)
    apply bind_returns hout
    apply bind_returns hlater
    rfl

end Schedule.Linear

/-! ## §2. Runs. -/

/-- **A request whose problem is linear is solved.** -/
theorem Solver.solve_returns {env : Environment (Except (Failure ℝ)) ℝ Unit 𝕜}
    (henv : env.Receptive) {r : Request (Except (Failure ℝ)) ℝ Unit 𝕜}
    {ready : Prepared (Except (Failure ℝ)) ℝ Unit 𝕜} (hready : prepare env r = .ok ready)
    {T : Space 𝕜 D →L[𝕜] Space 𝕜 S} (h : ready.schedule.Linear T)
    (hstart : ready.start.Fits D S) : ∃ sol, solve env r = .ok sol := by
  obtain ⟨⟨final, trail⟩, hrestarts⟩ := h.restarts_return henv r.nIter.toNat 0 hstart
  obtain ⟨legs, records, hlegs, hrecords, -⟩ := restarts_ok hrestarts
  exact ⟨_, solve_of_course henv hready hlegs hrecords⟩

/-- **The problem in the units of its measurements.**  What was not zero has the length 1. -/
theorem Solver.normalise_ofVec {b : Space 𝕜 S} (hb : b ≠ 0)
    {r : Request (Except (Failure ℝ)) ℝ Unit 𝕜} {K : Operator (Except (Failure ℝ)) ℝ Unit 𝕜}
    {x0 y0 : Tensor Unit 𝕜} {o : Options (Except (Failure ℝ)) ℝ Unit 𝕜} :
    normalise r K (ofVec S b) x0 y0 o
      = .ok (inUnits r K (ofVec S b) x0 y0 o ‖b‖ (r.epsilon / ‖b‖) (r.delta / ‖b‖) 1) := by
  have hne : ‖b‖ ≠ 0 := norm_ne_zero_iff.2 hb
  have hzero : Control.eq ‖b‖ (Control.zero : ℝ) = false := by
    simp [hb]
  have hlength : ((ofVec S b).divBy ‖b‖).normValue = (.ok 1 : Except (Failure ℝ) ℝ) := by
    rw [divBy_ofVec, normValue_ofVec, norm_smul, norm_inv, RCLike.norm_ofReal, abs_norm,
      inv_mul_cancel₀ hne]
  rw [normalise_eq_ok]
  exact ⟨‖b‖, r.epsilon / ‖b‖, r.delta / ‖b‖, 1, normValue_ofVec b, hzero,
    Control.quotient_real _ hne, Control.quotient_real _ hne, hlength, rfl⟩

/-! ## §3. A request of one entry. -/

/-- An environment that draws zeros and shows nothing. -/
noncomputable def quietEnvironment : Environment (Except (Failure ℝ)) ℝ Unit ℝ where
  draw shape kind := .ok (Tensor.zeros kind shape)
  report _ := .ok ()

theorem quietEnvironment_receptive : quietEnvironment.Receptive := fun _ => rfl

/-- A request for the smallest `|x|` with `|x - 2| ≤ 1`, observed in every way. -/
noncomputable def unitRequest : Request (Except (Failure ℝ)) ℝ Unit ℝ where
  A := .operator .identity
  b := ofVec [1] (single 2)
  epsilon := 1
  delta := 0
  prox := Regulariser.prox .zero
  x0 := some (ofVec [1] (single 3))
  y0 := some (ofVec [1 + 1] (pair 4 8))
  nIter := 2
  kIter := 3
  options := { Schedule.unitOptions with
    store := true
    error := some fun x => x.normValue }
  callback := some fun _ _ => .ok ()

/-- The prepared problem of the request, in the units of its one measurement. -/
noncomputable def unitPrepared : Prepared (Except (Failure ℝ)) ℝ Unit ℝ where
  schedule := {
    b := ofVec [1 + 1] (pair 1 0)
    K := .stacked (.flattened .identity [1]) (.flattened .identity [1]) (.whole 1)
    epsilon := 1 / 2
    delta := 0
    prox := Regulariser.prox .zero
    kIter := 3
    options := unitRequest.options
    outputType := .whole 4
    scale := 2
    callback := some fun _ _ => .ok () }
  start := ⟨ofVec [1] (single (3 / 2)), ofVec [1 + 1] (pair 2 4), 3 / 4⟩

/-- A pair is divided entry by entry. -/
theorem divBy_pair (a c r : ℝ) :
    (ofVec [1 + 1] (pair a c)).divBy r = ofVec [1 + 1] (pair (a / r) (c / r)) := by
  rw [divBy_ofVec]
  refine congrArg _ (ext_positions ?_ ?_)
  · intro i
    rw [PiLp.smul_apply, pair_inl, pair_inl, div_eq_inv_mul]
    rfl
  · intro i
    rw [PiLp.smul_apply, pair_inr, pair_inr, div_eq_inv_mul]
    rfl

/-- The identity is stacked on the identity, and a zero is appended to the measurements. -/
theorem stackAnalysis_unit : Solver.stackAnalysis (.flattened .identity [1])
    (ofVec [1] (single 2)).flatten (ofVec [1] (single 3)) 1 (some (.operator .identity))
      = (.ok (.stacked (.flattened .identity [1]) (.flattened .identity [1]) (.whole 1),
          ofVec [1 + 1] (pair 2 0)) : Except (Failure ℝ) _) := by
  have hzeros : (Tensor.zeros () [1] : Tensor Unit ℝ) = ofVec [1] (single 0) := by
    apply tabulate_congr
    intro i hi
    rw [dif_pos hi, Entry.zero_exact]
    rfl
  refine Solver.stackAnalysis_eq_ok.2 ⟨.identity, ofVec [1] (single 3), rfl, rfl, rfl, ?_⟩
  show (ofVec [1] (single 2)).flatten.append (Tensor.zeros () [1]) = _
  rw [flatten_vector, hzeros]
  exact append_ofVec _ _

/-- The small request is made ready by dividing it by its norm, which is 2. -/
theorem prepare_unit : Solver.prepare quietEnvironment unitRequest = .ok unitPrepared := by
  have hb : ‖pair 2 0‖ = 2 := by
    show ‖join (single 2) 0‖ = 2
    rw [norm_join_zero, norm_single, abs_two]
  have hne : pair 2 0 ≠ 0 := by
    rw [← norm_ne_zero_iff, hb]
    exact two_ne_zero
  have hcheck : Solver.checkRequest unitRequest = .ok () :=
    Solver.checkRequest_ok (by decide) (by decide) zero_le_one le_rfl
  refine Solver.prepare_eq_ok.2 ⟨_, ofVec [1] (single 3), _, unitRequest.options, hcheck, rfl, rfl,
    stackAnalysis_unit, rfl, ?_⟩
  rw [Solver.normalise_ofVec hne, hb]
  -- What is left are the four quotients by 2.
  have hmeasured : (ofVec [1 + 1] (pair 2 0)).divBy (2 : ℝ) = ofVec [1 + 1] (pair 1 0) := by
    rw [divBy_pair, div_self two_ne_zero, zero_div]
  have hx : (ofVec [1] (single 3)).divBy (2 : ℝ) = ofVec [1] (single (3 / 2)) := by
    rw [divBy_ofVec]
    refine congrArg _ ?_
    ext i
    show (2 : ℝ)⁻¹ * 3 = 3 / 2
    norm_num
  have hy : (ofVec [1 + 1] (pair 4 8)).flatten.divBy (2 : ℝ) = ofVec [1 + 1] (pair 2 4) := by
    rw [flatten_vector, divBy_pair]
    norm_num
  unfold Solver.inUnits
  show Except.ok (Prepared.mk { unitPrepared.schedule with
      b := (ofVec [1 + 1] (pair 2 0)).divBy (2 : ℝ), epsilon := 1 / 2, delta := 0 / 2 }
    ⟨(ofVec [1] (single 3)).divBy (2 : ℝ), (ofVec [1 + 1] (pair 4 8)).flatten.divBy (2 : ℝ),
      (3 / 4 : ℝ) * 1⟩) = _
  rw [hmeasured, hx, hy, mul_one, zero_div]
  rfl

theorem unitPrepared_linear : unitPrepared.schedule.Linear twice where
  valid := by
    have h := Schedule.unitOptions_valid
    exact ⟨h.C1_pos, h.C2_pos, h.upsilon_pos, h.upsilon_lt_one, h.tau_pos, h.bound_pos⟩
  bound := ⟨2, rfl⟩
  acts := Operator.acts_stacked (Operator.acts_flattened Operator.acts_identity)
    (Operator.acts_flattened Operator.acts_identity)
  prox t v := ⟨v, rfl⟩
  b := rfl
  type := ⟨.averaged, rfl⟩
  kIter_pos := by decide
  delta_nonneg := le_rfl
  error f hf x := by
    cases hf
    exact ⟨_, normValue_eq x⟩
  callback f hf k x := by
    cases hf
    rfl

theorem unitPrepared_fits : unitPrepared.start.Fits [1] [1 + 1] where
  psi := rfl
  y := rfl
  eps_pos := by
    show (0 : ℝ) < 3 / 4
    norm_num

/-- **The small request is solved.** -/
theorem solve_unit : ∃ sol, Solver.solve quietEnvironment unitRequest = .ok sol :=
  Solver.solve_returns quietEnvironment_receptive prepare_unit unitPrepared_linear
    unitPrepared_fits

end PrimalDual
