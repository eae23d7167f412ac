/-
  PrimalDual.Proofs.Run.Targets
  ─────────────────────────────
  **THE HISTORIES OF A RUN.**

  A run keeps its target errors in the units in which `‖b‖ = 1` and reports
  them in the caller's.  Along a course they follow the recursion that begins
  in `C₂` (`course_histories`), and the factors are functions of them.  So
  both histories of a run are known before it begins, whatever its operators
  and its proximal map do:

      prepare_units             the scale and what is divided by it
      Solver.tolerance_schedule both histories, for any number of restarts
-/
import PrimalDual.Proofs.Restart.Targets
import PrimalDual.Proofs.Run.Returns

namespace PrimalDual

open Tensor

/-! ## §1. Histories of a course. -/

/-- **The histories of a course.**  `e` is the sequence of target errors that begins in the
state, and `a` a sequence of factors that belong to them. -/
theorem Schedule.course_histories {R κ α : Type} [Control R] [Kinds κ] [Entry α R κ]
    {s : Schedule (Except (Failure R)) R κ α} {n : ℕ} {state : RestartState R κ α}
    {legs : List (Leg R κ α)} (h : s.course n state = .ok legs) {e a : ℕ → R}
    (hstart : e 0 = state.eps) (hnext : ∀ j, e (j + 1) = s.nextError (e j)) :
    legs.map (fun leg => leg.start.eps) = (List.range n).map e
      ∧ ((∀ j, Solver.rescale s (e j) = .ok (a j)) → legs.map Leg.al = (List.range n).map a) := by
  -- The sequences of the later restarts begin one place further on.
  induction n generalizing state legs e a with
  | zero =>
    cases h
    exact ⟨rfl, fun _ => rfl⟩
  | succ n ih =>
    obtain ⟨al, leg, later, hal, hleg, hlater, rfl⟩ := course_succ_ok h
    obtain ⟨step, -, -, -, hfirst, hfactor, hhanded⟩ := leg_ok hleg
    have hlaterStart : e 1 = leg.next.eps := by
      rw [hnext 0, hstart, hhanded]
      rfl
    obtain ⟨herrors, hfactors⟩ := ih (e := fun j => e (j + 1)) (a := fun j => a (j + 1)) hlater
      hlaterStart fun j => hnext (j + 1)
    rw [List.range_succ_eq_map, List.map_cons, List.map_cons, List.map_cons, List.map_cons,
      List.map_map, List.map_map, herrors, hfirst, hstart]
    refine ⟨rfl, ?_⟩
    intro ha
    rw [hfactors fun j => ha (j + 1), hfactor]
    refine congrArg (· :: _) ?_
    rw [← hstart, ha 0] at hal
    exact (Except.ok.inj hal).symm

/-! ## §2. Preparation. -/

variable {𝕜 : Type} [RCLike 𝕜]

namespace Solver

variable {env : Environment (Except (Failure ℝ)) ℝ Unit 𝕜}
variable {r : Request (Except (Failure ℝ)) ℝ Unit 𝕜}
variable {ready : Prepared (Except (Failure ℝ)) ℝ Unit 𝕜}

/-- Zeros as the target of an analysis operator do not change the norm of the measurements. -/
theorem normValue_stackAnalysis {K : Operator (Except (Failure ℝ)) ℝ Unit 𝕜}
    {b x0 : Tensor Unit 𝕜} {n q : ℕ} (hb : b.shape = [n])
    {analysis : Option (Representation (Except (Failure ℝ)) ℝ Unit 𝕜)}
    {stacked : Operator (Except (Failure ℝ)) ℝ Unit 𝕜 × Tensor Unit 𝕜}
    (h : stackAnalysis K b x0 q analysis = .ok stacked) :
    (stacked.2.normValue : Except (Failure ℝ) ℝ) = b.normValue := by
  cases analysis with
  | none =>
    cases h
    rfl
  | some B =>
    obtain ⟨op, image, -, -, -, happend⟩ := stackAnalysis_eq_ok.1 h
    exact (append_zeros_ok hb happend).2

/-- Valid options that are given a bound are valid, and keep the bound that they had. -/
theorem ensureBound_valid {K : Operator (Except (Failure ℝ)) ℝ Unit 𝕜} {x : Tensor Unit 𝕜}
    {o o' : Options (Except (Failure ℝ)) ℝ Unit 𝕜} (ho : o.Valid)
    (h : ensureBound env K x o = .ok o') : o'.Valid
      ∧ ∃ L, o' = { o with bound := some L } ∧ ∀ L' ∈ o.bound, L' = L := by
  cases hbound : o.bound with
  | some L =>
    rw [ensureBound_some env K x hbound] at h
    cases h
    refine ⟨ho, L, ?_, fun L' hL' => (Option.some.inj hL').symm⟩
    rw [← hbound]
  | none =>
    -- Of the estimate only what the change of the options checks is known.
    obtain ⟨L, ho'⟩ := ensureBound_none_ok hbound h
    obtain ⟨-, -, -, hpositive, -, -, rfl⟩ := Options.change_bound_eq_ok.1 ho'
    refine ⟨⟨ho.C1_pos, ho.C2_pos, ho.upsilon_pos, ho.upsilon_lt_one, ho.tau_pos, ?_⟩, L, rfl,
      fun _ h => absurd h (Option.not_mem_none _)⟩
    intro L' hL'
    rw [← Option.some.inj hL']
    simpa using hpositive

/-- **What a prepared problem is divided by.** -/
theorem prepare_units (h : prepare env r = .ok ready) :
    ready.schedule.scale = ‖vec r.b.shape r.b‖ ∧ 0 < ready.schedule.scale
      ∧ 0 ≤ r.epsilon ∧ 0 ≤ r.delta
      ∧ ready.schedule.epsilon = r.epsilon / ready.schedule.scale
      ∧ ready.schedule.delta = r.delta / ready.schedule.scale
      ∧ ready.start.eps = r.options.C2 := by
  obtain ⟨K, x0, stacked, o, hcheck, -, -, hstacked, ho, hready⟩ := prepare_eq_ok.1 h
  obtain ⟨L, rfl⟩ := ensureBound_ok ho
  obtain ⟨scale, epsilon, delta, length, hscale, hzero, hepsilon, hdelta, hlength, rfl⟩ :=
    normalise_eq_ok.1 hready
  -- The zeros under the measurements do not count in the norm.
  have hnorm : scale = ‖vec r.b.shape r.b‖ := by
    rw [normValue_stackAnalysis (shape_flatten r.b) hstacked, normValue_flatten,
      ← ofVec_vec (x := r.b) rfl, normValue_ofVec] at hscale
    exact (Except.ok.inj hscale).symm
  have hpos : 0 < scale := by
    rw [Control.eq_real, Control.zero_real, decide_eq_false_iff_not] at hzero
    exact lt_of_le_of_ne (hnorm ▸ norm_nonneg _) (Ne.symm hzero)
  -- Divided by their norm, the measurements have length 1, so `C2` stays as it is.
  have hunit : length = 1 := by
    rw [divBy_eq_scale, normValue_scale (inv_nonneg.2 hpos.le), hscale] at hlength
    exact (Except.ok.inj hlength).symm.trans (inv_mul_cancel₀ hpos.ne')
  have hsigns : 0 ≤ r.epsilon ∧ 0 ≤ r.delta := by
    obtain ⟨-, hcheck⟩ := guard_ok hcheck
    obtain ⟨hsigns, -⟩ := guard_ok hcheck
    simpa using hsigns
  refine ⟨hnorm, hpos, hsigns.1, hsigns.2, (Control.quotient_ok hepsilon).2,
    (Control.quotient_ok hdelta).2, ?_⟩
  show r.options.C2 * length = r.options.C2
  rw [hunit, mul_one]

/-- A prepared problem does not depend on how many restarts are asked for. -/
theorem prepare_nIter {n : ℤ} (h : prepare env r = .ok ready)
    {ready' : Prepared (Except (Failure ℝ)) ℝ Unit 𝕜}
    (h' : prepare env { r with nIter := n } = .ok ready') : ready' = ready := by
  obtain ⟨K, x0, stacked, o, -, hK, hx0, hstacked, ho, hready⟩ := prepare_eq_ok.1 h
  obtain ⟨K', x0', stacked', o', -, hK', hx0', hstacked', ho', hready'⟩ := prepare_eq_ok.1 h'
  cases hK.symm.trans hK'
  cases hx0.symm.trans hx0'
  cases hstacked.symm.trans hstacked'
  cases ho.symm.trans ho'
  exact Except.ok.inj (hready'.symm.trans hready)

/-! ## §3. Runs. -/

/-- **The tolerance schedule.**  For a request that can be made ready there are sequences of
target errors and of factors that go by the schedule of its norm `‖b‖`, noise level and bound,
and however many restarts are asked for, the histories of the run are their first terms. -/
theorem tolerance_schedule {settings : Settings (Except (Failure ℝ)) ℝ Unit 𝕜}
    (hsettings : settings.check = .ok r.options) (hready : prepare env r = .ok ready) :
    ∃ L e al, ready.schedule.options.bound = some L ∧ (∀ L' ∈ r.options.bound, L' = L) ∧ 0 < L
      ∧ Rescaling.Scheduled { r.options with bound := some L } L ‖vec r.b.shape r.b‖ r.delta
          r.kIter e al
      ∧ ∀ n sol, solve env { r with nIter := n } = .ok sol →
          sol.epsHistory = (List.range n.toNat).map e
          ∧ (r.options.outputType ≠ .plain → sol.alHistory = (List.range n.toNat).map al) := by
  have ho := settings.check_valid hsettings
  obtain ⟨K, x0, stacked, o, -, -, -, -, hbound, hnormalised⟩ := prepare_eq_ok.1 hready
  obtain ⟨ho', L, rfl, hkept⟩ := ensureBound_valid ho hbound
  have hoptions : ready.schedule.options = { r.options with bound := some L } := by
    obtain ⟨_, _, _, _, -, -, -, -, -, rfl⟩ := normalise_eq_ok.1 hnormalised
    rfl
  have hL : ({ r.options with bound := some L }
      : Options (Except (Failure ℝ)) ℝ Unit 𝕜).bound = some L := rfl
  obtain ⟨hscale, hpos, -, hdelta, -, hnoise, hstart⟩ := prepare_units hready
  obtain ⟨hkIter, -⟩ := prepare_schedule hready
  obtain ⟨-, hk⟩ := prepare_counts hready
  have hlength : 0 < ‖vec r.b.shape r.b‖ := hscale ▸ hpos
  have hscheduled := Rescaling.scheduled ho' hL hlength hdelta hk
  refine ⟨L, _, _, congrArg Options.bound hoptions, hkept, ho'.bound_pos L rfl, hscheduled, ?_⟩
  intro n sol hsol
  obtain ⟨ready', legs, records, hready', hlegs, -, rfl⟩ := solve_ok hsol
  cases prepare_nIter hready hready'
  -- The target errors of the course, which are kept in the units of the scale.
  set e : ℕ → ℝ := fun j => Target.errorAt r.options ‖vec r.b.shape r.b‖ r.delta j
    / ‖vec r.b.shape r.b‖ with he
  have hfirst : e 0 = ready.start.eps :=
    (Target.errorAt_zero_div _ _ hlength.ne').trans hstart.symm
  have hnext : ∀ j, e (j + 1) = ready.schedule.nextError (e j) := by
    intro j
    unfold Schedule.nextError
    rw [hoptions, hnoise, hscale]
    exact Target.errorAt_succ_div _ _ _ j
  obtain ⟨herrors, hfactors⟩ := Schedule.course_histories hlegs hfirst hnext
  constructor
  · show (legs.map fun leg => leg.start.eps * ready.schedule.scale) = _
    have hsplit : (legs.map fun leg => leg.start.eps * ready.schedule.scale)
        = (legs.map fun leg => leg.start.eps).map (· * ready.schedule.scale) := by
      rw [List.map_map]
      rfl
    rw [hsplit, herrors, List.map_map]
    apply List.map_congr_left
    intro j _
    show e j * ready.schedule.scale = _
    rw [hscale]
    exact div_mul_cancel₀ _ hlength.ne'
  · intro htype
    apply hfactors
    intro j
    unfold rescale
    rw [if_neg (by rw [hoptions]; exact htype), hnoise, hscale, hkIter, hoptions]
    exact hscheduled.factor_returns j

theorem unitRequest_check :
    unitRequest.options.settings.check = .ok unitRequest.options :=
  unitPrepared_linear.valid.check ⟨fun h => (nomatch h), fun h => (nomatch h)⟩

/-- The histories of a small request. -/
theorem tolerance_schedule_unit :
    unitRequest.options.settings.check = .ok unitRequest.options
      ∧ prepare quietEnvironment unitRequest = .ok unitPrepared
      ∧ ∃ sol, solve quietEnvironment unitRequest = .ok sol
        ∧ sol.epsHistory = [3 / 2, 3 / 4] ∧ sol.alHistory = [50 / 9, 100 / 9] := by
  obtain ⟨sol, hsol⟩ := solve_unit
  obtain ⟨L, e, al, -, hkept, -, h, hruns⟩ := tolerance_schedule unitRequest_check prepare_unit
  obtain rfl : 2 = L := hkept 2 rfl
  obtain ⟨hepsilons, hals⟩ := hruns 2 sol hsol
  have hlength : ‖vec unitRequest.b.shape unitRequest.b‖ = 2 := by
    show ‖vec [1] (ofVec [1] (single 2))‖ = 2
    rw [vec_ofVec, norm_single, abs_two]
  -- The closed forms of errors and factors, at the numbers of the request.
  have herror : ∀ j, e j = (1 / 2 : ℝ) ^ j * (3 / 2) := by
    intro j
    have hvalue := h.error_eq j
    rw [hlength, show unitRequest.delta = 0 from rfl, zero_mul, add_zero] at hvalue
    refine hvalue.trans ?_
    show (1 / 2 : ℝ) ^ j * (3 / 4 * 2) = _
    norm_num
  have hfactor : ∀ j, al j = min (10 ^ 12) (25 / (e j * 3)) := by
    intro j
    have hvalue := h.factor_eq j
    rw [hlength] at hvalue
    refine hvalue.trans ?_
    show min _ (Rescaling.root Schedule.unitOptions 1
      * Rescaling.stepBudget Schedule.unitOptions 1 2 * 2 / (1 * (0 + e j) * ((3 : ℤ) : ℝ))) = _
    rw [Schedule.unitOptions_root, Schedule.unitOptions_stepBudget]
    norm_num
  refine ⟨unitRequest_check, prepare_unit, sol, hsol, hepsilons.trans ?_,
    (hals (by decide)).trans ?_⟩
  · show [e 0, e 1] = _
    rw [herror, herror]
    norm_num
  · show [al 0, al 1] = _
    rw [hfactor, hfactor, herror, herror]
    norm_num

end Solver

end PrimalDual
