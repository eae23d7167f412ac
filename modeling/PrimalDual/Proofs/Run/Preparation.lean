/-
  PrimalDual.Proofs.Run.Preparation
  ─────────────────────────────────
  **WHAT A PREPARED PROBLEM CONSISTS OF.**

  A request that is made ready passes through five stages: the operator of
  the measurements, the primal start, the stacked operator, the options with
  a bound, and the division by `‖b‖`.  Each of them is inverted here, so that
  what holds of a prepared problem can be read off the request:

      prepare_eq_ok      the stages
      normalise_eq_ok    the problem in the units in which `‖b‖ = 1`
-/
import PrimalDual.Proofs.Run.Course

namespace PrimalDual

variable {R κ α : Type} [Control R]

/-- Options are given a bound if they pass the checks with it; nothing else changes. -/
theorem Options.change_bound_eq_ok {m : Type → Type} {o o' : Options m R κ α} {bound : R} :
    o.change (fun s => { s with bound := some bound }) = .ok o' ↔
      (Control.le o.C1 Control.zero || Control.le o.C2 Control.zero) = false
      ∧ (!(Control.lt Control.zero o.upsilon && Control.lt o.upsilon Control.one)) = false
      ∧ Control.le o.tau Control.zero = false ∧ Control.le bound Control.zero = false
      ∧ (o.analysis.isSome && o.q == 0) = false ∧ (o.analysis.isNone && o.q != 0) = false
      ∧ o' = { o with bound := some bound } := by
  -- A count that is in force is an integer, so it is read as it is.
  unfold change settings
  rw [Settings.check_of_whole rfl]
  unfold Settings.accept
  simp only [bind, Except.bind, pure, Except.pure, throw, throwThe, MonadExceptOf.throw,
    OutputType.ofNumber?_number, Quantity.toNat?_natCast]
  constructor
  · intro h
    obtain ⟨hsharpness, h⟩ := guard_ok h
    obtain ⟨hrate, h⟩ := guard_ok h
    obtain ⟨htau, h⟩ := guard_ok h
    obtain ⟨hbound, h⟩ := guard_ok h
    obtain ⟨hsome, h⟩ := guard_ok h
    obtain ⟨hnone, h⟩ := guard_ok h
    exact ⟨hsharpness, hrate, htau, hbound, hsome, hnone, (Except.ok.inj h).symm⟩
  · rintro ⟨hsharpness, hrate, htau, hbound, hsome, hnone, rfl⟩
    simp only [hsharpness, hrate, htau, hbound, hsome, hnone, Bool.false_eq_true, if_false]

variable [Kinds κ] [Entry α R κ]

namespace Solver

/-- Positive counts and tolerances that are not negative pass the checks. -/
theorem checkRequest_ok {m : Type → Type} {κ α : Type} {r : Request m ℝ κ α} (hn : 1 ≤ r.nIter)
    (hk : 1 ≤ r.kIter) (hepsilon : 0 ≤ r.epsilon) (hdelta : 0 ≤ r.delta) :
    checkRequest r = .ok () := by
  have hcounts : (decide (r.nIter < 1) || decide (r.kIter < 1)) = false := by
    simp [hn, hk]
  have hsigns : (Control.lt r.epsilon Control.zero || Control.lt r.delta Control.zero) = false := by
    simp [hepsilon, hdelta]
  unfold checkRequest
  rw [hcounts, hsigns]
  rfl

variable {env : Environment (Except (Failure R)) R κ α}
variable {r : Request (Except (Failure R)) R κ α}

/-- Where there was no bound, the options are changed to have one. -/
theorem ensureBound_none_ok {K : Operator (Except (Failure R)) R κ α} {x : Tensor κ α}
    {o o' : Options (Except (Failure R)) R κ α} (hbound : o.bound = none)
    (h : ensureBound env K x o = .ok o') :
    ∃ L, o.change (fun s => { s with bound := some L }) = .ok o' := by
  rw [ensureBound_none env K x hbound] at h
  obtain ⟨-, -, h⟩ := bind_eq_ok.1 h
  obtain ⟨L, -, h⟩ := bind_eq_ok.1 h
  obtain ⟨o', ho', h⟩ := bind_eq_ok.1 h
  obtain ⟨-, -, h⟩ := bind_eq_ok.1 h
  cases h
  exact ⟨L, ho'⟩

theorem ensureBound_ok {K : Operator (Except (Failure R)) R κ α} {x : Tensor κ α}
    {o o' : Options (Except (Failure R)) R κ α} (h : ensureBound env K x o = .ok o') :
    ∃ bound, o' = { o with bound := some bound } := by
  cases hbound : o.bound with
  | some bound =>
    rw [ensureBound_some env K x hbound] at h
    cases h
    refine ⟨bound, ?_⟩
    rw [← hbound]
  | none =>
    obtain ⟨bound, ho'⟩ := ensureBound_none_ok hbound h
    obtain ⟨-, -, -, -, -, -, ho'⟩ := Options.change_bound_eq_ok.1 ho'
    exact ⟨bound, ho'⟩

/-- The problem in the units of the norm of its measurements. -/
def inUnits (r : Request (Except (Failure R)) R κ α) (K : Operator (Except (Failure R)) R κ α)
    (b x0 y0 : Tensor κ α) (o : Options (Except (Failure R)) R κ α)
    (scale epsilon delta length : R) : Prepared (Except (Failure R)) R κ α where
  schedule := {
    b := b.divBy scale
    K := K
    epsilon := epsilon
    delta := delta
    prox := r.prox
    kIter := r.kIter
    options := o
    outputType :=
      .whole (if o.outputType = .plain then OutputType.averaged else o.outputType).number
    scale := scale
    callback := r.callback }
  start := ⟨x0.divBy scale, y0.divBy scale, o.C2 * length⟩

theorem normalise_eq_ok {K : Operator (Except (Failure R)) R κ α} {b x0 y0 : Tensor κ α}
    {o : Options (Except (Failure R)) R κ α} {ready : Prepared (Except (Failure R)) R κ α} :
    normalise r K b x0 y0 o = .ok ready ↔ ∃ scale epsilon delta length, b.normValue = .ok scale
      ∧ Control.eq scale Control.zero = false
      ∧ Control.quotient r.epsilon scale = .ok epsilon
      ∧ Control.quotient r.delta scale = .ok delta
      ∧ (b.divBy scale).normValue = .ok length
      ∧ inUnits r K b x0 y0 o scale epsilon delta length = ready := by
  constructor
  · intro h
    obtain ⟨scale, hscale, h⟩ := bind_eq_ok.1 h
    obtain ⟨hzero, h⟩ := guard_ok h
    obtain ⟨epsilon, hepsilon, h⟩ := bind_eq_ok.1 h
    obtain ⟨delta, hdelta, h⟩ := bind_eq_ok.1 h
    obtain ⟨length, hlength, h⟩ := bind_eq_ok.1 h
    exact ⟨scale, epsilon, delta, length, hscale, hzero, hepsilon, hdelta, hlength,
      Except.ok.inj h⟩
  · rintro ⟨scale, epsilon, delta, length, hscale, hzero, hepsilon, hdelta, hlength, rfl⟩
    apply bind_returns hscale
    rw [hzero]
    apply bind_returns hepsilon
    apply bind_returns hdelta
    apply bind_returns hlength
    rfl

/-- **The stages of a preparation that returned.** -/
theorem prepare_eq_ok {ready : Prepared (Except (Failure R)) R κ α} :
    prepare env r = .ok ready ↔ ∃ K x0 stacked o, checkRequest r = .ok ()
      ∧ measurement r = .ok K ∧ primalStart K r.b.flatten r.x0 = .ok x0
      ∧ stackAnalysis K r.b.flatten x0 r.options.q r.options.analysis = .ok stacked
      ∧ ensureBound env stacked.1 x0 r.options = .ok o
      ∧ normalise r stacked.1 stacked.2 x0 (r.y0.getD stacked.2.zerosLike).flatten o
        = .ok ready := by
  constructor
  · intro h
    obtain ⟨_, hcheck, h⟩ := bind_eq_ok.1 h
    obtain ⟨K, hK, h⟩ := bind_eq_ok.1 h
    obtain ⟨x0, hx0, h⟩ := bind_eq_ok.1 h
    obtain ⟨stacked, hstacked, h⟩ := bind_eq_ok.1 h
    obtain ⟨o, ho, h⟩ := bind_eq_ok.1 h
    exact ⟨K, x0, stacked, o, hcheck, hK, hx0, hstacked, ho, h⟩
  · rintro ⟨K, x0, stacked, o, hcheck, hK, hx0, hstacked, ho, h⟩
    apply bind_returns hcheck
    apply bind_returns hK
    apply bind_returns hx0
    apply bind_returns hstacked
    apply bind_returns ho
    exact h

/-- What a prepared problem takes over from its request. -/
theorem prepare_schedule {ready : Prepared (Except (Failure R)) R κ α}
    (h : prepare env r = .ok ready) :
    ready.schedule.kIter = r.kIter ∧ ready.schedule.prox = r.prox
      ∧ ready.schedule.callback = r.callback
      ∧ (∃ bound, ready.schedule.options = { r.options with bound := some bound })
      ∧ ready.schedule.outputType = .whole (if r.options.outputType = .plain
          then OutputType.averaged else r.options.outputType).number := by
  obtain ⟨K, x0, stacked, o, -, -, -, -, ho, hready⟩ := prepare_eq_ok.1 h
  obtain ⟨bound, rfl⟩ := ensureBound_ok ho
  obtain ⟨scale, epsilon, delta, length, -, -, -, -, -, rfl⟩ := normalise_eq_ok.1 hready
  exact ⟨rfl, rfl, rfl, ⟨bound, rfl⟩, rfl⟩

/-- The stages of stacking an analysis operator. -/
theorem stackAnalysis_eq_ok {K : Operator (Except (Failure R)) R κ α} {b x0 : Tensor κ α} {q : ℕ}
    {analysis : Representation (Except (Failure R)) R κ α}
    {stacked : Operator (Except (Failure R)) R κ α × Tensor κ α} :
    stackAnalysis K b x0 q (some analysis) = .ok stacked ↔ ∃ B image,
      analysis.toOperator = .ok B ∧ B.forward x0 = .ok image
      ∧ K.stack B (.whole q) none (some (image.shape.map Int.ofNat)) = .ok stacked.1
      ∧ b.append (Tensor.zeros b.kind [q]) = .ok stacked.2 := by
  constructor
  · intro h
    obtain ⟨B, hB, h⟩ := bind_eq_ok.1 h
    obtain ⟨image, himage, h⟩ := bind_eq_ok.1 h
    obtain ⟨K', hK', h⟩ := bind_eq_ok.1 h
    obtain ⟨b', hb', h⟩ := bind_eq_ok.1 h
    cases h
    exact ⟨B, image, hB, himage, hK', hb'⟩
  · rintro ⟨B, image, hB, himage, hK, hb⟩
    apply bind_returns hB
    apply bind_returns himage
    apply bind_returns hK
    apply bind_returns hb
    rfl

end Solver

end PrimalDual
