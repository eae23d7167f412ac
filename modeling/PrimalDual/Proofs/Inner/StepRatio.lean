/-
  PrimalDual.Proofs.Inner.StepRatio
  ─────────────────────────────────
  **WHAT THE RESCALING FACTOR DOES TO A RUN.**

  A restart hands on its data multiplied by a factor `al`, and its primal
  iterate with it; its dual iterate it hands on as it is.  If the operator and
  the proximal map are homogeneous, the steps

      x' = prox (x - τ₁ Kᴴ y) τ₁
      y' = dual (y + τ₂ K (2 x' - x) - τ₂ al b) (τ₂ al ε)

  with `x = al u` are those of the problem in its own units with steps
  `τ₁ / al` and `τ₂ al`: there `u' = prox (u - (τ₁ / al) Kᴴ y) (τ₁ / al)`, and
  `y'` reads `τ₂ K x = (τ₂ al) K u`, `τ₂ al b` and `τ₂ al ε`.  So the factor
  moves the ratio of the steps and leaves their product alone.

      advance_scaled      one step
      observe_scaled      what is recorded and shown after it
      steps_scaled        any number of steps
      run_rebalanced      a run, in any monad
-/
import PrimalDual.Proofs.Exact.Entries
import PrimalDual.Proofs.Run.Watch
import PrimalDual.Regulariser

namespace PrimalDual

open Tensor

variable {m : Type → Type} {𝕜 : Type} [RCLike 𝕜]

/-! ## §1. The two problems. -/

/-- The operator commutes with positive multiples, and the proximal map does if its step
is multiplied with its argument. -/
structure Problem.Homogeneous [Monad m] [MonadLiftT (Except (Failure ℝ)) m]
    (p : Problem m ℝ Unit 𝕜) : Prop where
  forward : ∀ c : ℝ, 0 < c → ∀ x, p.K.forward (scale c x) = scale c <$> p.K.forward x
  prox : ∀ c t : ℝ, 0 < c → 0 < t → ∀ v, p.prox (scale c v) (c * t) = scale c <$> p.prox v t

/-- The problem with its data multiplied by `al`. -/
noncomputable def Problem.rescaled (al : ℝ) (p : Problem m ℝ Unit 𝕜) : Problem m ℝ Unit 𝕜 :=
  { p with b := scale al p.b, epsilon := al * p.epsilon }

/-- The problem with its primal step divided and its dual step multiplied by `al`. -/
noncomputable def Problem.rebalanced (al : ℝ) (p : Problem m ℝ Unit 𝕜) : Problem m ℝ Unit 𝕜 :=
  { p with primalStep := p.primalStep / al, dualStep := p.dualStep * al }

/-- The observer of a run with another rescaling factor. -/
def Observer.withFactor (al : ℝ) (o : Observer m ℝ Unit 𝕜) : Observer m ℝ Unit 𝕜 :=
  { o with al := al }

/-- The state with its primal half multiplied by `al`. -/
noncomputable def Iterate.scaled (al : ℝ) (s : Iterate Unit 𝕜) : Iterate Unit 𝕜 where
  x := scale al s.x
  y := s.y
  xSum := scale al s.xSum
  ySum := s.ySum

/-- The output of a run with its primal half multiplied by `al`. -/
noncomputable def InnerResult.scaled (al : ℝ) (r : InnerResult ℝ Unit 𝕜) : InnerResult ℝ Unit 𝕜 :=
  { r with x := scale al r.x }

/-! ## §2. One step. -/

section Step

variable {p : Problem m ℝ Unit 𝕜} {al : ℝ}

/-- The argument of the proximal map is multiplied by the factor. -/
theorem primalArgument_scaled (hal : 0 < al) (x adjointY : Tensor Unit 𝕜) :
    (p.rescaled al).primalArgument (scale al x) adjointY
      = scale al <$> (p.rebalanced al).primalArgument x adjointY := by
  have hstep : scale p.primalStep adjointY = scale al (scale (p.primalStep / al) adjointY) := by
    rw [scale_scale, mul_div_cancel₀ _ hal.ne']
  show (scale al x).sub (scale p.primalStep adjointY) = _
  rw [hstep, sub_scale]
  rfl

/-- The extrapolated estimate is multiplied by the factor. -/
theorem extrapolate_scaled (x' x : Tensor Unit 𝕜) :
    (Problem.extrapolate (scale al x') (scale al x) : Except (Failure ℝ) _)
      = scale al <$> Problem.extrapolate x' x := by
  unfold Problem.extrapolate
  rw [scale_scale, mul_comm, ← scale_scale, sub_scale]

/-- The dual update has one factor `al` in each of its terms. -/
theorem dualUpdate_scaled (y image : Tensor Unit 𝕜) :
    (p.rescaled al).dualUpdate y (scale al image) = (p.rebalanced al).dualUpdate y image := by
  unfold Problem.dualUpdate Problem.rescaled Problem.rebalanced
  simp only [scale_scale, mul_assoc]

variable [Monad m] [LawfulMonad m] [MonadLiftT (Except (Failure ℝ)) m]
variable [LawfulMonadLiftT (Except (Failure ℝ)) m]

/-- The step of the rescaled problem from a scaled state is the scaled step of the
problem in its own units with other step sizes. -/
theorem Problem.Homogeneous.advance_scaled (hp : p.Homogeneous) (hal : 0 < al)
    (hstep : 0 < p.primalStep) (s : Iterate Unit 𝕜) :
    (p.rescaled al).advance (s.scaled al) = Iterate.scaled al <$> (p.rebalanced al).advance s := by
  have hprox : ∀ v,
      p.prox (scale al v) p.primalStep = scale al <$> p.prox v (p.primalStep / al) := by
    intro v
    have h := hp.prox al (p.primalStep / al) hal (div_pos hstep hal) v
    rwa [mul_div_cancel₀ _ hal.ne'] at h
  unfold Problem.advance
  show (do
    let adjointY ← p.K.adjoint s.y
    let v ← liftM ((p.rescaled al).primalArgument (scale al s.x) adjointY)
    let x ← p.prox v p.primalStep
    let image ← p.K.forward (← liftM (Problem.extrapolate (R := ℝ) x (scale al s.x)))
    let y ← liftM ((p.rescaled al).dualUpdate s.y image)
    let xSum ← liftM ((scale al s.xSum).add x : Except (Failure ℝ) (Tensor Unit 𝕜))
    let ySum ← liftM (s.ySum.add y : Except (Failure ℝ) (Tensor Unit 𝕜))
    return (⟨x, y, xSum, ySum⟩ : Iterate Unit 𝕜)) = _
  -- Each operation takes the factor over from its argument to its result.
  simp only [primalArgument_scaled hal, map_eq_pure_bind, liftM, monadLift_bind, monadLift_pure,
    bind_assoc, pure_bind, hprox, extrapolate_scaled, hp.forward al hal, dualUpdate_scaled,
    add_scale]
  rfl

end Step

/-! ## §3. Observation and runs. -/

section Run

variable {p : Problem m ℝ Unit 𝕜} {o : Observer m ℝ Unit 𝕜} {al : ℝ}

/-- Every record is divided by the factor exactly once. -/
theorem snapshot_scaled (hal : 0 < al) (k : ℕ) (s : Iterate Unit 𝕜) :
    (o.withFactor al).snapshot k (s.scaled al) = (o.withFactor 1).snapshot k s := by
  unfold Observer.snapshot
  show (if o.outputType.averagesPrimal then (scale al s.xSum).divBy (al * Control.ofInt k)
      else (scale al s.x).divBy al)
    = if o.outputType.averagesPrimal then s.xSum.divBy (1 * Control.ofInt k) else s.x.divBy 1
  by_cases h : o.outputType.averagesPrimal
  · rw [if_pos h, if_pos h, divBy_scale hal.ne', one_mul]
  · rw [if_neg h, if_neg h, ← divBy_scale hal.ne' s.x 1, mul_one]

theorem shown_scaled (hal : 0 < al) (s : Iterate Unit 𝕜) :
    (o.withFactor al).shown (s.scaled al) = (o.withFactor 1).shown s := by
  unfold Observer.shown
  show (scale o.scale (scale al s.x)).divBy al = (scale o.scale s.x).divBy 1
  rw [scale_scale, mul_comm, ← scale_scale, ← divBy_scale hal.ne' (scale o.scale s.x) 1, mul_one]

/-- The observers are applied to the same iterates, so whatever they do is the same. -/
theorem observe_scaled [Monad m] (hal : 0 < al) (k : ℕ) (s : Iterate Unit 𝕜) :
    (o.withFactor al).observe k (s.scaled al) = (o.withFactor 1).observe k s := by
  unfold Observer.observe
  rw [snapshot_scaled hal, shown_scaled hal]
  rfl

variable [Monad m] [LawfulMonad m] [MonadLiftT (Except (Failure ℝ)) m]
variable [LawfulMonadLiftT (Except (Failure ℝ)) m]

theorem Problem.Homogeneous.steps_scaled (hp : p.Homogeneous) (hal : 0 < al)
    (hstep : 0 < p.primalStep) (n k : ℕ) (s : Iterate Unit 𝕜) :
    Inner.steps (p.rescaled al) (o.withFactor al) n k (s.scaled al)
      = (fun out => (out.1.scaled al, out.2))
        <$> Inner.steps (p.rebalanced al) (o.withFactor 1) n k s := by
  induction n generalizing k s with
  | zero => simp only [Inner.steps, map_pure]
  | succ n ih =>
    simp only [Inner.steps, hp.advance_scaled hal hstep, map_eq_pure_bind, bind_assoc, pure_bind,
      observe_scaled hal, ih]

theorem start_scaled (x y : Tensor Unit 𝕜) :
    Iterate.start (scale al x) y = (Iterate.start x y).scaled al := by
  have hzeros : (scale al x).zerosLike = scale al x.zerosLike := (scale_zeros al x.shape).symm
  unfold Iterate.start Iterate.scaled
  rw [hzeros]

/-- What a run of steps returns is multiplied by the factor, averages included. -/
theorem result_scaled (type : OutputType) (kIter : ℤ) (s : Iterate Unit 𝕜)
    (records : List (Record ℝ Unit 𝕜)) :
    Inner.result type kIter (s.scaled al) records
      = (Inner.result type kIter s records).scaled al := by
  have hmean : (scale al s.xSum).divBy (Control.ofInt kIter)
      = scale al (s.xSum.divBy (Control.ofInt kIter)) := by
    rw [divBy_eq_scale, divBy_eq_scale, scale_scale, scale_scale, mul_comm]
  unfold Inner.result InnerResult.scaled Iterate.scaled
  rw [hmean]
  by_cases h : type.averagesPrimal
  · simp only [if_pos h]
  · simp only [if_neg h]

/-- **What the rescaling factor means.**  A run with data and primal start multiplied by `al`
delivers `al` times the primal output, and the dual output, records and calls of the run in
the problem's own units, with factor 1 and the steps `τ₁ / al` and `τ₂ al`.  The equation is
one of computations in any monad: where one run fails or has an effect, so does the other. -/
theorem run_rebalanced (hp : p.Homogeneous) (hal : 0 < al) (hstep : 0 < p.primalStep)
    (o : Observer m ℝ Unit 𝕜) (kIter : ℤ) (x y : Tensor Unit 𝕜) :
    Inner.run (p.rescaled al) (o.withFactor al) kIter (scale al x) y
        = InnerResult.scaled al <$> Inner.run (p.rebalanced al) (o.withFactor 1) kIter x y
      ∧ (p.rebalanced al).primalStep * (p.rebalanced al).dualStep
        = p.primalStep * p.dualStep := by
  constructor
  · unfold Inner.run
    rw [start_scaled, hp.steps_scaled hal hstep]
    simp only [map_eq_pure_bind, bind_assoc, pure_bind]
    apply bind_congr
    intro out
    refine congrArg pure ?_
    exact result_scaled _ _ _ _
  · show p.primalStep / al * (p.dualStep * al) = _
    field_simp

end Run

/-- Projection on the orthant, against measurements of `(x, x)` of which the second are an
analysis block.  The maps write down nothing, the observers write down their calls. -/
noncomputable def orthantProblem : Problem (Watched ℝ Unit ℝ) ℝ Unit ℝ where
  b := tabulate () [2] fun i => i
  K := .stacked .identity .identity (.whole 1)
  primalStep := 2
  dualStep := 1
  epsilon := 1
  prox x t := liftM (Regulariser.prox .nonnegative x t)
  q := .whole 1

/-- A positive factor may be taken out of a lower bound of zero. -/
theorem atLeast_scale {c : ℝ} (hc : 0 < c) (x : Tensor Unit ℝ) :
    ((scale c x).atLeast Control.zero : Except (Failure ℝ) _)
      = scale c <$> x.atLeast Control.zero := by
  obtain ⟨z, hz, hzshape, hzentry⟩ := atLeast_zero_ok x
  obtain ⟨w, hw, hwshape, hwentry⟩ := atLeast_zero_ok (scale c x)
  rw [hz, hw]
  refine congrArg Except.ok (ext_entry rfl (hwshape.trans hzshape.symm) ?_)
  intro i _
  show w.entry i = (scale c z).entry i
  rw [hwentry, entry_scale, entry_scale, hzentry]
  show max 0 (c * x.entry i) = c * max 0 (x.entry i)
  rw [mul_max_of_nonneg _ _ hc.le, mul_zero]

/-- The projection on the orthant commutes with positive factors. -/
theorem orthantProblem_homogeneous : orthantProblem.Homogeneous where
  forward c _ x := by
    have happend := append_scale c (shape_flatten x) (shape_flatten x)
    rw [← flatten_scale] at happend
    show (liftM ((scale c x).flatten.append (scale c x).flatten) : Watched ℝ Unit ℝ _) = _
    rw [happend]
    rfl
  prox c _ hc _ v := by
    show (liftM ((scale c v).atLeast Control.zero) : Watched ℝ Unit ℝ _) = _
    rw [atLeast_scale hc]
    rfl

/-- Its averages are measured and its iterates are shown. -/
noncomputable def orthantObserver : Observer (Watched ℝ Unit ℝ) ℝ Unit ℝ where
  al := 1
  scale := 5
  outputType := .averaged
  store := true
  error := some (Watched.measure Tensor.normValue)
  callback := some (Watched.display fun _ _ => .ok ())
  offset := 7

/-- Three steps on it, with factor 3. -/
theorem run_rebalanced_orthant :
    orthantProblem.Homogeneous ∧ (0 : ℝ) < 3 ∧ 0 < orthantProblem.primalStep
      ∧ Inner.run (orthantProblem.rescaled 3) (orthantObserver.withFactor 3) 3
          (scale (3 : ℝ) (tabulate () [1] fun _ => 4)) (tabulate () [2] fun i => i)
        = InnerResult.scaled 3 <$> Inner.run (orthantProblem.rebalanced 3)
          (orthantObserver.withFactor 1) 3 (tabulate () [1] fun _ => 4)
          (tabulate () [2] fun i => i) := by
  have hfactor : (0 : ℝ) < 3 := by norm_num
  have hstep : 0 < orthantProblem.primalStep := show (0 : ℝ) < 2 from two_pos
  exact ⟨orthantProblem_homogeneous, hfactor, hstep,
    (run_rebalanced orthantProblem_homogeneous hfactor hstep orthantObserver 3 _ _).1⟩

end PrimalDual
