/-
  PrimalDual.Solver.Restart
  ─────────────────────────
  **ONE RESTART.**

  A restart rescales measurements, primal estimate and tolerance by `al`, runs
  the inner steps with both step sizes equal to `tau / bound`, and undoes the
  rescaling of the primal estimate.  The target error moves to
  `upsilon (delta + eps)`.
-/
import PrimalDual.Solver.Inner
import PrimalDual.Solver.Rescaling

namespace PrimalDual

/-- What one restart hands to the next. -/
structure RestartState (R κ α : Type) where
  /-- The primal estimate. -/
  psi : Tensor κ α
  /-- The dual estimate. -/
  y : Tensor κ α
  /-- The target error. -/
  eps : R

/-- What stays the same from restart to restart. -/
structure Schedule (m : Type → Type) (R κ α : Type) where
  b : Tensor κ α
  K : Operator m R κ α
  epsilon : R
  delta : R
  prox : Tensor κ α → R → m (Tensor κ α)
  /-- The number of inner steps of a restart. -/
  kIter : Int
  options : Options m R κ α
  outputType : Quantity R
  /-- The factor from the rescaled problem to the caller's units. -/
  scale : R
  callback : Option (Int → Tensor κ α → m Unit)

/-- What one restart leaves in the records, in the caller's units. -/
structure RestartRecord (R κ α : Type) where
  iterates : List (Tensor κ α)
  errors : List R

namespace Schedule

variable {m : Type → Type} {κ α R : Type} [Control R] [Kinds κ] [Entry α R κ]
variable [Monad m] [MonadLiftT (Except (Failure R)) m]

/-- The size of both steps. -/
def stepSize (o : Options m R κ α) : Except (Failure R) R := do
  Control.quotient o.tau (← Rescaling.boundOf o)

/-- The inner problem of a restart. -/
def problem (s : Schedule m R κ α) (al step : R) : Problem m R κ α where
  b := Tensor.scale al s.b
  K := s.K
  primalStep := step
  dualStep := step
  epsilon := al * s.epsilon
  prox := s.prox
  q := .whole s.options.q

/-- The observer of a restart. -/
def observer (s : Schedule m R κ α) (al : R) (type : OutputType) (offset : Int) :
    Observer m R κ α where
  al := al
  scale := s.scale
  outputType := type
  store := s.options.store
  error := s.options.error
  callback := s.callback
  offset := offset

/-- The target error of the next restart. -/
def nextError (s : Schedule m R κ α) (eps : R) : R := s.options.upsilon * (s.delta + eps)

/-- One restart with rescaling factor `al`, after `offset` steps. -/
def restart (s : Schedule m R κ α) (state : RestartState R κ α) (al : R) (offset : Int) :
    m (RestartState R κ α × RestartRecord R κ α) := do
  let step ← liftM (stepSize s.options)
  let type ← liftM (OutputType.find s.outputType)
  let r ← Inner.run (s.problem al step) (s.observer al type offset) s.kIter
    (Tensor.scale al state.psi) state.y
  return (⟨r.x.divBy al, r.y, s.nextError state.eps⟩,
    ⟨r.iterates.map (Tensor.scale s.scale), r.errors⟩)

end Schedule

end PrimalDual
