/-
  PrimalDual.NormEstimate
  ───────────────────────
  **ESTIMATING THE NORM OF AN OPERATOR.**

  Power iteration on `Kᴴ K` from a random start: the norm of the image of a
  unit vector approaches the square of the operator norm from below, and a
  margin makes an overestimate likely.  The number of iterations is fixed and
  nothing checks convergence.

  The random start is drawn by an action of the caller, once.
-/
import PrimalDual.Operator.Basic
import PrimalDual.Prox

namespace PrimalDual

namespace NormEstimate

variable {m : Type → Type} {κ α R : Type} [Control R] [Kinds κ] [Entry α R κ]
variable [Monad m] [MonadLiftT (Except (Failure R)) m]

/-- The number of iterations unless stated. -/
def defaultIterations : Int := 10

/-- The factor on the estimate unless stated. -/
def defaultMargin : R := Control.ofDecimal 101 (-2)

/-- The image of a vector under `Kᴴ K` with its norm. -/
def image (K : Operator m R κ α) (v : Tensor κ α) : m (Tensor κ α × R) := do
  let w ← K.adjoint (← K.forward v)
  return (w, ← liftM (w.normValue : Except (Failure R) R))

/-- `n` iterations from `v`, where `bound` is the estimate so far. -/
def iterate (K : Operator m R κ α) (margin : R) : Nat → Tensor κ α → R → m R
  | 0, _, bound => pure bound
  | n + 1, v, _ => do
    -- The floor keeps a vector that `Kᴴ K` maps to zero from becoming undefined.
    let (w, length) ← image K v
    iterate K margin n (w.divBy (length + Prox.normFloor)) (margin * Control.sqrt length)

/-- A tensor divided by its norm. -/
def normalise (v : Tensor κ α) : Except (Failure R) (Tensor κ α) := do
  v.div (← v.norm)

/-- An estimate of the norm of an operator on tensors of a shape and kind. -/
def estimate (draw : List Nat → κ → m (Tensor κ α)) (K : Operator m R κ α) (shape : List Nat)
    (iterations : Int) (margin : R) (kind : κ) : m R := do
  let start ← draw shape kind
  iterate K margin iterations.toNat (← liftM (normalise start)) Control.one

end NormEstimate

end PrimalDual
