/-
  PrimalDual.Regulariser
  ──────────────────────
  **READY-MADE REGULARISERS AND ERROR MEASURES.**

  A regulariser is known to the solver by its proximal map alone:

      l1, weighted    soft thresholding
      zero            the identity
      nonnegative     projection on the nonnegative orthant
      ridge           division by `1 + t`
      box             projection on a box

  An error measure is a number that a run records for its primal iterates.
-/
import PrimalDual.Prox

namespace PrimalDual

/-! ## §1. Regularisers. -/

/-- A regulariser. -/
inductive Regulariser (R κ α : Type) where
  | l1
  | zero
  | weighted (weights : Prox.Step R κ α)
  | nonnegative
  | ridge
  | box (lo hi : R)

namespace Regulariser

variable {κ α R : Type} [Control R] [Kinds κ] [Entry α R κ]

/-- The proximal map of a regulariser. -/
def prox (r : Regulariser R κ α) (x : Tensor κ α) (t : R) : Except (Failure R) (Tensor κ α) :=
  match r with
  | l1 => Prox.l1 x (.uniform t)
  | zero => Prox.zero x (.uniform t)
  | weighted weights => Prox.weightedL1 weights x (.uniform t)
  | nonnegative => x.atLeast Control.zero
  | ridge => .ok (x.divBy (Control.one + t))
  | box lo hi => x.between lo hi

end Regulariser

/-! ## §2. Error measures. -/

/-- A measure of a primal iterate. -/
inductive ErrorMeasure (R κ α : Type) where
  /-- The Euclidean distance to a reference. -/
  | distance (reference : Tensor κ α)
  /-- The sum of the magnitudes. -/
  | absoluteSum
  /-- The first entry, which has to be real. -/
  | first
  | constant (c : R)
  /-- A measure that fails. -/
  | failing

namespace ErrorMeasure

variable {κ α R : Type} [Control R] [Kinds κ] [Entry α R κ]

/-- The value of the measure. -/
def value (e : ErrorMeasure R κ α) (x : Tensor κ α) : Except (Failure R) R :=
  match e with
  | distance reference => do (← x.sub reference).normValue
  | absoluteSum => x.magnitudes.sum.item
  | first =>
    if x.size = 0 then .error .axisRange
    else (Tensor.tabulate x.kind [] fun _ => x.entry 0).item
  | constant c => .ok c
  | failing => .error .callerFailed

end ErrorMeasure

end PrimalDual
