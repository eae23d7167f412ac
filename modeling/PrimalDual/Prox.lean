/-
  PrimalDual.Prox
  ───────────────
  **PROXIMAL MAPS.**

  The proximal map of a function `f` with step `t` sends `x` to the minimiser
  of `f z + ‖z - x‖² / (2 t)`.  This module holds the map of the dual step and
  the ready-made maps of regularisers.

  Magnitudes are divided by only after `normFloor` was added to them, so that
  zero entries do not produce an undefined quotient.  The floor is far below
  the precision of any double that is not itself tiny; in exact arithmetic it
  moves a result by no more than its own size.
-/
import PrimalDual.Tensor.Block
import PrimalDual.Tensor.Sum

namespace PrimalDual

namespace Prox

variable {κ α R : Type} [Control R] [Kinds κ] [Entry α R κ]

/-- What is added to a magnitude before it becomes a divisor. -/
def normFloor : R := Control.ofDecimal 1 (-43)

/-! ## §1. The dual step. -/

/-- Euclidean shrinkage: a vector shortened by `rho`, to zero if it is not longer. -/
def shrink (rho : R) (v : Tensor κ α) : Except (Failure R) (Tensor κ α) := do
  let length := (← v.norm).shift normFloor
  let factor ← (Tensor.subFrom Control.one (Tensor.divInto rho length)).atLeast Control.zero
  factor.mul v

/-- Projection of each entry on the unit disc. -/
def project (v : Tensor κ α) : Except (Failure R) (Tensor κ α) := do
  let factor ← (Tensor.divInto Control.one (v.magnitudes.shift normFloor)).atMost Control.one
  factor.mul v

/-- The proximal map of the dual step.  The entries of `y` but the last `q`
are shrunk by `rho` as one vector; each of the last `q` is projected on the
unit disc.  The shape of `y` plays no part and is kept. -/
def dual (y : Tensor κ α) (rho : R) (q : Quantity R) : Except (Failure R) (Tensor κ α) := do
  let flat := y.flatten
  let shape : List Int := y.shape.map Int.ofNat
  let cut ← Tensor.cutBefore flat.size q
  let lead ← shrink rho (← flat.leading cut)
  -- Without an analysis block the lead is everything, and nothing is joined to it.
  match q with
  | .whole 0 => lead.reshape shape
  | _ => (← lead.append (← project (← flat.trailing cut))).reshape shape

/-! ## §2. Regularisers. -/

/-- A step: one number, or one for each entry. -/
inductive Step (R κ α : Type) where
  | uniform (t : R)
  | each (t : Tensor κ α)

namespace Step

/-- The step divided by each entry of a tensor. -/
def dividedBy (t : Step R κ α) (x : Tensor κ α) : Except (Failure R) (Tensor κ α) :=
  match t with
  | uniform r => .ok (Tensor.divInto r x)
  | each s => s.div x

/-- The product of two steps. -/
def times : Step R κ α → Step R κ α → Except (Failure R) (Step R κ α)
  | uniform a, uniform b => .ok (uniform (a * b))
  | uniform a, each b => .ok (each (Tensor.scale a b))
  | each a, uniform b => .ok (each (Tensor.scale b a))
  | each a, each b => do return each (← a.mul b)

end Step

/-- Soft thresholding: each magnitude is lowered by the step, to zero if it is
not greater; sign and phase are kept. -/
def l1 (x : Tensor κ α) (t : Step R κ α) : Except (Failure R) (Tensor κ α) := do
  let ratio ← t.dividedBy (x.magnitudes.shift normFloor)
  x.mul (← (Tensor.subFrom Control.one ratio).atLeast Control.zero)

/-- Soft thresholding with weights for the entries. -/
def weightedL1 (weights : Step R κ α) (x : Tensor κ α) (t : Step R κ α) :
    Except (Failure R) (Tensor κ α) := do
  l1 x (← t.times weights)

/-- The proximal map of the zero function. -/
def zero (x : Tensor κ α) (_ : Step R κ α) : Except (Failure R) (Tensor κ α) := .ok x

end Prox

end PrimalDual
