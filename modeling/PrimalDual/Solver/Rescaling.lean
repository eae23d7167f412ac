/-
  PrimalDual.Solver.Rescaling
  ───────────────────────────
  **THE RESCALING FACTOR OF A RESTART.**

  With `root = √(C₂² + q)`, the number of steps that a restart needs is

      needed = ⌈2 C₁ root bound / (tau upsilon)⌉

  and the factor by which it rescales the problem is

      al = min (1 / (beta · k)) maxRescale,   beta = C₁ (delta + eps) / (root · needed)

  for `k` steps.  Every division is guarded, so a target error of zero is an
  error and not a factor of `maxRescale`.
-/
import PrimalDual.Solver.Options

namespace PrimalDual

namespace Rescaling

variable {m : Type → Type} {κ α R : Type} [Control R]

/-- The greatest factor. -/
def maxRescale : R := Control.ofDecimal 1 12

/-- The bound of the operator norm, which has to be set. -/
def boundOf (o : Options m R κ α) : Except (Failure R) R :=
  match o.bound with
  | some bound => .ok bound
  | none => .error .boundMissing

/-- `√(C₂² + q)`. -/
def sharpnessRoot (C2 : R) (q : Quantity R) : Except (Failure R) R := do
  let squared ← Control.square C2
  Control.root (squared + (← Control.ofQuantity q))

/-- The number of steps that a restart needs. -/
def neededSteps (o : Options m R κ α) (root : R) : Except (Failure R) Int := do
  let bound ← boundOf o
  Control.ceiling
    (← Control.quotient (Control.two * o.C1 * root * bound) (o.tau * o.upsilon))

/-- The rescaling factor of a restart with target error `eps`. -/
def factor (eps delta : R) (kIter : Int) (o : Options m R κ α) (q : Quantity R) :
    Except (Failure R) R := do
  let root ← sharpnessRoot o.C2 q
  let needed ← neededSteps o root
  let beta ← Control.quotient (o.C1 * (delta + eps)) (root * (← Control.ofWhole needed))
  let al ← Control.quotient Control.one (beta * (← Control.ofWhole kIter))
  return if Control.lt maxRescale al then maxRescale else al

end Rescaling

end PrimalDual
