/-
  PrimalDual.TestProblem.Summary
  ──────────────────────────────
  **WHAT HOLDS OF A TEST PROBLEM WHATEVER THE DRAWS.**

  Counts and checks of a generated problem that do not depend on the random
  numbers behind it: how many entries are nonzero, whether magnitudes and
  jumps lie in their range, whether columns have norm one and measurements
  are exact up to rounding.
-/
import PrimalDual.TestProblem.Generate

namespace PrimalDual

namespace TestProblem

variable {κ α R : Type} [Control R] [Kinds κ] [Entry α R κ]

/-- The real parts of the entries, in row-major order. -/
def values (x : Tensor κ α) : List R := x.data.toList.map Entry.toControl

/-- The absolute value of a control number. -/
def absolute (r : R) : R := if Control.lt r Control.zero then Control.zero - r else r

/-- The numbers that are not zero. -/
def nonzero (l : List R) : List R := l.filter fun r => !Control.eq r Control.zero

/-- Every nonzero number has a magnitude in a range. -/
def magnitudesWithin (lo hi : R) (l : List R) : Bool :=
  (nonzero l).all fun r => Control.le lo (absolute r) && Control.le (absolute r) hi

/-- The differences of neighbouring numbers. -/
def differences (l : List R) : List R := List.zipWith (fun next r => next - r) l.tail l

/-- Two numbers agree up to rounding. -/
def agree (a b : R) : Bool :=
  Control.le (absolute (a - b))
    (Control.ofDecimal 1 (-8) + Control.ofDecimal 1 (-5) * absolute b)

/-- Every column of a matrix has norm one, up to rounding. -/
def unitColumns (A : Tensor κ α) : Bool :=
  (values (columnNorms A)).all fun r => agree r (Control.one : R)

/-- Measurements are the image of a signal, up to rounding. -/
def isImage (A x b : Tensor κ α) : Bool :=
  match A.matmul x with
  | .ok image => (List.zipWith (fun (u v : R) => agree u v) (values b) (values image)).all id
  | .error _ => false

/-- The Euclidean norm of the noise by which data differ from exact ones. -/
def noiseNorm (noisy exact : Tensor κ α) : Except (Failure R) R := do
  return euclidean (← Tensor.combine (Tensor.jointKind noisy exact) Entry.sub noisy exact)

end TestProblem

end PrimalDual
