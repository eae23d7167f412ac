/-
  PrimalDual.Arithmetic.Control
  ─────────────────────────────
  **THE NUMBERS THAT STEER A RUN.**

  Step sizes, tolerances, rescaling factors and norms are numbers of one type
  `R`.  A run computes them in double precision, a proof in the reals, and
  both read the same definitions: `Control R` lists what they use.

  The operations of the class never fail.  The *guarded* operations of §2 do:
  they refuse a division by zero, the root of a negative number, a number
  beyond the range, and so state once which computations have no answer.
  Over the reals only the first two refusals can occur.
-/
import PrimalDual.Failure
import PrimalDual.Arithmetic.Radices

namespace PrimalDual

/-! ## §1. The operations. -/

/-- A type of control numbers. -/
class Control (R : Type) extends Add R, Sub R, Mul R, Div R where
  /-- The number nearest to an integer. -/
  ofInt : Int → R
  /-- The number nearest to `m · 10^e`. -/
  ofDecimal : (m : Nat) → (e : Int) → R
  sqrt : R → R
  /-- The least integer that is not below a finite number. -/
  ceil : R → Int
  lt : R → R → Bool
  le : R → R → Bool
  isNaN : R → Bool
  isFinite : R → Bool
  /-- The inverse of Euler's number. -/
  invE : R
  /-- Cosine of the fraction `j / n` of a full turn. -/
  cosTurn : (j n : Nat) → R
  /-- Sine of the fraction `j / n` of a full turn. -/
  sinTurn : (j n : Nat) → R
  /-- The stages of a Fourier transform of a real line of length `n`. -/
  realRadices : (n : Nat) → Radices n
  /-- The stages of a Fourier transform of a complex line of length `n`. -/
  complexRadices : (n : Nat) → Radices n

namespace Control

variable {R : Type} [Control R]

/-- Zero. -/
def zero : R := ofInt 0

/-- One. -/
def one : R := ofInt 1

/-- Two. -/
def two : R := ofInt 2

/-- Two numbers compare as equal. -/
def eq (a b : R) : Bool := le a b && le b a

/-! ## §2. Guarded operations. -/

/-- A quotient; a zero divisor is refused. -/
def quotient (a b : R) : Except (Failure R) R :=
  if eq b zero then .error .divisionByZero else .ok (a / b)

/-- An integer as a control number; one beyond the range is refused. -/
def ofWhole (n : Int) : Except (Failure R) R :=
  if isFinite (ofInt n : R) then .ok (ofInt n) else .error .overflow

/-- The square of a number; a finite number whose square is beyond the range is refused. -/
def square (a : R) : Except (Failure R) R :=
  if isFinite a && !isFinite (a * a) && !isNaN (a * a) then .error .overflow
  else .ok (a * a)

/-- A square root; the root of a negative number is refused. -/
def root (a : R) : Except (Failure R) R :=
  if lt a zero then .error .domain else .ok (sqrt a)

/-- The least integer that is not below a number; only a finite number has one. -/
def ceiling (a : R) : Except (Failure R) Int :=
  if isNaN a then .error .domain
  else if isFinite a then .ok (ceil a)
  else .error .overflow

/-- A stated count as a control number. -/
def ofQuantity : Quantity R → Except (Failure R) R
  | .whole n => ofWhole n
  | .fractional r => .ok r

end Control

end PrimalDual
