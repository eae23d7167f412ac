/-
  PrimalDual.Arithmetic.Circle
  ────────────────────────────
  **POINTS OF THE UNIT CIRCLE IN FIXED POINT.**

  Cosine and sine of a fraction of a turn, as integers that count units of
  `2⁻¹²⁸`.  Only angles up to an eighth of a turn are evaluated, by the Taylor
  series; every other point is a reflection of one of these.  The error is a
  few dozen units, so rounding such a number gives the double nearest to the
  true value in all but freak cases, and quarter turns are exact.
-/

namespace PrimalDual

namespace Circle

/-- The number of binary places. -/
def places : Int := 128

/-- One. -/
def one : Int := (1 <<< 128 : Nat)

/-- A full turn: `2π`. -/
def turn : Int := 2138057168129933495719360746323741566601

/-- The product of two fixed-point numbers. -/
def mul (a b : Int) : Int := a * b / one

/-- The nested sum `1 - x/(k (k+1)) (1 - x/((k+2) (k+3)) (…))` with `n` levels. -/
def nested (x : Int) : (n k : Nat) → Int
  | 0, _ => one
  | n + 1, k => one - mul x (nested x n (k + 2)) / (k * (k + 1) : Nat)

/-- Cosine and sine of the fraction `r / n` of a turn, at most an eighth of one. -/
def inOctant (r n : Nat) : Int × Int :=
  let angle := turn * r / n
  let x := mul angle angle
  (nested x 18 1, mul angle (nested x 18 2))

/-- Cosine and sine of the fraction `r / n` of a turn, at most a quarter of
one: beyond an eighth the angle is measured from the other end. -/
def inQuadrant (r n : Nat) : Int × Int :=
  if 8 * r ≤ n then inOctant r n
  else
    let (c, s) := inOctant (n - 4 * r) (4 * n)
    (s, c)

/-- Cosine and sine of the fraction `j / n` of a turn. -/
def point (j n : Nat) : Int × Int :=
  -- Four turns of the fraction: the quotient by `n` counts quadrants.
  let r := 4 * (j % n)
  let (c, s) := inQuadrant (r % n) (4 * n)
  match r / n with
  | 0 => (c, s)
  | 1 => (-s, c)
  | 2 => (-c, -s)
  | _ => (s, -c)

/-- Quarter turns are exact. -/
theorem point_quarters : point 0 4 = (one, 0) ∧ point 1 4 = (0, one) ∧
    point 2 4 = (-one, 0) ∧ point 3 4 = (0, -one) := by decide +kernel

end Circle

end PrimalDual
