/-
  PrimalDual.Text.Scientific
  ──────────────────────────
  **SCIENTIFIC AND FIXED NOTATION.**

  A number is written with a stated count of digits behind the point, rounded
  from its exact binary value with ties to the even digit:

      Scientific.text 4 0.00015625   =  "1.5625e-04"
      Fixed.text 2 0.125             =  "0.12"

  The exponent has a sign and at least two digits.  A negative zero keeps its
  sign; an undefined number is `nan`, an infinite one `inf` or `-inf`.
-/
import PrimalDual.Arithmetic.Binary
import PrimalDual.Text.Decimal

namespace PrimalDual

/-- The sign written in front of a number. -/
def signText (negative : Bool) : String := if negative then "-" else ""

/-- A reading of a double as text, given the text of a magnitude. -/
def Binary.Reading.text (magnitude : Binary → String) : Binary.Reading → String
  | .nan => "nan"
  | .infinite negative => signText negative ++ "inf"
  | .finite b => signText b.negative ++ magnitude b

namespace Scientific

/-- Significand and exponent of `p / q` with `places` digits behind the point:
the significand is an integer of `places + 1` digits. -/
def significand (places p q : Nat) : Nat × Int :=
  let e := Decimal.exponent p q
  let (u, v) := Decimal.shifted p q (e - places)
  let n := Decimal.roundHalfEven u v
  -- Rounding 9.99… up adds a digit, which the exponent takes over.
  if n = Nat.pow 10 (places + 1) then (Nat.pow 10 places, e + 1) else (n, e)

/-- An exponent: its sign and at least two digits. -/
def exponentText (e : Int) : String :=
  (if e < 0 then "e-" else "e+") ++ String.ofList (Decimal.padded 2 e.natAbs)

/-- A point behind the first digit. -/
def pointed : List Char → List Char
  | [] => []
  | [c] => [c]
  | c :: rest => c :: '.' :: rest

/-- The magnitude of a number. -/
def magnitude (places : Nat) (b : Binary) : String :=
  let (p, q) := b.fraction
  let (n, e) := if p = 0 then (0, 0) else significand places p q
  String.ofList (pointed (Decimal.padded (places + 1) n)) ++ exponentText e

/-- A number in scientific notation. -/
def text (places : Nat) (x : Float) : String := (Binary.ofFloat x).text (magnitude places)

end Scientific

namespace Fixed

/-- The magnitude of a number. -/
def magnitude (places : Nat) (b : Binary) : String :=
  let (p, q) := b.fraction
  let n := Decimal.roundHalfEven (p * Nat.pow 10 places) q
  let whole := Decimal.digits (n / Nat.pow 10 places)
  if places = 0 then String.ofList whole
  else String.ofList (whole ++ '.' :: Decimal.padded places (n % Nat.pow 10 places))

/-- A number in fixed notation. -/
def text (places : Nat) (x : Float) : String := (Binary.ofFloat x).text (magnitude places)

end Fixed

end PrimalDual
