/-
  PrimalDual.Text.Shortest
  ────────────────────────
  **THE SHORTEST TEXT THAT READS BACK.**

  Of all decimal numbers that round to a given double, the ones with the
  fewest digits are taken, and of these the one nearest to its exact value.

  The reals that round to `m · 2^e` form an interval around it, closed when
  `m` is even.  For each count of digits the only candidates are the two
  neighbours of the value on the decimal grid with that many digits.

  The digits are written positionally for decimal exponents from -4 to 15,
  with a digit behind the point in any case, and in scientific notation
  otherwise.
-/
import PrimalDual.Text.Scientific

namespace PrimalDual

namespace Shortest

/-! ## §1. The interval. -/

/-- The reals that round to a double, with its value: numerators over one
common denominator. -/
structure Interval where
  low : Nat
  value : Nat
  high : Nat
  denominator : Nat
  closed : Bool

/-- The interval of a positive number.  Below a power of two the doubles lie
twice as densely. -/
def interval (b : Binary) : Interval where
  low := (if b.m = 1 <<< 52 ∧ -1074 < b.e then 4 * b.m - 1 else 4 * b.m - 2) <<< b.e.toNat
  value := (4 * b.m) <<< b.e.toNat
  high := (4 * b.m + 2) <<< b.e.toNat
  denominator := 4 <<< (-b.e).toNat
  closed := b.m % 2 == 0

/-- `c · 10^k` lies in the interval. -/
def Interval.contains (i : Interval) (c : Nat) (k : Int) : Bool :=
  let x := c * Nat.pow 10 k.toNat * i.denominator
  let unit := Nat.pow 10 (-k).toNat
  if i.closed then i.low * unit ≤ x && x ≤ i.high * unit
  else i.low * unit < x && x < i.high * unit

/-! ## §2. The digits. -/

/-- The decimal with `count` digits that rounds to the number and is nearest
to it, if there is one: coefficient and exponent of its last digit. -/
def withDigits (i : Interval) (e : Int) (count : Nat) : Option (Nat × Int) :=
  let k := e + 1 - count
  let (u, v) := Decimal.shifted i.value i.denominator k
  -- The two neighbours of the value on the grid, the nearer one first.
  let below := u / v
  let nearest := Decimal.roundHalfEven u v
  let other := if nearest = below then below + 1 else below
  if i.contains nearest k then some (nearest, k)
  else if i.contains other k then some (other, k)
  else none

/-- The shortest decimal that rounds to a positive number. -/
def decimal (b : Binary) : Nat × Int :=
  let i := interval b
  let e := Decimal.exponent i.value i.denominator
  ((List.range' 1 17).findSome? (withDigits i e)).getD (i.value / i.denominator, 0)

/-! ## §3. The layout. -/

/-- The digits `c` with the last one worth `10^k`, laid out. -/
def layout (c : Nat) (k : Int) : String :=
  let ds := Decimal.digits c
  let e := k + ds.length - 1
  let significant := (ds.reverse.dropWhile (· == '0')).reverse
  if e < -4 || 16 ≤ e then
    String.ofList (Scientific.pointed significant) ++ Scientific.exponentText e
  else if e < 0 then
    String.ofList ('0' :: '.' :: (List.replicate (-e - 1).toNat '0' ++ significant))
  else
    let whole := e.toNat + 1
    let all := significant ++ List.replicate (whole - significant.length) '0'
    let rest := all.drop whole
    String.ofList (all.take whole ++ '.' :: (if rest.isEmpty then ['0'] else rest))

/-- The magnitude of a number. -/
def magnitude (b : Binary) : String :=
  if b.m = 0 then "0.0"
  else
    let (c, k) := decimal b
    layout c k

/-- The shortest text of a number. -/
def text (x : Float) : String := (Binary.ofFloat x).text magnitude

end Shortest

end PrimalDual
