/-
  PrimalDual.Arithmetic.Entry
  ───────────────────────────
  **THE ENTRIES OF TENSORS.**

  A tensor has entries of one type `α` and a *kind* from a type `κ`, which
  says how its entries are held: as integers, as reals of single or double
  precision, as complex numbers.  Every operation on entries names the kind
  it is carried out in: its operands are read in that kind and its result is
  a number of that kind.  A computation in exact arithmetic has a single kind
  and ignores it.

      Kinds κ          which kinds there are and how two of them combine
      Entry α R κ      the operations on entries, over control numbers `R`
-/
import PrimalDual.Arithmetic.Control

namespace PrimalDual

/-- The kinds in which entries are held. -/
class Kinds (κ : Type) where
  same : κ → κ → Bool
  /-- The kind of a combination of two tensors that both have axes, or both have none. -/
  join : κ → κ → κ
  /-- The kind of a combination of a tensor with axes (first) and one without:
  the latter widens the former only towards another sort of number. -/
  absorb : κ → κ → κ
  /-- The kind of a combination with a real control number. -/
  floating : κ → κ
  /-- The kind of magnitudes of entries of a kind. -/
  real : κ → κ
  /-- The kind of double precision. -/
  wide : κ
  isInteger : κ → Bool
  isComplex : κ → Bool

/-- The operations on entries. -/
class Entry (α : Type) (R κ : outParam Type) where
  /-- The entry of a kind nearest to a control number. -/
  ofControl : κ → R → α
  /-- The real part, as a control number. -/
  toControl : α → R
  /-- The imaginary part, as a control number. -/
  imaginary : α → R
  /-- A bound is infinite or inside the range of a kind. -/
  inRange : κ → R → Bool
  /-- An entry read in a kind. -/
  cast : κ → α → α
  add : κ → α → α → α
  sub : κ → α → α → α
  mul : κ → α → α → α
  div : κ → α → α → α
  conj : κ → α → α
  /-- The magnitude, an entry of the real kind. -/
  magnitude : κ → α → α
  /-- The square of the magnitude, an entry of the real kind. -/
  normSq : κ → α → α
  /-- The square root of a real entry. -/
  sqrt : κ → α → α
  /-- The greater of a real entry and a bound. -/
  atLeast : κ → R → α → α
  /-- The lesser of a real entry and a bound. -/
  atMost : κ → R → α → α

namespace Entry

variable {α R κ : Type} [Control R] [Entry α R κ]

/-- Zero in a kind. -/
def zero (k : κ) : α := ofControl k (Control.zero : R)

/-- One in a kind. -/
def one (k : κ) : α := ofControl k (Control.one : R)

/-- An entry plus a multiple of another, `a + c b`. -/
def addMultiple (c : R) (k : κ) (a b : α) : α := add k a (mul k (ofControl k c) b)

/-- A start with the first `n` terms of a sequence added to it, one after the other. -/
def sumFrom (k : κ) (start : α) (f : Nat → α) : Nat → α
  | 0 => start
  | n + 1 => add k (sumFrom k start f n) (f n)

/-- The sum of the first `n` terms of a sequence, from the first on. -/
def sumTo (k : κ) (f : Nat → α) (n : Nat) : α := sumFrom k (zero k) f n

end Entry

end PrimalDual
