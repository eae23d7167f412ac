/-
  PrimalDual.Text.Decimal
  ───────────────────────
  **DECIMAL DIGITS OF FRACTIONS, EXACTLY.**

  A non-negative number is a fraction `p / q` of natural numbers.  This module
  finds its decimal exponent and rounds it to a decimal grid, with ties to
  the even neighbour; no floating-point arithmetic is involved.
-/

namespace PrimalDual

namespace Decimal

/-- The decimal digits of a natural number. -/
def digits (n : Nat) : List Char := Nat.toDigits 10 n

/-- The digits of a natural number, with zeros in front up to `width`. -/
def padded (width n : Nat) : List Char :=
  List.replicate (width - (digits n).length) '0' ++ digits n

/-- The natural number nearest to `p / q`; of two equally near ones, the even one. -/
def roundHalfEven (p q : Nat) : Nat :=
  let below := p / q
  let rest := 2 * (p % q)
  if rest < q then below
  else if q < rest then below + 1
  else below + below % 2

/-- A fraction divided by a power of ten. -/
def shifted (p q : Nat) (e : Int) : Nat × Nat := (p * Nat.pow 10 (-e).toNat, q * Nat.pow 10 e.toNat)

/-- The exponent `e` with `10^e ≤ p / q < 10^(e+1)`, for positive `p` and `q`. -/
def exponent (p q : Nat) : Int :=
  if q ≤ p then ((digits (p / q)).length : Int) - 1
  else -((digits ((q - 1) / p)).length : Int)

theorem roundHalfEven_one (p : Nat) : roundHalfEven p 1 = p := by
  simp [roundHalfEven, Nat.mod_one]

/-- Rounding moves a fraction by at most one half. -/
theorem roundHalfEven_near (p q : Nat) (hq : 0 < q) :
    2 * p ≤ 2 * q * roundHalfEven p q + q ∧ 2 * q * roundHalfEven p q ≤ 2 * p + q := by
  have hdiv : q * (p / q) + p % q = p := Nat.div_add_mod p q
  have hlt : p % q < q := Nat.mod_lt p hq
  have hstep : 2 * q * (p / q) = 2 * (q * (p / q)) := by rw [Nat.mul_assoc]
  have hnext : 2 * q * (p / q + 1) = 2 * (q * (p / q)) + 2 * q := by rw [Nat.mul_succ, hstep]
  unfold roundHalfEven
  simp only
  split
  · omega
  · split
    · omega
    · have hpar : p / q % 2 = 0 ∨ p / q % 2 = 1 := by omega
      rcases hpar with h | h <;> simp only [h, Nat.add_zero] <;> omega

end Decimal

end PrimalDual
