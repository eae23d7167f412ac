/-
  PrimalDual.Arithmetic.Radices
  ─────────────────────────────
  **HOW A LENGTH IS SPLIT INTO FACTORS.**

  A Fourier transform of length `n` is carried out in stages, one for each
  factor of `n`.  `Radices n` is a choice of these factors, and that they
  multiply to `n` is part of the type:

      whole n           one stage, no split
      split large n     given large factors first, then odd ones

  In exact arithmetic every choice gives the same transform.  In rounded
  arithmetic the choice fixes the order of all sums.
-/

namespace PrimalDual

/-- The product of no factors.  Every module takes a product of naturals to start
from this 1, whatever other libraries it imports. -/
instance (priority := high) Radices.one : One Nat := ⟨1⟩

/-- Factors whose product is `n`, in the order of the stages. -/
structure Radices (n : Nat) where
  factors : List Nat
  prod_factors : factors.prod = n

namespace Radices

/-- A single stage. -/
def whole (n : Nat) : Radices n := ⟨[n], by simp⟩

/-- A factor taken out of a number as often as it divides it, at most `fuel` times,
and what is left of the number. -/
def takeOut (p : Nat) : (fuel n : Nat) → List Nat × Nat
  | 0, n => ([], n)
  | fuel + 1, n =>
    if n % p = 0 then
      let (factors, rest) := takeOut p fuel (n / p)
      (p :: factors, rest)
    else ([], n)

theorem prod_takeOut (p fuel n : Nat) :
    (takeOut p fuel n).1.prod * (takeOut p fuel n).2 = n := by
  induction fuel generalizing n with
  | zero => simp [takeOut]
  | succ fuel ih =>
    unfold takeOut
    split
    · rename_i h
      rw [List.prod_cons, Nat.mul_assoc, ih]
      exact Nat.mul_div_cancel' (Nat.dvd_of_mod_eq_zero h)
    · simp

/-- Several factors taken out, one after the other, each as often as possible. -/
def takeAll : List Nat → Nat → List Nat × Nat
  | [], n => ([], n)
  | p :: ps, n =>
    let (first, middle) := takeOut p n n
    let (others, rest) := takeAll ps middle
    (first ++ others, rest)

theorem prod_takeAll (ps : List Nat) (n : Nat) :
    (takeAll ps n).1.prod * (takeAll ps n).2 = n := by
  induction ps generalizing n with
  | nil => simp [takeAll]
  | cons p ps ih =>
    simp only [takeAll]
    rw [List.prod_append_nat, Nat.mul_assoc, ih]
    exact prod_takeOut p n n

/-- The factors of a number, by trial division with `d`, `d + 2`, `d + 4`, … -/
def byTrial : (fuel d n : Nat) → List Nat
  | 0, _, n => [n]
  | fuel + 1, d, n =>
    if n = 1 then []
    else if n < d * d then [n]
    else if n % d = 0 then d :: byTrial fuel d (n / d)
    else byTrial fuel (d + 2) n

theorem prod_byTrial (fuel d n : Nat) : (byTrial fuel d n).prod = n := by
  induction fuel generalizing d n with
  | zero => simp [byTrial]
  | succ fuel ih =>
    unfold byTrial
    split
    · simp_all
    split
    · simp
    split
    · rename_i h
      rw [List.prod_cons, ih]
      exact Nat.mul_div_cancel' (Nat.dvd_of_mod_eq_zero h)
    · exact ih _ _

/-- The given large factors are taken out first.  A factor 2 that is left over goes to
the front, and odd factors follow in ascending order. -/
def split (large : List Nat) (n : Nat) : Radices n where
  factors :=
    let (powers, rest) := takeAll large n
    let (two, odd) := takeOut 2 1 rest
    two ++ powers ++ byTrial odd 3 odd
  prod_factors := by
    simp only [List.prod_append_nat, prod_byTrial]
    have h₁ := prod_takeOut 2 1 (takeAll large n).2
    have h₂ := prod_takeAll large n
    rw [Nat.mul_right_comm, h₁, Nat.mul_comm, h₂]

end Radices

end PrimalDual
