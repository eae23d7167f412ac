/-
  PrimalDual.Fourier.Coefficient
  ──────────────────────────────
  **COMPLEX COEFFICIENTS OVER ANY ENTRIES.**

  The bins of a transform are complex even where the entries of a tensor are
  real.  A coefficient is a pair of entries; its operations are those of
  complex numbers in rectangular form, part by part in the kind of the
  entries.
-/
import PrimalDual.Arithmetic.Entry

namespace PrimalDual

/-- A complex coefficient whose parts are entries. -/
structure Coefficient (α : Type) where
  re : α
  im : α

namespace Coefficient

variable {κ α R : Type} [Control R] [Entry α R κ]

/-- Zero in a kind. -/
def zero (k : κ) : Coefficient α := ⟨Entry.zero k, Entry.zero k⟩

/-- A real number as a coefficient. -/
def ofReal (k : κ) (a : α) : Coefficient α := ⟨a, Entry.zero k⟩

/-- The sum of two coefficients. -/
def add (k : κ) (a b : Coefficient α) : Coefficient α :=
  ⟨Entry.add k a.re b.re, Entry.add k a.im b.im⟩

/-- The difference of two coefficients. -/
def sub (k : κ) (a b : Coefficient α) : Coefficient α :=
  ⟨Entry.sub k a.re b.re, Entry.sub k a.im b.im⟩

/-- The product of two coefficients. -/
def mul (k : κ) (a b : Coefficient α) : Coefficient α where
  re := Entry.sub k (Entry.mul k a.re b.re) (Entry.mul k a.im b.im)
  im := Entry.add k (Entry.mul k a.re b.im) (Entry.mul k a.im b.re)

/-- A map of entries applied to both parts. -/
def map (f : α → α) (a : Coefficient α) : Coefficient α := ⟨f a.re, f a.im⟩

/-- A coefficient multiplied by the imaginary unit. -/
def quarter (k : κ) (a : Coefficient α) : Coefficient α :=
  ⟨Entry.sub k (Entry.zero k) a.im, a.re⟩

/-- The complex conjugate. -/
def conj (k : κ) (a : Coefficient α) : Coefficient α :=
  ⟨a.re, Entry.sub k (Entry.zero k) a.im⟩

/-- A start with the first `n` terms of a sequence added to it, one after the other. -/
def sumFrom (k : κ) (start : Coefficient α) (f : Nat → Coefficient α) : Nat → Coefficient α
  | 0 => start
  | n + 1 => add k (sumFrom k start f n) (f n)

end Coefficient

end PrimalDual
