/-
  PrimalDual.Arithmetic.Binary
  ────────────────────────────
  **THE EXACT VALUE OF A DOUBLE.**

  A finite double is `± m · 2^e` for natural `m` and integer `e`; `Binary.ofFloat`
  reads the three off its bits.  The exact printers and the exact rounding to
  an integer work on this value and never on floating-point arithmetic.
-/

namespace PrimalDual

/-- A number `± m · 2^e`. -/
structure Binary where
  negative : Bool
  m : Nat
  e : Int
deriving DecidableEq, Repr

/-- What the bits of a double stand for. -/
inductive Binary.Reading where
  | nan
  | infinite (negative : Bool)
  | finite (value : Binary)
deriving DecidableEq, Repr

namespace Binary

/-- The reading of 64 bits: a sign, eleven bits of exponent, 52 bits of fraction. -/
def ofBits (bits : Nat) : Reading :=
  let negative := bits >>> 63 % 2 == 1
  let exponent : Nat := bits >>> 52 % (1 <<< 11)
  let fraction : Nat := bits % (1 <<< 52)
  if exponent = 2047 then
    if fraction = 0 then .infinite negative else .nan
  else if exponent = 0 then .finite ⟨negative, fraction, -1074⟩
  else .finite ⟨negative, (1 <<< 52) + fraction, (exponent : Int) - 1075⟩

/-- The reading of a double. -/
def ofFloat (x : Float) : Reading := ofBits x.toBits.toNat

/-- The magnitude of `m · 2^e` as a fraction: numerator and denominator. -/
def fraction (b : Binary) : Nat × Nat :=
  (b.m <<< b.e.toNat, 1 <<< (-b.e).toNat)

/-- The least integer that is not below the number. -/
def ceil (b : Binary) : Int :=
  let (p, q) := b.fraction
  if b.negative then -((p / q : Nat) : Int) else (((p + q - 1) / q : Nat) : Int)

/-- The integer part of the number: its fractional part is dropped. -/
def truncate (b : Binary) : Int :=
  let (p, q) := b.fraction
  if b.negative then -((p / q : Nat) : Int) else ((p / q : Nat) : Int)

theorem fraction_snd_pos (b : Binary) : 0 < b.fraction.2 := by
  simp [fraction]

end Binary

end PrimalDual
