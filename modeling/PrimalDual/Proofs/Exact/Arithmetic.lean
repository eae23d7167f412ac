/-
  PrimalDual.Proofs.Exact.Arithmetic
  ──────────────────────────────────
  **EXACT ARITHMETIC.**

  The second reading of every definition of the library: control numbers are
  the reals, entries are the reals or the complex numbers (any `RCLike` field
  `𝕜`), and there is a single kind, which no operation looks at.

      Control ℝ           no number is undefined or beyond the range
      Kinds Unit          one kind, neither integer nor refused by an order
      Entry 𝕜 ℝ Unit      the operations of the field

  A magnitude is a real number held as an element of `𝕜`, so comparing it
  with a bound reads its real part.  Of the guarded operations only those on
  a zero divisor and on a negative radicand can fail.
-/
import PrimalDual.Solver.Solve
import Mathlib.Analysis.Complex.Trigonometric
import Mathlib.Analysis.RCLike.Basic
import Mathlib.Analysis.Real.Pi.Bounds

namespace PrimalDual

/-! ## §1. Control numbers. -/

/-- Between reals `/` stays the division of the field, where `Control ℝ` offers its own. -/
noncomputable instance (priority := high) Exact.division : Div ℝ := DivInvMonoid.toDiv

/-- The one proof on which the literal `2` stands, in every field. -/
instance (priority := high) Exact.two_atLeastTwo : Nat.AtLeastTwo 2 := ⟨le_rfl⟩

instance (priority := high) Exact.three_atLeastTwo : Nat.AtLeastTwo 3 := ⟨by decide⟩

instance (priority := high) Exact.four_atLeastTwo : Nat.AtLeastTwo 4 := ⟨by decide⟩

noncomputable instance Exact.control : Control ℝ where
  ofInt n := n
  ofDecimal m e := m * 10 ^ e
  sqrt := Real.sqrt
  ceil := Int.ceil
  lt a b := decide (a < b)
  le a b := decide (a ≤ b)
  isNaN _ := false
  isFinite _ := true
  invE := Real.exp (-1)
  cosTurn j n := Real.cos (2 * Real.pi * j / n)
  sinTurn j n := Real.sin (2 * Real.pi * j / n)
  realRadices := Radices.whole
  complexRadices := Radices.whole

namespace Control

@[simp] theorem ofInt_real (n : ℤ) : (ofInt n : ℝ) = n := rfl

@[simp] theorem sqrt_real (a : ℝ) : sqrt a = Real.sqrt a := rfl

@[simp] theorem lt_real (a b : ℝ) : lt a b = decide (a < b) := rfl

@[simp] theorem le_real (a b : ℝ) : le a b = decide (a ≤ b) := rfl

@[simp] theorem zero_real : (zero : ℝ) = 0 := Int.cast_zero

@[simp] theorem one_real : (one : ℝ) = 1 := Int.cast_one

@[simp] theorem two_real : (two : ℝ) = 2 := by norm_num [two]

@[simp] theorem eq_real (a b : ℝ) : Control.eq a b = decide (a = b) := by
  simp only [Control.eq, le_real, ← Bool.decide_and, le_antisymm_iff]

/-- A division by a number that is not zero is the division of the field. -/
theorem quotient_real (a : ℝ) {b : ℝ} (hb : b ≠ 0) : quotient a b = .ok (a / b) := by
  unfold quotient
  rw [zero_real, eq_real, decide_eq_false hb]
  rfl

theorem ofWhole_real (n : ℤ) : (ofWhole n : Except (Failure ℝ) ℝ) = .ok n := rfl

theorem ceiling_real (a : ℝ) : (ceiling a : Except (Failure ℝ) ℤ) = .ok ⌈a⌉ := rfl

/-- A square of a real number never overflows. -/
theorem square_real (a : ℝ) : (square a : Except (Failure ℝ) ℝ) = .ok (a ^ 2) := by
  rw [sq]
  rfl

/-- The root of a number that is not negative is defined. -/
theorem root_real {a : ℝ} (ha : 0 ≤ a) : (root a : Except (Failure ℝ) ℝ) = .ok √a := by
  unfold root
  rw [zero_real, lt_real, decide_eq_false (not_lt.2 ha)]
  rfl

end Control

/-- A number of steps that is not negative is a count of steps. -/
theorem cast_eq_toNat {n : ℤ} (hn : 0 ≤ n) : (n : ℝ) = n.toNat := by
  rw [← Int.cast_natCast, Int.toNat_of_nonneg hn]

/-- The floor under which no norm is divided by is positive. -/
theorem Prox.normFloor_pos : (0 : ℝ) < Prox.normFloor := by
  show (0 : ℝ) < (1 : ℕ) * 10 ^ (-43 : ℤ)
  positivity

theorem Prox.normFloor_lt_one : (Prox.normFloor : ℝ) < 1 := by
  show ((1 : ℕ) : ℝ) * 10 ^ (-43 : ℤ) < 1
  norm_num

/-! ## §2. Entries. -/

instance Exact.kinds : Kinds Unit where
  same _ _ := true
  join _ _ := ()
  absorb _ _ := ()
  floating _ := ()
  real _ := ()
  wide := ()
  isInteger _ := false
  isComplex _ := false

noncomputable instance Exact.entry (𝕜 : Type) [RCLike 𝕜] : Entry 𝕜 ℝ Unit where
  ofControl _ r := (r : 𝕜)
  toControl := RCLike.re
  imaginary := RCLike.im
  inRange _ _ := true
  cast _ a := a
  add _ a b := a + b
  sub _ a b := a - b
  mul _ a b := a * b
  div _ a b := a / b
  conj _ a := star a
  magnitude _ a := (‖a‖ : 𝕜)
  normSq _ a := (‖a‖ ^ 2 : ℝ)
  sqrt _ a := (Real.sqrt (RCLike.re a) : 𝕜)
  atLeast _ r a := (max r (RCLike.re a) : ℝ)
  atMost _ r a := (min r (RCLike.re a) : ℝ)

namespace Entry

variable {𝕜 : Type} [RCLike 𝕜] (k : Unit)

@[simp] theorem ofControl_exact (r : ℝ) : (ofControl k r : 𝕜) = (r : 𝕜) := rfl

@[simp] theorem zero_exact : (zero k : 𝕜) = 0 := by
  show ((Control.zero : ℝ) : 𝕜) = 0
  rw [Control.zero_real, RCLike.ofReal_zero]

@[simp] theorem addMultiple_exact (c : ℝ) (a b : 𝕜) : addMultiple c k a b = a + c * b := rfl

/-- In exact arithmetic the order of a sum does not matter. -/
theorem sumTo_exact (f : ℕ → 𝕜) (n : ℕ) : sumTo k f n = ∑ i ∈ Finset.range n, f i := by
  induction n with
  | zero => exact zero_exact k
  | succ n ih =>
    rw [Finset.sum_range_succ, ← ih]
    rfl

end Entry

end PrimalDual
