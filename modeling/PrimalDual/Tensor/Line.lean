/-
  PrimalDual.Tensor.Line
  ──────────────────────
  **OPERATIONS ALONG ONE AXIS.**

  Fixing all coordinates but one leaves a line of entries.  An operation along
  an axis computes each line of its result from the line of the operand at
  the same place: shifting around a circle, or a Fourier transform.

  In row-major order the entries of a line through axis `p` are `stride`
  positions apart, where `stride` is the number of entries behind axis `p`.
-/
import PrimalDual.Tensor.Elementwise

namespace PrimalDual

namespace Tensor

variable {κ α β R : Type}

/-- The number of entries behind an axis. -/
def stride (shape : List Nat) (p : Nat) : Nat := (shape.drop (p + 1)).prod

/-- The tensor whose lines along axis `p` have `n` entries, entry `j` of each
being `f line j` for the line of `x` at the same place. -/
def alongAxis (kind : κ) (d : α) (p n : Nat) (f : (Nat → α) → Nat → β) (x : Tensor κ α) :
    Tensor κ β :=
  let length := x.shape.getD p 1
  let step := stride x.shape p
  -- Position `i` is coordinate `i / step % n` of the line with number `i / (n * step)`
  -- among those with offset `i % step`.
  tabulate kind (x.shape.set p n) fun i =>
    let first := i / (n * step) * length
    let offset := i % step
    f (fun j => x.entryD d ((first + j) * step + offset)) (i / step % n)

/-- The tensor whose lines along axis `p` have `n` entries, those of `f line` for the line
of `x` at the same place.  Each line is computed once. -/
def mapLines (kind : κ) (d : α) (e : β) (p n : Nat) (f : (Nat → α) → Array β)
    (x : Tensor κ α) : Tensor κ β :=
  let length := x.shape.getD p 1
  let step := stride x.shape p
  let count := (x.shape.take p).prod * step
  let lines := Array.ofFn fun l : Fin count =>
    let first := l / step * length
    let offset := l % step
    f fun j => x.entryD d ((first + j) * step + offset)
  tabulate kind (x.shape.set p n) fun i =>
    (lines.getD (i / (n * step) * step + i % step) #[]).getD (i / step % n) e

/-- The axis that an integer names: a negative one counts from the last. -/
def axisOf (axes : Nat) (axis : Int) : Option Nat :=
  if 0 ≤ axis ∧ axis < axes then some axis.toNat
  else if -(axes : Int) ≤ axis ∧ axis < 0 then some (axes + axis).toNat
  else none

variable [Control R] [Entry α R κ]

/-- The entries moved by `shift` places towards higher coordinates along an
axis, around a circle.  An empty tensor has no places, whatever the axis. -/
def rotate (x : Tensor κ α) (shift : Int) (axis : Int) : Except (Failure R) (Tensor κ α) :=
  if x.size = 0 then .ok x
  else match axisOf x.axes axis with
    | none => .error .axisRange
    | some p =>
      let n := x.shape.getD p 1
      .ok (alongAxis x.kind (Entry.zero x.kind) p n
        (fun line j => line (((j : Int) - shift) % n).toNat) x)

end Tensor

end PrimalDual
