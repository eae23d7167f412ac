/-
  PrimalDual.Tensor.Block
  ───────────────────────
  **BLOCKS OF ROWS.**

  A tensor is cut along its first axis at a position, into a leading and a
  trailing block, and vectors are laid end to end.  The cut is stated as an
  integer: a negative one counts from the end, and one that lies outside the
  axis is moved to its nearest end.  Both blocks use the same rule, so
  whatever the cut, each row belongs to exactly one of them.
-/
import PrimalDual.Tensor.Elementwise

namespace PrimalDual

namespace Tensor

variable {κ α R : Type} [Control R] [Kinds κ] [Entry α R κ]

/-! ## §1. Cutting. -/

/-- The position at which an axis of length `n` is cut. -/
def cutPoint (n : Nat) (cut : Int) : Nat :=
  if cut < 0 then (n + cut).toNat else min cut.toNat n

omit [Control R] [Kinds κ] [Entry α R κ] in
theorem cutPoint_le (n : Nat) (cut : Int) : cutPoint n cut ≤ n := by
  unfold cutPoint; split <;> omega

/-- `count` rows from row `first` on. -/
def rows (x : Tensor κ α) (first count : Nat) : Except (Failure R) (Tensor κ α) :=
  match x.shape with
  | [] => .error .axisRange
  | _ :: rest =>
    .ok (tabulate x.kind (count :: rest) fun i => x.entry (first * rest.prod + i))

/-- The rows before a cut. -/
def leading (x : Tensor κ α) (cut : Int) : Except (Failure R) (Tensor κ α) :=
  x.rows 0 (cutPoint (x.shape.headD 0) cut)

/-- The rows from a cut on. -/
def trailing (x : Tensor κ α) (cut : Int) : Except (Failure R) (Tensor κ α) :=
  let n := x.shape.headD 0
  x.rows (cutPoint n cut) (n - cutPoint n cut)

/-- The cut before the last `q` positions of `n`; it has to be whole. -/
def cutBefore (n : Nat) : Quantity R → Except (Failure R) Int
  | .whole q => .ok (n - q)
  | .fractional _ => .error .fractionalPosition

/-! ## §2. Joining. -/

/-- Two vectors, one after the other. -/
def append (x y : Tensor κ α) : Except (Failure R) (Tensor κ α) :=
  match x.shape, y.shape with
  | [_], [_] =>
    let kind := Kinds.join x.kind y.kind
    .ok (tabulate kind [x.size + y.size] fun i =>
      Entry.cast kind (if i < x.size then x.entry i else y.entry (i - x.size)))
  | _, _ => .error .shapeMismatch

end Tensor

end PrimalDual
