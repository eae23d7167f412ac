/-
  PrimalDual.Tensor.Sum
  ─────────────────────
  **SUMS, NORMS AND PRODUCTS WITH A MATRIX.**

  The Euclidean norm of a tensor is the square root of the sum of the squared
  magnitudes of its entries, whatever its shape.  It is a tensor without axes,
  in the real kind, so that it meets another tensor without changing the
  precision.  Integers have none.
-/
import PrimalDual.Tensor.Elementwise

namespace PrimalDual

namespace Tensor

variable {κ α R : Type} [Control R] [Kinds κ] [Entry α R κ]

/-! ## §1. Sums and norms. -/

/-- The sum of all entries. -/
def sum (x : Tensor κ α) : Tensor κ α :=
  tabulate x.kind [] fun _ => Entry.sumTo x.kind x.entry x.size

/-- The root of the sum of the squared magnitudes. -/
def rootSumSq (kind : κ) (f : Nat → α) (n : Nat) : α :=
  let real := Kinds.real kind
  Entry.sqrt real (Entry.sumTo real (fun i => Entry.normSq kind (f i)) n)

/-- Every axis has length 1, so there is a single entry. -/
def isSingle (x : Tensor κ α) : Bool := x.shape.all (· == 1)

/-- The Euclidean norm.  Of a single entry it is the magnitude, with no square
that could leave the range. -/
def norm (x : Tensor κ α) : Except (Failure R) (Tensor κ α) :=
  if Kinds.isInteger x.kind then .error .integerNorm
  else .ok (tabulate (Kinds.real x.kind) [] fun _ =>
    if x.isSingle then Entry.magnitude x.kind (x.entry 0)
    else rootSumSq x.kind x.entry x.size)

/-- The Euclidean norm as a control number. -/
def normValue (x : Tensor κ α) : Except (Failure R) R := do
  let n ← x.norm
  return Entry.toControl (n.entry 0)

/-! ## §2. Products of matrices. -/

/-- A shape as a batch of matrices: the axes of the batch, the rows and the columns. -/
structure Matrices where
  batch : List Nat
  rows : Nat
  columns : Nat

/-- A left factor as a batch of matrices; a vector is one row. -/
def Matrices.left? (shape : List Nat) : Option Matrices :=
  match shape.reverse with
  | [] => none
  | [n] => some ⟨[], 1, n⟩
  | n :: m :: batch => some ⟨batch.reverse, m, n⟩

/-- A right factor as a batch of matrices; a vector is one column. -/
def Matrices.right? (shape : List Nat) : Option Matrices :=
  match shape.reverse with
  | [] => none
  | [n] => some ⟨[], n, 1⟩
  | n :: m :: batch => some ⟨batch.reverse, m, n⟩

/-- The axes of a product: those of the batch, then rows and columns, except where
the factor that would supply them is a vector. -/
def productShape (batch : List Nat) (m p : Nat) (leftAxes rightAxes : Nat) : List Nat :=
  batch ++ (if leftAxes = 1 then [] else [m]) ++ (if rightAxes = 1 then [] else [p])

/-- The products of two batches of matrices over a common batch, in a kind. -/
def products (kind : κ) (batch : List Nat) (l r : Matrices) (M x : Tensor κ α) : Tensor κ α :=
  tabulate kind (productShape batch l.rows r.columns M.axes x.axes) fun i =>
    let b := i / (l.rows * r.columns)
    let row := source l.batch batch b * l.rows + i / r.columns % l.rows
    let first := source r.batch batch b * l.columns
    Entry.sumTo kind
      (fun j => Entry.mul kind (M.entry (row * l.columns + j))
        (x.entry ((first + j) * r.columns + i % r.columns))) l.columns

/-- One product of two matrices does it: a batch against a single matrix or vector is
one tall matrix, provided that its rows lie one behind the other. -/
def isOneProduct (rowsInOrder : Bool) (M x : Tensor κ α) : Bool :=
  M.axes == 1 || (x.axes ≤ 2 && (M.axes == 2 || rowsInOrder))

/-- The kind of a product.  One product of two matrices is of one kind, that of both.
So is a product of batches, except that where it has no term nothing is compared and
the kind of the right factor stands. -/
def productKind (oneProduct : Bool) (terms : Nat) (M x : Tensor κ α) : Option κ :=
  if Kinds.same M.kind x.kind then some M.kind
  else if !oneProduct && terms == 0 then some x.kind
  else none

/-- The product of two matrices, or of batches of them that can be stretched to
one another.  A vector is a row on the left and a column on the right. -/
def multiply (rowsInOrder : Bool) (M x : Tensor κ α) : Except (Failure R) (Tensor κ α) :=
  match Matrices.left? M.shape, Matrices.right? x.shape with
  | some l, some r =>
    if l.columns = r.rows then
      match stretch l.batch r.batch with
      | none => .error .shapeMismatch
      | some batch =>
        let terms := batch.prod * l.rows * r.columns * l.columns
        match productKind (isOneProduct rowsInOrder M x) terms M x with
        | none => .error .kindMismatch
        | some kind => .ok (products kind batch l r M x)
    else .error .shapeMismatch
  | _, _ => .error .shapeMismatch

/-- The product of two tensors. -/
def matmul (M x : Tensor κ α) : Except (Failure R) (Tensor κ α) := multiply true M x

/-- The conjugate transpose of a matrix, or of each matrix of a batch. -/
def adjointMatrix (M : Tensor κ α) : Except (Failure R) (Tensor κ α) :=
  match M.shape.reverse with
  | n :: m :: batch =>
    .ok (tabulate M.kind (batch.reverse ++ [n, m]) fun i =>
      Entry.conj M.kind (M.entry (i / (n * m) * (n * m) + i % m * n + i / m % n)))
  | _ => .error .shapeMismatch

/-- The rows of the transposes of a batch lie one behind the other where they are left in
place: a row of a transpose is a column.  That holds of a batch without entries, of a
single matrix, and of matrices with one row or one column. -/
def columnsInOrder (M : Tensor κ α) : Bool :=
  match Matrices.left? M.shape with
  | some l => M.size == 0 || l.batch.prod == 1 || l.rows == 1 || l.columns == 1
  | none => true

/-- The product of the conjugate transpose with a tensor. -/
def adjointMatmul (M x : Tensor κ α) : Except (Failure R) (Tensor κ α) := do
  (← M.adjointMatrix).multiply M.columnsInOrder x

/-- The product of an `m × n` matrix with a vector of `n`. -/
theorem matmul_vector {M x : Tensor κ α} {m n : Nat} (hM : M.shape = [m, n]) (hx : x.shape = [n])
    (hk : Kinds.same M.kind x.kind = true) :
    (M.matmul x : Except (Failure R) _) = .ok (tabulate M.kind [m] fun i =>
      Entry.sumTo M.kind
        (fun j => Entry.mul M.kind (M.entry (i % m * n + j)) (x.entry j)) n) := by
  simp [matmul, multiply, productKind, hk, hM, hx, Matrices.left?, Matrices.right?, stretch,
    stretchReversed, products, productShape, source, sourceReversed, axes, Nat.mod_one]

end Tensor

end PrimalDual
