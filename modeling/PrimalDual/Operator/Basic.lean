/-
  PrimalDual.Operator.Basic
  ─────────────────────────
  **LINEAR OPERATORS.**

  A solver meets the measurement model only by applying an operator to a
  tensor, forwards or by its adjoint.  The operators of this library are

      matrix        a dense matrix
      identity
      difference    forward differences around a circle, along one axis
      convolution   circular convolution
      maps          a pair of maps, forward and adjoint
      modal         one map of a tensor and a direction
      flattened     an operator whose range is read as a vector
      stacked       [A; B], the lower block having `q` entries

  The pair of directions of an operator should satisfy
  `⟨A x, y⟩ = ⟨x, Aᴴ y⟩`.  For the built-in operators this is a theorem, for
  maps it is the caller's promise.

  Maps of the caller may have effects in a monad `m`; the library only asks
  that a failure can be raised in it.
-/
import PrimalDual.Tensor.Block
import PrimalDual.Operator.Convolution

namespace PrimalDual

/-! ## §1. The type. -/

/-- A linear operator on tensors. -/
inductive Operator (m : Type → Type) (R κ α : Type) where
  | matrix (M : Tensor κ α)
  | identity
  | difference (axis : Int)
  | convolution (c : Convolution κ α)
  | maps (forward adjoint : Tensor κ α → m (Tensor κ α))
  | modal (apply : Tensor κ α → Int → m (Tensor κ α))
  | flattened (op : Operator m R κ α) (rangeShape : List Int)
  | stacked (A B : Operator m R κ α) (q : Quantity R)

namespace Operator

variable {m : Type → Type} {R κ α : Type}

/-- The direction `A x`. -/
def forwardMode : Int := 1

/-- The direction `Aᴴ y`. -/
def adjointMode : Int := 0

section Application

variable [Control R] [Kinds κ] [Entry α R κ]
variable [Monad m] [MonadLiftT (Except (Failure R)) m]

/-- Entry `i` of a forward difference is entry `i + 1` less entry `i`. -/
def differenceForward (axis : Int) (x : Tensor κ α) : Except (Failure R) (Tensor κ α) := do
  (← x.rotate (-1) axis).sub x

/-- Entry `i` of its adjoint is entry `i - 1` less entry `i`. -/
def differenceAdjoint (axis : Int) (y : Tensor κ α) : Except (Failure R) (Tensor κ α) := do
  (← y.rotate 1 axis).sub y

/-! ## §2. Application. -/

/-- `A x`. -/
def forward : Operator m R κ α → Tensor κ α → m (Tensor κ α)
  | matrix M, x => liftM (M.matmul x)
  | identity, x => pure x
  | difference axis, x => liftM (differenceForward axis x)
  | convolution c, x => liftM (c.forward x)
  | maps f _, x => f x
  | modal f, x => f x forwardMode
  | flattened op _, x => do return (← op.forward x).flatten
  | stacked A B _, x => do
    let u ← A.forward x
    let v ← B.forward x
    liftM (u.flatten.append v.flatten)

/-- `Aᴴ y`. -/
def adjoint : Operator m R κ α → Tensor κ α → m (Tensor κ α)
  | matrix M, y => liftM (M.adjointMatmul y)
  | identity, y => pure y
  | difference axis, y => liftM (differenceAdjoint axis y)
  | convolution c, y => liftM (c.adjoint y)
  | maps _ g, y => g y
  | modal f, y => f y adjointMode
  | flattened op rangeShape, y => do
    op.adjoint (← liftM (y.reshape rangeShape : Except (Failure R) (Tensor κ α)))
  | stacked A B q, y => do
    let cut ← liftM (Tensor.cutBefore y.size q)
    let u ← A.adjoint (← liftM (y.leading cut))
    let v ← B.adjoint (← liftM (y.trailing cut))
    liftM (u.add v)

/-- The operator applied in the direction that a number names. -/
def apply (op : Operator m R κ α) (x : Tensor κ α) (mode : Int) : m (Tensor κ α) :=
  if mode = forwardMode then op.forward x
  else if mode = adjointMode then op.adjoint x
  else liftM (.error (.unknownMode mode) : Except (Failure R) (Tensor κ α))

end Application

/-! ## §3. Checked construction. -/

/-- The operator of a dense matrix. -/
def ofMatrix (M : Tensor κ α) : Except (Failure R) (Operator m R κ α) :=
  if M.axes = 2 then .ok (matrix M) else .error (.matrixAxes M.axes)

/-- An operator whose range has a stated shape, read as a vector; without a
shape, the operator itself. -/
def inShape (op : Operator m R κ α) : Option (List Int) → Operator m R κ α
  | none => op
  | some shape => flattened op shape

/-- The operator `[A; B]` where the range of `B` has `q` entries.  The shapes
of the ranges of `A` and `B` are stated where they are not vectors. -/
def stack [Control R] (A B : Operator m R κ α) (q : Quantity R)
    (shapeA shapeB : Option (List Int)) : Except (Failure R) (Operator m R κ α) :=
  let negative := match q with
    | .whole n => decide (n < 0)
    | .fractional r => Control.lt r Control.zero
  let announced (n : Int) := match q with
    | .whole k => decide (n = k)
    | .fractional r => Control.eq (Control.ofInt n) r
  if negative then .error (.negativeBlock q)
  else match shapeB with
    | some shape =>
      let entries := shape.foldr (· * ·) 1
      if announced entries then .ok (stacked (A.inShape shapeA) (B.inShape shapeB) q)
      else .error (.blockRange entries q)
    | none => .ok (stacked (A.inShape shapeA) B q)

end Operator

end PrimalDual
