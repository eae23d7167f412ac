/-
  PrimalDual.Operator.VectorMap
  ─────────────────────────────
  **READY-MADE MAPS OF VECTORS.**

  A small vocabulary from which pairs of maps and modal operators are put
  together: multiples, reversal, products with a matrix, cutting and padding.
  None of them has to be linear or to fit its partner.
-/
import PrimalDual.Operator.Representation

namespace PrimalDual

/-- A map of vectors. -/
inductive VectorMap (R κ α : Type) where
  | identity
  | multiple (c : R)
  /-- The rows in reverse order. -/
  | reversed
  | product (M : Tensor κ α)
  /-- The product with the conjugate transpose. -/
  | adjointProduct (M : Tensor κ α)
  /-- The rows before a cut. -/
  | leading (cut : Int)
  /-- A vector continued by zeros to a length. -/
  | padded (length : Int)
  /-- A map that fails. -/
  | failing
  /-- A number, which is no map. -/
  | number (c : R)

namespace VectorMap

variable {m : Type → Type} {κ α R : Type} [Control R] [Kinds κ] [Entry α R κ]

/-- The rows of a tensor in reverse order; a tensor without axes is its own reversal. -/
def reverseRows (x : Tensor κ α) : Tensor κ α :=
  match x.shape with
  | [] => x
  | n :: rest =>
    -- Entry `i` lies in row `i / rest.prod`, and rows are contiguous.
    Tensor.tabulate x.kind x.shape fun i =>
      x.entry ((n - 1 - i / rest.prod) * rest.prod + i % rest.prod)

/-- A vector continued by zeros to a length.  A tensor that has as many entries
already is kept, whatever its shape. -/
def pad (length : Int) (x : Tensor κ α) : Except (Failure R) (Tensor κ α) :=
  if length < x.size || !x.hasAxes then .error .shapeMismatch
  else if length = x.size then .ok x
  else x.append (Tensor.zeros x.kind [length.toNat - x.size])

/-- The value of the map. -/
def apply (f : VectorMap R κ α) (x : Tensor κ α) : Except (Failure R) (Tensor κ α) :=
  match f with
  | identity => .ok x
  | multiple c => .ok (Tensor.scale c x)
  | reversed => .ok (reverseRows x)
  | product M => M.matmul x
  | adjointProduct M => M.adjointMatmul x
  | leading cut => x.leading cut
  | padded length => pad length x
  | failing => .error .callerFailed
  | number _ => .error .notAMap

/-- The map of a tensor and a direction that is `forward` in direction 1 and
`adjoint` in every other. -/
def modal (forward adjoint : VectorMap R κ α) (x : Tensor κ α) (mode : Int) :
    Except (Failure R) (Tensor κ α) :=
  if mode = Operator.forwardMode then forward.apply x else adjoint.apply x

/-- The map as a member of a list; a number is none. -/
def component [Monad m] [MonadLiftT (Except (Failure R)) m] (f : VectorMap R κ α) :
    Component m κ α :=
  match f with
  | number _ => .other
  | _ => .map fun x => liftM (f.apply x)

end VectorMap

end PrimalDual
