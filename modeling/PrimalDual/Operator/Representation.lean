/-
  PrimalDual.Operator.Representation
  ──────────────────────────────────
  **THE FORMS IN WHICH AN OPERATOR IS GIVEN.**

  A caller may hand over an operator as such, a matrix (as a tensor or as an
  array), a pair of maps (as a tuple or as a list), or one map of a tensor and
  a direction.  `Representation.toOperator` asks for these forms in this order,
  reads the first that applies as the operator it stands for, and refuses
  everything else.
-/
import PrimalDual.Operator.Basic

namespace PrimalDual

/-- A member of a tuple or a list that may stand for an operator. -/
inductive Component (m : Type → Type) (κ α : Type) where
  | map (f : Tensor κ α → m (Tensor κ α))
  | other

/-- What a caller hands over as an operator. -/
inductive Representation (m : Type → Type) (R κ α : Type) where
  | operator (op : Operator m R κ α)
  /-- A tensor. -/
  | matrix (M : Tensor κ α)
  /-- An array, with the entries of a tensor. -/
  | array (M : Tensor κ α)
  /-- A tuple. -/
  | components (parts : List (Component m κ α))
  | list (parts : List (Component m κ α))
  /-- A value that is none of these and can be called. -/
  | modal (apply : Tensor κ α → Int → m (Tensor κ α))
  /-- A value that cannot be called either, with the name of its sort. -/
  | other (sort : String)

namespace Representation

variable {m : Type → Type} {R κ α : Type}

/-- The operator of two maps; more or fewer members, or others, are refused. -/
def ofParts : List (Component m κ α) → Except (Failure R) (Operator m R κ α)
  | [.map f, .map g] => .ok (.maps f g)
  | _ => .error .notAPair

/-- The operator that a representation stands for. -/
def toOperator : Representation m R κ α → Except (Failure R) (Operator m R κ α)
  -- An operator can be called, too, so it is asked for before the values that only can be called.
  | operator op => .ok op
  | matrix M => Operator.ofMatrix M
  | array M => Operator.ofMatrix M
  | components parts => ofParts parts
  | list parts => ofParts parts
  | modal f => .ok (.modal f)
  | other sort => .error (.notAnOperator sort)

/-- A representation of an operator is read as that operator, so reading twice
is the same as reading once. -/
theorem toOperator_operator (op : Operator m R κ α) :
    (operator op).toOperator = (.ok op : Except (Failure R) _) := rfl

end Representation

end PrimalDual
