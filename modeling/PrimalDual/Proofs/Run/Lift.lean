/-
  PrimalDual.Proofs.Run.Lift
  ──────────────────────────
  **OPERATORS OF PURE MAPS IN OTHER MONADS.**

  Most maps that callers supply have no effect but that they may fail.  An
  operator made of such maps is carried over to any monad in which a failure
  can be raised, and there it does what it did before:

      forward_lift, adjoint_lift    application
      toOperator_lift, stack_lift   reading and stacking
      advance_lift                  one primal-dual step
      estimate_lift                 the norm estimate

  So what a run does in a monad that keeps books is read off the same run
  without them.
-/
import PrimalDual.Proofs.Exact.Arithmetic

namespace PrimalDual

variable {n : Type → Type} {R κ α : Type}
variable [Monad n] [MonadLiftT (Except (Failure R)) n]

/-! ## §1. Operators. -/

/-- The operator with its maps carried over to another monad. -/
def Operator.lift : Operator (Except (Failure R)) R κ α → Operator n R κ α
  | .matrix M => .matrix M
  | .identity => .identity
  | .difference axis => .difference axis
  | .convolution c => .convolution c
  | .maps f g => .maps (fun x => liftM (f x)) fun y => liftM (g y)
  | .modal f => .modal fun x mode => liftM (f x mode)
  | .flattened op s => .flattened op.lift s
  | .stacked A B q => .stacked A.lift B.lift q

namespace Operator

section Application

variable [Control R] [Kinds κ] [Entry α R κ]
variable [LawfulMonadLiftT (Except (Failure R)) n]

/-- An operator that is carried over returns what it returned and fails as it failed. -/
theorem forward_lift (op : Operator (Except (Failure R)) R κ α) (x : Tensor κ α) :
    (op.lift : Operator n R κ α).forward x = liftM (op.forward x) := by
  induction op with
  | matrix M => rfl
  | identity => exact (monadLift_pure x).symm
  | difference axis => rfl
  | convolution c => rfl
  | maps f g => rfl
  | modal f => rfl
  | flattened op s ih =>
    unfold lift forward
    rw [ih]
    simp only [liftM, monadLift_bind, monadLift_pure]
  | stacked A B q ihA ihB =>
    unfold lift forward
    rw [ihA, ihB]
    simp only [liftM, monadLift_bind]
    rfl

/-- The adjoint of an operator that is carried over is its adjoint, carried over. -/
theorem adjoint_lift (op : Operator (Except (Failure R)) R κ α) (y : Tensor κ α) :
    (op.lift : Operator n R κ α).adjoint y = liftM (op.adjoint y) := by
  induction op generalizing y with
  | matrix M => rfl
  | identity => exact (monadLift_pure y).symm
  | difference axis => rfl
  | convolution c => rfl
  | maps f g => rfl
  | modal f => rfl
  | flattened op s ih =>
    unfold lift adjoint
    simp only [ih, liftM, monadLift_bind]
    rfl
  | stacked A B q ihA ihB =>
    unfold lift adjoint
    simp only [ihA, ihB, liftM, monadLift_bind]
    rfl

end Application

omit [Monad n] in
/-- An operator whose range is read in a shape can be carried over before or after. -/
theorem inShape_lift (op : Operator (Except (Failure R)) R κ α) (shape : Option (List ℤ)) :
    ((op.inShape shape).lift : Operator n R κ α) = op.lift.inShape shape := by
  cases shape <;> rfl

omit [Monad n] in
/-- Operators may be carried over before they are stacked or after. -/
theorem stack_lift [Control R] (A B : Operator (Except (Failure R)) R κ α) (q : Quantity R)
    (shapeA shapeB : Option (List ℤ)) :
    ((A.lift : Operator n R κ α).stack B.lift q shapeA shapeB)
      = Operator.lift <$> A.stack B q shapeA shapeB := by
  unfold stack
  simp only [← inShape_lift]
  -- Both sides pass the same checks, which do not look at the operators.
  cases q <;> cases shapeB <;> dsimp only <;> split_ifs <;> rfl

end Operator

/-! ## §2. Representations. -/

/-- A list member with its map carried over to another monad. -/
def Component.lift : Component (Except (Failure R)) κ α → Component n κ α
  | .map f => .map fun x => liftM (f x)
  | .other => .other

/-- The representation with its maps carried over to another monad. -/
def Representation.lift : Representation (Except (Failure R)) R κ α → Representation n R κ α
  | .operator op => .operator op.lift
  | .matrix M => .matrix M
  | .array M => .array M
  | .components parts => .components (parts.map Component.lift)
  | .list parts => .list (parts.map Component.lift)
  | .modal f => .modal fun x mode => liftM (f x mode)
  | .other sort => .other sort

omit [Monad n] in
/-- A matrix is the same operator in every monad. -/
theorem Operator.ofMatrix_lift (M : Tensor κ α) :
    (ofMatrix M : Except (Failure R) (Operator n R κ α)) = Operator.lift <$> ofMatrix M := by
  unfold Operator.ofMatrix
  split <;> rfl

omit [Monad n] in
/-- Two maps that are carried over are the operator of two maps, carried over. -/
theorem Representation.ofParts_lift (parts : List (Component (Except (Failure R)) κ α)) :
    (ofParts (parts.map Component.lift) : Except (Failure R) (Operator n R κ α))
      = Operator.lift <$> ofParts parts := by
  -- Only exactly two maps are a pair.
  match parts with
  | [] => rfl
  | [.map _] | [.other] => rfl
  | [.map _, .map _] | [.map _, .other] | [.other, .map _] | [.other, .other] => rfl
  | .map _ :: .map _ :: _ :: _ | .map _ :: .other :: _ :: _ | .other :: _ :: _ :: _ => rfl

omit [Monad n] in
/-- A representation that is carried over stands for the operator that is carried over. -/
theorem Representation.toOperator_lift (r : Representation (Except (Failure R)) R κ α) :
    (r.lift : Representation n R κ α).toOperator = Operator.lift <$> r.toOperator := by
  cases r with
  | operator op => rfl
  | matrix M | array M => exact Operator.ofMatrix_lift M
  | components parts | list parts => exact ofParts_lift parts
  | modal f => rfl
  | other sort => rfl

/-! ## §3. Steps and estimates. -/

/-- The inner problem with its maps carried over to another monad. -/
def Problem.lift (p : Problem (Except (Failure R)) R κ α) : Problem n R κ α where
  b := p.b
  K := p.K.lift
  primalStep := p.primalStep
  dualStep := p.dualStep
  epsilon := p.epsilon
  prox x t := liftM (p.prox x t)
  q := p.q

section Estimate

variable [Control R] [Kinds κ] [Entry α R κ]
variable [LawfulMonadLiftT (Except (Failure R)) n]

/-- **A step with maps that are carried over is the step, carried over.** -/
theorem Problem.advance_lift (p : Problem (Except (Failure R)) R κ α) (s : Iterate κ α) :
    (p.lift : Problem n R κ α).advance s = liftM (p.advance s) := by
  unfold advance lift
  simp only [Operator.forward_lift, Operator.adjoint_lift, liftM, monadLift_bind, monadLift_pure]
  rfl

namespace NormEstimate

/-- One iteration applies both directions of the operator and has no other effect. -/
theorem image_lift (K : Operator (Except (Failure R)) R κ α) (v : Tensor κ α) :
    (image K.lift v : n (Tensor κ α × R)) = liftM (image K v) := by
  unfold image
  simp only [Operator.forward_lift, Operator.adjoint_lift, liftM, monadLift_bind, monadLift_pure]
  rfl

/-- By induction, the iterations with `K.lift` are those with `K`, carried over. -/
theorem iterate_lift (K : Operator (Except (Failure R)) R κ α) (margin : R) (k : ℕ)
    (v : Tensor κ α) (bound : R) :
    (iterate K.lift margin k v bound : n R) = liftM (iterate K margin k v bound) := by
  induction k generalizing v bound with
  | zero => exact (monadLift_pure bound).symm
  | succ k ih =>
    unfold iterate
    simp only [image_lift, ih, liftM, monadLift_bind]

/-- **The estimate with maps that are carried over is the estimate, carried over**, if its draw
is. -/
theorem estimate_lift (draw : List ℕ → κ → Except (Failure R) (Tensor κ α))
    (K : Operator (Except (Failure R)) R κ α) (shape : List ℕ) (iterations : ℤ) (margin : R)
    (kind : κ) :
    (estimate (fun s k => liftM (draw s k)) K.lift shape iterations margin kind : n R)
      = liftM (estimate draw K shape iterations margin kind) := by
  unfold estimate
  simp only [iterate_lift, liftM, monadLift_bind]
  rfl

end NormEstimate

end Estimate

end PrimalDual
