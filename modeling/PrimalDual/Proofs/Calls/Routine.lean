/-
  PrimalDual.Proofs.Calls.Routine
  ───────────────────────────────
  **WHICH COMPUTATIONS REFUSE A REQUEST.**

  Five failures are verdicts of the solver on its request: on the counts, on
  the tolerances, on the range of the analysis operator, on an estimated
  bound and on measurements that are zero.  All of them are reached while a
  request is made ready.  A computation is *routine* if it fails with none
  of them, and everything that the restarts compute is routine:

      dualUpdate      the dual step
      rescale         the rescaling factor of a restart
      opening         the report with which the restarts begin
-/
import PrimalDual.Solver.Solve

namespace PrimalDual

variable {R κ α β γ : Type}

/-! ## §1. Refusals. -/

/-- The failure is a verdict on the request. -/
def Failure.Refuses : Failure R → Prop
  | iterationCounts _ _ | tolerances _ _ | blockRange _ _ | operatorBound _ | zeroMeasurements => True
  | _ => False

/-- The computation never refuses its request. -/
def Routine (x : Except (Failure R) β) : Prop := ∀ e, x = .error e → ¬ e.Refuses

namespace Routine

theorem ok (a : β) : Routine (.ok a : Except (Failure R) β) := by
  intro e h
  cases h

theorem error {e : Failure R} (h : ¬ e.Refuses) : Routine (.error e : Except (Failure R) β) := by
  intro e' he
  cases he
  exact h

/-- Routine computations may follow each other. -/
theorem bind {x : Except (Failure R) β} {f : β → Except (Failure R) γ} (hx : Routine x)
    (hf : ∀ a, Routine (f a)) : Routine (x >>= f) := by
  cases x with
  | ok a => exact hf a
  | error e => exact .error (hx e rfl)

/-- A guard whose failure is no verdict. -/
theorem guard {c : Bool} {e : Failure R} {x : Except (Failure R) β} (he : ¬ e.Refuses)
    (hx : Routine x) : Routine (if c = true then .error e else x) := by
  cases c with
  | false => exact hx
  | true => exact .error he

end Routine

variable [Control R]

/-! ## §2. Guarded arithmetic. -/

namespace Control

/-- A division by zero is no verdict. -/
theorem quotient_routine (a b : R) : Routine (quotient a b) := .guard id (.ok _)

/-- A count that the arithmetic cannot hold is an overflow, which is no verdict. -/
theorem ofWhole_routine (n : Int) : Routine (ofWhole n : Except (Failure R) R) := by
  unfold ofWhole
  split
  · exact .ok _
  · exact .error id

theorem square_routine (a : R) : Routine (square a) := .guard id (.ok _)

theorem root_routine (a : R) : Routine (root a) := .guard id (.ok _)

/-- What has no ceiling, as infinity, raises an error of the arithmetic. -/
theorem ceiling_routine (a : R) : Routine (ceiling a) := by
  unfold ceiling
  refine .guard id ?_
  split
  · exact .ok _
  · exact .error id

/-- A quantity of either sort is read without a verdict. -/
theorem ofQuantity_routine (q : Quantity R) : Routine (ofQuantity q) := by
  cases q with
  | whole n => exact ofWhole_routine n
  | fractional r => exact .ok r

end Control

/-! ## §3. Tensors. -/

namespace Tensor

omit [Control R] in
/-- Shapes that cannot be stretched to a common one are an error of the tensors, not a verdict. -/
theorem zipWith_routine {δ : Type} (kind : κ) (f : β → γ → δ) (da : β) (db : γ) (x : Tensor κ β)
    (y : Tensor κ γ) : Routine (zipWith kind f da db x y : Except (Failure R) _) := by
  unfold zipWith
  split
  · exact .ok _
  · split
    · exact .error id
    · exact .ok _

omit [Control R] in
/-- A shape that the entries do not fill is an error of the tensors as well. -/
theorem reshape_routine (x : Tensor κ β) (shape : List Int) :
    Routine (x.reshape shape : Except (Failure R) _) := by
  unfold reshape
  split
  · exact .error id
  · split
    · exact .ok _
    · exact .error id

variable [Kinds κ] [Entry α R κ]

theorem add_routine (x y : Tensor κ α) : Routine (x.add y : Except (Failure R) _) :=
  zipWith_routine _ _ _ _ _ _

theorem sub_routine (x y : Tensor κ α) : Routine (x.sub y : Except (Failure R) _) :=
  zipWith_routine _ _ _ _ _ _

theorem mul_routine (x y : Tensor κ α) : Routine (x.mul y : Except (Failure R) _) :=
  zipWith_routine _ _ _ _ _ _

omit [Control R] [Entry α R κ] in
/-- Complex numbers are not ordered, which is an error of the tensors. -/
theorem bounded_routine (f : κ → R → α → α) (bound : R) (x : Tensor κ α) :
    Routine (bounded f bound x) := .guard id (.ok _)

/-- Integers have no norm, which is an error of the tensors. -/
theorem norm_routine (x : Tensor κ α) : Routine (x.norm : Except (Failure R) _) :=
  .guard id (.ok _)

section Rows

omit [Kinds κ]

/-- A tensor without axes has no rows, which is an error of the tensors. -/
theorem rows_routine (x : Tensor κ α) (first count : Nat) :
    Routine (x.rows first count : Except (Failure R) _) := by
  unfold rows
  split
  · exact .error id
  · exact .ok _

theorem leading_routine (x : Tensor κ α) (cut : Int) :
    Routine (x.leading cut : Except (Failure R) _) := rows_routine _ _ _

theorem trailing_routine (x : Tensor κ α) (cut : Int) :
    Routine (x.trailing cut : Except (Failure R) _) := rows_routine _ _ _

end Rows

omit [Control R] in
/-- A fractional length of the trailing block is an error of the cut, not a verdict. -/
theorem cutBefore_routine (n : Nat) (q : Quantity R) : Routine (cutBefore n q) := by
  cases q with
  | whole q => exact .ok _
  | fractional r => exact .error id

/-- Only vectors are joined; anything else is an error of the tensors. -/
theorem append_routine (x y : Tensor κ α) : Routine (x.append y : Except (Failure R) _) := by
  unfold append
  split
  · exact .ok _
  · exact .error id

end Tensor

/-! ## §4. Steps. -/

open Tensor

section Steps

variable [Kinds κ] [Entry α R κ]

namespace Prox

theorem shrink_routine (rho : R) (v : Tensor κ α) : Routine (shrink rho v) :=
  (norm_routine v).bind fun _ => (bounded_routine _ _ _).bind fun _ => mul_routine _ _

theorem project_routine (v : Tensor κ α) : Routine (project v : Except (Failure R) _) :=
  (bounded_routine _ _ _).bind fun _ => mul_routine _ _

/-- The dual map cuts, shrinks, projects and joins, and none of these refuses a request. -/
theorem dual_routine (y : Tensor κ α) (rho : R) (q : Quantity R) : Routine (dual y rho q) := by
  unfold dual
  apply (cutBefore_routine _ _).bind
  intro cut
  apply (leading_routine _ _).bind
  intro lead
  apply (shrink_routine _ _).bind
  intro shrunk
  split
  · exact reshape_routine _ _
  · apply (trailing_routine _ _).bind
    intro trail
    apply (project_routine trail).bind
    intro projected
    exact (append_routine shrunk projected).bind fun _ => reshape_routine _ _

end Prox

/-- **The dual step is routine**, whatever the dual estimate and the image are. -/
theorem Problem.dualUpdate_routine {m : Type → Type} (p : Problem m R κ α) (y image : Tensor κ α) :
    Routine (p.dualUpdate y image) :=
  (add_routine _ _).bind fun _ => (sub_routine _ _).bind fun _ => Prox.dual_routine _ _ _

end Steps

/-! ## §5. Restarts. -/

variable {m : Type → Type}

omit [Control R] in
/-- An output type that does not exist is no verdict, since it is first read by a restart. -/
theorem OutputType.find_routine (given : Quantity R) : Routine (OutputType.find given) := by
  unfold OutputType.find
  split
  · exact .ok _
  · exact .error id

namespace Rescaling

omit [Control R] in
/-- Options without a bound fail with an error of their own. -/
theorem boundOf_routine (o : Options m R κ α) : Routine (boundOf o) := by
  unfold boundOf
  split
  · exact .ok _
  · exact .error id

/-- **The rescaling factor is routine.**  Its divisions, roots and ceilings fail as arithmetic
does. -/
theorem factor_routine (eps delta : R) (kIter : Int) (o : Options m R κ α) (q : Quantity R) :
    Routine (factor eps delta kIter o q) := by
  have hroot : Routine (sharpnessRoot o.C2 q) :=
    (Control.square_routine _).bind fun _ => (Control.ofQuantity_routine _).bind fun _ =>
      Control.root_routine _
  have hneeded : ∀ root, Routine (neededSteps o root) := fun _ =>
    (boundOf_routine o).bind fun _ => (Control.quotient_routine _ _).bind fun _ =>
      Control.ceiling_routine _
  apply hroot.bind
  intro root
  apply (hneeded root).bind
  intro needed
  apply (Control.ofWhole_routine _).bind
  intro _
  apply (Control.quotient_routine _ _).bind
  intro beta
  exact (Control.ofWhole_routine _).bind fun _ => (Control.quotient_routine _ _).bind fun _ => .ok _

end Rescaling

theorem Schedule.stepSize_routine (o : Options m R κ α) : Routine (Schedule.stepSize o) :=
  (Rescaling.boundOf_routine o).bind fun _ => Control.quotient_routine _ _

namespace Solver

/-- **The rescaling of a restart is routine.** -/
theorem rescale_routine (s : Schedule m R κ α) (eps : R) : Routine (rescale s eps) := by
  unfold rescale
  split
  · exact .ok _
  · exact Rescaling.factor_routine _ _ _ _ _

/-- **The report with which the restarts begin is routine.** -/
theorem opening_routine (nIter : Int) (s : Schedule m R κ α) : Routine (opening nIter s) :=
  (Rescaling.boundOf_routine _).bind fun _ => (Schedule.stepSize_routine _).bind fun _ => .ok _

end Solver

end PrimalDual
