/-
  PrimalDual.Failure
  ──────────────────
  **WHAT CAN GO WRONG, AS CAUSES.**

  A computation of this library either delivers its value or stops with one
  `Failure`.  A failure says *what* was refused and carries the offending
  numbers; nothing in the library catches one, so the first failure of a run
  is its outcome.

  Two readings of a failure are fixed here:

      Failure.category   the kind of fault (a bad value, shapes that do not
                         fit, a division by zero, …)
      Failure.message    the sentence shown for it, for the checks that the
                         library states itself; faults of plain arithmetic
                         and of tensor shapes have none
-/

namespace PrimalDual

/-! ## §1. Stated counts. -/

/-- A count as a caller states it: an integer, or a real number, which most
uses refuse even if it is whole. -/
inductive Quantity (R : Type) where
  | whole (n : Int)
  | fractional (r : R)

namespace Quantity

variable {R : Type}

instance : Coe Int (Quantity R) := ⟨whole⟩

/-- The text of a stated count, given the text of a fractional one. -/
def text (realText : R → String) : Quantity R → String
  | whole n => toString n
  | fractional r => realText r

end Quantity

/-! ## §2. Causes. -/

/-- The kinds of fault. -/
inductive Failure.Category where
  /-- A value outside its range. -/
  | value
  /-- An operand of the wrong sort. -/
  | type
  /-- Tensors whose shapes or kinds do not fit together. -/
  | tensor
  /-- An axis or position that does not exist. -/
  | index
  /-- A name without an entry. -/
  | key
  | zeroDivision
  | overflow
  /-- An operation that this kind of entry does not have. -/
  | unsupported
  /-- An attempt to change a value that is fixed once made. -/
  | frozen
deriving DecidableEq, Repr

/-- The causes for which a computation stops. -/
inductive Failure (R : Type) where
  /-- An operator was asked for a direction other than 1 (forward) or 0 (adjoint). -/
  | unknownMode (mode : Int)
  /-- A matrix operator was given a tensor of `axes` axes. -/
  | matrixAxes (axes : Nat)
  /-- The block of a stacked operator has a negative size. -/
  | negativeBlock (q : Quantity R)
  /-- The range of the lower operator has `entries` entries where `q` were announced. -/
  | blockRange (entries : Int) (q : Quantity R)
  /-- A list that is not a pair of maps stands for an operator. -/
  | notAPair
  /-- A value of a sort that stands for no operator. -/
  | notAnOperator (sort : String)
  | sharpness (C1 C2 : R)
  | outputType (given : Quantity R)
  | shrinkRate (upsilon : R)
  | stepFactor (tau : R)
  | operatorBound (bound : R)
  /-- The analysis dimension is negative or not whole. -/
  | analysisDimension (q : Quantity R)
  /-- An analysis operator without its dimension. -/
  | analysisDimensionMissing
  /-- An analysis dimension without its operator. -/
  | analysisOperatorMissing (q : Quantity R)
  | iterationCounts (restarts steps : Int)
  | tolerances (epsilon delta : R)
  | zeroMeasurements
  | sparsity (k n : Int)
  | noiseNorm (norm : R)
  /-- A map supplied by the caller reported a failure. -/
  | callerFailed
  /-- Shapes that do not fit an operation on tensors. -/
  | shapeMismatch
  /-- Kinds of entries that do not fit an operation on tensors. -/
  | kindMismatch
  /-- A complex tensor where a real one is needed. -/
  | complexSignal
  /-- An order was asked of complex numbers. -/
  | unordered
  /-- A bound beyond the range of the entries that it is compared with. -/
  | boundRange
  /-- An axis outside the tensor's. -/
  | axisRange
  /-- A fractional number where a position is needed. -/
  | fractionalPosition
  /-- The sharpness constants were not given. -/
  | constantMissing
  /-- The bound of the operator norm is needed and not set. -/
  | boundMissing
  /-- A number was used as a map. -/
  | notAMap
  /-- An output type outside the table. -/
  | unknownOutputType
  | divisionByZero
  /-- A number beyond the range of its representation. -/
  | overflow
  /-- A real function outside its domain. -/
  | domain
  /-- Tensors of integers have no Euclidean norm. -/
  | integerNorm
  | frozenOptions
  /-- A random draw, or an array, that cannot have the size asked for. -/
  | drawSize

namespace Failure

variable {R : Type}

/-- The kind of fault behind a cause. -/
def category : Failure R → Category
  | notAPair | notAnOperator _ | fractionalPosition | constantMissing | boundMissing
  | notAMap | complexSignal => .type
  | shapeMismatch | kindMismatch | boundRange => .tensor
  | axisRange => .index
  | unknownOutputType => .key
  | divisionByZero => .zeroDivision
  | overflow => .overflow
  | integerNorm | unordered => .unsupported
  | frozenOptions => .frozen
  | _ => .value

/-! ## §3. Sentences. -/

/-- The sentence shown for a failure, given the text of a real number.  Faults
of arithmetic and of tensor operations have none. -/
def message (text : R → String) : Failure R → Option String
  | unknownMode mode =>
    some s!"mode must be 1 (forward) or 0 (adjoint), got {mode}"
  | matrixAxes axes => some s!"matrix must be 2D, got {axes}D"
  | negativeBlock q => some ("q must be non-negative, got " ++ q.text text)
  | blockRange entries q =>
    some (s!"range of B has {entries} entries, expected q=" ++ q.text text)
  | notAPair => some "operator pair must be (forward, adjoint) callables"
  | notAnOperator sort => some s!"cannot interpret {sort} as a linear operator"
  | sharpness C1 C2 =>
    some ("C1 and C2 must be positive, got C1=" ++ text C1 ++ ", C2=" ++ text C2)
  | outputType given =>
    some ("output_type must be one of [1, 2, 3, 4, 5], got " ++ given.text text)
  | shrinkRate upsilon => some ("upsilon must be in (0, 1), got " ++ text upsilon)
  | stepFactor tau => some ("tau must be positive, got " ++ text tau)
  | operatorBound bound => some ("L_A must be positive, got " ++ text bound)
  | analysisDimension q =>
    some ("q must be a non-negative integer, got " ++ q.text text)
  | analysisDimensionMissing =>
    some "q (dimension of the range of op_B) is required with op_B"
  | analysisOperatorMissing q => some ("q=" ++ q.text text ++ " given without op_B")
  | iterationCounts restarts steps =>
    some s!"n_iter and k_iter must be positive, got n_iter={restarts}, k_iter={steps}"
  | tolerances epsilon delta =>
    some ("epsilon and delta must be non-negative, got epsilon=" ++ text epsilon
      ++ ", delta=" ++ text delta)
  | zeroMeasurements => some "b must not be the zero vector"
  | sparsity k n => some s!"k must not exceed n, got k={k}, n={n}"
  | noiseNorm norm => some ("noise_norm must be non-negative, got " ++ text norm)
  | callerFailed => some "callback failed"
  | _ => none

end Failure

/-! ## §4. Computations that return. -/

/-- Both parts of a computation that returned have returned. -/
theorem bind_eq_ok {ε α β : Type} {x : Except ε α} {f : α → Except ε β} {b : β} :
    (x >>= f) = .ok b ↔ ∃ a, x = .ok a ∧ f a = .ok b := by
  constructor
  · intro h
    cases x with
    | error e => cases h
    | ok a => exact ⟨a, rfl, h⟩
  · rintro ⟨a, rfl, h⟩
    exact h

/-- A computation goes on with what its first part returned. -/
theorem bind_returns {ε α β : Type} {x : Except ε α} {f : α → Except ε β} {a : α} {b : β}
    (hx : x = .ok a) (hf : f a = .ok b) : (x >>= f) = .ok b :=
  bind_eq_ok.2 ⟨a, hx, hf⟩

/-- A computation whose result was rewritten has returned. -/
theorem map_eq_ok {ε α β : Type} {x : Except ε α} {f : α → β} {b : β} :
    f <$> x = .ok b ↔ ∃ a, x = .ok a ∧ f a = b := by
  constructor
  · intro h
    cases x with
    | error e => cases h
    | ok a =>
      cases h
      exact ⟨a, rfl, rfl⟩
  · rintro ⟨a, rfl, rfl⟩
    rfl

/-- A computation returns if its first part does and its second part does after it. -/
theorem exists_ok_bind {ε α β : Type} {x : Except ε α} {f : α → Except ε β}
    (hx : ∃ a, x = .ok a) (hf : ∀ a, ∃ b, f a = .ok b) : ∃ b, (x >>= f) = .ok b := by
  obtain ⟨a, ha⟩ := hx
  obtain ⟨b, hb⟩ := hf a
  exact ⟨b, bind_eq_ok.2 ⟨a, ha, hb⟩⟩

/-- A guard that was passed. -/
theorem guard_ok {ε β : Type} {c : Bool} {e : ε} {x : Except ε β} {a : β}
    (h : (if c = true then .error e else x) = .ok a) : c = false ∧ x = .ok a := by
  cases c with
  | false => exact ⟨rfl, h⟩
  | true => cases h

end PrimalDual
