/-
  PrimalDual.Solver.Options
  ─────────────────────────
  **WHAT A CALLER CHOOSES.**

  `Settings` is a caller's choice as stated, with nothing checked.  `Options`
  is a choice that passed every check; `Settings.check` is the one way from
  the former to the latter, and changing options means stating the changed
  settings and checking them again.

  A dimension may be stated as a real number.  If that number is whole the
  choice is accepted (`Settings.accept`), but a real number is no length, so
  no run can use it and no options are made of it.

  The checks reject a number that is known to be outside its range.  An
  undefined number is outside no range, so only a check that asks for
  membership in a range (the shrink rate) rejects it.
-/
import PrimalDual.Operator.Representation

namespace PrimalDual

/-! ## §1. Which iterates a restart returns. -/

/-- Whether a restart returns its last iterates or their averages. -/
inductive OutputType where
  | last
  | averagedPrimal
  | averagedDual
  | averaged
  /-- Averages, and no rescaling between restarts. -/
  | plain
deriving DecidableEq, Repr

namespace OutputType

/-- The number of an output type. -/
def number : OutputType → Int
  | last => 1
  | averagedPrimal => 2
  | averagedDual => 3
  | averaged => 4
  | plain => 5

/-- All output types, by number. -/
def all : List OutputType := [last, averagedPrimal, averagedDual, averaged, plain]

/-- The output type with a number, stated as an integer. -/
def ofNumber? {R : Type} : Quantity R → Option OutputType
  | .whole n => all.find? fun t => t.number == n
  | .fractional _ => none

/-- The output type with a number, which has to be in the table. -/
def find {R : Type} (given : Quantity R) : Except (Failure R) OutputType :=
  match ofNumber? given with
  | some type => .ok type
  | none => .error .unknownOutputType

/-- The primal output is the average of the primal iterates. -/
def averagesPrimal : OutputType → Bool
  | last | averagedDual => false
  | averagedPrimal | averaged | plain => true

/-- The dual output is the average of the dual iterates. -/
def averagesDual : OutputType → Bool
  | last | averagedPrimal => false
  | averagedDual | averaged | plain => true

theorem ofNumber?_number {R : Type} (t : OutputType) :
    ofNumber? (R := R) (.whole t.number) = some t := by
  cases t <;> rfl

theorem find_number {R : Type} (t : OutputType) :
    (find (.whole t.number) : Except (Failure R) OutputType) = .ok t := by
  unfold find
  rw [ofNumber?_number]

/-- The number tells the output types apart. -/
theorem number_inj {t t' : OutputType} (h : t.number = t'.number) : t = t' := by
  have hfound := ofNumber?_number (R := Unit) t
  rw [h, ofNumber?_number] at hfound
  exact (Option.some.inj hfound).symm

end OutputType

/-! ## §2. Settings and options. -/

/-- A choice as a caller states it.  The two sharpness constants have no default. -/
structure Settings (m : Type → Type) (R κ α : Type) where
  C1 : Option R
  C2 : Option R
  store : Bool
  outputType : Quantity R
  upsilon : R
  /-- An upper bound of the norm of the (stacked) operator. -/
  bound : Option R
  tau : R
  display : Bool
  /-- A measure of the error of a primal iterate, in the caller's units. -/
  error : Option (Tensor κ α → m R)
  /-- The analysis operator, whose output is driven into the unit ball. -/
  analysis : Option (Representation m R κ α)
  /-- The number of entries in the range of the analysis operator. -/
  q : Quantity R

/-- A choice that passed the checks. -/
structure Options (m : Type → Type) (R κ α : Type) where
  /-- The sharpness constant of the objective gap. -/
  C1 : R
  /-- The sharpness constant of the feasibility gap. -/
  C2 : R
  /-- The primal iterate of every step is recorded. -/
  store : Bool
  outputType : OutputType
  /-- The rate at which the target error shrinks. -/
  upsilon : R
  bound : Option R
  /-- Steps are `tau / bound`. -/
  tau : R
  /-- Progress is reported. -/
  display : Bool
  error : Option (Tensor κ α → m R)
  analysis : Option (Representation m R κ α)
  q : Nat

section Checks

variable {m : Type → Type} {R κ α : Type} [Control R]

/-- Settings with every default. -/
def Settings.initial : Settings m R κ α where
  C1 := none
  C2 := none
  store := false
  outputType := .whole 1
  upsilon := Control.invE
  bound := none
  tau := Control.one
  display := true
  error := none
  analysis := none
  q := .whole 0

/-- A stated count that is a natural number, be it an integer or a real number that is whole. -/
def Quantity.toNat? : Quantity R → Except (Failure R) Nat
  | .whole n => if n < 0 then .error (.analysisDimension (.whole n)) else .ok n.toNat
  | .fractional r =>
    if Control.isNaN r then .error .domain
    else if !Control.isFinite r then .error .overflow
    else if Control.eq (Control.ofInt (Control.ceil r)) r && !Control.lt r Control.zero then
      .ok (Control.ceil r).toNat
    else .error (.analysisDimension (.fractional r))

@[simp] theorem Quantity.toNat?_natCast (n : Nat) :
    (Quantity.whole (n : Int) : Quantity R).toNat? = .ok n := by
  have hn : ¬ (n : Int) < 0 := by omega
  unfold toNat?
  dsimp only
  rw [if_neg hn, Int.toNat_natCast]

/-- The checks of a caller's choice, in their order. -/
def Settings.accept (s : Settings m R κ α) : Except (Failure R) (Options m R κ α) :=
  match s.C1, s.C2 with
  | some C1, some C2 => do
    if Control.le C1 Control.zero || Control.le C2 Control.zero then
      throw (.sharpness C1 C2)
    let some outputType := OutputType.ofNumber? s.outputType | throw (.outputType s.outputType)
    if !(Control.lt Control.zero s.upsilon && Control.lt s.upsilon Control.one) then
      throw (.shrinkRate s.upsilon)
    if Control.le s.tau Control.zero then throw (.stepFactor s.tau)
    if let some bound := s.bound then
      if Control.le bound Control.zero then throw (.operatorBound bound)
    -- The analysis operator and its dimension come together or not at all.
    let q ← s.q.toNat?
    if s.analysis.isSome && q == 0 then throw .analysisDimensionMissing
    if s.analysis.isNone && q != 0 then throw (.analysisOperatorMissing s.q)
    return {
      C1 := C1
      C2 := C2
      store := s.store
      outputType := outputType
      upsilon := s.upsilon
      bound := s.bound
      tau := s.tau
      display := s.display
      error := s.error
      analysis := s.analysis
      q := q }
  | _, _ => .error .constantMissing

/-- The options of a choice that is accepted.  Of a dimension that is a real number there are
none: whatever run it is meant for fails where a block of that length is needed. -/
def Settings.check (s : Settings m R κ α) : Except (Failure R) (Options m R κ α) :=
  match s.q with
  | .whole _ => s.accept
  | .fractional _ => do
    let _ ← s.accept
    throw .fractionalPosition

/-- An integer dimension is a length. -/
theorem Settings.check_of_whole {s : Settings m R κ α} {n : Int} (hq : s.q = .whole n) :
    s.check = s.accept := by
  unfold check
  rw [hq]

/-- The settings that state the given options. -/
def Options.settings (o : Options m R κ α) : Settings m R κ α where
  C1 := some o.C1
  C2 := some o.C2
  store := o.store
  outputType := .whole o.outputType.number
  upsilon := o.upsilon
  bound := o.bound
  tau := o.tau
  display := o.display
  error := o.error
  analysis := o.analysis
  q := .whole o.q

/-- Options with a change to their settings, checked again. -/
def Options.change (o : Options m R κ α) (f : Settings m R κ α → Settings m R κ α) :
    Except (Failure R) (Options m R κ α) :=
  (f o.settings).check

/-- Options are fixed once made: assigning a field is refused. -/
def Options.assign (_ : Options m R κ α) (_ : Settings m R κ α → Settings m R κ α) :
    Except (Failure R) (Options m R κ α) :=
  .error .frozenOptions

end Checks

end PrimalDual
