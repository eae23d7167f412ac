/-
  PrimalDual.Solver.Solve
  ───────────────────────
  **THE RESTARTED SOLVER.**

  Minimises `J x + ‖B x‖₁` subject to `‖A x - b‖₂ ≤ epsilon`, where `J` is
  known by its proximal map and the analysis term is optional.

      prepare     reads the operators, fills in the starts, stacks `[A; B]`,
                  makes sure of a norm bound and divides everything by `‖b‖`
      restarts    runs the restarts, each with its rescaling factor
      solve       both, and the result in the caller's units

  All arithmetic happens in the units in which `‖b‖ = 1`; every quantity that
  leaves the solver is multiplied by the scale again.
-/
import PrimalDual.NormEstimate
import PrimalDual.Solver.Progress
import PrimalDual.Solver.Restart

namespace PrimalDual

/-! ## §1. Requests and results. -/

/-- What a caller asks to be solved. -/
structure Request (m : Type → Type) (R κ α : Type) where
  A : Representation m R κ α
  b : Tensor κ α
  epsilon : R
  delta : R
  prox : Tensor κ α → R → m (Tensor κ α)
  /-- The primal start; zeros if absent. -/
  x0 : Option (Tensor κ α)
  /-- The dual start; zeros if absent. -/
  y0 : Option (Tensor κ α)
  /-- The number of restarts. -/
  nIter : Int
  /-- The number of steps of each restart. -/
  kIter : Int
  options : Options m R κ α
  /-- Is shown every primal iterate with its number, in the caller's units. -/
  callback : Option (Int → Tensor κ α → m Unit)

/-- What a run needs from outside besides the request. -/
structure Environment (m : Type → Type) (R κ α : Type) where
  /-- Draws the random start of a norm estimate. -/
  draw : List Nat → κ → m (Tensor κ α)
  /-- Receives the progress of the run. -/
  report : Progress R → m Unit

/-- The solution with the records of the run. -/
structure Solution (m : Type → Type) (R κ α : Type) where
  x : Tensor κ α
  y : Tensor κ α
  /-- The recorded iterates of each restart; empty unless they were stored. -/
  iterates : List (List (Tensor κ α))
  errors : List R
  nIter : Int
  kIter : Int
  /-- The options in force, with the bound that was used. -/
  options : Options m R κ α
  /-- `‖b‖`. -/
  scale : R
  /-- The rescaling factor of each restart. -/
  alHistory : List R
  /-- The target error of each restart, in the caller's units. -/
  epsHistory : List R

/-- A problem ready for its restarts. -/
structure Prepared (m : Type → Type) (R κ α : Type) where
  schedule : Schedule m R κ α
  start : RestartState R κ α

/-- What the restarts leave behind. -/
structure Trail (R κ α : Type) where
  records : List (RestartRecord R κ α)
  als : List R
  epss : List R

namespace Solver

variable {m : Type → Type} {κ α R : Type} [Control R] [Kinds κ] [Entry α R κ]
variable [Monad m] [MonadLiftT (Except (Failure R)) m]

/-! ## §2. Preparation. -/

/-- The checks of the counts and tolerances. -/
def checkRequest (r : Request m R κ α) : Except (Failure R) Unit :=
  if r.nIter < 1 || r.kIter < 1 then .error (.iterationCounts r.nIter r.kIter)
  else if Control.lt r.epsilon Control.zero || Control.lt r.delta Control.zero then
    .error (.tolerances r.epsilon r.delta)
  else .ok ()

/-- The operator of the measurements, with a vector as its range. -/
def measurement (r : Request m R κ α) : Except (Failure R) (Operator m R κ α) := do
  return .flattened (← r.A.toOperator) (r.b.shape.map Int.ofNat)

/-- The primal start: as given, or zeros shaped like `Aᴴ b`. -/
def primalStart (K : Operator m R κ α) (b : Tensor κ α) : Option (Tensor κ α) → m (Tensor κ α)
  | some x => pure x
  | none => do return (← K.adjoint b).zerosLike

/-- Operator and measurements with the analysis operator below and zeros as its target. -/
def stackAnalysis (K : Operator m R κ α) (b x0 : Tensor κ α) (q : Nat) :
    Option (Representation m R κ α) → m (Operator m R κ α × Tensor κ α)
  | none => pure (K, b)
  | some analysis => do
    let B ← liftM (analysis.toOperator : Except (Failure R) (Operator m R κ α))
    let image ← B.forward x0
    liftM do
      let stacked ← K.stack B (.whole q) none (some (image.shape.map Int.ofNat))
      return (stacked, ← b.append (Tensor.zeros b.kind [q]))

/-- Options with a bound of the operator norm: theirs, or an estimate. -/
def ensureBound (env : Environment m R κ α) (K : Operator m R κ α) (x0 : Tensor κ α)
    (o : Options m R κ α) : m (Options m R κ α) :=
  match o.bound with
  | some _ => pure o
  | none => do
    if o.display then env.report .estimating
    let bound ← NormEstimate.estimate env.draw K x0.shape NormEstimate.defaultIterations
      NormEstimate.defaultMargin x0.kind
    let o ← liftM (o.change fun s => { s with bound := some bound })
    if o.display then env.report (.estimated bound)
    return o

/-- Everything in the units in which `‖b‖ = 1`. -/
def normalise (r : Request m R κ α) (K : Operator m R κ α) (b x0 y0 : Tensor κ α)
    (o : Options m R κ α) : Except (Failure R) (Prepared m R κ α) := do
  let scale ← b.normValue
  if Control.eq scale Control.zero then throw .zeroMeasurements
  -- From here on every quantity is in the units of the scale.
  let b := b.divBy scale
  let epsilon ← Control.quotient r.epsilon scale
  let delta ← Control.quotient r.delta scale
  return {
    schedule := {
      b := b
      K := K
      epsilon := epsilon
      delta := delta
      prox := r.prox
      kIter := r.kIter
      options := o
      outputType :=
        -- A plain run returns averages; it differs only in its rescaling.
        .whole (if o.outputType = .plain then OutputType.averaged else o.outputType).number
      scale := scale
      callback := r.callback }
    start := ⟨x0.divBy scale, y0.divBy scale, o.C2 * (← b.normValue)⟩ }

/-- A request made ready for its restarts. -/
def prepare (env : Environment m R κ α) (r : Request m R κ α) : m (Prepared m R κ α) := do
  liftM (checkRequest r)
  let K ← liftM (measurement r)
  let b := r.b.flatten
  let x0 ← primalStart K b r.x0
  let (K, b) ← stackAnalysis K b x0 r.options.q r.options.analysis
  let y0 := (r.y0.getD b.zerosLike).flatten
  let o ← ensureBound env K x0 r.options
  liftM (normalise r K b x0 y0 o)

/-! ## §3. Restarts. -/

/-- The rescaling factor of the next restart: 1 in plain runs. -/
def rescale (s : Schedule m R κ α) (eps : R) : Except (Failure R) R :=
  if s.options.outputType = .plain then .ok Control.one
  else Rescaling.factor eps s.delta s.kIter s.options (.whole s.options.q)

/-- `n` further restarts after `j`. -/
def restarts (env : Environment m R κ α) (s : Schedule m R κ α) :
    (n j : Nat) → RestartState R κ α → m (RestartState R κ α × Trail R κ α)
  | 0, _, state => pure (state, ⟨[], [], []⟩)
  | n + 1, j, state => do
    let al ← liftM (rescale s state.eps)
    let eps := state.eps * s.scale
    if s.options.display then env.report (.restarting (j + 1) al eps)
    let (next, record) ← s.restart state al (j * s.kIter)
    let (final, trail) ← restarts env s n (j + 1) next
    return (final, ⟨record :: trail.records, al :: trail.als, eps :: trail.epss⟩)

/-- The report with which the restarts begin. -/
def opening (nIter : Int) (s : Schedule m R κ α) : Except (Failure R) (Progress R) := do
  let bound ← Rescaling.boundOf s.options
  return .started nIter s.kIter s.options.outputType bound (← Schedule.stepSize s.options)
    s.scale s.options.q

/-- The solution in the caller's units. -/
def solution (nIter : Int) (s : Schedule m R κ α) (final : RestartState R κ α)
    (trail : Trail R κ α) : Solution m R κ α where
  x := Tensor.scale s.scale final.psi
  y := Tensor.scale s.scale final.y
  iterates := if s.options.store then trail.records.map RestartRecord.iterates else []
  errors := trail.records.flatMap RestartRecord.errors
  nIter := nIter
  kIter := s.kIter
  options := s.options
  scale := s.scale
  alHistory := trail.als
  epsHistory := trail.epss

/-- Solves a request. -/
def solve (env : Environment m R κ α) (r : Request m R κ α) : m (Solution m R κ α) := do
  let ready ← prepare env r
  let s := ready.schedule
  let display := s.options.display
  if display then env.report (← liftM (opening r.nIter s))
  let (final, trail) ← restarts env s r.nIter.toNat 0 ready.start
  if display then env.report (.completed r.nIter s.kIter)
  return solution r.nIter s final trail

end Solver

end PrimalDual
