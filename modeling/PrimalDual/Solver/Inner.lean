/-
  PrimalDual.Solver.Inner
  ───────────────────────
  **PRIMAL-DUAL STEPS.**

  One step of the inner iteration is

      x' = prox (x - τ₁ Kᴴ y) τ₁
      y' = dual (y + τ₂ K (2 x' - x) - τ₂ b) (τ₂ ε)

  and a run of `n` steps also keeps the sums of its iterates, from which the
  averaged outputs are taken.  `Problem.advance` is the step alone;
  `Observer.observe` is what is shown and recorded after it.  The iterates
  never depend on what is observed.
-/
import PrimalDual.Prox
import PrimalDual.Solver.Options

namespace PrimalDual

/-! ## §1. The step. -/

/-- What stays the same throughout a run of steps. -/
structure Problem (m : Type → Type) (R κ α : Type) where
  /-- The measurements. -/
  b : Tensor κ α
  K : Operator m R κ α
  primalStep : R
  dualStep : R
  /-- The tolerance of the constraint. -/
  epsilon : R
  /-- The proximal map of the regulariser. -/
  prox : Tensor κ α → R → m (Tensor κ α)
  /-- The size of the analysis block of the dual variable. -/
  q : Quantity R

/-- The primal and dual iterate with the sums of all iterates after the start. -/
structure Iterate (κ α : Type) where
  x : Tensor κ α
  y : Tensor κ α
  xSum : Tensor κ α
  ySum : Tensor κ α

section Steps

variable {m : Type → Type} {κ α R : Type} [Control R] [Kinds κ] [Entry α R κ]
variable [Monad m] [MonadLiftT (Except (Failure R)) m]

/-- The start of a run: nothing is summed yet. -/
def Iterate.start (x y : Tensor κ α) : Iterate κ α := ⟨x, y, x.zerosLike, y.zerosLike⟩

namespace Problem

/-- The argument of the primal proximal map. -/
def primalArgument (p : Problem m R κ α) (x adjointY : Tensor κ α) :
    Except (Failure R) (Tensor κ α) :=
  x.sub (Tensor.scale p.primalStep adjointY)

/-- The primal iterate carried over its last change, `2 x' - x`. -/
def extrapolate (x' x : Tensor κ α) : Except (Failure R) (Tensor κ α) :=
  (Tensor.scale Control.two x').sub x

/-- The next dual iterate, from the image of the extrapolated primal one. -/
def dualUpdate (p : Problem m R κ α) (y image : Tensor κ α) : Except (Failure R) (Tensor κ α) := do
  let moved ← y.add (Tensor.scale p.dualStep image)
  Prox.dual (← moved.sub (Tensor.scale p.dualStep p.b)) (p.dualStep * p.epsilon) p.q

/-- One primal-dual step. -/
def advance (p : Problem m R κ α) (s : Iterate κ α) : m (Iterate κ α) := do
  let adjointY ← p.K.adjoint s.y
  let x ← p.prox (← liftM (p.primalArgument s.x adjointY)) p.primalStep
  let image ← p.K.forward (← liftM (extrapolate (R := R) x s.x))
  let y ← liftM (p.dualUpdate s.y image)
  let xSum ← liftM (s.xSum.add x : Except (Failure R) (Tensor κ α))
  let ySum ← liftM (s.ySum.add y : Except (Failure R) (Tensor κ α))
  return ⟨x, y, xSum, ySum⟩

end Problem

/-! ## §2. Observation. -/

/-- How a run is observed. -/
structure Observer (m : Type → Type) (R κ α : Type) where
  /-- The rescaling factor of the run: iterates are divided by it. -/
  al : R
  /-- The factor from there to the caller's units. -/
  scale : R
  outputType : OutputType
  store : Bool
  error : Option (Tensor κ α → m R)
  callback : Option (Int → Tensor κ α → m Unit)
  /-- The number of steps taken before this run. -/
  offset : Int

/-- What one step leaves in the records. -/
structure Record (R κ α : Type) where
  snapshot : Option (Tensor κ α)
  error : Option R

namespace Observer

/-- The recorded primal iterate after `k` steps: the last one or the average. -/
def snapshot (o : Observer m R κ α) (k : Nat) (s : Iterate κ α) : Tensor κ α :=
  if o.outputType.averagesPrimal then s.xSum.divBy (o.al * Control.ofInt k)
  else s.x.divBy o.al

/-- The last primal iterate in the caller's units. -/
def shown (o : Observer m R κ α) (s : Iterate κ α) : Tensor κ α :=
  (Tensor.scale o.scale s.x).divBy o.al

/-- Records and shows the iterate after `k` steps. -/
def observe (o : Observer m R κ α) (k : Nat) (s : Iterate κ α) : m (Record R κ α) := do
  let snapshot := o.snapshot k s
  let error ← match o.error with
    | none => pure none
    | some f => some <$> f (Tensor.scale o.scale snapshot)
  match o.callback with
    | none => pure ()
    | some f => f (o.offset + k) (o.shown s)
  return ⟨if o.store then some snapshot else none, error⟩

end Observer

/-! ## §3. Runs. -/

/-- What a run of steps delivers. -/
structure InnerResult (R κ α : Type) where
  x : Tensor κ α
  y : Tensor κ α
  iterates : List (Tensor κ α)
  errors : List R

namespace Inner

/-- `n` further steps after `k`, each observed. -/
def steps (p : Problem m R κ α) (o : Observer m R κ α) :
    (n k : Nat) → Iterate κ α → m (Iterate κ α × List (Record R κ α))
  | 0, _, s => pure (s, [])
  | n + 1, k, s => do
    -- A step is complete, sums included, before anything of it is shown.
    let next ← p.advance s
    let record ← o.observe (k + 1) next
    let (final, records) ← steps p o n (k + 1) next
    return (final, record :: records)

/-- The output of a run of `kIter` steps that ended in `s`: last iterates or averages. -/
def result (type : OutputType) (kIter : Int) (s : Iterate κ α) (records : List (Record R κ α)) :
    InnerResult R κ α where
  x := if type.averagesPrimal then s.xSum.divBy (Control.ofInt kIter) else s.x
  y := if type.averagesDual then s.ySum.divBy (Control.ofInt kIter) else s.y
  iterates := records.filterMap Record.snapshot
  errors := records.filterMap Record.error

/-- A run of `kIter` primal-dual steps from `(x, y)`. -/
def run (p : Problem m R κ α) (o : Observer m R κ α) (kIter : Int) (x y : Tensor κ α) :
    m (InnerResult R κ α) := do
  let (final, records) ← steps p o kIter.toNat 0 (.start x y)
  return result o.outputType kIter final records

end Inner

end Steps

end PrimalDual
