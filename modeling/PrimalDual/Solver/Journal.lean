/-
  PrimalDual.Solver.Journal
  ─────────────────────────
  **RUNS THAT KEEP A JOURNAL.**

  `Session` is the monad in which a run is carried out and observed from
  outside: it may stop with a failure, and it keeps a journal of the calls
  that left the solver, which survives a failure.  The maps of this module
  write what happens to them into the journal; `Probe` supplies the random
  start of a norm estimate from a table.
-/
import PrimalDual.Regulariser
import PrimalDual.Solver.Solve

namespace PrimalDual

/-! ## §1. The journal. -/

/-- The calls that left the solver, each list in the order of the calls. -/
structure Journal (R κ α : Type) where
  /-- The iterates shown, with their numbers. -/
  shown : Array (Int × Tensor κ α)
  /-- The random draws: shape and kind. -/
  draws : Array (List Nat × κ)
  progress : Array (Progress R)
  /-- The number of calls of the proximal map. -/
  proxCalls : Nat
  /-- The step of the last of these calls. -/
  lastStep : Option R

/-- The empty journal. -/
def Journal.empty {R κ α : Type} : Journal R κ α := ⟨#[], #[], #[], 0, none⟩

/-- A computation that may fail and keeps a journal. -/
abbrev Session (R κ α : Type) : Type → Type := ExceptT (Failure R) (StateM (Journal R κ α))

namespace Session

variable {κ α R β : Type} [Control R] [Kinds κ] [Entry α R κ]

/-- Runs a session from an empty journal. -/
def run (s : Session R κ α β) : Except (Failure R) β × Journal R κ α := s .empty

/-- Shows an iterate: it is written into the journal. -/
def note (k : Int) (x : Tensor κ α) : Session R κ α Unit :=
  modify fun j => { j with shown := j.shown.push (k, x) }

/-- Receives a progress event: it is written into the journal. -/
def report (p : Progress R) : Session R κ α Unit :=
  modify fun j => { j with progress := j.progress.push p }

/-- The proximal map of a regulariser whose calls are counted.  The call with
number `failAt` fails. -/
def prox (r : Regulariser R κ α) (failAt : Option Int) (x : Tensor κ α) (t : R) :
    Session R κ α (Tensor κ α) := do
  modify fun j => { j with proxCalls := j.proxCalls + 1, lastStep := some t }
  let calls := (← get).proxCalls
  if failAt = some (calls : Int) then throw .callerFailed
  liftM (r.prox x t)

end Session

/-! ## §2. Random starts from a table. -/

/-- The real and imaginary parts of a random start, repeated as often as
needed; without any, two fixed sequences in the unit interval. -/
structure Probe (R : Type) where
  pairs : Option (Array (R × R))

namespace Probe

variable {κ α R : Type} [Control R]

/-- The fraction `((a i + b) mod 64 + 1) / 64`. -/
def fixed (a b i : Nat) : R := Control.ofInt ((a * i + b) % 64 + 1 : Nat) / Control.ofInt 64

/-- Entry `i` of the start. -/
def pair (p : Probe R) (i : Nat) : R × R :=
  match p.pairs with
  | some pairs => pairs.getD (i % pairs.size) (Control.zero, Control.zero)
  | none => (fixed 37 11 i, fixed 29 5 i)

/-- The start of a shape and kind, with entries assembled from their parts. -/
def start (assemble : κ → R → R → α) (p : Probe R) (kind : κ) (shape : List Nat) :
    Tensor κ α :=
  Tensor.tabulate kind shape fun i => assemble kind (p.pair i).1 (p.pair i).2

/-- A draw of the start, which is written into the journal. -/
def draw (assemble : κ → R → R → α) (p : Probe R) (shape : List Nat) (kind : κ) :
    Session R κ α (Tensor κ α) := do
  modify fun j => { j with draws := j.draws.push (shape, kind) }
  return p.start assemble kind shape

end Probe

end PrimalDual
