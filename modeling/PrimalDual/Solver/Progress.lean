/-
  PrimalDual.Solver.Progress
  ──────────────────────────
  **WHAT A RUN REPORTS WHILE IT WORKS.**

  A run that displays its progress reports a sequence of events.  They are
  values; `PrimalDual.Text.Report` writes them as text.
-/
import PrimalDual.Solver.Options

namespace PrimalDual

/-- An event in the course of a run. -/
inductive Progress (R : Type) where
  /-- The norm of the operator is about to be estimated. -/
  | estimating
  | estimated (bound : R)
  /-- The restarts are about to begin. -/
  | started (nIter kIter : Int) (outputType : OutputType) (bound step scale : R) (q : Nat)
  /-- Restart number `j` is about to begin. -/
  | restarting (j : Nat) (al eps : R)
  | completed (nIter kIter : Int)

end PrimalDual
