/-
  PrimalDual.Text.Report
  ──────────────────────
  **THE PROGRESS OF A RUN AS TEXT.**

  Each event of a run appends its text to the report.  A table has one row
  for each restart: its number in a column of seven characters, rescaling
  factor and target error in columns of twelve, two blanks apart, between
  two rules of 35 dashes.
-/
import PrimalDual.Solver.Progress
import PrimalDual.Text.Scientific

namespace PrimalDual

namespace Report

/-- A text moved to the right end of a column. -/
def column (width : Nat) (s : String) : String :=
  String.ofList (List.replicate (width - s.length) ' ') ++ s

/-- The rule above and below the rows of the table. -/
def rule : String := String.ofList (List.replicate 35 '-')

/-- One row of the table. -/
def row (restart al eps : String) : String :=
  column 7 restart ++ "  " ++ column 12 al ++ "  " ++ column 12 eps ++ "\n"

/-- The text that an event appends. -/
def text : Progress Float → String
  | .estimating => "Computing the norm of K... "
  | .estimated bound => "upper bound is " ++ Scientific.text 6 bound ++ "\n"
  | .started nIter kIter outputType bound step scale q =>
    let type := outputType.number
    "WARPd (restarted primal-dual iterations)\n"
      ++ s!"  Restarts: {nIter}, inner iterations: {kIter}, output type: {type}\n"
      ++ "  ||K|| <= " ++ Scientific.text 4 bound
      ++ ", step sizes: tau1=tau2=" ++ Scientific.text 4 step ++ "\n"
      ++ "  Scale ||b||: " ++ Scientific.text 4 scale ++ s!", analysis dimension q: {q}\n"
      ++ "\n"
      ++ row "Restart" "al" "eps"
      ++ rule ++ "\n"
  | .restarting j al eps =>
    row (toString j) (Scientific.text 4 al) (Scientific.text 4 eps)
  | .completed nIter kIter =>
    let steps := nIter * kIter
    rule ++ s!"\nCompleted {nIter} restarts ({steps} iterations).\n"

/-- The text of a sequence of events. -/
def texts (events : List (Progress Float)) : String := String.join (events.map text)

end Report

end PrimalDual
