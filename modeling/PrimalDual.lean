import PrimalDual.Arithmetic.Machine
import PrimalDual.Solver.Journal
import PrimalDual.Operator.VectorMap
import PrimalDual.TestProblem.Summary
import PrimalDual.Text.Report
import PrimalDual.Text.Shortest
import PrimalDual.Proofs.Inner.FixedPoint
import PrimalDual.Proofs.Inner.Stability
import PrimalDual.Proofs.Restart.Progress
import PrimalDual.Proofs.Run.Rescaled
import PrimalDual.Proofs.Run.DualBox
import PrimalDual.Proofs.Run.History
import PrimalDual.Proofs.Operator.Circular
import PrimalDual.Proofs.Operator.Language
import PrimalDual.Proofs.Operator.SignalShape
import PrimalDual.Proofs.Run.Targets
import PrimalDual.Proofs.Run.Plain
import PrimalDual.Proofs.Run.Causality
import PrimalDual.Proofs.Coordinates.Basis
import PrimalDual.Proofs.Coordinates.Flattened
import PrimalDual.Proofs.Calls.Attended
import PrimalDual.Proofs.Calls.Interruption
import PrimalDual.Proofs.Calls.Order
import PrimalDual.Proofs.Norm.Bracket
import PrimalDual.Proofs.Prox.Firm
import PrimalDual.Proofs.Inner.StepRatio
import PrimalDual.Proofs.Calls.DualStart
import PrimalDual.Proofs.Run.Concatenation
import PrimalDual.Proofs.Norm.Growth
import PrimalDual.Proofs.Restart.Cap
import PrimalDual.Proofs.Operator.Nesting
import PrimalDual.Proofs.Operator.Vertical
import PrimalDual.Proofs.Run.Cone
import PrimalDual.Proofs.Operator.Difference
import PrimalDual.Proofs.Operator.Blur
import PrimalDual.Proofs.Calls.Forms
import PrimalDual.Proofs.Operator.ImageShape
import PrimalDual.Proofs.Run.Shapes
import PrimalDual.Proofs.Calls.Ranges
import PrimalDual.Proofs.TestProblem.Staircase
import PrimalDual.Proofs.TestProblem.Measurements
