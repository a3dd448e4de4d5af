import Dataflow.Constant
import Dataflow.Constants.Flat
import Dataflow.Constants.Propagation
import Dataflow.Definitions.Reaching
import Dataflow.Definitions.Set
import Dataflow.Domain
import Dataflow.Dominators.Equations
import Dataflow.Dominators.Set
import Dataflow.Environment
import Dataflow.Equation
import Dataflow.Error
import Dataflow.Flowgraph.Dot
import Dataflow.Flowgraph.Instruction
import Dataflow.Flowgraph.Program
import Dataflow.Format.Facts
import Dataflow.Format.Machine
import Dataflow.Format.Program
import Dataflow.Format.Solver
import Dataflow.Json.Basic
import Dataflow.Json.Codec
import Dataflow.Json.Text
import Dataflow.Json.Token
import Dataflow.Liveness.Equations
import Dataflow.Liveness.Interference
import Dataflow.Location
import Dataflow.Log
import Dataflow.Machine.InPlace
import Dataflow.Machine.Run
import Dataflow.Machine.State
import Dataflow.Operation
import Dataflow.Point
import Dataflow.PointsTo.Inclusion
import Dataflow.PointsTo.Saturation
import Dataflow.Proofs.Constants.Monotonicity
import Dataflow.Proofs.Constants.Soundness
import Dataflow.Proofs.Contract
import Dataflow.Proofs.Definitions.Paths
import Dataflow.Proofs.Definitions.Soundness
import Dataflow.Proofs.Dependable
import Dataflow.Proofs.Dominators.Paths
import Dataflow.Proofs.Flowgraph.Consistency
import Dataflow.Proofs.Flowgraph.Edits
import Dataflow.Proofs.Flowgraph.Path
import Dataflow.Proofs.Format.RoundTrip
import Dataflow.Proofs.Json.Codec
import Dataflow.Proofs.Json.Text
import Dataflow.Proofs.Json.Token
import Dataflow.Proofs.Liveness.Coloring
import Dataflow.Proofs.Liveness.Interference
import Dataflow.Proofs.Liveness.Paths
import Dataflow.Proofs.Liveness.Progress
import Dataflow.Proofs.Location
import Dataflow.Proofs.Machine.Effects
import Dataflow.Proofs.Machine.Execution
import Dataflow.Proofs.Machine.Failure
import Dataflow.Proofs.Machine.History
import Dataflow.Proofs.Machine.Lockstep
import Dataflow.Proofs.Machine.Orderly
import Dataflow.Proofs.Machine.StepLimit
import Dataflow.Proofs.Machine.Writes
import Dataflow.Proofs.Meet
import Dataflow.Proofs.Order
import Dataflow.Proofs.Outcome
import Dataflow.Proofs.Point
import Dataflow.Proofs.PointsTo.Andersen
import Dataflow.Proofs.PointsTo.CutOff
import Dataflow.Proofs.PointsTo.Flow
import Dataflow.Proofs.PointsTo.Soundness
import Dataflow.Proofs.PointsTo.Termination
import Dataflow.Proofs.Semilattice
import Dataflow.Proofs.Sets
import Dataflow.Proofs.Solver.Budget
import Dataflow.Proofs.Solver.CutOff
import Dataflow.Proofs.Solver.FixedPoint
import Dataflow.Proofs.Solver.Height
import Dataflow.Proofs.Solver.Iteration
import Dataflow.Proofs.Solver.Least
import Dataflow.Proofs.Solver.Ledger
import Dataflow.Proofs.Solver.MissingNames
import Dataflow.Proofs.Solver.Schedules
import Dataflow.Proofs.Solver.Stability
import Dataflow.Proofs.Termination
import Dataflow.Solver.Engine
import Dataflow.Solver.Options
import Dataflow.Solver.Readers
import Dataflow.Solver.Solve
import Dataflow.Solver.Sweep
import Dataflow.Solver.Worklist
