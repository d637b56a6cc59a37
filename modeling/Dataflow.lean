import Dataflow.Cli.Files
import Dataflow.Main
import Dataflow.Oracle.Script
import Dataflow.Toolchain.Run
import Dataflow.Proofs.Placement
import Dataflow.Proofs.Consistent
import Dataflow.Proofs.History
import Dataflow.Proofs.WalkHistory
import Dataflow.Proofs.Path
import Dataflow.Proofs.Scoping
import Dataflow.Proofs.Safety
import Dataflow.Proofs.Journey
import Dataflow.Proofs.Meaning
import Dataflow.Proofs.Join
import Dataflow.Proofs.Decision
import Dataflow.Proofs.Redraw
import Dataflow.Proofs.Yields
import Dataflow.Proofs.Declared
import Dataflow.Proofs.Soundness
import Dataflow.Proofs.ReadBack
import Dataflow.Proofs.TypeText
import Dataflow.Proofs.Coverage
import Dataflow.Proofs.Signatures
import Dataflow.Proofs.CppCalls
import Dataflow.Proofs.CallLimit
import Dataflow.Proofs.Exclusive
import Dataflow.Proofs.Moments
import Dataflow.Proofs.Wiring
import Dataflow.Proofs.Instances
import Dataflow.Proofs.Reuse
import Dataflow.Proofs.OracleLife
import Dataflow.Proofs.Application
import Dataflow.Proofs.FloorDivision
import Dataflow.Proofs.Assignment
import Dataflow.Proofs.PartialApplication
import Dataflow.Proofs.Canonical
import Dataflow.Proofs.CppArithmetic
import Dataflow.Proofs.TupleOrder
import Dataflow.Proofs.FunctionValues
import Dataflow.Proofs.Division
import Dataflow.Proofs.Irrefutable
import Dataflow.Proofs.ReturnTypes
import Dataflow.Proofs.PatternText
import Dataflow.Proofs.Comparison
import Dataflow.Proofs.Declarations
import Dataflow.Proofs.SourceText
import Dataflow.Proofs.SourceTypes
import Dataflow.Proofs.Prompts
import Dataflow.Proofs.Loading
import Dataflow.Proofs.BuildCommands
