import Dataflow.Lower.Compiled
import Dataflow.Node.Builtin
import Dataflow.Node.Scripted
import Dataflow.Graph.Cursor
import Dataflow.Graph.Tally
import Dataflow.Proofs.Graph.Arena
import Dataflow.Proofs.Digraph
import Dataflow.Proofs.Graph.Shape
import Dataflow.Proofs.Graph.History
import Dataflow.Proofs.Graph.DependencyOrder
import Dataflow.Proofs.Graph.Stability
import Dataflow.Proofs.Graph.Reference
import Dataflow.Proofs.Value.Scalar
import Dataflow.Proofs.Node.Builtin
import Dataflow.Proofs.Node.Result
import Dataflow.Proofs.Graph.Settled
import Dataflow.Proofs.Graph.Denotation
import Dataflow.Proofs.Graph.Transform
import Dataflow.Proofs.Graph.Held
import Dataflow.Proofs.Graph.Interpretation
import Dataflow.Proofs.Graph.Rendering
import Dataflow.Proofs.Code.Word
import Dataflow.Proofs.Code.Memory
import Dataflow.Proofs.Code.Body
import Dataflow.Proofs.Code.Machine
import Dataflow.Proofs.Code.Slot
import Dataflow.Proofs.Code.Growth
import Dataflow.Proofs.Code.Emit
import Dataflow.Proofs.Code.Activation
import Dataflow.Proofs.Code.LoopBlocks
import Dataflow.Proofs.Code.LoopRange
import Dataflow.Proofs.Code.CountedLoop
import Dataflow.Proofs.Code.Call
import Dataflow.Proofs.Code.Typing
import Dataflow.Proofs.Code.Helper
import Dataflow.Proofs.Code.Recording
import Dataflow.Proofs.Code.Assembly
import Dataflow.Proofs.Code.Alike
import Dataflow.Proofs.Code.Simulation
import Dataflow.Proofs.Code.Agreement
import Dataflow.Proofs.Code.Switches
import Dataflow.Proofs.Code.Exports
import Dataflow.Proofs.Lower.Storage
import Dataflow.Proofs.Lower.Access
import Dataflow.Proofs.Lower.ForEach
import Dataflow.Proofs.Lower.Builtin
import Dataflow.Proofs.Code.Bounds
import Dataflow.Proofs.Lower.Build
import Dataflow.Proofs.Lower.Compiled
import Dataflow.Lower.Fleet
import Dataflow.Proofs.Lower.Solution
import Dataflow.Proofs.Lower.Fleet
import Dataflow.Proofs.Ends
import Dataflow.Proofs.Code.Lined
import Dataflow.Proofs.Code.Checked
import Dataflow.Proofs.Code.Progress
import Dataflow.Proofs.Code.LoopProgress
import Dataflow.Proofs.Code.Conclusion
import Dataflow.Proofs.Lower.Progress
import Dataflow.Proofs.Lower.Sequence
import Dataflow.Proofs.Lower.Compilable
import Dataflow.Proofs.Lower.Regular
import Dataflow.Proofs.Lower.Stock
import Dataflow.Proofs.Lower.Releases
import Dataflow.Proofs.Sorting
import Dataflow.Proofs.Lower.ElementCode
import Dataflow.Proofs.Lower.Unrolled
import Dataflow.Proofs.Fails
import Dataflow.Proofs.Code.Operations
import Dataflow.Proofs.Code.Step
import Dataflow.Proofs.Code.Protocol
import Dataflow.Proofs.Code.Linking
import Dataflow.Proofs.Code.Stranded
import Dataflow.Proofs.Code.Roster
import Dataflow.Proofs.Code.Paths
import Dataflow.Proofs.Code.Ranges
import Dataflow.Proofs.Code.Retained
import Dataflow.Proofs.Code.Ledger
import Dataflow.Proofs.Code.Spare
import Dataflow.Proofs.Code.Refusal
import Dataflow.Proofs.Code.LoopRuns
import Dataflow.Proofs.Code.OpenLoops
import Dataflow.Proofs.Code.Rounds
import Dataflow.Proofs.Code.Listing
import Dataflow.Proofs.Graph.Cursor
import Dataflow.Proofs.Graph.Breach
import Dataflow.Proofs.Graph.Session
import Dataflow.Proofs.Graph.Selection
import Dataflow.Proofs.Graph.Consolidation
import Dataflow.Proofs.Graph.Elements
import Dataflow.Proofs.Precedence
import Dataflow.Proofs.Preorder
import Dataflow.Proofs.Code.Elements
import Dataflow.Proofs.Lower.Elements
import Dataflow.Proofs.Graph.Tally
import Dataflow.Proofs.Graph.Drawn
import Dataflow.Proofs.Graph.Fullness
import Dataflow.Proofs.Graph.Traversal
import Dataflow.Proofs.Code.Pools
import Dataflow.Proofs.Code.Blocks
