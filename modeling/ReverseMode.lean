import ReverseMode.Compiled.Basic
import ReverseMode.Compiled.Batch
import ReverseMode.Compiled.Buffer
import ReverseMode.Compiled.Parametric
import ReverseMode.Data
import ReverseMode.Data.Reader
import ReverseMode.Data.Writer
import ReverseMode.Error
import ReverseMode.Function
import ReverseMode.Function.Catalogue
import ReverseMode.Log
import ReverseMode.Operation
import ReverseMode.Operation.Rule
import ReverseMode.Program.Basic
import ReverseMode.Program.Instruction
import ReverseMode.Scalar
import ReverseMode.Sweep
import ReverseMode.Tape.Basic
import ReverseMode.Tape.Codec
import ReverseMode.Tape.Interpreter
import ReverseMode.Tape.Lowering
import ReverseMode.Tape.Sweep
import ReverseMode.Term.Arithmetic
import ReverseMode.Term.Graph
import ReverseMode.Term.Node
import ReverseMode.Term.Task
import ReverseMode.Term.Walk
import ReverseMode.Text.Decimal
import ReverseMode.Text.Hidden
import ReverseMode.Text.Quoted
import ReverseMode.Proofs.Binary64
import ReverseMode.Proofs.Compiled.Agreement
import ReverseMode.Proofs.Compiled.Frame
import ReverseMode.Proofs.Compiled.History
import ReverseMode.Proofs.Compiled.Independence
import ReverseMode.Proofs.Compiled.Lengths
import ReverseMode.Proofs.Compiled.Outcome
import ReverseMode.Proofs.Compiled.Parallel
import ReverseMode.Proofs.Compiled.Parametric
import ReverseMode.Proofs.Compiled.Restored
import ReverseMode.Proofs.Compiled.Safety
import ReverseMode.Proofs.Integer
import ReverseMode.Proofs.Lowering.Callbacks
import ReverseMode.Proofs.Lowering.Dual
import ReverseMode.Proofs.Lowering.Emission
import ReverseMode.Proofs.Lowering.Gradients
import ReverseMode.Proofs.Lowering.Hits
import ReverseMode.Proofs.Lowering.Layout
import ReverseMode.Proofs.Lowering.Loop
import ReverseMode.Proofs.Lowering.Output
import ReverseMode.Proofs.Lowering.Overlap
import ReverseMode.Proofs.Lowering.Refusal
import ReverseMode.Proofs.Lowering.Renumber
import ReverseMode.Proofs.Lowering.Run
import ReverseMode.Proofs.Lowering.Shape
import ReverseMode.Proofs.Lowering.Values
import ReverseMode.Proofs.Lowering.Work
import ReverseMode.Proofs.Outcome
import ReverseMode.Proofs.Program.Code
import ReverseMode.Proofs.Program.Forward
import ReverseMode.Proofs.Program.Gather
import ReverseMode.Proofs.Program.History
import ReverseMode.Proofs.Program.Paths
import ReverseMode.Proofs.Program.Refinement
import ReverseMode.Proofs.Program.Registers
import ReverseMode.Proofs.Program.Renumber
import ReverseMode.Proofs.Program.Reorder
import ReverseMode.Proofs.Program.Safety
import ReverseMode.Proofs.Program.Schedule
import ReverseMode.Proofs.Sweep
import ReverseMode.Proofs.Tape.Adjoints
import ReverseMode.Proofs.Tape.Construction
import ReverseMode.Proofs.Tape.Encoding
import ReverseMode.Proofs.Tape.Equations
import ReverseMode.Proofs.Tape.History
import ReverseMode.Proofs.Tape.Interpreter
import ReverseMode.Proofs.Tape.Partials
import ReverseMode.Proofs.Tape.Paths
import ReverseMode.Proofs.Tape.Plan
import ReverseMode.Proofs.Tape.Reachable
import ReverseMode.Proofs.Tape.Renumber
import ReverseMode.Proofs.Tape.Reuse
import ReverseMode.Proofs.Tape.Safety
import ReverseMode.Proofs.Tape.Storage
import ReverseMode.Proofs.Tape.Transpose
import ReverseMode.Proofs.Tape.WellFormed
import ReverseMode.Proofs.Tape.Windows
import ReverseMode.Proofs.Term.Expression
import ReverseMode.Proofs.Term.Order
import ReverseMode.Proofs.Term.Tangent
import ReverseMode.Proofs.Term.Text
import ReverseMode.Proofs.Term.Traversal
import ReverseMode.Proofs.Term.Work
import ReverseMode.Proofs.Text.Decimal
import ReverseMode.Proofs.Text.Phrase
import ReverseMode.Proofs.Text.Shortest
