import ClosureVM.Code.Assembly
import ClosureVM.Node.Render
import ClosureVM.Session
import ClosureVM.Symbol.Forest
import ClosureVM.Proofs.Text.Splitting
import ClosureVM.Proofs.Code.Scanning
import ClosureVM.Proofs.Code.Layout
import ClosureVM.Proofs.Code.Continuation
import ClosureVM.Proofs.Machine.Activation
import ClosureVM.Proofs.Machine.Refinement
import ClosureVM.Proofs.Machine.Lockstep
import ClosureVM.Proofs.Machine.Runs
import ClosureVM.Proofs.Compiler.Translation
import ClosureVM.Proofs.Compiler.Writing
import ClosureVM.Proofs.Compiler.Choices
import ClosureVM.Proofs.Compiler.Functions
import ClosureVM.Proofs.Compiler.Correspondence
import ClosureVM.Proofs.Code.Checking
import ClosureVM.Proofs.Compiler.Checked
import ClosureVM.Proofs.Compiler.Interrupted
import ClosureVM.Proofs.Machine.Typing
import ClosureVM.Proofs.Session.History
import ClosureVM.Proofs.Session.Safety
import ClosureVM.Proofs.Machine.Frames
import ClosureVM.Proofs.Machine.Termination
import ClosureVM.Proofs.Session.Termination
import ClosureVM.Proofs.Session.Incremental
import ClosureVM.Proofs.Evaluation.Datum
import ClosureVM.Proofs.Evaluation.Evaluator
import ClosureVM.Proofs.Symbol.Capture
import ClosureVM.Proofs.Evaluation.Scoping
import ClosureVM.Proofs.Evaluation.Denotation
import ClosureVM.Proofs.Evaluation.Scope
import ClosureVM.Proofs.Evaluation.Simulation
import ClosureVM.Proofs.Code.RoundTrip
import ClosureVM.Proofs.Code.Boundaries
import ClosureVM.Proofs.Code.Ordering
import ClosureVM.Proofs.Compiler.Composition
import ClosureVM.Proofs.Session.Rejection
import ClosureVM.Proofs.Compiler.Naming
import ClosureVM.Proofs.Compiler.Ordered
import ClosureVM.Proofs.Compiler.Production
import ClosureVM.Proofs.Machine.Contents
import ClosureVM.Proofs.Machine.Settling
import ClosureVM.Proofs.Session.SingleAssignment
import ClosureVM.Proofs.Evaluation.Steps
import ClosureVM.Proofs.Evaluation.Endings
import ClosureVM.Proofs.Evaluation.Realization
import ClosureVM.Proofs.Evaluation.Phrases
import ClosureVM.Proofs.Evaluation.Calls
import ClosureVM.Proofs.Evaluation.Correctness
import ClosureVM.Proofs.Machine.Alike
import ClosureVM.Proofs.Session.Limits
import ClosureVM.Proofs.Session.StaleSlots
import ClosureVM.Proofs.Machine.Changes
import ClosureVM.Proofs.Machine.Bounds
import ClosureVM.Proofs.Code.Alignment
import ClosureVM.Proofs.Machine.Tracing
import ClosureVM.Proofs.Value.Words
import ClosureVM.Proofs.Machine.Words
import ClosureVM.Proofs.Session.Words
import ClosureVM.Proofs.Code.Heights
import ClosureVM.Proofs.Compiler.Placement
import ClosureVM.Proofs.Compiler.Verification
import ClosureVM.Proofs.Machine.Nesting
import ClosureVM.Proofs.Session.Calls
import ClosureVM.Proofs.Code.Binding
import ClosureVM.Proofs.Compiler.Binding
import ClosureVM.Proofs.Machine.Binding
import ClosureVM.Proofs.Session.Captures
import ClosureVM.Proofs.Compiler.Tasks
import ClosureVM.Proofs.Compiler.Desugaring
import ClosureVM.Proofs.Symbol.Renaming
import ClosureVM.Proofs.Compiler.Renaming
import ClosureVM.Proofs.Symbol.Resolution
import ClosureVM.Proofs.Symbol.Forest
import ClosureVM.Proofs.Symbol.Visibility
import ClosureVM.Proofs.Compiler.OpenJumps
import ClosureVM.Proofs.Compiler.Acceptance
import ClosureVM.Proofs.Symbol.Agreement
import ClosureVM.Proofs.Symbol.Marks
import ClosureVM.Proofs.Machine.HashLiterals
import ClosureVM.Proofs.Machine.StackTrace
import ClosureVM.Proofs.Machine.Transparency
import ClosureVM.Proofs.Value.Arithmetic
import ClosureVM.Proofs.Text.Spacing
import ClosureVM.Proofs.Code.Assembling
import ClosureVM.Proofs.Compiler.Records
import ClosureVM.Proofs.Compiler.Bookkeeping
import ClosureVM.Proofs.Evaluation.Reads
import ClosureVM.Proofs.Evaluation.Coincidence
import ClosureVM.Proofs.Evaluation.SkippedCode
