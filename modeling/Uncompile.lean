import Uncompile.C.Declaration
import Uncompile.C.Expr
import Uncompile.C.Stmt
import Uncompile.C.Text
import Uncompile.C.Type
import Uncompile.CommandLine
import Uncompile.Config
import Uncompile.Convention
import Uncompile.Dataflow.Dependencies
import Uncompile.Dataflow.Inputs
import Uncompile.Dataflow.Liveness
import Uncompile.Diagnostic
import Uncompile.Disassembler
import Uncompile.Effect
import Uncompile.Emission.BlockState
import Uncompile.Emission.Body
import Uncompile.Emission.Lowering
import Uncompile.Expr.Basic
import Uncompile.Expr.Linear
import Uncompile.Expr.Reduce
import Uncompile.Format.C
import Uncompile.Format.Machine
import Uncompile.Format.Program
import Uncompile.Format.Report
import Uncompile.Frame.Scope
import Uncompile.Frame.StackArgs
import Uncompile.Json.Basic
import Uncompile.Json.Decode
import Uncompile.Json.Reader
import Uncompile.Json.Writer
import Uncompile.Machine.Condition
import Uncompile.Machine.Instruction
import Uncompile.Machine.Lift
import Uncompile.Machine.Opcode
import Uncompile.Machine.Operand
import Uncompile.Main
import Uncompile.Operator
import Uncompile.OrderedSet
import Uncompile.Program.Backtrace
import Uncompile.Program.Basic
import Uncompile.Program.Builder
import Uncompile.Proofs.C.Lexing
import Uncompile.Proofs.C.Naming
import Uncompile.Proofs.C.Occurrence
import Uncompile.Proofs.C.Parsing
import Uncompile.Proofs.C.Printing
import Uncompile.Proofs.C.RoundTrip
import Uncompile.Proofs.C.Semantics
import Uncompile.Proofs.Closure
import Uncompile.Proofs.Dataflow.BackwardSearch
import Uncompile.Proofs.Dataflow.DeadWrites
import Uncompile.Proofs.Dataflow.Execution
import Uncompile.Proofs.Dataflow.InputPaths
import Uncompile.Proofs.Dataflow.LivePaths
import Uncompile.Proofs.Dataflow.Sweep
import Uncompile.Proofs.Emission.Accounts
import Uncompile.Proofs.Emission.CallFrame
import Uncompile.Proofs.Emission.CallOperands
import Uncompile.Proofs.Emission.CallResult
import Uncompile.Proofs.Emission.Callees
import Uncompile.Proofs.Emission.Commit
import Uncompile.Proofs.Emission.ControlFlow
import Uncompile.Proofs.Emission.Declared
import Uncompile.Proofs.Emission.DeclaredCallees
import Uncompile.Proofs.Emission.Demands
import Uncompile.Proofs.Emission.Evolution
import Uncompile.Proofs.Emission.FirstReads
import Uncompile.Proofs.Emission.FrameValues
import Uncompile.Proofs.Emission.InlineAssembly
import Uncompile.Proofs.Emission.LoopCounter
import Uncompile.Proofs.Emission.Requests
import Uncompile.Proofs.Emission.Segments
import Uncompile.Proofs.Emission.Sequencing
import Uncompile.Proofs.Emission.Simulation
import Uncompile.Proofs.Emission.SpecialWrites
import Uncompile.Proofs.Emission.StoreFlags
import Uncompile.Proofs.Emission.StraightBlock
import Uncompile.Proofs.Emission.Tracking
import Uncompile.Proofs.Emission.Values
import Uncompile.Proofs.Expr.Affine
import Uncompile.Proofs.Expr.Canonical
import Uncompile.Proofs.Expr.Dependency
import Uncompile.Proofs.Expr.Inequality
import Uncompile.Proofs.Expr.Meaning
import Uncompile.Proofs.Expr.Normal
import Uncompile.Proofs.Expr.Printable
import Uncompile.Proofs.Expr.Reduction
import Uncompile.Proofs.Expr.Regular
import Uncompile.Proofs.Expr.UnknownValues
import Uncompile.Proofs.Expr.Vocabulary
import Uncompile.Proofs.Frame.ArgumentSlots
import Uncompile.Proofs.Frame.CallSite
import Uncompile.Proofs.Frame.Distance
import Uncompile.Proofs.Frame.Release
import Uncompile.Proofs.Frame.Resolution
import Uncompile.Proofs.Frame.Slots
import Uncompile.Proofs.Machine.Division
import Uncompile.Proofs.Machine.FlagOrigin
import Uncompile.Proofs.Machine.Forms
import Uncompile.Proofs.Machine.LiftForm
import Uncompile.Proofs.Machine.LiftSound
import Uncompile.Proofs.Machine.NarrowFlags
import Uncompile.Proofs.Machine.PortReads
import Uncompile.Proofs.Machine.Processor
import Uncompile.Proofs.Machine.State
import Uncompile.Proofs.Machine.Views
import Uncompile.Proofs.Program.Conditions
import Uncompile.Proofs.Program.Coverage
import Uncompile.Proofs.Program.FunctionBlocks
import Uncompile.Proofs.Program.Rewind
import Uncompile.Proofs.Program.Search
import Uncompile.Proofs.Session.Arguments
import Uncompile.Proofs.Session.Atomic
import Uncompile.Proofs.Session.Convention
import Uncompile.Proofs.Session.Declarations
import Uncompile.Proofs.Session.Order
import Uncompile.Proofs.Traversal
import Uncompile.Recovered
import Uncompile.Register
import Uncompile.Session
import Uncompile.SortedMap
import Uncompile.Symbol
import Uncompile.Word
import Uncompile.Worklist
