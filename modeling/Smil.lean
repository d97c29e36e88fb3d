import Smil.Text.Blank
import Smil.Text.BreakClass
import Smil.Text.Cluster
import Smil.Text.Backspace
import Smil.Text.Decimal
import Smil.Text.Edit
import Smil.Text.Lines
import Smil.Text.Utf8
import Smil.Span
import Smil.Operator
import Smil.Sigil
import Smil.Token
import Smil.Cursor
import Smil.Error
import Smil.Expr.Basic
import Smil.Expr.Yard
import Smil.Expr.Display
import Smil.Expr.Parser
import Smil.Bytecode.Opcode
import Smil.Bytecode.Chunk
import Smil.Bytecode.Listing
import Smil.Codegen
import Smil.Value.Basic
import Smil.Value.Operate
import Smil.Store.Heap
import Smil.Store.Stack
import Smil.Store.Table
import Smil.Machine.Fault
import Smil.Machine.Sink
import Smil.Machine.Instruction
import Smil.Machine.Basic
import Smil.Machine.Run
import Smil.Interpreter
import Smil.Console.Style
import Smil.Console.Help
import Smil.Console.Folder
import Smil.Console.Command
import Smil.Console.Session
import Smil.Console.Perform
import Smil.Main
import Smil.Proofs.Words
import Smil.Proofs.Assembly
import Smil.Proofs.Generation
import Smil.Proofs.Relocation
import Smil.Proofs.Reuse
import Smil.Proofs.Refusals
import Smil.Proofs.Execution
import Smil.Proofs.Evaluator
import Smil.Proofs.Runs
import Smil.Proofs.Simulation
import Smil.Proofs.Effect
import Smil.Proofs.OperandHeight
import Smil.Proofs.OperandDiscipline
import Smil.Proofs.Chains
import Smil.Proofs.Names
import Smil.Proofs.Grammar
import Smil.Proofs.Scanning
import Smil.Proofs.Terms
import Smil.Proofs.Nodes
import Smil.Proofs.ReaderParts
import Smil.Proofs.ReaderLogic
import Smil.Proofs.ReaderInvariants
import Smil.Proofs.Consumption
import Smil.Proofs.Budgets
import Smil.Proofs.PrecedenceTree
import Smil.Proofs.Rendering
import Smil.Proofs.ParsedTrees
import Smil.Proofs.SizeLimits
import Smil.Proofs.Change
import Smil.Proofs.Sessions
import Smil.Proofs.Failures
import Smil.Proofs.Contents
import Smil.Proofs.Decoding
import Smil.Proofs.WellFormed
import Smil.Proofs.Splitting
import Smil.Proofs.Tables
import Smil.Proofs.Frames
import Smil.Proofs.Aliasing
import Smil.Proofs.Binding
import Smil.Proofs.RenamedCode
import Smil.Proofs.Renaming
import Smil.Proofs.FiniteMap
import Smil.Proofs.Hashing
import Smil.Proofs.Places
import Smil.Proofs.Lexemes
import Smil.Proofs.Positions
import Smil.Proofs.EndMarker
import Smil.Proofs.Lines
import Smil.Proofs.Truncation
import Smil.Proofs.Spans
import Smil.Proofs.InputCount
import Smil.Proofs.CommandLine
import Smil.Proofs.Carets
import Smil.Proofs.Numerals
import Smil.Proofs.NumeralShapes
import Smil.Proofs.Editing
import Smil.Proofs.Removal
import Smil.Proofs.TextLimit
import Smil.Proofs.ResultSizes
import Smil.Proofs.OperatorWords
import Smil.Proofs.DigitLoop
import Smil.Proofs.Rotation
import Smil.Proofs.FrontParts
import Smil.Proofs.OperatorErrors
import Smil.Proofs.Joining
import Smil.Proofs.IntegerArithmetic
import Smil.Proofs.LastInFirstOut
import Smil.Proofs.Descent
import Smil.Proofs.Outcomes
import Smil.Proofs.Termination
