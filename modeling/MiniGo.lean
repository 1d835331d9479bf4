import MiniGo.Analysis.Declare
import MiniGo.Analysis.Expr
import MiniGo.Analysis.Literal
import MiniGo.Analysis.Program
import MiniGo.Analysis.Report
import MiniGo.Analysis.Stmt
import MiniGo.Analysis.Typing
import MiniGo.Analyzer.Expr
import MiniGo.Analyzer.Program
import MiniGo.Analyzer.State
import MiniGo.Analyzer.Stmt
import MiniGo.Assembly.Descriptor
import MiniGo.Assembly.Instr
import MiniGo.Assembly.Label
import MiniGo.Assembly.Sink
import MiniGo.Assembly.Writer
import MiniGo.Binary32.Basic
import MiniGo.Binary32.Printing
import MiniGo.Binary32.Reading
import MiniGo.Binary32.Rounding
import MiniGo.Binary32.Shortest
import MiniGo.Command.Arguments
import MiniGo.Command.FileSystem
import MiniGo.Command.Host
import MiniGo.Command.Path
import MiniGo.Command.Request
import MiniGo.Command.Session
import MiniGo.Compile
import MiniGo.Diagnostic.Code
import MiniGo.Diagnostic.GenError
import MiniGo.Diagnostic.SemanticError
import MiniGo.Diagnostic.SyntaxError
import MiniGo.Digits
import MiniGo.Emission.Basic
import MiniGo.Emission.Class
import MiniGo.Emission.Condition
import MiniGo.Emission.Stmt
import MiniGo.Emission.Value
import MiniGo.Emission.Variable
import MiniGo.Grammar
import MiniGo.Main
import MiniGo.Operator
import MiniGo.Source.Location
import MiniGo.Source.Span
import MiniGo.Symbol.Dump
import MiniGo.Symbol.Registry
import MiniGo.Symbol.Table
import MiniGo.Token.Basic
import MiniGo.Token.Lexer
import MiniGo.Token.Scan
import MiniGo.Tree.Expr
import MiniGo.Tree.Stmt
import MiniGo.Ty
import MiniGo.Typed.Dot
import MiniGo.Typed.Node
import MiniGo.Proofs.Analyzer.Agreement
import MiniGo.Proofs.Analyzer.Frame
import MiniGo.Proofs.WellTyped.Basic
import MiniGo.Proofs.WellTyped.Expr
import MiniGo.Proofs.Code.Basic
import MiniGo.Proofs.Code.Emission
import MiniGo.Proofs.Code.Program
import MiniGo.Proofs.ClassFile
import MiniGo.Proofs.Code.Labels
import MiniGo.Proofs.Machine.Basic
import MiniGo.Proofs.Machine.Run
import MiniGo.Proofs.Meaning.Inversion
import MiniGo.Proofs.Scopes.Additions
import MiniGo.Proofs.Names.Globals
import MiniGo.Proofs.Preservation
import MiniGo.Proofs.Shapes.Basic
import MiniGo.Proofs.Shapes.Code
import MiniGo.Proofs.Shapes.Method
import MiniGo.Proofs.Standing
import MiniGo.Proofs.Names.Functions
import MiniGo.Proofs.Linking
import MiniGo.Proofs.Flow
import MiniGo.Proofs.Depth
import MiniGo.Proofs.Machine.History
import MiniGo.Proofs.Results
import MiniGo.Proofs.Slots.Program
import MiniGo.Proofs.Syntax.Leaves
import MiniGo.Proofs.Syntax.RoundTrip
import MiniGo.Proofs.Syntax.Grouping
import MiniGo.Proofs.Represented.Program
import MiniGo.Proofs.Rounding
import MiniGo.Proofs.Lexing.Tokens
import MiniGo.Proofs.Widening.Code
import MiniGo.Proofs.Command.Session
import MiniGo.Proofs.Reordering.Program
import MiniGo.Proofs.Integers
import MiniGo.Proofs.Control.Emission
import MiniGo.Proofs.Control.Method
import MiniGo.Proofs.Machine.Operands
import MiniGo.Proofs.Frames.Accesses
import MiniGo.Proofs.Frames.Program
import MiniGo.Proofs.Scopes.Resolution
import MiniGo.Proofs.Machine.Execution
import MiniGo.Proofs.Machine.Storage
import MiniGo.Proofs.Defaults
import MiniGo.Proofs.Constants
import MiniGo.Proofs.Scopes.Registry
import MiniGo.Proofs.Reports
import MiniGo.Proofs.Strings.Lines
import MiniGo.Proofs.Lines
import MiniGo.Proofs.Literals.Program
import MiniGo.Proofs.Shortest
import MiniGo.Proofs.Graphs
import MiniGo.Proofs.Carets
import MiniGo.Proofs.Syntax.Progress
