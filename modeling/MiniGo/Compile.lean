import MiniGo.Analyzer.Program
import MiniGo.Assembly.Writer
import MiniGo.Emission.Class
import MiniGo.Grammar
import MiniGo.Typed.Dot

/-!
# The compiler

* `analyzeSource`: from a source text to a typed program.
* `generate`: from a typed tree to assembly.
* `generateTo`: the same, written line by line.
* `compile`: from a source text to assembly.
-/

namespace MiniGo

/-- Why a source text could not be compiled. -/
inductive CompileError where
  | syntactic (e : SyntaxError)
  | semantic (errors : List SemanticError)
  | generation (e : GenError)
deriving DecidableEq, Repr

/-- What an error says in one line. -/
def CompileError.message : CompileError → String
  | syntactic e => e.summary
  | semantic errors => s!"semantic analysis failed with {errors.length} error(s)"
  | generation e => e.message

/-- The typed program of a source text. -/
def analyzeSource (source : String) : Except CompileError Program :=
  match File.parse source with
  | .error e => .error (.syntactic e)
  | .ok file =>
    match analyze file with
    | .error errors => .error (.semantic errors)
    | .ok program => .ok program

/-- What code generation emits for a typed tree. -/
def emission (program : Node) (tables : Tables) (options : Options) : Emission Unit :=
  Emission.emitProgram { tables, options } program {}

/-- The assembly of a typed tree. -/
def generate (program : Node) (tables : Tables) (options : Options) : Except GenError String :=
  let emitted := emission program tables options
  emitted.result.map fun _ => Line.render emitted.lines

/-- Writes the assembly of a typed tree. A line that cannot be written ends the output, before any
error of code generation that would come later. -/
def generateTo {m : Type → Type} [Monad m] (w : Writer m) (program : Node) (tables : Tables)
    (options : Options) : m (Except OutputError Unit) :=
  let emitted := emission program tables options
  w.closing do
    match ← w.writeLines emitted.lines with
    | .error e => return .error e
    | .ok _ => return emitted.result.mapError .generation

/-- The assembly of a source text. -/
def compile (source : String) (options : Options) : Except CompileError String :=
  match analyzeSource source with
  | .error e => .error e
  | .ok program =>
    match generate program.root program.tables options with
    | .error e => .error (.generation e)
    | .ok text => .ok text

end MiniGo
