import MiniGo.Command.Arguments
import MiniGo.Command.Path
import MiniGo.Command.Request
import MiniGo.Compile
import MiniGo.Symbol.Dump

/-!
# A run of the command

What the command asks for, one request after the other. A result is written to a temporary file in
the directory of its target, which is put in place when all of it has been written.

* `writeOutput`: writes a file by way of a temporary file.
* `compileSession`: reads a source, compiles it, and writes the results.
* `session`: the run of a command line.
-/

namespace MiniGo.Command

open Session

variable {τ : Type}

/-- The version of the compiler. -/
def versionNumber : String := "0.1.0"

namespace Arguments

/-- Where the assembly goes: by default, beside the source. -/
def output (a : Arguments) : String := a.output?.getD (Path.withExtension a.source "j")

/-- The name of the source file in reports. -/
def fileName (a : Arguments) : String := (Path.fileName? a.source).getD SyntaxError.anonymousFile

/-- What is printed before a verbose run. -/
def banner (a : Arguments) : List String :=
  [s!"Golite Compiler v{versionNumber}\n", s!"Source: {a.source}\n", s!"Output: {a.output}\n", "\n"]

/-- What is printed after a successful run. -/
def farewell (a : Arguments) : String :=
  if a.verbose then "Done!\n" else s!"Compiled {a.fileName} -> {a.output}\n"

end Arguments

/-- Prints an error, and gives an exit code. -/
def failWith (code : Nat) (message : String) : Session τ Nat := do
  printError message
  return code

/-- The complaint about a file that cannot be written. -/
def unwritable (path reason : String) : String := s!"Error: Cannot write {path}: {reason}\n"

/-! ### Output -/

/-- An error of a file operation is an error of the output. -/
def fileStep {α : Type} (x : Session τ (Except String α)) : Session τ (Except OutputError α) := do
  return (← x).mapError .io

/-- Writes to a temporary file. -/
def fileWriter (file : τ) : Writer (Session τ) where
  write text := fileStep (request (.write file text))
  flush := fileStep (request (.flush file))
  release := request (.release file)

/-- Puts a file in place. -/
def persist (file : τ) (path : String) : Session τ (Except OutputError Unit) :=
  fileStep (request (.persist file path))

/-- Writes a temporary file and puts it in place. -/
def complete (file : τ) (path : String) (fill : Session τ (Except OutputError Unit)) :
    Session τ (Except OutputError Unit) := do
  match ← (fileWriter file).closing fill with
  | .ok _ => persist file path
  | .error e => return .error e

/-- Writes a file by way of a temporary file in the directory of its path. The target is only
replaced when all has been written; otherwise the temporary file is removed. -/
def writeOutput (path : String) (fill : τ → Session τ (Except OutputError Unit)) :
    Session τ (Except OutputError Unit) := do
  match ← fileStep (request (.create (Path.directory path))) with
  | .error e => return .error e
  | .ok file =>
    match ← complete file path (fill file) with
    | .ok _ => return .ok ()
    | .error e =>
      request (.discard file)
      return .error e

/-- Writes the assembly of a program to a temporary file. -/
def fillAssembly (a : Arguments) (p : Program) (file : τ) : Session τ (Except OutputError Unit) :=
  generateTo (fileWriter file) p.root p.tables a.options

/-! ### Compiling -/

/-- Writes the assembly of a program. -/
def writeAssembly (a : Arguments) (p : Program) : Session τ Nat := do
  match ← writeOutput a.output (fillAssembly a p) with
  | .ok _ => do
    print a.farewell
    return 0
  | .error (.io e) => failWith 2 (unwritable a.output e)
  | .error (.generation e) => failWith 1 s!"Error: {e.message}\n"

/-- Writes the graph of a program if it is wanted, and goes on. -/
def writeGraph (a : Arguments) (p : Program) (next : Session τ Nat) : Session τ Nat :=
  match a.dot? with
  | none => next
  | some path => do
    match ← writeOutput path fun file => (fileWriter file).write (p.root.toDot p.tables) with
    | .ok _ => next
    | .error e => failWith 2 (unwritable path e.message)

/-- Prints the symbol tables of a program if they are wanted, and goes on. -/
def printTables (a : Arguments) (p : Program) (next : Session τ Nat) : Session τ Nat :=
  if a.dumpTables then do
    print p.tables.dump
    next
  else next

/-- Compiles a source text, and writes the results. -/
def compileText (a : Arguments) (source : String) : Session τ Nat :=
  match analyzeSource source with
  | .error (.syntactic e) => failWith 1 (e.render source a.fileName)
  | .error (.semantic errors) => failWith 1 (SemanticError.render errors)
  | .error (.generation e) => failWith 1 s!"Error: {e.message}\n"
  | .ok p => printTables a p (writeGraph a p (writeAssembly a p))

/-- Reads a source, compiles it, and writes the results. -/
def compileSession (a : Arguments) : Session τ Nat := do
  printAll (if a.verbose then a.banner else [])
  match ← request (.read a.source) with
  | .error e => failWith 3 s!"Error: Cannot read {a.source}: {e}\n"
  | .ok source => compileText a source

/-! ### Command lines -/

/-- How the command is used. -/
def usageText : String :=
  String.join
    [ "Usage: golite [OPTIONS] <SOURCE>\n",
      "\n",
      "Options:\n",
      "  -o, --output <OUTPUT>            Output file\n",
      "      --class-name <CLASS_NAME>    Name of the generated class\n",
      "      --stack-limit <STACK_LIMIT>  Operand stack limit of every generated method\n",
      "      --dot <DOT>                  Write the typed tree as a DOT graph\n",
      "      --dump-tables                Print the variable and function tables\n",
      "  -v, --verbose                    Enable verbose output\n",
      "  -h, --help                       Print help\n",
      "  -V, --version                    Print version\n" ]

/-- The run of a command line. -/
def session (args : List String) : Session τ Nat :=
  match Arguments.read args with
  | .error .usage => failWith 2 usageText
  | .error .help => do
    print usageText
    return 0
  | .error .version => do
    print s!"golite {versionNumber}\n"
    return 0
  | .ok a => compileSession a

end MiniGo.Command
