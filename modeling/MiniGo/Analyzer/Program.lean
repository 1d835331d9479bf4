import MiniGo.Analysis.Program
import MiniGo.Analyzer.Stmt

/-!
# Analysing a program

Global variables come first, then the signatures of all functions, then their bodies. So a body can
call any function, whatever the order of the declarations.
-/

namespace MiniGo

namespace Analyzer

/-! ### Functions -/

/-- The parameters of a function with their types, if all types are known. -/
def lowerParams : List ParamGroup → Analyze (Option (List (Ident × Ty)))
  | [] => return some []
  | group :: groups => do
    let ty? ← resolveTypeName group.type
    let rest? ← lowerParams groups
    return do Analysis.groupParams group (← ty?) ++ (← rest?)

/-- The result types of a function, if all of them are known. -/
def lowerResults : List Ident → Analyze (Option (List Ty))
  | [] => return some []
  | result :: results => do
    let ty? ← resolveTypeName result
    let rest? ← lowerResults results
    return do (← ty?) :: (← rest?)

/-- Declares the parameters of a function as its first variables. -/
def declareParams (scope : Scope) : List (Ident × Ty) → Analyze Unit
  | [] => return ()
  | (name, ty) :: params => do
    let _ ← declareIn scope name ty none
    declareParams scope params

/-- Declares a function with its parameters, and gives its index. -/
def declareFunction (func : FuncDecl) : Analyze (Option Nat) := do
  let params? ← lowerParams func.params
  let returns? ← lowerResults func.results
  match params?, returns? with
  | some params, some returns =>
    let added := (Registry.addFunction func.name.name func.line (params.map Prod.snd) returns).run
      (← get).tables
    modify ({ · with tables := added.2 })
    match added.1 with
    | .error e => reject e
    | .ok index =>
      declareParams (.function index) params
      return some index
  | _, _ => return none

/-- The node of a declared function. Its body is analysed in a context of its own, and then the
context before is back. -/
def lowerFunction (func : FuncDecl) (index : Nat) : Analyze Node := do
  let previous := (← get).context
  modify ({ · with context := .function index })
  let body ← lowerBlock func.body
  modify ({ · with context := previous })
  return .statement (.function index) [body]

/-- Checks that there is a function `main` without parameters. -/
def checkMain (file : File) : Analyze Unit := do
  let functions := (← get).tables.functions
  match functions.lookup? "main" with
  | none => error (.undeclaredFunction "main" file.lastLine)
  | some index =>
    match functions.get? index with
    | none => return ()
    | some main =>
      if main.params.isEmpty then return ()
      else error (.argumentCountMismatch "main" main.line 0 main.params.length)

/-! ### Programs -/

/-- The nodes of the global variables. -/
def lowerGlobals : List VarDecl → Analyze (List Node)
  | [] => return []
  | decl :: decls => do
    let nodes ← lowerVarDecl decl
    return nodes ++ (← lowerGlobals decls)

/-- Declares functions, and gives their indices. -/
def declareFunctions : List FuncDecl → Analyze (List (Option Nat))
  | [] => return []
  | func :: funcs => do
    let index? ← declareFunction func
    return index? :: (← declareFunctions funcs)

/-- The nodes of the functions that were declared. -/
def lowerFunctions : List FuncDecl → List (Option Nat) → Analyze (List Node)
  | func :: funcs, index? :: indices => do
    match index? with
    | some index =>
      let node ← lowerFunction func index
      return node :: (← lowerFunctions funcs indices)
    | none => lowerFunctions funcs indices
  | _, _ => return []

/-- The node of a program. -/
def lowerProgram (file : File) : Analyze Node := do
  let globals ← lowerGlobals file.varDecls
  let indices ← declareFunctions file.funcDecls
  checkMain file
  let functions ← lowerFunctions file.funcDecls indices
  return .statement .program (globals ++ functions)

end Analyzer

/-- A typed program with the symbol tables that it refers to. Its nodes refer to variables and
functions by their places, so no index of names is needed any more. -/
structure Program where
  root : Node
  tables : Tables
deriving Repr

/-- The typed program of a source file, or the errors in its names and types. -/
def analyze (file : File) : Except (List SemanticError) Program :=
  let (root, a) := (Analyzer.lowerProgram file).run {}
  if a.diagnostics.isEmpty then .ok ⟨root, a.tables.tables⟩ else .error a.diagnostics

end MiniGo
