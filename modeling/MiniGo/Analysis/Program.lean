import MiniGo.Analysis.Stmt

/-!
# Typing a program

Global variables come first, then the signatures of all functions, then their bodies. So a body can
call any function, whatever the order of the declarations.
-/

namespace MiniGo

namespace Analysis

/-! ### Functions -/

/-- The parameters of a group with their type. -/
def groupParams (group : ParamGroup) (ty : Ty) : List (Ident × Ty) :=
  group.names.map (·, ty)

/-- The parameters of a function with their types, if all types are known. -/
def lowerParams : List ParamGroup → Report (Option (List (Ident × Ty)))
  | [] => pure (some [])
  | group :: groups => do
    let ty? ← resolveType group.type
    let rest? ← lowerParams groups
    return do groupParams group (← ty?) ++ (← rest?)

/-- The result types of a function, if all of them are known. -/
def lowerResults : List Ident → Report (Option (List Ty))
  | [] => pure (some [])
  | result :: results => do
    let ty? ← resolveType result
    let rest? ← lowerResults results
    return do (← ty?) :: (← rest?)

/-- Declares the parameters of a function as its first variables. -/
def declareParams (scope : Scope) : List (Ident × Ty) → Lower Unit
  | [] => return ()
  | (name, ty) :: params => do
    let _ ← declareVariable scope name ty none
    declareParams scope params

/-- Declares a function with its parameters, and gives its index. -/
def declareFunction (func : FuncDecl) : Lower (Option Nat) := do
  let params? ← lowerParams func.params
  let returns? ← lowerResults func.results
  match params?, returns? with
  | some params, some returns =>
    let t ← get
    match t.functions.declare ⟨func.name.name, func.line, params.map Prod.snd, returns, {}⟩ with
    | .error e =>
      Report.record e
      return none
    | .ok functions =>
      set { t with functions }
      let index := t.functions.size
      declareParams (.function index) params
      return some index
  | _, _ => return none

/-- The node of a declared function. -/
def lowerFunction (func : FuncDecl) (index : Nat) : Lower Node := do
  let body ← lowerBlock (.function index) func.body
  return .statement (.function index) [body]

/-- Checks that there is a function `main` without parameters. -/
def checkMain (t : Tables) (file : File) : Report Unit :=
  match t.functions.find? "main" with
  | none => .record (.undeclaredFunction "main" file.lastLine)
  | some index =>
    match t.functions.get? index with
    | none => pure ()
    | some main =>
      if main.params.isEmpty then pure ()
      else .record (.argumentCountMismatch "main" main.line 0 main.params.length)

/-! ### Programs -/

/-- The nodes of the global variables. -/
def lowerGlobals : List VarDecl → Lower (List Node)
  | [] => return []
  | decl :: decls => do
    let nodes ← lowerVarDecl .globals decl
    return nodes ++ (← lowerGlobals decls)

/-- Declares functions, and gives their indices. -/
def declareFunctions : List FuncDecl → Lower (List (Option Nat))
  | [] => return []
  | func :: funcs => do
    let index? ← declareFunction func
    return index? :: (← declareFunctions funcs)

/-- The nodes of the functions that were declared. -/
def lowerFunctions : List FuncDecl → List (Option Nat) → Lower (List Node)
  | func :: funcs, index? :: indices => do
    match index? with
    | some index =>
      let node ← lowerFunction func index
      return node :: (← lowerFunctions funcs indices)
    | none => lowerFunctions funcs indices
  | _, _ => return []

/-- The node of a program. -/
def lowerProgram (file : File) : Lower Node := do
  let globals ← lowerGlobals file.varDecls
  let indices ← declareFunctions file.funcDecls
  checkMain (← get) file
  let functions ← lowerFunctions file.funcDecls indices
  return .statement .program (globals ++ functions)

end Analysis

end MiniGo
