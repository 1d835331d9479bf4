import MiniGo.Analysis.Expr
import MiniGo.Tree.Stmt

/-!
# Declaring variables

New variables go to the end of the table of the current scope. The initial values of a declaration
are typed before any of its names is declared.
-/

namespace MiniGo.Analysis

/-- Declares a variable in a scope, if its name is free there. -/
def declareVariable (scope : Scope) (name : Ident) (ty : Ty) (array? : Option ArrayShape) :
    Lower (Option VarRef) := do
  let t ← get
  match t.table? scope with
  | none => return none
  | some vars =>
    match vars.declare ⟨name.name, name.line, ty, array?⟩ with
    | .ok vars' =>
      set (t.setTable vars' scope)
      return some ⟨vars.size, scope⟩
    | .error e =>
      Report.record e
      return none

/-- Declares variables of one type without initial values. -/
def declareNames (scope : Scope) (ty : Ty) (array? : Option ArrayShape) :
    List Ident → Lower (List Node)
  | [] => return []
  | name :: names => do
    let v? ← declareVariable scope name ty array?
    let nodes ← declareNames scope ty array? names
    match v? with
    | some v => return .leaf (.varDecl v) ty :: nodes
    | none => return nodes

/-! ### Several targets and one call -/

/-- The callee and arguments of a single call whose results go to all targets: with more than one
target, or for a function that has not exactly one result. -/
def resultCall? (t : Tables) (targets : Nat) (values : List Expr) :
    Option (Ident × List Expr) :=
  match values with
  | [value] =>
    match value.call? with
    | some (callee, args) =>
      if 1 < targets then some (callee, args)
      else
        match (t.functions.find? callee.name).bind t.functions.get? with
        | some f => if f.returns.length = 1 then none else some (callee, args)
        | none => none
    | none => none
  | _ => none

/-- The result types of a call node. -/
def resultTypes? (t : Tables) (call : Node) : Option (List Ty) :=
  match call.kind with
  | .call index => (t.functions.get? index).map Function.returns
  | _ => none

/-- A call whose results go to a number of targets, with the types of the results. -/
def lowerResultCall (t : Tables) (scope : Scope) (callee : Ident) (args : List Expr)
    (targets line : Nat) : Report (Option (Node × List Ty)) := do
  let args ← lowerValues t scope args
  continueWith (← lowerCall t callee args line) fun call =>
    continueWith (resultTypes? t call) fun returns =>
      if returns.length = targets then pure (some (call, returns))
      else .reject (.assignmentArityMismatch line targets returns.length)

/-- An assignment of the results of a call to a list of targets. -/
def resultAssignment (targets : List Node) (call : Node) : Node :=
  .statement .assign [.statement .varList targets, call]

/-- Declares one variable for each result of a call. -/
def declareResults (scope : Scope) (declared : Option Ty) (operator : String) (line : Nat) :
    List Ident → List Ty → Lower (Option (List Node))
  | name :: names, result :: results => do
    let ty := declared.getD result
    let fits := ty.assignable result
    if !fits then Report.record (.typeMismatch line operator ty result)
    let v? ← declareVariable scope name ty none
    let rest? ← declareResults scope declared operator line names results
    match v?, rest? with
    | some v, some rest => return if fits then some (.leaf (.varDecl v) ty :: rest) else none
    | _, _ => return none
  | _, _ => return some []

/-! ### Pairs of names and values -/

/-- Declares a variable with an initial value. A wrong value still declares a variable whose type is
given. -/
def declareInitialized (scope : Scope) (declared : Option Ty) (operator : String) (line : Nat)
    (name : Ident) (value? : Option Node) : Lower (List Node) := do
  match value? with
  | none =>
    if let some ty := declared then
      let _ ← declareVariable scope name ty none
    return []
  | some value =>
    let ty := declared.getD value.ty
    if !ty.isScalar then
      Report.record (.typeMismatch line operator ty value.ty)
      return []
    let value? ← assignTo ty value operator line
    let v? ← declareVariable scope name ty none
    match v?, value? with
    | some v, some value => return [.statement .assign [.leaf (.varDecl v) ty, value]]
    | _, _ => return []

/-- Declares variables with their initial values, one after the other. -/
def declarePairs (scope : Scope) (declared : Option Ty) (operator : String) (line : Nat) :
    List Ident → List (Option Node) → Lower (List Node)
  | name :: names, value? :: values => do
    let nodes ← declareInitialized scope declared operator line name value?
    return nodes ++ (← declarePairs scope declared operator line names values)
  | _, _ => return []

/-- Declares names with initial values; `declared` is their type, if one is given. -/
def lowerDeclaration (scope : Scope) (names : List Ident) (declared : Option Ty)
    (values : List Expr) (operator : String) (line : Nat) : Lower (List Node) := do
  let t ← get
  match resultCall? t names.length values with
  | some (callee, args) =>
    match ← lowerResultCall t scope callee args names.length line with
    | none => return []
    | some (call, returns) =>
      match ← declareResults scope declared operator line names returns with
      | none => return []
      | some targets => return [resultAssignment targets call]
  | none =>
    if names.length = values.length then
      let values ← lowerValues t scope values
      declarePairs scope declared operator line names values
    else
      checkExprs t scope values
      Report.record (.assignmentArityMismatch line names.length values.length)
      return []

/-! ### Specifications -/

/-- Declares arrays, which have no initial values. -/
def lowerArraySpec (scope : Scope) (spec : VarSpec) (length : Expr) (element : Ident)
    (line : Nat) : Lower (List Node) := do
  let element? ← resolveType element
  let length? := (constantInt? length).filter fun i => decide (0 ≤ i)
  if length?.isNone then
    Report.record (.invalidArrayLength ((spec.names.head?.map Ident.name).getD "") line)
  match spec.values with
  | value :: _ =>
    let value? ← lowerValue (← get) scope value
    Report.record (.typeMismatch spec.line "=" .array ((value?.map Node.ty).getD .noType))
    return []
  | [] =>
    match element?, length? with
    | some element, some length =>
      declareNames scope .array (some ⟨element, length.toNat⟩) spec.names
    | _, _ => return []

/-- Declares the names of a specification. -/
def lowerVarSpec (scope : Scope) (spec : VarSpec) : Lower (List Node) := do
  match spec.type? with
  | some (.array length element line) => lowerArraySpec scope spec length element line
  | some (.named name) =>
    match ← resolveType name with
    | some ty =>
      if spec.values.isEmpty then declareNames scope ty none spec.names
      else lowerDeclaration scope spec.names (some ty) spec.values "=" spec.line
    | none =>
      checkExprs (← get) scope spec.values
      return []
  | none => lowerDeclaration scope spec.names none spec.values "=" spec.line

/-- Declares the names of specifications, in order. -/
def lowerVarSpecs (scope : Scope) : List VarSpec → Lower (List Node)
  | [] => return []
  | spec :: specs => do
    let nodes ← lowerVarSpec scope spec
    return nodes ++ (← lowerVarSpecs scope specs)

/-- Declares the names of a declaration. -/
def lowerVarDecl (scope : Scope) (decl : VarDecl) : Lower (List Node) :=
  lowerVarSpecs scope decl.specs

end MiniGo.Analysis
