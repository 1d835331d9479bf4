import MiniGo.Analysis.Stmt
import MiniGo.Analyzer.Expr

/-!
# Analysing declarations and statements

A statement becomes a list of nodes: one for each variable that it declares or assigns, and one for
any other statement. A wrong statement leaves errors behind and no node. New variables go to the end
of the table of the scope in the context, and nested blocks open no new scope.
-/

namespace MiniGo.Analyzer

/-! ### Several targets and one call -/

/-- The callee and arguments of a single call whose results go to all targets: with more than one
target, or for a function that has not exactly one result. -/
def multiResultCall? (a : Analyzer) (targets : Nat) (values : List Expr) :
    Option (Ident × List Expr) :=
  match values with
  | [value] =>
    match value.call? with
    | some (callee, args) =>
      if 1 < targets then some (callee, args)
      else
        match (a.tables.functions.lookup? callee.name).bind a.tables.functions.get? with
        | some f => if f.returns.length = 1 then none else some (callee, args)
        | none => none
    | none => none
  | _ => none

/-- The result types of a call node. -/
def resultTypes? (a : Analyzer) (call : Node) : Option (List Ty) :=
  match call.kind with
  | .call index => (a.tables.functions.get? index).map FuncEntry.returns
  | _ => none

/-- A call whose results go to a number of targets, with the types of the results. -/
def lowerResultCall (callee : Ident) (args : List Expr) (targets line : Nat) :
    Analyze (Option (Node × List Ty)) := do
  proceed (← lowerCall callee args line) fun call => do
    proceed (resultTypes? (← get) call) fun returns =>
      if returns.length = targets then return some (call, returns)
      else reject (.assignmentArityMismatch line targets returns.length)

/-! ### Declarations -/

/-- Declares variables of one type without initial values. -/
def declareNames (ty : Ty) (array? : Option ArrayShape) : List Ident → Analyze (List Node)
  | [] => return []
  | name :: names => do
    let v? ← declareVariable name ty array?
    let nodes ← declareNames ty array? names
    match v? with
    | some v => return .leaf (.varDecl v) ty :: nodes
    | none => return nodes

/-- Declares one variable for each result of a call. -/
def declareResults (declared : Option Ty) (operator : String) (line : Nat) :
    List Ident → List Ty → Analyze (Option (List Node))
  | name :: names, result :: results => do
    let ty := declared.getD result
    let fits := ty.assignable result
    if !fits then error (.typeMismatch line operator ty result)
    let v? ← declareVariable name ty none
    let rest? ← declareResults declared operator line names results
    match v?, rest? with
    | some v, some rest => return if fits then some (.leaf (.varDecl v) ty :: rest) else none
    | _, _ => return none
  | _, _ => return some []

/-- Declares a variable with an initial value. A wrong value still declares a variable whose type is
given. -/
def declareInitialized (declared : Option Ty) (operator : String) (line : Nat)
    (name : Ident) (value? : Option Node) : Analyze (List Node) := do
  match value? with
  | none =>
    if let some ty := declared then
      let _ ← declareVariable name ty none
    return []
  | some value =>
    let ty := declared.getD value.ty
    if !ty.isScalar then
      error (.typeMismatch line operator ty value.ty)
      return []
    let value? ← checkAssignable ty value operator line
    let v? ← declareVariable name ty none
    match v?, value? with
    | some v, some value => return [.statement .assign [.leaf (.varDecl v) ty, value]]
    | _, _ => return []

/-- Declares variables with their initial values, one after the other. -/
def declarePairs (declared : Option Ty) (operator : String) (line : Nat) :
    List Ident → List (Option Node) → Analyze (List Node)
  | name :: names, value? :: values => do
    let nodes ← declareInitialized declared operator line name value?
    return nodes ++ (← declarePairs declared operator line names values)
  | _, _ => return []

/-- Declares names with initial values; `declared` is their type, if one is given. The values are
analysed before any of the names is declared. -/
def lowerDeclaration (names : List Ident) (declared : Option Ty) (values : List Expr)
    (operator : String) (line : Nat) : Analyze (List Node) := do
  match multiResultCall? (← get) names.length values with
  | some (callee, args) =>
    match ← lowerResultCall callee args names.length line with
    | none => return []
    | some (call, returns) =>
      match ← declareResults declared operator line names returns with
      | none => return []
      | some targets => return [Analysis.resultAssignment targets call]
  | none =>
    if names.length = values.length then
      let values ← lowerValues values
      declarePairs declared operator line names values
    else
      checkExpressions values
      error (.assignmentArityMismatch line names.length values.length)
      return []

/-- Declares arrays, which have no initial values. -/
def lowerArraySpec (spec : VarSpec) (length : Expr) (element : Ident) (line : Nat) :
    Analyze (List Node) := do
  let element? ← resolveTypeName element
  let length? := (Analysis.constantInt? length).filter fun i => decide (0 ≤ i)
  if length?.isNone then
    error (.invalidArrayLength ((spec.names.head?.map Ident.name).getD "") line)
  match spec.values with
  | value :: _ =>
    let value? ← lowerValue value
    error (.typeMismatch spec.line "=" .array ((value?.map Node.ty).getD .noType))
    return []
  | [] =>
    match element?, length? with
    | some element, some length =>
      declareNames .array (some ⟨element, length.toNat⟩) spec.names
    | _, _ => return []

/-- Declares the names of a specification. -/
def lowerVarSpec (spec : VarSpec) : Analyze (List Node) := do
  match spec.type? with
  | some (.array length element line) => lowerArraySpec spec length element line
  | some (.named name) =>
    match ← resolveTypeName name with
    | some ty =>
      if spec.values.isEmpty then declareNames ty none spec.names
      else lowerDeclaration spec.names (some ty) spec.values "=" spec.line
    | none =>
      checkExpressions spec.values
      return []
  | none => lowerDeclaration spec.names none spec.values "=" spec.line

/-- Declares the names of specifications, in order. -/
def lowerVarSpecs : List VarSpec → Analyze (List Node)
  | [] => return []
  | spec :: specs => do
    let nodes ← lowerVarSpec spec
    return nodes ++ (← lowerVarSpecs specs)

/-- Declares the names of a declaration. -/
def lowerVarDecl (decl : VarDecl) : Analyze (List Node) := lowerVarSpecs decl.specs

/-! ### Assignments -/

/-- The targets of an assignment. -/
def lowerTargets : List Target → Analyze (List (Option Node))
  | [] => return []
  | target :: targets => do
    let node? ← lowerTarget target
    return node? :: (← lowerTargets targets)

/-- The targets of the results of a call, if each of them can take its result. -/
def matchResults (line : Nat) : List (Option Node) → List Ty → Analyze (Option (List Node))
  | target? :: targets, result :: results =>
    proceed target? fun target =>
      if target.ty.assignable result then do
        let rest? ← matchResults line targets results
        return rest?.map (target :: ·)
      else reject (.typeMismatch line "=" target.ty result)
  | _, _ => return some []

/-- One assignment for each pair of a target and a value. -/
def assignPairs (line : Nat) : List (Option Node) → List Expr → Analyze (List Node)
  | target? :: targets, value :: values => do
    let value? ← lowerValue value
    let node? ← proceed target? fun target => proceed value? fun value => do
      let value? ← checkAssignable target.ty value "=" line
      return value?.map fun value => .statement .assign [target, value]
    return node?.toList ++ (← assignPairs line targets values)
  | _, _ => return []

/-- The nodes of an assignment. -/
def lowerAssignment (targets : List Target) (values : List Expr) (line : Nat) :
    Analyze (List Node) := do
  let targets' ← lowerTargets targets
  match multiResultCall? (← get) targets.length values with
  | some (callee, args) =>
    match ← lowerResultCall callee args targets.length line with
    | none => return []
    | some (call, returns) =>
      match ← matchResults line targets' returns with
      | none => return []
      | some list => return [Analysis.resultAssignment list call]
  | none =>
    if targets.length = values.length then assignPairs line targets' values
    else
      checkExpressions values
      error (.assignmentArityMismatch line targets.length values.length)
      return []

/-! ### Calls, input and output -/

/-- The node of an output statement. -/
def lowerWrite (args : List Expr) (line : Nat) : Analyze (Option Node) := do
  match args with
  | [arg] =>
    proceed (← lowerValue arg) fun value =>
      if value.ty.isScalar then return some (.statement .write [value])
      else reject (.typeMismatch line "write" value.ty value.ty)
  | _ => reject (.argumentCountMismatch "write" line 1 args.length)

/-- The node of an input statement. -/
def lowerRead (args : List Expr) (line : Nat) : Analyze (Option Node) := do
  match args with
  | [arg] =>
    match arg.target? with
    | some target =>
      proceed (← lowerTarget target) fun node => return some (.statement .read [node])
    | none =>
      let node? ← lowerExpression arg
      reject (.typeMismatch line "read" .noType ((node?.map Node.ty).getD .noType))
  | _ => reject (.argumentCountMismatch "read" line 1 args.length)

/-- The node of a call statement. A function of the program takes precedence over input and
output. -/
def lowerCallStatement (callee : Ident) (args : List Expr) (line : Nat) :
    Analyze (Option Node) := do
  let isDeclared := ((← get).tables.functions.lookup? callee.name).isSome
  if !isDeclared && callee.name == "write" then lowerWrite args line
  else if !isDeclared && callee.name == "read" then lowerRead args line
  else lowerCall callee args line

/-! ### Return -/

/-- The values of a return statement, if each of them can be stored as its result. -/
def matchReturns (line : Nat) : List (Option Node) → List Ty → Analyze (Option (List Node))
  | value? :: values, result :: results => do
    let value? ← proceed value? fun value => checkAssignable result value "return" line
    let rest? ← matchReturns line values results
    return do (← value?) :: (← rest?)
  | _, _ => return some []

/-- The node of a return statement of the function in the context. Outside of a function there is
none. -/
def lowerReturn (values : List Expr) (line : Nat) : Analyze (Option Node) := do
  let a ← get
  proceed a.context.function? fun index =>
    proceed (a.tables.functions.get? index) fun f => do
      let values' ← lowerValues values
      if f.returns.length = values.length then
        let children? ← matchReturns line values' f.returns
        return children?.map (.statement .ret)
      else reject (.returnArityMismatch f.name line f.returns.length values.length)

/-! ### Statements -/

mutual

/-- The nodes of a statement. -/
def lowerStatement : Stmt → Analyze (List Node)
  | .var decl => lowerVarDecl decl
  | .define names values line => lowerDeclaration names none values ":=" line
  | .assign targets values line => lowerAssignment targets values line
  | .cond stmt => return (← lowerIf stmt).toList
  | .loop condition body line => do
    let condition? ← lowerCondition condition "for" line
    let body ← lowerBlock body
    return (condition?.map fun condition => .statement .repeat_ [body, condition]).toList
  | .ret values line => return (← lowerReturn values line).toList
  | .call callee args line => return (← lowerCallStatement callee args line).toList
  | .block body => return [← lowerBlock body]
termination_by structural stmt => stmt

/-- The node of a block. -/
def lowerBlock : Block → Analyze Node
  | .mk statements _ _ => return .statement .block (← lowerStatements statements)
termination_by structural block => block

/-- The nodes of statements, in order. -/
def lowerStatements : List Stmt → Analyze (List Node)
  | [] => return []
  | stmt :: stmts => do
    let nodes ← lowerStatement stmt
    return nodes ++ (← lowerStatements stmts)
termination_by structural stmts => stmts

/-- The node of a conditional statement. -/
def lowerIf : IfStmt → Analyze (Option Node)
  | .mk condition body otherwise line => do
    let condition? ← lowerCondition condition "if" line
    let body ← lowerBlock body
    let otherwise? ← lowerElse otherwise
    return do
      let otherwise ← otherwise?
      let condition ← condition?
      return .statement .cond (body :: (otherwise ++ [condition]))
termination_by structural stmt => stmt

/-- The nodes of an else branch: none if it is absent, else one; no result if it is wrong. -/
def lowerElse : ElseBranch → Analyze (Option (List Node))
  | .absent => return some []
  | .block body => return some [← lowerBlock body]
  | .elseIf stmt => return (← lowerIf stmt).map ([·])
termination_by structural branch => branch

end

end MiniGo.Analyzer
