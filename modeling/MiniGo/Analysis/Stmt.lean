import MiniGo.Analysis.Declare

/-!
# Typing statements

A statement becomes a list of nodes: one for each variable that it declares or assigns, and one for
any other statement. A wrong statement leaves errors behind and no node. Nested blocks open no new
scope.
-/

namespace MiniGo.Analysis

/-! ### Assignments -/

/-- The targets of an assignment. -/
def lowerTargets (t : Tables) (scope : Scope) : List Target → Report (List (Option Node))
  | [] => pure []
  | target :: targets => do
    let node? ← lowerTarget t scope target
    return node? :: (← lowerTargets t scope targets)

/-- The targets of the results of a call, if each of them can take its result. -/
def matchResults (line : Nat) : List (Option Node) → List Ty → Report (Option (List Node))
  | target? :: targets, result :: results =>
    continueWith target? fun target =>
      if target.ty.assignable result then do
        let rest? ← matchResults line targets results
        return rest?.map (target :: ·)
      else .reject (.typeMismatch line "=" target.ty result)
  | _, _ => pure (some [])

/-- One assignment for each pair of a target and a value. -/
def assignPairs (t : Tables) (scope : Scope) (line : Nat) :
    List (Option Node) → List Expr → Report (List Node)
  | target? :: targets, value :: values => do
    let value? ← lowerValue t scope value
    let node? ← continueWith target? fun target => continueWith value? fun value => do
      let value? ← assignTo target.ty value "=" line
      return value?.map fun value => .statement .assign [target, value]
    return node?.toList ++ (← assignPairs t scope line targets values)
  | _, _ => pure []

/-- The nodes of an assignment. -/
def lowerAssignment (t : Tables) (scope : Scope) (targets : List Target) (values : List Expr)
    (line : Nat) : Report (List Node) := do
  let targets' ← lowerTargets t scope targets
  match resultCall? t targets.length values with
  | some (callee, args) =>
    match ← lowerResultCall t scope callee args targets.length line with
    | none => return []
    | some (call, returns) =>
      match ← matchResults line targets' returns with
      | none => return []
      | some list => return [resultAssignment list call]
  | none =>
    if targets.length = values.length then assignPairs t scope line targets' values
    else
      checkExprs t scope values
      Report.record (.assignmentArityMismatch line targets.length values.length)
      return []

/-! ### Calls, input and output -/

/-- The node of an output statement. -/
def lowerWrite (t : Tables) (scope : Scope) (args : List Expr) (line : Nat) :
    Report (Option Node) := do
  match args with
  | [arg] =>
    continueWith (← lowerValue t scope arg) fun value =>
      if value.ty.isScalar then pure (some (.statement .write [value]))
      else .reject (.typeMismatch line "write" value.ty value.ty)
  | _ => .reject (.argumentCountMismatch "write" line 1 args.length)

/-- The node of an input statement. -/
def lowerRead (t : Tables) (scope : Scope) (args : List Expr) (line : Nat) :
    Report (Option Node) := do
  match args with
  | [arg] =>
    match arg.target? with
    | some target =>
      continueWith (← lowerTarget t scope target) fun node =>
        pure (some (.statement .read [node]))
    | none =>
      let node? ← lowerExpr t scope arg
      .reject (.typeMismatch line "read" .noType ((node?.map Node.ty).getD .noType))
  | _ => .reject (.argumentCountMismatch "read" line 1 args.length)

/-- The node of a call statement. A function of the program takes precedence over input and
output. -/
def lowerCallStmt (t : Tables) (scope : Scope) (callee : Ident) (args : List Expr) (line : Nat) :
    Report (Option Node) := do
  let isDeclared := (t.functions.find? callee.name).isSome
  if !isDeclared && callee.name == "write" then lowerWrite t scope args line
  else if !isDeclared && callee.name == "read" then lowerRead t scope args line
  else
    let args ← lowerValues t scope args
    lowerCall t callee args line

/-! ### Return -/

/-- The values of a return statement, if each of them can be stored as its result. -/
def matchReturns (line : Nat) : List (Option Node) → List Ty → Report (Option (List Node))
  | value? :: values, result :: results => do
    let value? ← continueWith value? fun value => assignTo result value "return" line
    let rest? ← matchReturns line values results
    return do (← value?) :: (← rest?)
  | _, _ => pure (some [])

/-- The node of a return statement. Outside of a function there is none. -/
def lowerReturn (t : Tables) (scope : Scope) (values : List Expr) (line : Nat) :
    Report (Option Node) :=
  match scope with
  | .globals => pure none
  | .function index =>
    continueWith (t.functions.get? index) fun f => do
      let values' ← lowerValues t scope values
      if f.returns.length = values.length then
        let children? ← matchReturns line values' f.returns
        return children?.map (.statement .ret)
      else .reject (.returnArityMismatch f.name line f.returns.length values.length)

/-! ### Statements -/

mutual

/-- The nodes of a statement. -/
def lowerStmt (scope : Scope) : Stmt → Lower (List Node)
  | .var decl => lowerVarDecl scope decl
  | .define names values line => lowerDeclaration scope names none values ":=" line
  | .assign targets values line => do lowerAssignment (← get) scope targets values line
  | .cond stmt => return (← lowerIf scope stmt).toList
  | .loop condition body line => do
    let condition? ← lowerCondition (← get) scope condition "for" line
    let body ← lowerBlock scope body
    return (condition?.map fun condition => .statement .repeat_ [body, condition]).toList
  | .ret values line => return (← lowerReturn (← get) scope values line).toList
  | .call callee args line => return (← lowerCallStmt (← get) scope callee args line).toList
  | .block body => return [← lowerBlock scope body]
termination_by structural stmt => stmt

/-- The node of a block. -/
def lowerBlock (scope : Scope) : Block → Lower Node
  | .mk statements _ _ => return .statement .block (← lowerStmts scope statements)
termination_by structural block => block

/-- The nodes of statements, in order. -/
def lowerStmts (scope : Scope) : List Stmt → Lower (List Node)
  | [] => return []
  | stmt :: stmts => do
    let nodes ← lowerStmt scope stmt
    return nodes ++ (← lowerStmts scope stmts)
termination_by structural stmts => stmts

/-- The node of a conditional statement. -/
def lowerIf (scope : Scope) : IfStmt → Lower (Option Node)
  | .mk condition body otherwise line => do
    let condition? ← lowerCondition (← get) scope condition "if" line
    let body ← lowerBlock scope body
    let otherwise? ← lowerElse scope otherwise
    return do
      let otherwise ← otherwise?
      let condition ← condition?
      return .statement .cond (body :: (otherwise ++ [condition]))
termination_by structural stmt => stmt

/-- The nodes of an else branch: none if it is absent, else one; no result if it is wrong. -/
def lowerElse (scope : Scope) : ElseBranch → Lower (Option (List Node))
  | .absent => return some []
  | .block body => return some [← lowerBlock scope body]
  | .elseIf stmt => return (← lowerIf scope stmt).map ([·])
termination_by structural branch => branch

end

end MiniGo.Analysis
