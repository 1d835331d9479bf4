import MiniGo.Analysis.Literal

/-!
# Typing expressions

Expressions are typed in given symbol tables. A result of `none` means that the expression is wrong,
and then an error is recorded.
-/

namespace MiniGo.Analysis

/-! ### Steps on typed parts -/

/-- Goes on with a node, if there is one. -/
def continueWith {α β : Type} (a? : Option α) (f : α → Report (Option β)) : Report (Option β) :=
  match a? with
  | some a => f a
  | none => pure none

/-- The node of a binary operation on typed operands. The operands of a float operation are
widened. -/
def lowerOperation (op : BinaryOp) (line : Nat) (left right : Node) : Report (Option Node) := do
  continueWith (← binaryTy op left right line) fun ty =>
    let widened := Ty.unify left.ty right.ty = some .float ∧ op.isLogical = false
    let children := if widened then [left.widen, right.widen] else [left, right]
    pure (some (.mk (.op op) ty children))

/-- The node of a zero. -/
def zeroNode (ty : Ty) : Node :=
  if ty = .float then .leaf (.floatVal .zero) .float else .leaf (.intVal 0) .int

/-- A node with a sign in front of it: a minus subtracts it from zero. -/
def lowerSigned (sign : Sign) (line : Nat) (node : Node) : Report (Option Node) := do
  continueWith (← asValue line node) fun node =>
    if node.ty.isNumeric then
      pure <| some <| match sign with
        | .plus => node
        | .minus => .mk (.op .sub) node.ty [zeroNode node.ty, node]
    else .reject (.typeMismatch line sign.text node.ty node.ty)

/-- The node of a variable. -/
def lowerVariable (t : Tables) (scope : Scope) (name : Ident) : Report (Option Node) :=
  match t.resolve? name.name scope with
  | none => .reject (.undeclaredVariable name.name name.line)
  | some v => pure ((t.var? v).map fun entry => .leaf (.varUse v) entry.ty)

/-- The node of an array element with a constant index. -/
def lowerIndex (t : Tables) (scope : Scope) (array : Ident) (index : Expr) :
    Report (Option Node) :=
  match t.resolve? array.name scope with
  | none => .reject (.undeclaredVariable array.name array.line)
  | some v =>
    continueWith (t.var? v) fun entry =>
      match entry.array? with
      | none => .reject (.typeMismatch array.line "[]" entry.ty .int)
      | some shape =>
        match constantInt? index with
        | none => .reject (.nonConstantIndex array.name array.line)
        | some i =>
          if 0 ≤ i ∧ i < shape.length then
            pure (some (.leaf (.arrayUse v i.toNat) shape.element))
          else .reject (.arrayIndexOutOfRange array.name array.line i shape.length)

/-- The arguments of a call, if each of them has the type of its parameter. The first of them has a
given position. -/
def matchArguments (callee : Ident) (line : Nat) :
    Nat → List (Option Node) → List Ty → Report (Option (List Node))
  | position, arg? :: args, param :: params => do
    let arg? ← continueWith arg? fun arg =>
      if arg.ty = param then pure (some arg)
      else .reject (.argumentTypeMismatch callee.name line position param arg.ty)
    let args? ← matchArguments callee line (position + 1) args params
    return do (← arg?) :: (← args?)
  | _, _, _ => pure (some [])

/-- The node of a call with typed arguments. -/
def lowerCall (t : Tables) (callee : Ident) (args : List (Option Node)) (line : Nat) :
    Report (Option Node) :=
  match t.functions.find? callee.name with
  | none => .reject (.undeclaredFunction callee.name line)
  | some index =>
    continueWith (t.functions.get? index) fun f =>
      if f.params.length = args.length then do
        continueWith (← matchArguments callee line 1 args f.params) fun children =>
          pure (some (.mk (.call index) f.valueTy children))
      else .reject (.argumentCountMismatch callee.name line f.params.length args.length)

/-- A call that must have a value. -/
def asCallValue (callee : Ident) (line : Nat) (call : Node) : Report (Option Node) :=
  if call.ty = .noType then .reject (.notAValue callee.name line) else pure (some call)

/-! ### Expressions -/

mutual

/-- The node of an expression. -/
def lowerExpr (t : Tables) (scope : Scope) : Expr → Report (Option Node)
  | .binary op line left right => do
    let left? ← lowerExpr t scope left
    let left? ← if op.isLogical then pure left? else continueWith left? (asValue left.line)
    let right? ← lowerExpr t scope right
    let right? ← if op.isLogical then pure right? else continueWith right? (asValue right.line)
    continueWith left? fun left => continueWith right? fun right =>
      lowerOperation op line left right
  | .operand sign primary line =>
    match negatedLiteral? sign primary with
    | some lit => lowerLiteral lit true
    | none => do
      let node? ← lowerPrimary t scope line primary
      match sign with
      | none => pure node?
      | some sign => continueWith node? (lowerSigned sign line)
termination_by structural e => e

/-- The node of an operand. -/
def lowerPrimary (t : Tables) (scope : Scope) (line : Nat) : Primary → Report (Option Node)
  | .literal lit => lowerLiteral lit false
  | .name id => lowerVariable t scope id
  | .call callee args => do
    let args ← lowerValues t scope args
    continueWith (← lowerCall t callee args line) (asCallValue callee line)
  | .index array index => lowerIndex t scope array index
  | .paren inner => lowerExpr t scope inner
termination_by structural primary => primary

/-- The nodes of expressions that must have values. -/
def lowerValues (t : Tables) (scope : Scope) : List Expr → Report (List (Option Node))
  | [] => pure []
  | e :: es => do
    let node? ← continueWith (← lowerExpr t scope e) (asValue e.line)
    return node? :: (← lowerValues t scope es)
termination_by structural es => es

end

/-- The node of an expression that must have a value. -/
def lowerValue (t : Tables) (scope : Scope) (e : Expr) : Report (Option Node) := do
  continueWith (← lowerExpr t scope e) (asValue e.line)

/-- The node of an expression that must be a condition. -/
def lowerCondition (t : Tables) (scope : Scope) (e : Expr) (construct : String) (line : Nat) :
    Report (Option Node) := do
  continueWith (← lowerExpr t scope e) (asCondition construct line)

/-- The errors of expressions whose nodes are not needed. -/
def checkExprs (t : Tables) (scope : Scope) : List Expr → Report Unit
  | [] => pure ()
  | e :: es => do
    let _ ← lowerExpr t scope e
    checkExprs t scope es

/-- The node of an assignment target. -/
def lowerTarget (t : Tables) (scope : Scope) (target : Target) : Report (Option Node) := do
  let node? ← match target with
    | .name id => lowerVariable t scope id
    | .index array index => lowerIndex t scope array index
  continueWith node? fun node =>
    if node.ty.isScalar then pure (some node)
    else .reject (.typeMismatch target.line "=" node.ty node.ty)

end MiniGo.Analysis
