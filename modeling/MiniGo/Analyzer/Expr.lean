import MiniGo.Analysis.Expr
import MiniGo.Analyzer.State

/-!
# Analysing expressions

An expression becomes a typed node. A result of `none` means that it is wrong, and then an error is
recorded.
-/

namespace MiniGo.Analyzer

/-! ### Types -/

/-- The type that a name stands for. -/
def resolveTypeName (name : Ident) : Analyze (Option Ty) :=
  match Ty.ofName? name.name with
  | some ty => return some ty
  | none => reject (.unknownType name.name name.line)

/-- The type of `left op right`. -/
def binaryResultType (op : BinaryOp) (left right : Node) (line : Nat) : Analyze (Option Ty) :=
  match Analysis.binaryTy? op left right with
  | some ty => return some ty
  | none => reject (.typeMismatch line op.text left.ty right.ty)

/-- The value to be stored into a target of a given type: itself, or widened for a float target. -/
def checkAssignable (target : Ty) (value : Node) (operator : String) (line : Nat) :
    Analyze (Option Node) :=
  if target.assignable value.ty then
    return some (if target = .float then value.widen else value)
  else reject (.typeMismatch line operator target value.ty)

/-- A node that must have a value. -/
def checkIsValue (line : Nat) (node : Node) : Analyze (Option Node) :=
  if node.isJumpOnly then reject (.typeMismatch line node.kind.name .bool node.ty)
  else return some node

/-! ### Operands -/

/-- The node of a literal; `negate` says that a minus stands in front of a number. -/
def lowerLiteral (lit : Literal) (negate : Bool) : Analyze (Option Node) :=
  let node? := match lit.kind with
    | .int => Analysis.intLiteral? lit.text negate
    | .float => Analysis.floatLiteral? lit.text negate
    | .string => some (.leaf (.strVal lit.text) .string)
    | .bool => some (.leaf (.boolVal (lit.text == "true")) .bool)
  match node? with
  | some node => return some node
  | none => reject (.invalidLiteral lit.text lit.line)

/-- The node of a variable. -/
def lowerVariable (name : Ident) : Analyze (Option Node) := do
  let a ← get
  match a.tables.resolve? name.name a.context.scope with
  | none => reject (.undeclaredVariable name.name name.line)
  | some v => return (a.tables.var? v).map fun entry => .leaf (.varUse v) entry.ty

/-- The node of an array element with a constant index. -/
def lowerIndex (array : Ident) (index : Expr) : Analyze (Option Node) := do
  let a ← get
  match a.tables.resolve? array.name a.context.scope with
  | none => reject (.undeclaredVariable array.name array.line)
  | some v =>
    proceed (a.tables.var? v) fun entry =>
      match entry.array? with
      | none => reject (.typeMismatch array.line "[]" entry.ty .int)
      | some shape =>
        match Analysis.constantInt? index with
        | none => reject (.nonConstantIndex array.name array.line)
        | some i =>
          if 0 ≤ i ∧ i < shape.length then
            return some (.leaf (.arrayUse v i.toNat) shape.element)
          else reject (.arrayIndexOutOfRange array.name array.line i shape.length)

/-- The arguments of a call, if each of them has the type of its parameter. The first of them has a
given position. -/
def matchArguments (callee : Ident) (line : Nat) :
    Nat → List (Option Node) → List Ty → Analyze (Option (List Node))
  | position, arg? :: args, param :: params => do
    let arg? ← proceed arg? fun arg =>
      if arg.ty = param then return some arg
      else reject (.argumentTypeMismatch callee.name line position param arg.ty)
    let args? ← matchArguments callee line (position + 1) args params
    return do (← arg?) :: (← args?)
  | _, _, _ => return some []

/-- The node of a call whose arguments are analysed already. -/
def finishCall (callee : Ident) (args : List (Option Node)) (line : Nat) :
    Analyze (Option Node) := do
  let a ← get
  match a.tables.functions.lookup? callee.name with
  | none => reject (.undeclaredFunction callee.name line)
  | some index =>
    proceed (a.tables.functions.get? index) fun f =>
      if f.params.length = args.length then do
        proceed (← matchArguments callee line 1 args f.params) fun children =>
          return some (.mk (.call index) f.valueTy children)
      else reject (.argumentCountMismatch callee.name line f.params.length args.length)

/-- A node with a sign in front of it: a minus subtracts it from zero. -/
def lowerSigned (sign : Sign) (line : Nat) (node : Node) : Analyze (Option Node) := do
  proceed (← checkIsValue line node) fun node =>
    if node.ty.isNumeric then
      return some <| match sign with
        | .plus => node
        | .minus => .mk (.op .sub) node.ty [Analysis.zeroNode node.ty, node]
    else reject (.typeMismatch line sign.text node.ty node.ty)

/-- The node of a binary operation on typed operands. The operands of a float operation are
widened. -/
def finishBinary (op : BinaryOp) (line : Nat) (left right : Node) : Analyze (Option Node) := do
  proceed (← binaryResultType op left right line) fun ty =>
    let widened := Ty.unify left.ty right.ty = some .float ∧ op.isLogical = false
    let children := if widened then [left.widen, right.widen] else [left, right]
    return some (.mk (.op op) ty children)

/-! ### Expressions -/

mutual

/-- The node of an expression. -/
def lowerExpression : Expr → Analyze (Option Node)
  | .binary op line left right => do
    let left? ← lowerExpression left
    let left? ← if op.isLogical then pure left? else proceed left? (checkIsValue left.line)
    let right? ← lowerExpression right
    let right? ← if op.isLogical then pure right? else proceed right? (checkIsValue right.line)
    proceed left? fun left => proceed right? fun right => finishBinary op line left right
  | .operand sign primary line =>
    match Analysis.negatedLiteral? sign primary with
    | some lit => lowerLiteral lit true
    | none => do
      let node? ← lowerPrimary line primary
      match sign with
      | none => return node?
      | some sign => proceed node? (lowerSigned sign line)
termination_by structural e => e

/-- The node of an operand without its sign. -/
def lowerPrimary (line : Nat) : Primary → Analyze (Option Node)
  | .literal lit => lowerLiteral lit false
  | .name id => lowerVariable id
  | .call callee args => do
    let args ← lowerValues args
    proceed (← finishCall callee args line) fun call =>
      if call.ty = .noType then reject (.notAValue callee.name line) else return some call
  | .index array index => lowerIndex array index
  | .paren inner => lowerExpression inner
termination_by structural primary => primary

/-- The nodes of expressions that must have values. -/
def lowerValues : List Expr → Analyze (List (Option Node))
  | [] => return []
  | e :: es => do
    let node? ← proceed (← lowerExpression e) (checkIsValue e.line)
    return node? :: (← lowerValues es)
termination_by structural es => es

end

/-- The node of an expression that must have a value. -/
def lowerValue (e : Expr) : Analyze (Option Node) := do
  proceed (← lowerExpression e) (checkIsValue e.line)

/-- The node of a call. -/
def lowerCall (callee : Ident) (args : List Expr) (line : Nat) : Analyze (Option Node) := do
  finishCall callee (← lowerValues args) line

/-- The node of the condition of an `if` or a `for`. -/
def lowerCondition (e : Expr) (construct : String) (line : Nat) : Analyze (Option Node) := do
  proceed (← lowerExpression e) fun node =>
    if node.isCondition then return some node
    else reject (.typeMismatch line construct .bool node.ty)

/-- Analyses expressions whose nodes are not needed. -/
def checkExpressions : List Expr → Analyze Unit
  | [] => return ()
  | e :: es => do
    let _ ← lowerExpression e
    checkExpressions es

/-- The node of an assignment target. -/
def lowerTarget (target : Target) : Analyze (Option Node) := do
  let node? ← match target with
    | .name id => lowerVariable id
    | .index array index => lowerIndex array index
  proceed node? fun node =>
    if node.ty.isScalar then return some node
    else reject (.typeMismatch target.line "=" node.ty node.ty)

end MiniGo.Analyzer
