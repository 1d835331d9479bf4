import MiniGo.Analysis.Report
import MiniGo.Tree.Expr
import MiniGo.Typed.Node

/-!
# Checking types

The rules for operators, assignments and values, each on nodes that are already typed.
-/

namespace MiniGo.Analysis

/-- The type that a name stands for. -/
def resolveType (name : Ident) : Report (Option Ty) :=
  match Ty.ofName? name.name with
  | some ty => pure (some ty)
  | none => .reject (.unknownType name.name name.line)

/-- The type of `left op right`, without an error. A logical operator takes conditions; the others
take operands that meet in one type: any comparable type for a comparison, a numeric one for
arithmetic, and for a sum also strings. -/
def binaryTy? (op : BinaryOp) (left right : Node) : Option Ty :=
  if op.isLogical then
    if left.isCondition && right.isCondition then some .bool else none
  else
    match Ty.unify left.ty right.ty with
    | none => none
    | some ty =>
      if op.isComparison then if ty.isComparable then some ty else none
      else if ty.isNumeric || (op == .add && ty == .string) then some ty
      else none

/-- The type of `left op right`. -/
def binaryTy (op : BinaryOp) (left right : Node) (line : Nat) : Report (Option Ty) :=
  match binaryTy? op left right with
  | some ty => pure (some ty)
  | none => .reject (.typeMismatch line op.text left.ty right.ty)

/-- The value to be stored into a target of a given type: itself, or widened for a float target. -/
def assignTo (target : Ty) (value : Node) (operator : String) (line : Nat) :
    Report (Option Node) :=
  if target.assignable value.ty then
    pure (some (if target = .float then value.widen else value))
  else .reject (.typeMismatch line operator target value.ty)

/-- A node that must have a value, which comparisons and logical operators have not. -/
def asValue (line : Nat) (node : Node) : Report (Option Node) :=
  if node.isJumpOnly then .reject (.typeMismatch line node.kind.name .bool node.ty)
  else pure (some node)

/-- A node that must be a condition of an `if` or a `for`. -/
def asCondition (construct : String) (line : Nat) (node : Node) : Report (Option Node) :=
  if node.isCondition then pure (some node)
  else .reject (.typeMismatch line construct .bool node.ty)

end MiniGo.Analysis
