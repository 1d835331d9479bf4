import MiniGo.Binary32.Basic
import MiniGo.Operator
import MiniGo.Symbol.Table

/-!
# Typed trees

The tree between analysis and code generation. A node has a kind, a type and children; a statement
has the type `Ty.noType`. Which children a kind needs is not part of the type: a tree is checked
where code is generated for it.

* `cond`: the body, the else part if there is one, and the condition.
* `repeat_`: the body and the condition.
* `assign`: the target and the value, or a `varList` of targets and a call.
-/

namespace MiniGo

/-- What a node is. -/
inductive NodeKind where
  | assign
  | op (o : BinaryOp)
  | block
  | cond
  | repeat_
  | intVal (value : Int)
  | floatVal (value : Binary32)
  | boolVal (value : Bool)
  | strVal (text : String)
  | varDecl (v : VarRef)
  | varUse (v : VarRef)
  | arrayUse (v : VarRef) (offset : Nat)
  | function (index : Nat)
  | call (index : Nat)
  | program
  | read
  | write
  | varList
  | ret
deriving DecidableEq, Repr

namespace NodeKind

/-- The name of a kind in messages and dumps. -/
def name : NodeKind → String
  | assign => "assign"
  | op o => o.text
  | block => "block"
  | cond => "if"
  | repeat_ => "repeat"
  | intVal _ => "int_val"
  | floatVal _ => "float_val"
  | boolVal _ => "bool_val"
  | strVal _ => "str_val"
  | varDecl _ => "var_decl"
  | varUse _ => "var_use"
  | arrayUse _ _ => "array_use"
  | function _ => "func"
  | call _ => "call"
  | program => "program"
  | read => "read"
  | write => "write"
  | varList => "var_list"
  | ret => "return"

/-- Whether a kind is a comparison or combines conditions. -/
def isJumpOnly : NodeKind → Bool
  | op o => o.isComparison || o.isLogical
  | _ => false

/-- Whether a kind denotes a variable, an element or the result of a call. -/
def isReference : NodeKind → Bool
  | varUse _ | varDecl _ | arrayUse _ _ | call _ => true
  | _ => false

end NodeKind

/-- A node of a typed tree. -/
inductive Node where
  | mk (kind : NodeKind) (ty : Ty) (children : List Node)
deriving Repr

namespace Node

/-- What a node is. -/
def kind : Node → NodeKind
  | mk kind _ _ => kind

/-- The type of a node. -/
def ty : Node → Ty
  | mk _ ty _ => ty

/-- The children of a node. -/
def children : Node → List Node
  | mk _ _ children => children

@[simp] theorem kind_mk (k : NodeKind) (t : Ty) (cs : List Node) : (mk k t cs).kind = k := rfl

@[simp] theorem ty_mk (k : NodeKind) (t : Ty) (cs : List Node) : (mk k t cs).ty = t := rfl

@[simp] theorem children_mk (k : NodeKind) (t : Ty) (cs : List Node) :
    (mk k t cs).children = cs := rfl

/-- A node without children. -/
def leaf (kind : NodeKind) (ty : Ty) : Node := mk kind ty []

/-- A node without a value. -/
def statement (kind : NodeKind) (children : List Node) : Node := mk kind .noType children

/-- Whether a node can only be a condition, because its code jumps and leaves no value. -/
def isJumpOnly (n : Node) : Bool := n.kind.isJumpOnly

/-- Whether a node can be a condition. -/
def isCondition (n : Node) : Bool := n.isJumpOnly || n.ty == .bool

/-- Whether a node denotes a variable, an element or the result of a call. -/
def isReference (n : Node) : Bool := n.kind.isReference

/-- Gives a computed int the type float. The type of a reference stays, since it says what is
stored. -/
def widen : Node → Node
  | mk kind ty children =>
    if ty = .int ∧ kind.isReference = false then mk kind .float children else mk kind ty children

mutual

/-- The number of nodes of a tree. -/
def size : Node → Nat
  | mk _ _ children => sizeList children + 1

/-- The number of nodes of a list of trees. -/
def sizeList : List Node → Nat
  | [] => 0
  | n :: ns => n.size + sizeList ns

end

end Node

end MiniGo
