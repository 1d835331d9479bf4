import MiniGo.Operator

/-!
# Expressions

The syntax tree of expressions. Names, literals and operators keep the line on which they stand.
-/

namespace MiniGo

/-- A name with the line on which it stands. -/
structure Ident where
  name : String
  line : Nat
deriving DecidableEq, Repr, Inhabited

/-- The kind of a literal. -/
inductive LiteralKind where
  | int
  | float
  | string
  | bool
deriving DecidableEq, Repr

/-- A literal as written, a string without its quotes. -/
structure Literal where
  kind : LiteralKind
  text : String
  line : Nat
deriving DecidableEq, Repr

mutual

/-- An expression: a binary operation or an operand with an optional sign. -/
inductive Expr where
  | binary (op : BinaryOp) (line : Nat) (left right : Expr)
  | operand (sign : Option Sign) (primary : Primary) (line : Nat)

/-- An operand without its sign. -/
inductive Primary where
  | literal (lit : Literal)
  | name (id : Ident)
  | call (callee : Ident) (args : List Expr)
  | index (array : Ident) (index : Expr)
  | paren (inner : Expr)

end

namespace Expr

/-- The line at which an expression is reported: that of its outermost operator or of its
operand. -/
def line : Expr → Nat
  | binary _ line _ _ => line
  | operand _ _ line => line

/-- The callee and the arguments of a call without a sign. -/
def call? : Expr → Option (Ident × List Expr)
  | operand none (.call callee args) _ => some (callee, args)
  | _ => none

/-- The name that an expression is, if it is nothing else. -/
def name? : Expr → Option Ident
  | operand none (.name id) _ => some id
  | _ => none

end Expr

/-- What can be assigned to: a variable or an array element. -/
inductive Target where
  | name (id : Ident)
  | index (array : Ident) (index : Expr)

/-- The line on which a target stands. -/
def Target.line : Target → Nat
  | name id => id.line
  | index array _ => array.line

/-- The target that an expression denotes. -/
def Expr.target? : Expr → Option Target
  | operand none (.name id) _ => some (.name id)
  | operand none (.index array index) _ => some (.index array index)
  | _ => none

end MiniGo
