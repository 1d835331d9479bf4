/-!
# Operators

The binary operators of the language in three families, and the signs of an operand.
-/

namespace MiniGo

/-- A binary operator. -/
inductive BinaryOp where
  | eq
  | ne
  | lt
  | gt
  | le
  | ge
  | add
  | sub
  | mul
  | div
  | mod
  | and
  | or
deriving DecidableEq, Repr, Inhabited

namespace BinaryOp

/-- How an operator is written. -/
def text : BinaryOp → String
  | eq => "=="
  | ne => "!="
  | lt => "<"
  | gt => ">"
  | le => "<="
  | ge => ">="
  | add => "+"
  | sub => "-"
  | mul => "*"
  | div => "/"
  | mod => "%"
  | and => "&&"
  | or => "||"

/-- The operator with a given spelling. -/
def ofText? : String → Option BinaryOp
  | "==" => some eq
  | "!=" => some ne
  | "<" => some lt
  | ">" => some gt
  | "<=" => some le
  | ">=" => some ge
  | "+" => some add
  | "-" => some sub
  | "*" => some mul
  | "/" => some div
  | "%" => some mod
  | "&&" => some and
  | "||" => some or
  | _ => none

@[simp] theorem ofText?_text (o : BinaryOp) : ofText? o.text = some o := by
  cases o <;> rfl

/-- Whether an operator compares its operands. -/
def isComparison : BinaryOp → Bool
  | eq | ne | lt | gt | le | ge => true
  | _ => false

/-- Whether an operator combines two conditions. -/
def isLogical : BinaryOp → Bool
  | and | or => true
  | _ => false

/-- Whether an operator computes a value from its operands. -/
def isArithmetic : BinaryOp → Bool
  | add | sub | mul | div | mod => true
  | _ => false

/-- How tightly an operator binds, from one to five. -/
def precedence : BinaryOp → Nat
  | or => 1
  | and => 2
  | eq | ne | lt | gt | le | ge => 3
  | add | sub => 4
  | mul | div | mod => 5

end BinaryOp

/-- The sign in front of an operand. -/
inductive Sign where
  | plus
  | minus
deriving DecidableEq, Repr

/-- How a sign is written. -/
def Sign.text : Sign → String
  | plus => "+"
  | minus => "-"

end MiniGo
