import MiniGo.Analysis.Typing
import MiniGo.Binary32.Reading

/-!
# Literals and constants

* `lowerLiteral`: the node of a literal, with a minus in front of it taken into its value.
* `constantInt?`: the value of an expression that is an integer literal with signs and parentheses.
-/

namespace MiniGo.Analysis

/-- Whether an integer fits into 32 bits. -/
def fitsInt (i : Int) : Bool := decide (-(Nat.pow 2 31 : Int) ≤ i ∧ i < Nat.pow 2 31)

/-- The node of an integer literal. -/
def intLiteral? (text : String) (negate : Bool) : Option Node := do
  let i ← readInteger? text
  let i := if negate then -i else i
  if fitsInt i then some (.leaf (.intVal i) .int) else none

/-- The node of a float literal. -/
def floatLiteral? (text : String) (negate : Bool) : Option Node := do
  let x ← Binary32.readFinite? text
  some (.leaf (.floatVal (if negate then x.neg else x)) .float)

/-- The node of a literal; `negate` says that a minus stands in front of a number. -/
def lowerLiteral (lit : Literal) (negate : Bool) : Report (Option Node) :=
  let node? := match lit.kind with
    | .int => intLiteral? lit.text negate
    | .float => floatLiteral? lit.text negate
    | .string => some (.leaf (.strVal lit.text) .string)
    | .bool => some (.leaf (.boolVal (lit.text == "true")) .bool)
  match node? with
  | some node => pure (some node)
  | none => .reject (.invalidLiteral lit.text lit.line)

/-- A number literal directly after a minus. -/
def negatedLiteral? (sign : Option Sign) (primary : Primary) : Option Literal :=
  match sign, primary with
  | some .minus, .literal lit =>
    match lit.kind with
    | .int | .float => some lit
    | .string | .bool => none
  | _, _ => none

mutual

/-- The value of an expression that is an integer literal with signs and parentheses around it. -/
def constantInt? : Expr → Option Int
  | .operand sign primary _ =>
    (constantPrimary? primary).map fun i =>
      match sign with
      | some .minus => -i
      | some .plus | none => i
  | .binary .. => none

/-- The value of an operand that is an integer literal, or a constant in parentheses. -/
def constantPrimary? : Primary → Option Int
  | .literal ⟨.int, text, _⟩ => readInteger? text
  | .paren inner => constantInt? inner
  | _ => none

end

end MiniGo.Analysis
