import MiniGo.Typed.Node

/-!
# Errors of code generation

A typed tree that is not well formed cannot be turned into code. The tree of an analyzed program
always can; a tree built in another way may have a node where it does not belong, or refer to an
entry that the symbol tables do not have.
-/

namespace MiniGo

/-- Where a node was met that does not belong there. -/
inductive Position where
  | program
  | function
  | initializer
  | statement
  | ifStatement
  | loop
  | assignment
  | assignmentTarget
  | resultAssignment
  | write
  | readTarget
  | scalarRead
  | condition
  | comparison
  | logicalOperator
  | value
  | binaryOperator
  | stringOperator
  | arithmetic
deriving DecidableEq, Repr

/-- The name of a position in messages. -/
def Position.name : Position → String
  | program => "program"
  | function => "function"
  | initializer => "initializer"
  | statement => "statement"
  | ifStatement => "if statement"
  | loop => "loop"
  | assignment => "assignment"
  | assignmentTarget => "assignment target"
  | resultAssignment => "multi-result assignment"
  | write => "write"
  | readTarget => "read target"
  | scalarRead => "non-scalar read"
  | condition => "condition"
  | comparison => "comparison"
  | logicalOperator => "logical operator"
  | value => "value"
  | binaryOperator => "binary operator"
  | stringOperator => "string operator"
  | arithmetic => "arithmetic"

/-- What a missing entry would have been. -/
inductive EntryKind where
  | var
  | func
  | result
deriving DecidableEq, Repr

/-- The name of an entry kind in messages. -/
def EntryKind.name : EntryKind → String
  | var => "variable"
  | func => "function"
  | result => "result"

/-- An error of code generation. -/
inductive GenError where
  | invalidNode (kind : NodeKind) (position : Position)
  | unresolved (kind : EntryKind) (index : Nat)
deriving DecidableEq, Repr

namespace GenError

/-- The code of an error. -/
def code : GenError → ErrorCode
  | invalidNode .. => .invalidNodeKind
  | unresolved .. => .unresolvedSymbol

/-- What an error says. -/
def message : GenError → String
  | invalidNode kind position =>
    s!"[E300] invalid node kind '{kind.name}' in {position.name} position"
  | unresolved kind index => s!"[E301] unresolved {kind.name} #{index}"

end GenError

end MiniGo
