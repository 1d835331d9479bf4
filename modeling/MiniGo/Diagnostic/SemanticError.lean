import MiniGo.Diagnostic.Code
import MiniGo.Ty

/-!
# Semantic errors

An error in the names and types of a program. Each cause keeps what its message needs and the line
on which it was found.
-/

namespace MiniGo

/-- What a name stands for. -/
inductive SymbolKind where
  | var
  | func
deriving DecidableEq, Repr

/-- What a symbol is called in messages. -/
def SymbolKind.name : SymbolKind → String
  | var => "variable"
  | func => "function"

/-- An error in the names and types of a program. -/
inductive SemanticError where
  | duplicateDeclaration (kind : SymbolKind) (name : String) (line firstLine : Nat)
  | undeclaredVariable (name : String) (line : Nat)
  | undeclaredFunction (name : String) (line : Nat)
  | argumentCountMismatch (name : String) (line expected found : Nat)
  | argumentTypeMismatch (name : String) (line position : Nat) (expected actual : Ty)
  | typeMismatch (line : Nat) (operator : String) (left right : Ty)
  | arrayIndexOutOfRange (name : String) (line : Nat) (index : Int) (bound : Nat)
  | assignmentArityMismatch (line targets values : Nat)
  | notAValue (name : String) (line : Nat)
  | unknownType (name : String) (line : Nat)
  | invalidArrayLength (name : String) (line : Nat)
  | nonConstantIndex (name : String) (line : Nat)
  | invalidLiteral (text : String) (line : Nat)
  | returnArityMismatch (name : String) (line expected found : Nat)
deriving DecidableEq, Repr

namespace SemanticError

/-- The line on which an error was found. -/
def line : SemanticError → Nat
  | duplicateDeclaration _ _ line _ => line
  | undeclaredVariable _ line => line
  | undeclaredFunction _ line => line
  | argumentCountMismatch _ line _ _ => line
  | argumentTypeMismatch _ line _ _ _ => line
  | typeMismatch line _ _ _ => line
  | arrayIndexOutOfRange _ line _ _ => line
  | assignmentArityMismatch line _ _ => line
  | notAValue _ line => line
  | unknownType _ line => line
  | invalidArrayLength _ line => line
  | nonConstantIndex _ line => line
  | invalidLiteral _ line => line
  | returnArityMismatch _ line _ _ => line

/-- The code of an error. -/
def code : SemanticError → ErrorCode
  | duplicateDeclaration .. => .duplicateDeclaration
  | undeclaredVariable .. => .undeclaredVariable
  | undeclaredFunction .. => .undeclaredFunction
  | argumentCountMismatch .. => .argumentCountMismatch
  | argumentTypeMismatch .. => .argumentTypeMismatch
  | typeMismatch .. => .typeMismatch
  | arrayIndexOutOfRange .. => .arrayIndexOutOfRange
  | assignmentArityMismatch .. => .assignmentArityMismatch
  | notAValue .. => .notAValue
  | unknownType .. => .unknownType
  | invalidArrayLength .. => .invalidArrayLength
  | nonConstantIndex .. => .nonConstantIndex
  | invalidLiteral .. => .invalidLiteral
  | returnArityMismatch .. => .returnArityMismatch

/-- What an error says. -/
def message : SemanticError → String
  | duplicateDeclaration kind name _ firstLine =>
    s!"{kind.name} '{name}' already declared at line {firstLine}."
  | undeclaredVariable name _ => s!"variable '{name}' was not declared."
  | undeclaredFunction name _ => s!"function '{name}' was not declared."
  | argumentCountMismatch name _ expected found =>
    s!"function '{name}' expects {expected} argument(s) but {found} were given."
  | argumentTypeMismatch name _ position expected actual =>
    s!"argument {position} of function '{name}' has type {actual.name}, expected {expected.name}."
  | typeMismatch _ operator left right =>
    s!"incompatible types {left.name} and {right.name} for operator {operator}."
  | arrayIndexOutOfRange name _ index bound =>
    s!"position {index} is out of boundaries of array '{name}' with length {bound}."
  | assignmentArityMismatch _ targets values =>
    s!"different number of operands in assignment ({targets} targets, {values} values)."
  | notAValue name _ => s!"function '{name}' does not return a single value."
  | unknownType name _ => s!"unknown type '{name}'."
  | invalidArrayLength name _ =>
    s!"array '{name}' needs a non-negative integer constant as length."
  | nonConstantIndex name _ => s!"index into array '{name}' must be an integer constant."
  | invalidLiteral text _ => s!"invalid literal '{text}'."
  | returnArityMismatch name _ expected found =>
    s!"function '{name}' returns {expected} value(s) but {found} were given."

/-- The error in one line, with the line of the source. -/
def diagnostic (e : SemanticError) : String :=
  s!"SEMANTIC ERROR ({e.line}): " ++ e.message

/-- The report of several errors, one in each line. -/
def render (errors : List SemanticError) : String :=
  String.join (errors.map fun e => e.diagnostic ++ "\n")

end SemanticError

end MiniGo
