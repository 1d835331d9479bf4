/-!
# Error codes

Every error of the compiler has a stable code: `E0xx` for a fault in the spelling of a token, `E1xx`
for the order of tokens, `E2xx` for names and types, `E3xx` for code generation.
-/

namespace MiniGo

/-- The kind of an error. -/
inductive ErrorCode where
  | invalidCharacter
  | unterminatedString
  | unterminatedComment
  | integerTooLarge
  | invalidFloatLiteral
  | unexpectedToken
  | unexpectedEndOfFile
  | expectedExpression
  | expectedStatement
  | expectedIdentifier
  | expectedType
  | expectedNewline
  | invalidAssignmentTarget
  | invalidExpressionStatement
  | undeclaredVariable
  | duplicateDeclaration
  | typeMismatch
  | unknownType
  | nonConstantIndex
  | undeclaredFunction
  | argumentCountMismatch
  | argumentTypeMismatch
  | returnArityMismatch
  | assignmentArityMismatch
  | notAValue
  | invalidArrayLength
  | invalidLiteral
  | arrayIndexOutOfRange
  | invalidNodeKind
  | unresolvedSymbol
deriving DecidableEq, Repr, Inhabited

/-- The code of an error kind as shown to the user. -/
def ErrorCode.text : ErrorCode → String
  | invalidCharacter => "E001"
  | unterminatedString => "E010"
  | unterminatedComment => "E011"
  | integerTooLarge => "E021"
  | invalidFloatLiteral => "E025"
  | unexpectedToken => "E100"
  | unexpectedEndOfFile => "E101"
  | expectedExpression => "E103"
  | expectedStatement => "E104"
  | expectedIdentifier => "E105"
  | expectedType => "E106"
  | expectedNewline => "E107"
  | invalidAssignmentTarget => "E109"
  | invalidExpressionStatement => "E110"
  | undeclaredVariable => "E200"
  | duplicateDeclaration => "E201"
  | typeMismatch => "E210"
  | unknownType => "E211"
  | nonConstantIndex => "E214"
  | undeclaredFunction => "E220"
  | argumentCountMismatch => "E222"
  | argumentTypeMismatch => "E223"
  | returnArityMismatch => "E224"
  | assignmentArityMismatch => "E225"
  | notAValue => "E226"
  | invalidArrayLength => "E231"
  | invalidLiteral => "E232"
  | arrayIndexOutOfRange => "E240"
  | invalidNodeKind => "E300"
  | unresolvedSymbol => "E301"

end MiniGo
