import MiniGo.Diagnostic.Code
import MiniGo.Source.Location

/-!
# Syntax errors

An error in the tokens of a source text or in their order, and the report that shows it: the
message, the place, the line of source, and carets under the faulty part.
-/

namespace MiniGo

/-- An error at a span of the source text. -/
structure SyntaxError where
  code : ErrorCode
  message : String
  span : Span
  hint : Option String := none
deriving DecidableEq, Repr

namespace SyntaxError

/-- The error in one line. -/
def summary (e : SyntaxError) : String :=
  "[" ++ e.code.text ++ "] " ++ e.message

/-- The number of carets under a span of `length` bytes that starts at character `column` of a line:
at least one, and otherwise no more than the bytes of the line that are left of it. -/
def caretCount (length column : Nat) (line : String) : Nat :=
  min (max length 1) (max (line.utf8ByteSize - (column - 1)) 1)

/-- `n` blanks. -/
def blanks (n : Nat) : String := String.ofList (List.replicate n ' ')

/-- The report of an error in a source text, under the name of its file. -/
def render (e : SyntaxError) (source file : String) : String :=
  let loc := Location.ofOffset source e.span.start
  let margin := blanks (toString loc.line).length
  let carets := String.ofList
    (List.replicate (caretCount e.span.length loc.column loc.content) '^')
  String.join
    [ "error[", e.code.text, "]: ", e.message, "\n",
      "  --> ", file, ":", toString loc.line, ":", toString loc.column, "\n",
      margin, " |\n",
      toString loc.line, " | ", loc.content, "\n",
      margin, " | ", blanks (loc.column - 1), carets, "\n",
      match e.hint with
      | some hint => margin ++ " = hint: " ++ hint ++ "\n"
      | none => "" ]

/-- The file name in a report on a text that comes from no file. -/
def anonymousFile : String := "<input>"

end SyntaxError

end MiniGo
