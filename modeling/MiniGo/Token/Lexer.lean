import MiniGo.Binary32.Reading
import MiniGo.Diagnostic.SyntaxError
import MiniGo.Token.Scan

/-!
# The tokens of a source text

A source text is cut into pieces from the front. Skipped pieces leave nothing behind; each token is
kept with the span of its piece. The first piece that is no token, or is a number out of range, is
an error.
-/

namespace MiniGo

/-- A token with the bytes of the source that it stands for. -/
structure SpannedToken where
  token : Token
  span : Span
deriving DecidableEq, Repr

/-- The greatest magnitude of an integer literal, which only a negative one can use. -/
def maxIntegerLiteral : Nat := Nat.pow 2 31

/-- The error of a piece that is no token. -/
def ScanFault.toError (f : ScanFault) (text : List Char) (span : Span) : SyntaxError :=
  match f with
  | .invalidCharacter =>
    { code := .invalidCharacter
      message := "invalid character '" ++ String.ofList text ++ "'"
      span }
  | .unterminatedString =>
    { code := .unterminatedString
      message := "unterminated string literal"
      span
      hint := some "strings must end with '\"' on the same line" }
  | .unterminatedComment =>
    { code := .unterminatedComment
      message := "unterminated block comment"
      span
      hint := some "close the comment with '*/'" }

/-- The error of a number that is out of range. -/
def Token.rangeError? (t : Token) (span : Span) : Option SyntaxError :=
  match t with
  | .integer text =>
    if digitsValue text.toList ≤ maxIntegerLiteral then none
    else some
      { code := .integerTooLarge
        message := "integer literal '" ++ text ++ "' does not fit into 32 bits"
        span }
  | .decimal text =>
    if (Binary32.readFinite? text).isSome then none
    else some
      { code := .invalidFloatLiteral
        message := "invalid float literal '" ++ text ++ "'"
        span }
  | _ => none

/-- The tokens of a text that begins at a byte offset of the source. -/
def tokensFrom (offset : Nat) (cs : List Char) : Except SyntaxError (List SpannedToken) :=
  match cs with
  | [] => .ok []
  | c :: cs =>
    let piece := scan c cs
    let span : Span := ⟨offset, offset + byteSize piece.text⟩
    match piece.piece with
    | .skipped => tokensFrom span.stop piece.rest
    | .fault f => .error (f.toError piece.text span)
    | .token t =>
      match t.rangeError? span with
      | some e => .error e
      | none => (tokensFrom span.stop piece.rest).map (⟨t, span⟩ :: ·)
termination_by cs.length
decreasing_by all_goals exact length_rest_lt ..

/-- The tokens of a source text. -/
def tokenize (source : String) : Except SyntaxError (List SpannedToken) :=
  tokensFrom 0 source.toList

end MiniGo
