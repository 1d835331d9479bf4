import MiniGo.Source.Span

/-!
# Limited output

A sink takes text until it is full. What fits before that is kept, down to the byte.
-/

namespace MiniGo

/-- The text written to a sink so far, and the number of bytes that still fit, if they are
limited. -/
structure Sink where
  room? : Option Nat := none
  written : List Char := []
  /-- Whether the text ends within the bytes of a character. -/
  torn : Bool := false
deriving DecidableEq, Repr

namespace Sink

/-- Writes text, and says whether all of it fitted. -/
def write (s : Sink) (cs : List Char) : Sink × Bool :=
  match s.room? with
  | none => ({ s with written := s.written ++ cs }, true)
  | some room =>
    if byteSize cs ≤ room then
      ({ s with room? := some (room - byteSize cs), written := s.written ++ cs }, true)
    else
      let fitting := takeBytes room cs
      ({ room? := some 0
         written := s.written ++ fitting
         torn := s.torn || decide (byteSize fitting < room) }, false)

/-- Writes a line with its end. -/
def writeLine (s : Sink) (line : String) : Sink × Bool := s.write (line.toList ++ ['\n'])

/-- The text of a sink. A replacement character stands for one that did not fit as a whole. -/
def text (s : Sink) : String :=
  String.ofList (s.written ++ if s.torn then ['\uFFFD'] else [])

end Sink

end MiniGo
