import MiniGo.Source.Span

/-!
# Lines and columns

Lines and columns are counted from one, and a column counts characters.

* `lineStarts`, `lineAt`: the offsets at which lines begin, and the line of an offset among them.
* `Location.ofOffset`: line, column and text of the line around an offset.
-/

namespace MiniGo

/-- The offsets at which a new line begins in a text that itself begins at offset `n`. -/
def lineStartsFrom (n : Nat) : List Char → List Nat
  | [] => []
  | c :: cs =>
    if c = '\n' then (n + 1) :: lineStartsFrom (n + 1) cs
    else lineStartsFrom (n + c.utf8Size) cs

/-- The offsets at which the lines of a text begin. -/
def lineStarts (source : String) : List Nat :=
  0 :: lineStartsFrom 0 source.toList

/-- The line of an offset: the number of lines that begin at or before it. -/
def lineAt (starts : List Nat) (offset : Nat) : Nat :=
  starts.countP (· ≤ offset)

/-- A place in a source text, as shown to a reader. -/
structure Location where
  line : Nat
  column : Nat
  content : String
deriving DecidableEq, Repr

/-- The characters of a text after its last newline. -/
def lastLine (cs : List Char) : List Char :=
  (cs.reverse.takeWhile (· ≠ '\n')).reverse

/-- The characters of a text before its first newline. -/
def firstLine (cs : List Char) : List Char :=
  cs.takeWhile (· ≠ '\n')

/-- The place of a byte offset; offsets past the end mean the end of the text. -/
def Location.ofOffset (source : String) (offset : Nat) : Location :=
  let before := takeBytes offset source.toList
  let after := dropBytes offset source.toList
  { line := before.count '\n' + 1
    column := (lastLine before).length + 1
    content := String.ofList (lastLine before ++ firstLine after) }

end MiniGo
