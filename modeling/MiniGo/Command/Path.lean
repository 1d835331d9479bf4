/-!
# File paths

A path is a text whose pieces are divided by slashes. Empty pieces and single dots at its end do not
count.

* `Path.split`: the pieces.
* `Path.fileName?`: the last piece.
* `Path.withExtension`: the path with another file extension.
* `Path.directory`: the directory of a file.
-/

namespace MiniGo.Path

/-- The pieces of a path between its slashes. -/
def split (path : String) : List String := (path.toList.splitOn '/').map String.ofList

/-- Whether a path starts at the root. -/
def isAbsolute (path : String) : Bool := path.toList.head? == some '/'

/-- Whether a path asks for a directory. -/
def endsWithSlash (path : String) : Bool := path.toList.getLast? == some '/'

/-- Pieces without those at the end that are empty or a single dot. -/
def trim (pieces : List String) : List String :=
  (pieces.reverse.dropWhile fun piece => piece == "" || piece == ".").reverse

/-- The pieces of a path up to the last that counts. -/
def pieces (path : String) : List String := trim (split path)

/-- The name of the file that a path leads to, if its last piece is one. -/
def fileName? (path : String) : Option String :=
  (pieces path).getLast?.filter (· != "..")

/-! ### Extensions -/

/-- A file name before its last dot, and what follows that dot. A name that begins with its last dot
has no extension. -/
def splitName (name : String) : String × Option String :=
  let reversed := name.toList.reverse
  let extension := (reversed.takeWhile (· != '.')).reverse
  let stem := (reversed.drop (extension.length + 1)).reverse
  if stem.isEmpty then (name, none) else (String.ofList stem, some (String.ofList extension))

/-- A path whose end is cut by the length of its extension. If nothing follows the file name, its
dot is what remains of the extension. -/
def cutExtension (path : String) : String :=
  let extension := ((fileName? path).bind fun name => (splitName name).2).getD ""
  String.ofList (path.toList.take (path.length - extension.length))

/-- A path whose file name ends in a given extension, in place of one that it has. -/
def setExtension (path extension : String) : String :=
  match fileName? path with
  | none => path
  | some name =>
    "/".intercalate ((pieces path).dropLast ++ [(splitName name).1 ++ "." ++ extension])

/-- A path with another extension of its file name. The old one is cut off first, and if only two
dots remain of the name, they lead to a directory and get no extension. -/
def withExtension (path extension : String) : String :=
  setExtension (cutExtension path) extension

/-! ### Directories -/

/-- The directory of the file that a path leads to. -/
def directory (path : String) : String :=
  match pieces path with
  | [] => "."
  | names =>
    match trim names.dropLast with
    | [] => if isAbsolute path then "/" else "."
    | dirs => "/".intercalate dirs

end MiniGo.Path
