import MiniGo.Command.Path

/-!
# A file system

Files and directories, as far as reading a file, and renaming a temporary file to it, can tell. A
location is the list of names that lead to it from the root.

* `FileSystem.locate`: the location that a path leads to.
* `FileSystem.read`: the text of a file.
* `FileSystem.renameTarget`: the location to which a file can be renamed.
* `FileSystem.put`: a file with a text, in place of the one that was there.
-/

namespace MiniGo

/-- Why a file operation failed. -/
inductive FileError where
  | noSuchFile
  | busy
  | notADirectory
  | isADirectory
  | noSpace
  | noReader
  | nameTooLong
  | notText
deriving DecidableEq, Repr

/-- What an error says. -/
def FileError.message : FileError → String
  | noSuchFile => "No such file or directory (os error 2)"
  | busy => "Device or resource busy (os error 16)"
  | notADirectory => "Not a directory (os error 20)"
  | isADirectory => "Is a directory (os error 21)"
  | noSpace => "No space left on device (os error 28)"
  | noReader => "Broken pipe (os error 32)"
  | nameTooLong => "File name too long (os error 36)"
  | notText => "stream did not contain valid UTF-8"

/-- What a file holds: a text, or bytes that are none. -/
inductive Content where
  | text (s : String)
  | binary
deriving DecidableEq, Repr

/-- Files and directories, and the working directory. What a file or a directory lies in is a
directory too. -/
structure FileSystem where
  home : List String := []
  files : List (List String × Content) := []
  dirs : List (List String) := []
deriving DecidableEq, Repr

/-- The greatest number of bytes of a name. -/
def maxNameBytes : Nat := 255

/-- The greatest number of bytes of a path. -/
def maxPathBytes : Nat := 4095

namespace FileSystem

/-- The content of the file at a location. -/
def file? (fs : FileSystem) (location : List String) : Option Content :=
  (fs.files.find? (·.1 == location)).map (·.2)

/-- Whether there is a directory at a location. -/
def isDirectory (fs : FileSystem) (location : List String) : Bool :=
  location.isPrefixOf fs.home || fs.dirs.any location.isPrefixOf
    || fs.files.any fun (l, _) => location.isPrefixOf l && location.length < l.length

/-! ### Paths -/

/-- Goes from a location along the pieces of a path. Each piece is looked up in a directory; an
empty one and a single dot stay there, and two dots go up. -/
def walk (fs : FileSystem) (location : List String) : List String → Except FileError (List String)
  | [] => .ok location
  | piece :: pieces =>
    if fs.isDirectory location then
      if piece == "" || piece == "." then fs.walk location pieces
      else if piece == ".." then fs.walk location.dropLast pieces
      else if maxNameBytes < piece.utf8ByteSize then .error .nameTooLong
      else fs.walk (location ++ [piece]) pieces
    else if (fs.file? location).isSome then .error .notADirectory
    else .error .noSuchFile

/-- The location at which a path starts. -/
def origin (fs : FileSystem) (path : String) : List String :=
  if Path.isAbsolute path then [] else fs.home

/-- The pieces of a path that is not too long. -/
def split (path : String) : Except FileError (List String) :=
  if maxPathBytes < path.utf8ByteSize then .error .nameTooLong else .ok (Path.split path)

/-- The location that a path leads to. -/
def locate (fs : FileSystem) (path : String) : Except FileError (List String) := do
  fs.walk (fs.origin path) (← split path)

/-- A path from the root. -/
def absolute (fs : FileSystem) (path : String) : String :=
  if Path.isAbsolute path then path else "/" ++ "/".intercalate (fs.home ++ [path])

/-! ### Reading and renaming -/

/-- The text of the file that a path leads to. -/
def read (fs : FileSystem) (path : String) : Except FileError String := do
  let location ← fs.locate path
  match fs.file? location with
  | some (.text s) => return s
  | some .binary => throw .notText
  | none => throw (if fs.isDirectory location then .isADirectory else .noSuchFile)

/-- Puts a text at a location, in place of the file that was there. -/
def put (fs : FileSystem) (location : List String) (s : String) : FileSystem :=
  { fs with files := (location, .text s) :: fs.files.filter (·.1 != location) }

/-- The form of the name of a temporary file. -/
def temporaryName : String := ".tmpXXXXXX"

/-- The location of a temporary file in a directory. -/
def temporaryTarget (fs : FileSystem) (directory : String) : Except FileError (List String) :=
  fs.locate (fs.absolute (directory ++ "/" ++ temporaryName))

/-- The location to which a file can be renamed: its last piece is a name, and there is no
directory. -/
def renameTarget (fs : FileSystem) (path : String) : Except FileError (List String) := do
  let pieces := ((← split path).reverse.dropWhile (· == "")).reverse
  match pieces.getLast? with
  | none => throw .busy
  | some name =>
    -- the empty piece asks for a directory
    let parent ← fs.walk (fs.origin path) (pieces.dropLast ++ [""])
    if name == "." || name == ".." then throw .busy
    let location ← fs.walk parent [name]
    if Path.endsWithSlash path then throw .notADirectory
    if fs.isDirectory location then throw .isADirectory
    return location

end FileSystem

end MiniGo
