import MiniGo.Command.FileSystem
import MiniGo.Command.Request

/-!
# A host for sessions

Requests are answered on a file system that is a value. What is written to a temporary file is
buffered until it is flushed. The host may run out of room, and there may be nobody to read what is
printed.
-/

namespace MiniGo.Command

/-- The text of a temporary file, and what is still to be added to it. -/
structure Temporary where
  stored : String := ""
  buffered : String := ""
deriving DecidableEq, Repr

/-- The state of a host. A temporary file is known by its place among all that there have been. -/
structure Host where
  files : FileSystem := {}
  temporaries : List Temporary := []
  /-- The number of bytes that can still be stored, if they are limited. -/
  room? : Option Nat := none
  /-- Whether somebody reads what is printed. -/
  hasReader : Bool := true
  out : String := ""
  err : String := ""
deriving DecidableEq, Repr

namespace Host

/-- The room that is left after a number of bytes. -/
def spend (h : Host) (bytes : Nat) : Except FileError (Option Nat) :=
  match h.room? with
  | none => .ok none
  | some room => if bytes ≤ room then .ok (some (room - bytes)) else .error .noSpace

/-- A temporary file. -/
def temporary (h : Host) (file : Nat) : Except FileError Temporary :=
  match h.temporaries[file]? with
  | none => .error .noSuchFile
  | some t => .ok t

/-- The state after a text was printed. -/
def print (h : Host) (text : String) : Except FileError Host :=
  if h.hasReader then .ok { h with out := h.out ++ text } else .error .noReader

/-- A new temporary file, if there can be one in a directory. -/
def create (h : Host) (directory : String) : Except String Nat × Host :=
  match h.files.temporaryTarget directory with
  | .error e => (.error e.message, h)
  | .ok _ => (.ok h.temporaries.length, { h with temporaries := h.temporaries ++ [{}] })

/-- The state after a text was written to a temporary file. -/
def write (h : Host) (file : Nat) (text : String) : Except FileError Host := do
  let t ← h.temporary file
  return { h with
    temporaries := h.temporaries.set file { t with buffered := t.buffered ++ text } }

/-- The state after a temporary file was flushed. -/
def flush (h : Host) (file : Nat) : Except FileError Host := do
  let t ← h.temporary file
  let room? ← h.spend t.buffered.utf8ByteSize
  return { h with room?, temporaries := h.temporaries.set file ⟨t.stored ++ t.buffered, ""⟩ }

/-- The state after a temporary file was renamed. -/
@[irreducible] def persist (h : Host) (file : Nat) (path : String) : Except FileError Host := do
  -- irreducible, since a path that is not a literal would be split character by character for each
  -- unification
  let t ← h.temporary file
  let location ← h.files.renameTarget path
  return { h with files := h.files.put location t.stored }

/-- What a host answers after a step that may fail. A failed step changes nothing. -/
def attempt (h : Host) : Except FileError Host → Except String Unit × Host
  | .ok h' => (.ok (), h')
  | .error e => (.error e.message, h)

/-- Answers requests. -/
def answer : Operations Nat Host
  | .print text, h => h.attempt (h.print text)
  | .printError text, h => (.ok (), { h with err := h.err ++ text })
  | .read path, h => ((h.files.read path).mapError FileError.message, h)
  | .create directory, h => h.create directory
  | .write file text, h => h.attempt (h.write file text)
  | .flush file, h => h.attempt (h.flush file)
  | .release file, h => ((), (h.attempt (h.flush file)).2)
  | .persist file path, h => h.attempt (h.persist file path)
  | .discard _, h => ((), h)

end Host

end MiniGo.Command
