import MiniGo.Command.FileSystem
import MiniGo.Command.Session

/-!
# The command

Runs a session of the command on the real file system.
-/

namespace MiniGo.Command

/-- The message of an error of the operating system. -/
def errorMessage : IO.Error → String
  | .noFileOrDirectory _ code details => s!"{details} (os error {code})"
  | .inappropriateType _ code details => s!"{details} (os error {code})"
  | .permissionDenied _ code details => s!"{details} (os error {code})"
  | .resourceBusy code details => s!"{details} (os error {code})"
  | .alreadyExists _ code details => s!"{details} (os error {code})"
  | .invalidArgument _ code details => s!"{details} (os error {code})"
  | .resourceExhausted _ code details => s!"{details} (os error {code})"
  | .otherError code details => s!"{details} (os error {code})"
  | e => toString e

/-- The value of an action, or the message of its error. -/
def told {α : Type} (x : IO α) : IO (Except String α) := do
  try return .ok (← x)
  catch e => return .error (errorMessage e)

/-- Reads the text of a file. -/
def readText (path : String) : IO (Except String String) := do
  match ← told (IO.FS.readBinFile path) with
  | .error e => return .error e
  | .ok bytes =>
    match String.fromUTF8? bytes with
    | some text => return .ok text
    | none => return .error FileError.notText.message

/-- A new file, and the path that leads to it. -/
structure NewFile where
  handle : IO.FS.Handle
  path : String

/-- Makes a new file in a directory. -/
def createIn (directory : String) : IO NewFile := do
  let path := s!"{directory}/.tmp{← IO.monoNanosNow}"
  return ⟨← IO.FS.Handle.mk path .writeNew, path⟩

/-- Answers a request on the real system. -/
def Request.perform : (r : Request NewFile) → IO r.Answer
  | .print text => told (IO.print text)
  | .printError text => told (IO.eprint text)
  | .read path => readText path
  | .create directory => told (createIn directory)
  | .write file text => told (file.handle.putStr text)
  | .flush file => told file.handle.flush
  | .release file => do
    let _ ← told file.handle.flush
  | .persist file path => told (IO.FS.rename file.path path)
  | .discard file => do
    let _ ← told (IO.FS.removeFile file.path)

/-- Runs a session on the real system. -/
def Session.perform : Session NewFile Nat → IO UInt32
  | .done code => return code.toUInt32
  | .abort => return abortCode.toUInt32
  | .ask r next => do (next (← r.perform)).perform

end MiniGo.Command

/-- Runs the command. -/
def main (args : List String) : IO UInt32 := (MiniGo.Command.session args).perform
