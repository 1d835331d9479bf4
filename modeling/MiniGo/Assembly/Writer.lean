import MiniGo.Assembly.Instr
import MiniGo.Assembly.Sink
import MiniGo.Diagnostic.GenError

/-!
# Writing assembly

Assembly is written line by line, to whatever takes text.

* `Writer`: where text is written to, with the effects that this has.
* `Writer.writeLines`: writes lines up to the first that cannot be written.
* `Writer.closing`: flushes what was written, and releases the writer.
-/

namespace MiniGo

/-- Why assembly could not be written. -/
inductive OutputError where
  | generation (e : GenError)
  | io (message : String)
deriving DecidableEq, Repr

/-- What an error says. -/
def OutputError.message : OutputError → String
  | generation e => e.message
  | io message => "cannot write assembly: " ++ message

/-- Where text is written to. -/
structure Writer (m : Type → Type) where
  write : String → m (Except OutputError Unit)
  flush : m (Except OutputError Unit)
  /-- A last flush before the writer goes away, whose failure is not told. -/
  release : m Unit

namespace Writer

variable {m : Type → Type} [Monad m]

/-- Writes lines up to the first that cannot be written. -/
def writeLines (w : Writer m) : List Line → m (Except OutputError Unit)
  | [] => return .ok ()
  | line :: lines => do
    match ← w.write (line.text ++ "\n") with
    | .ok _ => w.writeLines lines
    | .error e => return .error e

/-- Flushes a writer after a success. -/
def flushAfter (w : Writer m) (x : m (Except OutputError Unit)) : m (Except OutputError Unit) := do
  match ← x with
  | .ok _ => w.flush
  | .error e => return .error e

/-- Flushes a writer after a success, and releases it in any case. -/
def closing (w : Writer m) (x : m (Except OutputError Unit)) : m (Except OutputError Unit) := do
  let result ← w.flushAfter x
  w.release
  return result

end Writer

/-- The message of a sink that takes no more. -/
def sinkFull : String := "sink full"

/-- Writes to a sink. -/
def Sink.writer : Writer (StateM Sink) where
  write text := do
    let (sink, fits) := (← get).write text.toList
    set sink
    return if fits then .ok () else .error (.io sinkFull)
  flush := return .ok ()
  release := return ()

end MiniGo
