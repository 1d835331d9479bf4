/-!
# Requests to the outside

What a command does is a tree: it asks for something, and how it goes on depends on the answer. Who
answers is a parameter, so a session can be run on a real system, or on a state that is a value.

* `Request`: what can be asked for, and `Request.Answer`, what is said to it.
* `Session`: requests, and what follows their answers.
* `Session.run`: a session with operations that answer its requests.
-/

namespace MiniGo.Command

/-- A request to the outside. A file under `τ` is temporary: it can be written, but no path leads to
it until it is put in place. -/
inductive Request (τ : Type) where
  | print (text : String)
  | printError (text : String)
  /-- Asks for the text of the file that a path leads to. -/
  | read (path : String)
  /-- Asks for a temporary file in a directory. -/
  | create (directory : String)
  | write (file : τ) (text : String)
  | flush (file : τ)
  /-- A last flush before a writer goes away, whose failure is not told. -/
  | release (file : τ)
  /-- Puts a temporary file in the place of the file that a path leads to. -/
  | persist (file : τ) (path : String)
  | discard (file : τ)

variable {τ σ α β : Type}

/-- What is said to a request: an error is a message. -/
def Request.Answer : Request τ → Type
  | read _ => Except String String
  | create _ => Except String τ
  | print _ | printError _ | write .. | flush _ | persist .. => Except String Unit
  | release _ | discard _ => Unit

/-- Requests, and what follows their answers. A session is done with a value, or it is aborted. -/
inductive Session (τ α : Type) where
  | done (a : α)
  | abort
  | ask (r : Request τ) (next : r.Answer → Session τ α)

/-- Goes on when a session is done. -/
def Session.andThen : Session τ α → (α → Session τ β) → Session τ β
  | done a, f => f a
  | abort, _ => abort
  | ask r next, f => ask r fun answer => (next answer).andThen f

instance : Monad (Session τ) where
  pure := .done
  bind := .andThen

namespace Session

/-- A single request. -/
def request (r : Request τ) : Session τ r.Answer := ask r done

/-- Prints a text. Who cannot print does not go on. -/
def print (text : String) : Session τ Unit :=
  ask (.print text) fun
    | .ok _ => done ()
    | .error _ => abort

/-- Prints an error. Who cannot print does not go on. -/
def printError (text : String) : Session τ Unit :=
  ask (.printError text) fun
    | .ok _ => done ()
    | .error _ => abort

/-- Prints texts, one after the other. -/
def printAll : List String → Session τ Unit
  | [] => done ()
  | text :: texts => do
    print text
    printAll texts

end Session

/-! ### Runs -/

/-- What answers requests, and what each of them does to a state. -/
abbrev Operations (τ σ : Type) : Type := (r : Request τ) → σ → r.Answer × σ

/-- A request and its answer. -/
structure Event (τ : Type) where
  request : Request τ
  answer : request.Answer

/-- The end of a run: what it gives unless it is aborted, all that was asked and answered, and the
state that is left. -/
structure Run (τ σ α : Type) where
  result? : Option α
  trace : List (Event τ)
  state : σ

/-- Runs a session. -/
def Session.run (ops : Operations τ σ) : Session τ α → σ → Run τ σ α
  | done a, s => ⟨some a, [], s⟩
  | abort, s => ⟨none, [], s⟩
  | ask r next, s =>
    let answer := ops r s
    let rest := (next answer.1).run ops answer.2
    { rest with trace := ⟨r, answer.1⟩ :: rest.trace }

/-- The exit code of an aborted run. -/
def abortCode : Nat := 101

/-- The exit code of a run. -/
def Run.code (r : Run τ σ Nat) : Nat := r.result?.getD abortCode

end MiniGo.Command
