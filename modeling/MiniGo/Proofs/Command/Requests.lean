import Mathlib.Data.List.Basic
import MiniGo.Command.FileSystem
import MiniGo.Command.Session

/-!
# What answers to requests owe a session

A session is proved right for all operations that do what files and temporary files are documented
to do. What there is to see of the state of such operations is a parameter, too.

* `Session.Ensures`: what holds of a run, with a rule for each way to build a session.
* `View`: what can be seen of a state.
* `Lawful`: what each request does to what can be seen, if it is granted and if it is not.
* `Keeps`: a part of a run after which all files hold what they held.
-/

namespace MiniGo.Command

variable {τ σ α β : Type} {ops : Operations τ σ}

/-! ### Events -/

/-- Whether a request was granted. -/
def Event.granted : Event τ → Bool
  | ⟨.print _, .error _⟩ | ⟨.printError _, .error _⟩ | ⟨.read _, .error _⟩
  | ⟨.create _, .error _⟩ | ⟨.write .., .error _⟩ | ⟨.flush _, .error _⟩
  | ⟨.persist .., .error _⟩ => false
  | _ => true

namespace Request

/-- Requests to print. -/
def isPrint : Request τ → Bool
  | print _ | printError _ => true
  | _ => false

/-- Requests about temporary files. -/
def isOutput : Request τ → Bool
  | print _ | printError _ | read _ => false
  | _ => true

end Request

/-! ### Runs -/

/-- What holds of a run: of what it gives, of all that was asked and answered, and of the state that
is left. -/
def Session.Ensures (ops : Operations τ σ) (x : Session τ α) (s : σ)
    (post : Option α → List (Event τ) → σ → Prop) : Prop :=
  post (x.run ops s).result? (x.run ops s).trace (x.run ops s).state

namespace Session.Ensures

variable {x : Session τ α} {f : α → Session τ β} {s : σ}
  {post post' : Option α → List (Event τ) → σ → Prop} {after : Option β → List (Event τ) → σ → Prop}

theorem pure {a : α} (h : post (some a) [] s) : Ensures ops (pure a) s post := h

theorem mono (h : Ensures ops x s post) (weaker : ∀ o t s', post o t s' → post' o t s') :
    Ensures ops x s post' := weaker _ _ _ h

/-- A request, and what follows its answer. -/
theorem ask {r : Request τ} {next : r.Answer → Session τ α}
    (h : Ensures ops (next (ops r s).1) (ops r s).2 fun o t s' =>
      post o (⟨r, (ops r s).1⟩ :: t) s') :
    Ensures ops (.ask r next) s post := h

/-- One session after another: what happens in the first comes before what happens in the second,
which does not happen if the first is aborted. -/
theorem bind (h : Ensures ops x s post)
    (next : ∀ a t s', post (some a) t s' →
      Ensures ops (f a) s' fun o t' s'' => after o (t ++ t') s'')
    (aborted : ∀ t s', post none t s' → after none t s') : Ensures ops (x >>= f) s after := by
  induction x generalizing s post after with
  | done a => exact next a [] s h
  | abort => exact aborted [] s h
  | ask r rest ih =>
    -- The first event is a part of all traces that follow.
    let event : Event τ := ⟨r, (ops r s).1⟩
    exact @ih (ops r s).1 (ops r s).2 (fun o t => post o (event :: t))
      (fun o t => after o (event :: t)) h (fun a t => next a (event :: t)) fun t =>
        aborted (event :: t)

end Session.Ensures

/-! ### What can be seen -/

/-- What can be seen of a state. -/
structure View (τ σ : Type) where
  /-- What the file that a path leads to holds. Temporary files do not count. -/
  content? : σ → String → Option Content
  /-- The text that was written to a temporary file. -/
  accepted : σ → τ → String
  /-- The text that a temporary file holds. -/
  stored : σ → τ → String
  /-- Two paths do not lead to the same file. -/
  Apart : σ → String → String → Prop

/-- What each request does. -/
structure Lawful (ops : Operations τ σ) (view : View τ σ) : Prop where
  symm : ∀ {s path other}, view.Apart s path other → view.Apart s other path
  /-- No request changes where paths lead. -/
  apart : ∀ (r : Request τ) {s path other}, view.Apart s path other →
    view.Apart (ops r s).2 path other
  /-- Only a file that is put in place can be seen. -/
  keeps : ∀ {r : Request τ}, (∀ file path, r ≠ .persist file path) → ∀ s path,
    view.content? (ops r s).2 path = view.content? s path
  /-- What is read is what the file holds. -/
  read : ∀ {s path text}, (ops (.read path) s).1 = Except.ok text →
    view.content? s path = some (.text text)
  /-- A new file is empty. -/
  create : ∀ {s directory file}, (ops (.create directory) s).1 = Except.ok file →
    view.accepted (ops (.create directory) s).2 file = ""
  write : ∀ {s file text}, (ops (.write file text) s).1 = Except.ok () →
    view.accepted (ops (.write file text) s).2 file = view.accepted s file ++ text
  /-- After a flush a file holds all that was written to it. -/
  flush : ∀ {s file}, (ops (.flush file) s).1 = Except.ok () →
    view.accepted (ops (.flush file) s).2 file = view.accepted s file ∧
      view.stored (ops (.flush file) s).2 file = view.accepted s file
  /-- What has been flushed stays. -/
  release : ∀ {s file}, view.stored s file = view.accepted s file →
    view.accepted (ops (.release file) s).2 file = view.accepted s file ∧
      view.stored (ops (.release file) s).2 file = view.accepted s file
  /-- A file is put in place as a whole, and takes the place of one file only. -/
  persist : ∀ {s file path}, (ops (.persist file path) s).1 = Except.ok () →
    view.content? (ops (.persist file path) s).2 path = some (.text (view.stored s file)) ∧
      ∀ {other}, view.Apart s path other →
        view.content? (ops (.persist file path) s).2 other = view.content? s other
  /-- A file that cannot be put in place changes nothing. -/
  persist_error : ∀ {s file path message}, (ops (.persist file path) s).1 = Except.error message →
    ∀ other, view.content? (ops (.persist file path) s).2 other = view.content? s other

variable {view : View τ σ} {s s' s'' : σ}

/-- All files hold what they held, and paths lead where they led. -/
structure Keeps (view : View τ σ) (s s' : σ) : Prop where
  content?_eq : ∀ path, view.content? s' path = view.content? s path
  apart : ∀ {path other}, view.Apart s path other → view.Apart s' path other

theorem Keeps.refl (view : View τ σ) (s : σ) : Keeps view s s := ⟨fun _ => rfl, id⟩

theorem Keeps.trans (h : Keeps view s s') (h' : Keeps view s' s'') : Keeps view s s'' :=
  ⟨fun path => (h'.content?_eq path).trans (h.content?_eq path),
    fun apart => h'.apart (h.apart apart)⟩

namespace Lawful

variable (lawful : Lawful ops view)

include lawful

theorem keeps_of_ne {r : Request τ} (other : ∀ file path, r ≠ .persist file path) (s : σ) :
    Keeps view s (ops r s).2 :=
  ⟨lawful.keeps other s, lawful.apart r⟩

theorem keeps_persist {file : τ} {path message : String}
    (h : (ops (.persist file path) s).1 = Except.error message) :
    Keeps view s (ops (.persist file path) s).2 :=
  ⟨lawful.persist_error h, lawful.apart _⟩

end Lawful

/-! ### Printing -/

/-- A part of a run that only prints: it ends, or it is aborted since something cannot be
printed. -/
inductive Printed (view : View τ σ) (s : σ) : Option Unit → List (Event τ) → σ → Prop
  | done {t : List (Event τ)} {s' : σ} (kept : Keeps view s s')
      (silent : ∀ e ∈ t, e.request.isOutput = false) (granted : ∀ e ∈ t, e.granted = true) :
      Printed view s (some ()) t s'
  | aborted {t : List (Event τ)} {s' : σ} (kept : Keeps view s s')
      (silent : ∀ e ∈ t, e.request.isOutput = false)
      (refused : ∃ e ∈ t, e.request.isPrint = true ∧ e.granted = false) : Printed view s none t s'

/-- Printing is not about files, so that all of them stay. -/
theorem ensures_print (lawful : Lawful ops view) (text : String) (s : σ) :
    (Session.print text).Ensures ops s (Printed view s) := by
  have kept := lawful.keeps_of_ne (r := .print text) (by simp) s
  refine .ask ?_
  cases answer : (ops (.print text) s).1 with
  | ok u =>
    show Printed view s (some ()) [⟨.print text, Except.ok u⟩] _
    exact .done kept (by simp [Request.isOutput]) (by simp [Event.granted])
  | error e =>
    show Printed view s none [⟨.print text, Except.error e⟩] _
    exact .aborted kept (by simp [Request.isOutput]) (by simp [Request.isPrint, Event.granted])

theorem ensures_printAll (lawful : Lawful ops view) (texts : List String) (s : σ) :
    (Session.printAll texts).Ensures ops s (Printed view s) := by
  induction texts generalizing s with
  | nil => exact .pure (.done (.refl view s) (by simp) (by simp))
  | cons text texts ih =>
    refine (ensures_print lawful text s).bind (fun a t s' first => ?_) fun t s' first => ?_
    · cases first with
      | done kept silent granted =>
        refine (ih s').mono fun o t' s'' rest => ?_
        cases rest with
        | done kept' silent' granted' =>
          exact .done (kept.trans kept') (List.forall_mem_append.2 ⟨silent, silent'⟩)
            (List.forall_mem_append.2 ⟨granted, granted'⟩)
        | aborted kept' silent' refused =>
          obtain ⟨e, mem, refused⟩ := refused
          exact .aborted (kept.trans kept') (List.forall_mem_append.2 ⟨silent, silent'⟩)
            ⟨e, List.mem_append_right t mem, refused⟩
    · cases first with
      | aborted kept silent refused => exact .aborted kept silent refused

/-- A message is printed, and an exit code given; or the run is aborted. -/
theorem ensures_failWith (lawful : Lawful ops view) (code : Nat) (message : String) (s : σ) :
    (failWith code message).Ensures ops s fun o t s' => Keeps view s s' ∧
      ((o = some code ∧ t = [⟨.printError message, Except.ok ()⟩]) ∨
        o = none ∧ ∃ e, t = [⟨.printError message, Except.error e⟩]) := by
  have kept := lawful.keeps_of_ne (r := .printError message) (by simp) s
  refine .ask ?_
  cases answer : (ops (.printError message) s).1 with
  | ok u => exact ⟨kept, .inl ⟨rfl, rfl⟩⟩
  | error e => exact ⟨kept, .inr ⟨rfl, e, rfl⟩⟩

end MiniGo.Command
