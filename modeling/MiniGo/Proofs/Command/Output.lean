import MiniGo.Proofs.Command.Requests

/-!
# Writing a file by way of a temporary file

A file is written as a whole, or it stays as it is: a temporary file is put in place only when all
of its text has been written and flushed.

* `Attempted`: what was attempted either succeeds, or it fails and all files stay as they are.
* `Replaced`: a file holds another text, and what is apart from it stays.
* `attempted_writeLines`, `attempted_closing`: the steps of writing to a temporary file.
* `attempted_writeOutput`: a file is replaced, or nothing is.
-/

namespace MiniGo.Command

variable {τ σ : Type} {ops : Operations τ σ} {view : View τ σ} {s s' : σ}

/-- What was attempted succeeds, with all requests granted; or a request about a temporary file is
refused, and all files stay as they are. -/
inductive Attempted (view : View τ σ) (s : σ) (post : σ → Prop) :
    Option (Except OutputError Unit) → List (Event τ) → σ → Prop
  | success {t : List (Event τ)} {s' : σ} (granted : ∀ e ∈ t, e.granted = true) (holds : post s') :
      Attempted view s post (some (.ok ())) t s'
  | failure {message : String} {t : List (Event τ)} {s' : σ} (kept : Keeps view s s')
      (refused : ∃ e ∈ t, e.request.isOutput = true ∧ e.granted = false) :
      Attempted view s post (some (.error (.io message))) t s'

namespace Attempted

variable {post post' : σ → Prop} {o : Option (Except OutputError Unit)} {t t' : List (Event τ)}

theorem mono (h : Attempted view s post o t s') (weaker : ∀ s', post s' → post' s') :
    Attempted view s post' o t s' := by
  cases h with
  | success granted holds => exact .success granted (weaker _ holds)
  | failure kept refused => exact .failure kept refused

/-- What was granted before, and changed nothing, is a part of the attempt. -/
theorem after {s₁ : σ} (granted : ∀ e ∈ t, e.granted = true) (kept : Keeps view s s₁)
    (h : Attempted view s₁ post o t' s') : Attempted view s post o (t ++ t') s' := by
  cases h with
  | success granted' holds => exact .success (List.forall_mem_append.2 ⟨granted, granted'⟩) holds
  | failure kept' refused =>
    obtain ⟨e, mem, refused⟩ := refused
    exact .failure (kept.trans kept') ⟨e, List.mem_append_right t mem, refused⟩

end Attempted

/-- An attempt is never aborted, and what follows depends on how it ended. -/
theorem Session.Ensures.attempt {α : Type} {x : Session τ (Except OutputError Unit)}
    {f : Except OutputError Unit → Session τ α} {post : σ → Prop}
    {after : Option α → List (Event τ) → σ → Prop} (h : x.Ensures ops s (Attempted view s post))
    (success : ∀ t s', (∀ e ∈ t, e.granted = true) → post s' →
      (f (.ok ())).Ensures ops s' fun o t' s'' => after o (t ++ t') s'')
    (failure : ∀ message t s', Keeps view s s' →
      (∃ e ∈ t, e.request.isOutput = true ∧ e.granted = false) →
      (f (.error (.io message))).Ensures ops s' fun o t' s'' => after o (t ++ t') s'') :
    (x >>= f).Ensures ops s after := by
  refine h.bind (fun a t s' attempted => ?_) fun t s' attempted => nomatch attempted
  cases attempted with
  | success granted holds => exact success t s' granted holds
  | failure kept refused => exact failure _ t s' kept refused

/-! ### Writing to a temporary file -/

/-- A temporary file to which a text was written, while all files stayed as they were. -/
structure Holds (view : View τ σ) (s : σ) (file : τ) (text : String) (s' : σ) : Prop where
  kept : Keeps view s s'
  accepted : view.accepted s' file = text

/-- A temporary file with a text, all of which has been flushed. -/
structure Flushed (view : View τ σ) (s : σ) (file : τ) (text : String) (s' : σ) : Prop
    extends Holds view s file text s' where
  stored : view.stored s' file = text

/-- A file holds another text, and what is apart from it stays. -/
structure Replaced (view : View τ σ) (s : σ) (path text : String) (s' : σ) : Prop where
  holds : view.content? s' path = some (.text text)
  others : ∀ {other}, view.Apart s path other → view.content? s' other = view.content? s other
  apart : ∀ {first second}, view.Apart s first second → view.Apart s' first second

theorem Replaced.after {path : String} {s₁ : σ} (kept : Keeps view s s₁)
    (h : Replaced view s₁ path text s') :
    Replaced view s path text s' :=
  ⟨h.holds, fun apart => (h.others (kept.apart apart)).trans (kept.content?_eq _),
    fun apart => h.apart (kept.apart apart)⟩

section

variable (lawful : Lawful ops view) {file : τ} {text : String}
  {fill : Session τ (Except OutputError Unit)}

include lawful

/-- A text that is written comes behind what was written before. -/
theorem attempted_write (before : view.accepted s file = text) (more : String) :
    ((fileWriter file).write more).Ensures ops s
      (Attempted view s (Holds view s file (text ++ more))) := by
  have kept := lawful.keeps_of_ne (r := .write file more) (by simp) s
  refine .ask ?_
  cases answer : (ops (.write file more) s).1 with
  | ok u =>
    have written := lawful.write answer
    rw [before] at written
    show Attempted view s _ (some (.ok u)) [⟨.write file more, Except.ok u⟩] _
    exact .success (by simp [Event.granted]) ⟨kept, written⟩
  | error e =>
    show Attempted view s _ (some (.error (.io e))) [⟨.write file more, Except.error e⟩] _
    exact .failure kept (by simp [Event.granted, Request.isOutput])

/-- Lines that are written come behind what was written before. -/
theorem attempted_writeLines (before : view.accepted s file = text) (lines : List Line) :
    ((fileWriter file).writeLines lines).Ensures ops s
      (Attempted view s (Holds view s file (text ++ Line.render lines))) := by
  induction lines generalizing s text with
  | nil => exact .pure (.success (by simp) ⟨.refl view s, by simpa using before⟩)
  | cons line lines ih =>
    refine (attempted_write lawful before _).attempt (fun t s₁ granted written => ?_)
      fun message t s₁ kept refused => .pure ?_
    · rw [Line.render_cons, ← String.append_assoc]
      refine (ih written.accepted).mono fun o t' s₂ rest => ?_
      exact (rest.after granted written.kept).mono fun s' holds =>
        ⟨written.kept.trans holds.kept, holds.accepted⟩
    · rw [List.append_nil]
      exact .failure kept refused

/-- After a flush all that was written is stored. -/
theorem attempted_flush (before : view.accepted s file = text) :
    ((fileWriter file).flush).Ensures ops s (Attempted view s (Flushed view s file text)) := by
  have kept := lawful.keeps_of_ne (r := .flush file) (by simp) s
  refine .ask ?_
  cases answer : (ops (.flush file) s).1 with
  | ok u =>
    have flushed := lawful.flush answer
    rw [before] at flushed
    show Attempted view s _ (some (.ok u)) [⟨.flush file, Except.ok u⟩] _
    exact .success (by simp [Event.granted]) ⟨⟨kept, flushed.1⟩, flushed.2⟩
  | error e =>
    show Attempted view s _ (some (.error (.io e))) [⟨.flush file, Except.error e⟩] _
    exact .failure kept (by simp [Event.granted, Request.isOutput])

theorem attempted_flushAfter (h : fill.Ensures ops s (Attempted view s (Holds view s file text))) :
    ((fileWriter file).flushAfter fill).Ensures ops s
      (Attempted view s (Flushed view s file text)) := by
  refine h.attempt (fun t s₁ granted written => ?_) fun message t s₁ kept refused => .pure ?_
  · refine (attempted_flush lawful written.accepted).mono fun o t' s₂ flushed => ?_
    exact (flushed.after granted written.kept).mono fun s' holds =>
      ⟨⟨written.kept.trans holds.kept, holds.accepted⟩, holds.stored⟩
  · rw [List.append_nil]
    exact .failure kept refused

/-- A writer that is closed has flushed everything, and its release takes nothing back. -/
theorem attempted_closing (h : fill.Ensures ops s (Attempted view s (Holds view s file text))) :
    ((fileWriter file).closing fill).Ensures ops s
      (Attempted view s (Flushed view s file text)) := by
  refine (attempted_flushAfter lawful h).attempt (fun t s₁ granted flushed => .ask (.pure ?_))
    fun message t s₁ kept refused => .ask (.pure ?_)
  all_goals have released := lawful.keeps_of_ne (r := .release file) (by simp) s₁
  · obtain ⟨accepted, stored⟩ := lawful.release (flushed.stored.trans flushed.accepted.symm)
    rw [flushed.accepted] at accepted stored
    exact .success (List.forall_mem_append.2 ⟨granted, by simp [Event.granted]⟩)
      ⟨⟨flushed.kept.trans released, accepted⟩, stored⟩
  · obtain ⟨e, mem, refused⟩ := refused
    exact .failure (kept.trans released) ⟨e, List.mem_append_left _ mem, refused⟩

/-! ### Replacing a file -/

theorem attempted_persist (path : String) (before : view.stored s file = text) :
    (persist file path).Ensures ops s (Attempted view s (Replaced view s path text)) := by
  refine .ask ?_
  cases answer : (ops (.persist file path) s).1 with
  | ok u =>
    obtain ⟨holds, others⟩ := lawful.persist answer
    rw [before] at holds
    show Attempted view s _ (some (.ok u)) [⟨.persist file path, Except.ok u⟩] _
    exact .success (by simp [Event.granted]) ⟨holds, others, lawful.apart _⟩
  | error e =>
    show Attempted view s _ (some (.error (.io e))) [⟨.persist file path, Except.error e⟩] _
    exact .failure (lawful.keeps_persist answer) (by simp [Event.granted, Request.isOutput])

theorem attempted_complete (path : String)
    (h : fill.Ensures ops s (Attempted view s (Holds view s file text))) :
    (complete file path fill).Ensures ops s (Attempted view s (Replaced view s path text)) := by
  refine (attempted_closing lawful h).attempt (fun t s₁ granted flushed => ?_)
    fun message t s₁ kept refused => .pure ?_
  · refine (attempted_persist lawful path flushed.stored).mono fun o t' s₂ replaced => ?_
    exact (replaced.after granted flushed.kept).mono fun s' holds => holds.after flushed.kept
  · rw [List.append_nil]
    exact .failure kept refused

/-- A file is replaced by a text, or all files stay as they are. -/
theorem attempted_writeOutput (path : String) {fill : τ → Session τ (Except OutputError Unit)}
    (h : ∀ file s, view.accepted s file = "" →
      (fill file).Ensures ops s (Attempted view s (Holds view s file text))) (s : σ) :
    (writeOutput path fill).Ensures ops s (Attempted view s (Replaced view s path text)) := by
  have kept := lawful.keeps_of_ne (r := .create (Path.directory path)) (by simp) s
  refine .ask ?_
  cases answer : (ops (.create (Path.directory path)) s).1 with
  | error e =>
    show Attempted view s _ (some (.error (.io e)))
      [⟨.create (Path.directory path), Except.error e⟩] _
    exact .failure kept (by simp [Event.granted, Request.isOutput])
  | ok file =>
    have completed := attempted_complete lawful path (h file _ (lawful.create answer))
    refine completed.attempt (fun t s₁ granted replaced => .pure ?_)
      fun message t s₁ kept' refused =>
      .ask (.pure ?_)
    · exact .success (by simpa [Event.granted] using granted) (replaced.after kept)
    · -- The file is removed, which nobody sees.
      have discarded := lawful.keeps_of_ne (r := .discard file) (by simp) s₁
      obtain ⟨e, mem, refused⟩ := refused
      exact .failure (kept.trans (kept'.trans discarded)) ⟨e, by simp [mem], refused⟩

end

end MiniGo.Command
