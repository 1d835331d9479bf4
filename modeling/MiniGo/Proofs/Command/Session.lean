import MiniGo.Command.Host
import MiniGo.Proofs.Code.Program
import MiniGo.Proofs.Command.Host
import MiniGo.Proofs.Command.Output

/-!
# What a run of the command leaves behind

A run of the command compiles a source as `compile` does. The assembly is written only if everything
before has worked, and a file that cannot be written stays as it is. This is so for all operations
that obey the laws.

* `Arguments.results`: the files that a run writes.
* `Ends`: the ways in which a run ends, with what was asked and the state that is left.
* `compileSession_ends`: each run ends in one of these ways.
* `session_allOrNothing`: what follows for the files, if the graph and the assembly do not go to the
  same place.
-/

namespace MiniGo.Command

variable {τ σ : Type} {ops : Operations τ σ} {view : View τ σ} {s s₀ s₁ s' : σ}
  {a : Arguments} {p : Program} {source text : String} {t t' : List (Event τ)}

/-- The files that a run writes, in order: the graph if it is wanted, and the assembly. -/
def Arguments.results (a : Arguments) (p : Program) (text : String) : List (String × String) :=
  (a.dot?.map fun path => (path, p.root.toDot p.tables)).toList ++ [(a.output, text)]

/-- A source text was read, and it is what the file held. -/
structure Sourced (view : View τ σ) (s : σ) (a : Arguments) (t : List (Event τ)) (source : String) :
    Prop where
  read : ⟨.read a.source, Except.ok source⟩ ∈ t
  held : view.content? s a.source = some (.text source)

/-- A source text was read, and it is compiled without an error. -/
structure Compiled (view : View τ σ) (s : σ) (a : Arguments) (t : List (Event τ)) (source : String)
    (p : Program) (text : String) : Prop extends Sourced view s a t source where
  analyzed : analyzeSource source = .ok p
  compiled : compile source a.options = .ok text

theorem Compiled.append (h : Compiled view s a t source p text) (t' : List (Event τ)) :
    Compiled view s a (t ++ t') source p text :=
  { h with read := List.mem_append_left t' h.read }

/-- Code generation succeeds on what was analyzed, and writes what `compile` gives. -/
theorem exists_emission (analyzed : analyzeSource source = .ok p) (options : Options) :
    ∃ lines, emission p.root p.tables options = ⟨lines, {}, .ok ()⟩ ∧
      compile source options = .ok (Line.render lines) := by
  obtain ⟨k, emitted, generated⟩ := generate_wellTyped (wellTyped_of_analyzeSource analyzed) options
  exact ⟨k.lines, emitted, by simp only [compile, analyzed, generated]⟩

/-! ### Files that are written one after the other -/

/-- Files are written, one after the other. -/
inductive Written (view : View τ σ) : σ → List (String × String) → σ → Prop
  | nil {s s' : σ} (kept : Keeps view s s') : Written view s [] s'
  | cons {s s₁ s' : σ} {path text : String} {rest : List (String × String)}
      (first : Replaced view s path text s₁) (others : Written view s₁ rest s') :
      Written view s ((path, text) :: rest) s'

namespace Written

variable {done : List (String × String)} {path : String}

theorem keeps (h : Written view s done s₁) (kept : Keeps view s₁ s') : Written view s done s' := by
  induction h with
  | nil before => exact .nil (before.trans kept)
  | cons first _ ih => exact .cons first (ih kept)

theorem snoc (h : Written view s done s₁) (last : Replaced view s₁ path text s') :
    Written view s (done ++ [(path, text)]) s' := by
  induction h with
  | nil kept => exact .cons (last.after kept) (.nil (.refl view s'))
  | cons first _ ih => exact .cons first (ih last)

/-- A file that is apart from all that are written stays. -/
theorem content?_eq (h : Written view s done s') (apart : ∀ file ∈ done, view.Apart s file.1 path) :
    view.content? s' path = view.content? s path := by
  induction h with
  | nil kept => exact kept.content?_eq path
  | cons first _ ih =>
    rw [ih fun file mem => first.apart (apart file (.tail _ mem))]
    exact first.others (apart _ (.head _))

/-- Files that are written to different places all hold their texts. -/
theorem holds (h : Written view s done s')
    (apart : done.Pairwise fun first second => view.Apart s second.1 first.1) :
    ∀ file ∈ done, view.content? s' file.1 = some (.text file.2) := by
  induction h with
  | nil => simp
  | cons first others ih =>
    obtain ⟨fromFirst, fromOthers⟩ := List.pairwise_cons.1 apart
    refine List.forall_mem_cons.2 ⟨?_, ih (fromOthers.imp first.apart)⟩
    rw [others.content?_eq fun file mem => first.apart (fromFirst file mem)]
    exact first.holds

end Written

/-! ### Ways to end -/

/-- The ways in which a run ends: its exit code, unless it is aborted, all that was asked and
answered, and the state that is left. -/
inductive Ends (view : View τ σ) (a : Arguments) (s : σ) : Option Nat → List (Event τ) → σ → Prop
  | unreadable {t : List (Event τ)} {s' : σ} {message : String} (kept : Keeps view s s')
      (silent : ∀ e ∈ t, e.request.isOutput = false)
      (unreadable : ⟨.read a.source, Except.error message⟩ ∈ t) : Ends view a s (some 3) t s'
  | rejected {t : List (Event τ)} {s' : σ} {source : String} {e : CompileError}
      (kept : Keeps view s s') (silent : ∀ e ∈ t, e.request.isOutput = false)
      (sourced : Sourced view s a t source) (rejected : compile source a.options = .error e) :
      Ends view a s (some 1) t s'
  | unwritable {t : List (Event τ)} {s' : σ} {source text path content reason : String}
      {p : Program} {done rest : List (String × String)}
      (compiled : Compiled view s a t source p text)
      (results : a.results p text = done ++ (path, content) :: rest)
      (written : Written view s done s')
      (refused : ∃ e ∈ t, e.request.isOutput = true ∧ e.granted = false)
      (told : ⟨.printError (unwritable path reason), Except.ok ()⟩ ∈ t) :
      Ends view a s (some 2) t s'
  | written {t : List (Event τ)} {s' : σ} {source text : String} {p : Program}
      (compiled : Compiled view s a t source p text)
      (written : Written view s (a.results p text) s') (granted : ∀ e ∈ t, e.granted = true) :
      Ends view a s (some 0) t s'
  | aborted {t : List (Event τ)} {s' : σ} (kept : Keeps view s s')
      (refused : ∃ e ∈ t, e.request.isPrint = true ∧ e.granted = false) : Ends view a s none t s'
  /-- An abort after the compilation: some of the results have been written by then. -/
  | interrupted {t : List (Event τ)} {s' : σ} {source text : String} {p : Program}
      {done rest : List (String × String)} (compiled : Compiled view s a t source p text)
      (results : a.results p text = done ++ rest) (written : Written view s done s')
      (refused : ∃ e ∈ t, e.request.isPrint = true ∧ e.granted = false) : Ends view a s none t s'

/-- What a session does from here on is the end of a run, if `t` has happened before. -/
def Finishes (ops : Operations τ σ) (view : View τ σ) (a : Arguments) (s₀ : σ) (t : List (Event τ))
    (x : Session τ Nat) (s : σ) : Prop :=
  x.Ensures ops s fun o t' s' => Ends view a s₀ o (t ++ t') s'

namespace Finishes

variable {α : Type}

theorem done {code : Nat} (h : Ends view a s₀ (some code) t s) :
    Finishes ops view a s₀ t (.done code) s := by
  rw [← List.append_nil t] at h
  exact h

theorem request {r : Request τ} {f : r.Answer → Session τ Nat}
    (h : Finishes ops view a s₀ (t ++ [⟨r, (ops r s).1⟩]) (f (ops r s).1) (ops r s).2) :
    Finishes ops view a s₀ t (.request r >>= f) s :=
  Session.Ensures.ask (Session.Ensures.mono h fun _ t' _ ends => List.append_cons t _ t' ▸ ends)

theorem attempt {x : Session τ (Except OutputError Unit)}
    {f : Except OutputError Unit → Session τ Nat} {post : σ → Prop}
    (h : x.Ensures ops s (Attempted view s post))
    (success : ∀ t' s', (∀ e ∈ t', e.granted = true) → post s' →
      Finishes ops view a s₀ (t ++ t') (f (.ok ())) s')
    (failure : ∀ message t' s', Keeps view s s' →
      (∃ e ∈ t', e.request.isOutput = true ∧ e.granted = false) →
      Finishes ops view a s₀ (t ++ t') (f (.error (.io message))) s') :
    Finishes ops view a s₀ t (x >>= f) s := by
  refine Session.Ensures.attempt h (fun t' s' granted holds => ?_)
    fun message t' s' kept refused => ?_
  · exact (success t' s' granted holds).mono fun o t'' s'' ends => List.append_assoc t t' t'' ▸ ends
  · exact (failure message t' s' kept refused).mono fun o t'' s'' ends =>
      List.append_assoc t t' t'' ▸ ends

theorem print {x : Session τ Unit} {f : Unit → Session τ Nat} (h : x.Ensures ops s (Printed view s))
    (done : ∀ t' s', Keeps view s s' → (∀ e ∈ t', e.request.isOutput = false) →
      (∀ e ∈ t', e.granted = true) → Finishes ops view a s₀ (t ++ t') (f ()) s')
    (aborted : ∀ t' s', Keeps view s s' → (∃ e ∈ t', e.request.isPrint = true ∧ e.granted = false) →
      Ends view a s₀ none (t ++ t') s') : Finishes ops view a s₀ t (x >>= f) s := by
  refine Session.Ensures.bind h (fun u t' s' printed => ?_) fun t' s' printed => ?_
  · cases printed with
    | done kept silent granted =>
      exact (done t' s' kept silent granted).mono fun o t'' s'' ends =>
        List.append_assoc t t' t'' ▸ ends
  · cases printed with
    | aborted kept silent refused => exact aborted t' s' kept refused

/-- A message ends a run with its code, or the run is aborted since it cannot be printed. -/
theorem failWith (lawful : Lawful ops view) {code : Nat} {message : String}
    (told : ∀ {s'}, Keeps view s s' →
      Ends view a s₀ (some code) (t ++ [⟨.printError message, Except.ok ()⟩]) s')
    (aborted : ∀ t' s', Keeps view s s' → (∃ e ∈ t', e.request.isPrint = true ∧ e.granted = false) →
      Ends view a s₀ none (t ++ t') s') : Finishes ops view a s₀ t (failWith code message) s := by
  refine (ensures_failWith lawful code message s).mono fun o t' s' ⟨kept, ends⟩ => ?_
  rcases ends with ⟨rfl, rfl⟩ | ⟨rfl, e, rfl⟩
  · exact told kept
  · exact aborted _ s' kept ⟨_, List.mem_singleton.2 rfl, rfl, rfl⟩

end Finishes

/-- A source is compiled, and some of the results have been written. -/
structure Progress (view : View τ σ) (a : Arguments) (source : String) (p : Program) (text : String)
    (done rest : List (String × String)) (s₀ : σ) (t : List (Event τ)) (s : σ) : Prop
    extends Compiled view s₀ a t source p text where
  results : a.results p text = done ++ rest
  written : Written view s₀ done s

namespace Progress

variable {done rest : List (String × String)} {path content : String}

theorem append (h : Progress view a source p text done rest s₀ t s) (t' : List (Event τ))
    (kept : Keeps view s s') : Progress view a source p text done rest s₀ (t ++ t') s' :=
  ⟨h.toCompiled.append t', h.results, h.written.keeps kept⟩

theorem snoc (h : Progress view a source p text done ((path, content) :: rest) s₀ t s)
    (t' : List (Event τ)) (replaced : Replaced view s path content s') :
    Progress view a source p text (done ++ [(path, content)]) rest s₀ (t ++ t') s' :=
  ⟨h.toCompiled.append t', by simp [h.results], h.written.snoc replaced⟩

/-- An abort leaves what has been written. -/
theorem interrupted (h : Progress view a source p text done rest s₀ t s) (t' : List (Event τ))
    (s' : σ) (kept : Keeps view s s')
    (refused : ∃ e ∈ t', e.request.isPrint = true ∧ e.granted = false) :
    Ends view a s₀ none (t ++ t') s' := by
  obtain ⟨e, mem, refused⟩ := refused
  exact .interrupted (h.toCompiled.append t') h.results (h.written.keeps kept)
    ⟨e, List.mem_append_right t mem, refused⟩

/-- The file that could not be written is reported, and the run ends. -/
theorem unwritable (lawful : Lawful ops view) {reason : String}
    (h : Progress view a source p text done ((path, content) :: rest) s₀ t s)
    (refused : ∃ e ∈ t, e.request.isOutput = true ∧ e.granted = false) :
    Finishes ops view a s₀ t (failWith 2 (unwritable path reason)) s := by
  refine .failWith lawful (fun kept => ?_) h.interrupted
  obtain ⟨e, mem, refused⟩ := refused
  exact .unwritable (h.toCompiled.append _) h.results (h.written.keeps kept)
    ⟨e, List.mem_append_left _ mem, refused⟩ (List.mem_append_right t (List.mem_singleton.2 rfl))

end Progress

section

variable (lawful : Lawful ops view)

include lawful

/-- The assembly is written line by line, and is what `compile` gives. -/
theorem attempted_fillAssembly (compiled : Compiled view s₀ a t source p text) {file : τ}
    (before : view.accepted s file = "") :
    (fillAssembly a p file).Ensures ops s (Attempted view s (Holds view s file text)) := by
  obtain ⟨lines, emitted, generated⟩ := exists_emission compiled.analyzed a.options
  obtain rfl : Line.render lines = text := Except.ok.inj (generated.symm.trans compiled.compiled)
  unfold fillAssembly generateTo
  rw [emitted]
  refine (attempted_closing lawful ?_).mono fun o t s' closed => closed.mono fun s' =>
    Flushed.toHolds
  refine (attempted_writeLines lawful before lines).attempt (fun t s₁ granted holds => .pure ?_)
    fun message t s₁ kept refused => .pure ?_
  all_goals rw [List.append_nil]
  · rw [String.empty_append] at holds
    exact .success granted holds
  · exact .failure kept refused

/-- The assembly is written last. -/
theorem finishes_writeAssembly {done : List (String × String)} (granted : ∀ e ∈ t, e.granted = true)
    (progress : Progress view a source p text done [(a.output, text)] s₀ t s) :
    Finishes ops view a s₀ t (writeAssembly a p) s := by
  have fill (file : τ) (s : σ) (before : view.accepted s file = "") :=
    attempted_fillAssembly lawful progress.toCompiled before
  refine .attempt (attempted_writeOutput lawful a.output fill s) (fun t₁ s₁ granted₁ replaced => ?_)
    fun message t₁ s₁ kept refused => ?_
  · have all := progress.snoc t₁ replaced
    refine .print (ensures_print lawful a.farewell s₁) (fun t₂ s₂ kept silent granted₂ => .done ?_)
      all.interrupted
    have complete := all.append t₂ kept
    rw [← all.results.trans (List.append_nil _)] at complete
    exact .written complete.toCompiled complete.written
      (List.forall_mem_append.2 ⟨List.forall_mem_append.2 ⟨granted, granted₁⟩, granted₂⟩)
  · obtain ⟨e, mem, refused⟩ := refused
    exact (progress.append t₁ kept).unwritable lawful ⟨e, List.mem_append_right t mem, refused⟩

/-- The graph is written first. -/
theorem finishes_writeGraph (granted : ∀ e ∈ t, e.granted = true) (kept : Keeps view s₀ s)
    (compiled : Compiled view s₀ a t source p text) :
    Finishes ops view a s₀ t (writeGraph a p (writeAssembly a p)) s := by
  unfold writeGraph
  cases wanted : a.dot? with
  | none =>
    exact finishes_writeAssembly lawful granted ⟨compiled, by simp [Arguments.results, wanted],
      .nil kept⟩
  | some path =>
    have results : a.results p text = [] ++ [(path, p.root.toDot p.tables), (a.output, text)] := by
      simp [Arguments.results, wanted]
    have progress : Progress view a source p text _ _ s₀ t s := ⟨compiled, results, .nil kept⟩
    have fill (file : τ) (s : σ) (before : view.accepted s file = "") :=
      attempted_write lawful before (p.root.toDot p.tables)
    refine .attempt (attempted_writeOutput lawful path fill s) (fun t₁ s₁ granted₁ replaced => ?_)
      fun message t₁ s₁ kept refused => ?_
    · exact finishes_writeAssembly lawful (List.forall_mem_append.2 ⟨granted, granted₁⟩)
        (progress.snoc t₁ replaced)
    · obtain ⟨e, mem, refused⟩ := refused
      exact (progress.append t₁ kept).unwritable lawful ⟨e, List.mem_append_right t mem, refused⟩

theorem finishes_compileText (granted : ∀ e ∈ t, e.granted = true)
    (silent : ∀ e ∈ t, e.request.isOutput = false) (kept : Keeps view s₀ s)
    (sourced : Sourced view s₀ a t source) :
    Finishes ops view a s₀ t (compileText a source) s := by
  have aborted (t' : List (Event τ)) (s' : σ) (kept' : Keeps view s s')
      (refused : ∃ e ∈ t', e.request.isPrint = true ∧ e.granted = false) : Ends view a s₀ none
        (t ++ t') s' := by
    obtain ⟨e, mem, refused⟩ := refused
    exact .aborted (kept.trans kept') ⟨e, List.mem_append_right t mem, refused⟩
  have rejected {e : CompileError} {message : String} (refused : analyzeSource source = .error e) :
      Finishes ops view a s₀ t (failWith 1 message) s := by
    have uncompiled : compile source a.options = .error e := by simp only [compile, refused]
    refine .failWith lawful (fun kept' => ?_) aborted
    exact .rejected (kept.trans kept')
      (List.forall_mem_append.2 ⟨silent, by simp [Request.isOutput]⟩)
        ⟨List.mem_append_left _ sourced.read, sourced.held⟩ uncompiled
  -- Three outcomes of the analysis are errors of the source. The fourth one always has an assembly.
  unfold compileText
  split
  · exact rejected ‹_›
  · exact rejected ‹_›
  · exact rejected ‹_›
  · rename_i p analyzed
    obtain ⟨lines, -, generated⟩ := exists_emission analyzed a.options
    have compiled : Compiled view s₀ a t source p (Line.render lines) :=
      ⟨sourced, analyzed, generated⟩
    unfold printTables
    split
    · refine .print (ensures_print lawful _ s) (fun t₁ s₁ kept₁ silent₁ granted₁ => ?_) aborted
      exact finishes_writeGraph lawful (List.forall_mem_append.2 ⟨granted, granted₁⟩)
        (kept.trans kept₁) (compiled.append t₁)
    · exact finishes_writeGraph lawful granted kept compiled

/-- Each run ends in one of the ways. -/
theorem compileSession_ends (a : Arguments) (s : σ) :
    (compileSession a).Ensures ops s (Ends view a s) := by
  show Finishes ops view a s [] (compileSession a) s
  refine .print (ensures_printAll lawful _ s) (fun t₁ s₁ kept silent granted => .request ?_)
    fun t₁ s₁ kept refused => .aborted kept refused
  have reading := kept.trans (lawful.keeps_of_ne (r := .read a.source) (by simp) s₁)
  have quiet (answer : Except String String) : ∀ e ∈ [] ++ t₁ ++ [⟨.read a.source, answer⟩],
      e.request.isOutput = false := List.forall_mem_append.2 ⟨silent, by simp [Request.isOutput]⟩
  cases answer : (ops (.read a.source) s₁).1 with
  | error e =>
    refine .failWith lawful (fun kept' => ?_) fun t' s' kept' refused => ?_
    · exact .unreadable (reading.trans kept')
        (List.forall_mem_append.2 ⟨quiet _, by simp [Request.isOutput]⟩)
        (List.mem_append_left _ (List.mem_append_right _ (.head _)))
    · obtain ⟨e, mem, refused⟩ := refused
      exact .aborted (reading.trans kept') ⟨e, List.mem_append_right _ mem, refused⟩
  | ok source =>
    have held := lawful.read answer
    rw [kept.content?_eq] at held
    refine finishes_compileText lawful ?_ (quiet _) reading ⟨by simp, held⟩
    exact List.forall_mem_append.2 ⟨granted, by simp [Event.granted]⟩

end

/-! ### What follows for the files -/

/-- A run leaves all of its results behind, or it keeps what was there. -/
structure AllOrNothing (view : View τ σ) (a : Arguments) (s : σ) (r : Run τ σ Nat) : Prop where
  /-- The exit code is 0 exactly if the source can be read and compiled, and nothing is refused. -/
  success : r.code = 0 ↔
    (∃ source p text, Compiled view s a r.trace source p text) ∧ ∀ e ∈ r.trace, e.granted = true
  /-- Then the output is what `compile` gives, and the graph is that of the analyzed program. -/
  written : r.code = 0 → ∃ source p text, Compiled view s a r.trace source p text ∧
    view.content? r.state a.output = some (.text text) ∧
      ∀ dot ∈ a.dot?, view.content? r.state dot = some (.text (p.root.toDot p.tables))
  /-- With the exit code 3 the source cannot be read. -/
  unreadable : r.code = 3 → ∃ message, ⟨.read a.source, Except.error message⟩ ∈ r.trace
  /-- With the exit code 1 it cannot be compiled. -/
  rejected : r.code = 1 → ∃ source e, Sourced view s a r.trace source ∧
      compile source a.options = .error e
  /-- With either of these nothing is written, and no file is changed at all. -/
  unchanged : r.code = 1 ∨ r.code = 3 → (∀ e ∈ r.trace, e.request.isOutput = false) ∧
    ∀ path, view.content? r.state path = view.content? s path
  /-- With the exit code 2 a file cannot be written. It is reported and stays as it was, and the
  files before it have been written. -/
  kept : r.code = 2 → ∃ source p text done path content rest reason,
    Compiled view s a r.trace source p text ∧ a.results p text = done ++ (path, content) :: rest ∧
    (∃ e ∈ r.trace, e.request.isOutput = true ∧ e.granted = false) ∧
    ⟨.printError (unwritable path reason), Except.ok ()⟩ ∈ r.trace ∧
    view.content? r.state path = view.content? s path ∧
    ∀ file ∈ done, view.content? r.state file.1 = some (.text file.2)
  /-- The output is touched only if everything works, but for the last message. -/
  output : r.code ≠ 0 → r.code ≠ abortCode → view.content? r.state a.output =
      view.content? s a.output
  /-- A run is aborted since something cannot be printed. Each file is then as it was, or
  complete. -/
  aborted : r.code = abortCode → (∃ e ∈ r.trace, e.request.isPrint = true ∧ e.granted = false) ∧
    ∀ path, path = a.output ∨ path ∈ a.dot? → view.content? r.state path = view.content? s path ∨
      ∃ source p text content, Compiled view s a r.trace source p text ∧
        (path, content) ∈ a.results p text ∧ view.content? r.state path = some (.text content)
  /-- No other file is touched. -/
  others : ∀ path, view.Apart s a.output path → (∀ dot ∈ a.dot?, view.Apart s dot path) →
    view.content? r.state path = view.content? s path
  /-- There are no other exit codes. -/
  codes : r.code ≤ 3 ∨ r.code = abortCode

/-- All results go to different places. -/
theorem Arguments.pairwise_results (lawful : Lawful ops view)
    (apart : ∀ dot ∈ a.dot?, view.Apart s dot a.output) :
    (a.results p text).Pairwise fun first second => view.Apart s second.1 first.1 := by
  unfold results
  cases wanted : a.dot? with
  | none => simp
  | some dot => simpa using lawful.symm (apart dot wanted)

/-- The output is the last of the results. -/
theorem Arguments.output_mem {done rest : List (String × String)} {file : String × String}
    (h : a.results p text = done ++ file :: rest) : (a.output, text) ∈ file :: rest := by
  have last := congrArg List.getLast? h
  rw [results, List.getLast?_concat, List.getLast?_append_of_ne_nil _
    (List.cons_ne_nil file rest)] at last
  exact List.mem_of_getLast? last.symm

theorem Arguments.mem_results {path content : String} (mem : (path, content) ∈ a.results p text) :
    path = a.output ∨ path ∈ a.dot? := by
  unfold results at mem
  rcases List.mem_append.1 mem with graph | assembly
  · obtain ⟨file, wanted, same⟩ := Option.map_eq_some_iff.1 (Option.mem_toList.1 graph)
    cases same
    exact .inr wanted
  · cases List.mem_singleton.1 assembly
    exact .inl rfl

theorem Arguments.output_mem_results (a : Arguments) (p : Program) (text : String) :
    (a.output, text) ∈ a.results p text := by
  simp [results]

theorem Arguments.graph_mem_results {dot : String} (wanted : dot ∈ a.dot?) :
    (dot, p.root.toDot p.tables) ∈ a.results p text := by
  simp [results, Option.mem_def.1 wanted]

section

variable (lawful : Lawful ops view) (apart : ∀ dot ∈ a.dot?, view.Apart s dot a.output)
  {done rest : List (String × String)}

include lawful apart

/-- What has been written holds its text, and the other results are as they were. -/
theorem Written.results (results : a.results p text = done ++ rest) (h : Written view s done s') :
    (∀ file ∈ done, view.content? s' file.1 = some (.text file.2)) ∧
      ∀ file ∈ rest, view.content? s' file.1 = view.content? s file.1 := by
  have pairwise : (a.results p text).Pairwise fun first second => view.Apart s second.1 first.1 :=
    a.pairwise_results lawful apart
  rw [results, List.pairwise_append] at pairwise
  exact ⟨h.holds pairwise.1, fun file mem =>
    h.content?_eq fun first before => lawful.symm (pairwise.2.2 first before file mem)⟩

/-- Each target is as it was, or complete. -/
theorem Written.each (results : a.results p text = done ++ rest) (h : Written view s done s')
    {path : String} (target : path = a.output ∨ path ∈ a.dot?) :
    view.content? s' path = view.content? s path ∨
      ∃ content, (path, content) ∈ a.results p text ∧
        view.content? s' path = some (.text content) := by
  obtain ⟨holds, stays⟩ := Written.results lawful apart results h
  have goal : ∃ content, (path, content) ∈ a.results p text := by
    rcases target with rfl | wanted
    · exact ⟨text, a.output_mem_results p text⟩
    · exact ⟨_, Arguments.graph_mem_results wanted⟩
  obtain ⟨content, mem⟩ := goal
  rcases List.mem_append.1 (results ▸ mem) with before | behind
  · exact .inr ⟨content, mem, holds _ before⟩
  · exact .inl (stays _ behind)

end

namespace Ends

variable {code : Nat} {o : Option Nat}

/-- Nothing is refused in a run that ends well, and only in such a run. -/
theorem success (h : Ends view a s o t s') :
    o.getD abortCode = 0 ↔ (∃ source p text, Compiled view s a t source p text) ∧
    ∀ e ∈ t, e.granted = true := by
  -- In a run that ends otherwise something is refused, unless it is the source.
  have refused {P : Event τ → Prop} (refused : ∃ e ∈ t, P e ∧ e.granted = false) :
      ¬ ∀ e ∈ t, e.granted = true := by
    obtain ⟨e, mem, -, refused⟩ := refused
    intro granted
    rw [granted e mem] at refused
    cases refused
  cases h with
  | unreadable kept silent unreadable =>
    exact ⟨nofun, fun ⟨_, granted⟩ => nomatch granted _ unreadable⟩
  | rejected kept silent sourced rejected =>
    refine ⟨nofun, fun ⟨⟨source, p, text, compiled⟩, _⟩ => ?_⟩
    obtain rfl := Content.text.inj (Option.some.inj (sourced.held.symm.trans compiled.held))
    have impossible := rejected.symm.trans compiled.compiled
    cases impossible
  | unwritable compiled results written refused' told =>
    exact ⟨nofun, fun ⟨_, granted⟩ => absurd granted (refused refused')⟩
  | written compiled written granted =>
    exact ⟨fun _ => ⟨⟨_, _, _, compiled⟩, granted⟩, fun _ => rfl⟩
  | aborted kept refused' => exact ⟨nofun, fun ⟨_, granted⟩ => absurd granted (refused refused')⟩
  | interrupted compiled results written refused' =>
    exact ⟨nofun, fun ⟨_, granted⟩ => absurd granted (refused refused')⟩

/-- Only the results of a run are touched. -/
theorem others (h : Ends view a s o t s') {path : String} (output : view.Apart s a.output path)
    (graph : ∀ dot ∈ a.dot?, view.Apart s dot path) :
    view.content? s' path = view.content? s path := by
  have apart {p : Program} {text : String} :
      ∀ file ∈ a.results p text, view.Apart s file.1 path := by
    rintro ⟨target, content⟩ mem
    rcases Arguments.mem_results mem with rfl | wanted
    · exact output
    · exact graph target wanted
  cases h with
  | unreadable kept | rejected kept | aborted kept => exact kept.content?_eq path
  | written compiled written => exact written.content?_eq apart
  | unwritable compiled results written | interrupted compiled results written =>
    exact written.content?_eq fun file mem => apart file (results ▸ List.mem_append_left _ mem)

end Ends

/-- A run of the command compiles the source as `compile` does, and leaves all of its results behind
or keeps what was there, if the graph and the assembly do not go to the same place. -/
theorem session_allOrNothing (lawful : Lawful ops view) (a : Arguments) (s : σ)
    (apart : ∀ dot ∈ a.dot?, view.Apart s dot a.output) :
    AllOrNothing view a s ((compileSession a).run ops s) := by
  have ends : Ends view a s _ _ _ := compileSession_ends lawful a s
  generalize (compileSession a).run ops s = r at ends
  obtain ⟨o, t, s'⟩ := r
  refine
    { success := ends.success
      written := fun code => ?_
      unreadable := fun code => ?_
      rejected := fun code => ?_
      unchanged := fun code => ?_
      kept := fun code => ?_
      output := fun failed told => ?_
      aborted := fun code => ?_
      others := fun path => ends.others
      codes := ?_ }
  all_goals simp only [Run.code] at *
  · cases ends with
    | written compiled written granted =>
      obtain ⟨holds, -⟩ := Written.results lawful apart (List.append_nil _).symm written
      exact ⟨_, _, _, compiled, holds _ (a.output_mem_results _ _), fun dot wanted =>
        holds _ (Arguments.graph_mem_results wanted)⟩
    | _ => cases code
  · cases ends with
    | unreadable kept silent unreadable => exact ⟨_, unreadable⟩
    | _ => cases code
  · cases ends with
    | rejected kept silent sourced rejected => exact ⟨_, _, sourced, rejected⟩
    | _ => cases code
  · cases ends with
    | unreadable kept silent | rejected kept silent => exact ⟨silent, kept.content?_eq⟩
    | _ => simp [abortCode] at code
  · cases ends with
    | unwritable compiled results written refused told =>
      obtain ⟨holds, stays⟩ := Written.results lawful apart results written
      exact ⟨_, _, _, _, _, _, _, _, compiled, results, refused, told, stays _ (.head _), holds⟩
    | _ => cases code
  · cases ends with
    | unreadable kept | rejected kept => exact kept.content?_eq _
    | unwritable compiled results written =>
      exact (Written.results lawful apart results written).2 _ (Arguments.output_mem results)
    | written => exact absurd rfl failed
    | aborted | interrupted => exact absurd rfl told
  · cases ends with
    | aborted kept refused => exact ⟨refused, fun path _ => .inl (kept.content?_eq path)⟩
    | interrupted compiled results written refused =>
      refine ⟨refused, fun path target => (written.each lawful apart results target).imp_right ?_⟩
      rintro ⟨content, mem, holds⟩
      exact ⟨_, _, _, content, compiled, mem, holds⟩
    | _ => cases code
  · cases ends <;> simp

/-! ### A run on a host -/

/-- A directory with a source and an older output. -/
def workspace : FileSystem where
  home := ["work"]
  files := [(["work", "a.go"], .text "func main() \x7b\n\x7d\n"), (["work", "a.j"], .text "old")]

/-- The graph goes to a file of its own, and everything is written. -/
theorem workspace_allOrNothing :
    Lawful Host.answer Host.view ∧ (∀ dot ∈ some "a.dot", workspace.Apart dot "a.j") ∧
      AllOrNothing Host.view { source := "a.go", dot? := some "a.dot" } { files := workspace }
        ((compileSession { source := "a.go", dot? := some "a.dot" }).run Host.answer
          { files := workspace }) ∧
      ((compileSession { source := "a.go", dot? := some "a.dot" }).run Host.answer
        { files := workspace }).code = 0 := by
  have apart : ∀ dot ∈ some "a.dot", workspace.Apart dot "a.j" := by
    rintro _ ⟨⟩
    exact .of_ne (by decide +kernel)
  have output : ({ source := "a.go", dot? := some "a.dot" } : Arguments).output = "a.j" := by
    decide +kernel
  refine ⟨Host.lawful, apart, session_allOrNothing Host.lawful _ _ ?_, by decide +kernel⟩
  rw [output]
  exact apart

/-- A full disk refuses the flush of the temporary file, and the old output stays. -/
example :
    ((compileSession { source := "a.go" }).run Host.answer
      { files := workspace, room? := some 9 }).code = 2 ∧
    ((compileSession { source := "a.go" }).run Host.answer
      { files := workspace, room? := some 9 }).state.files = workspace := by decide +kernel

/-- Two different paths may lead to the same file: then the graph is lost, although the run ends
well. And if nobody reads what is printed, the run is aborted although the output has been
written. -/
theorem workspace_mixed_results :
    ∃ p, analyzeSource "func main() \x7b\n\x7d\n" = .ok p ∧ "./a.j" ≠ "a.j" ∧
    (let r := (compileSession { source := "a.go", output? := some "a.j", dot? := some "./a.j" }).run
      Host.answer { files := workspace }
    r.code = 0 ∧ Host.view.content? r.state "./a.j" ≠ some (.text (p.root.toDot p.tables))) ∧
    (let r := (compileSession { source := "a.go" }).run Host.answer
      { files := workspace, hasReader := false }
    r.code = abortCode ∧ Host.view.content? r.state "a.j" ≠ workspace.content? "a.j") := by
  have lost : (analyzeSource "func main() \x7b\n\x7d\n").toOption.any (fun p => decide (
      ((compileSession { source := "a.go", output? := some "a.j", dot? := some "./a.j" }).run
        Host.answer { files := workspace }).state.files.content? "./a.j" ≠
          some (.text (p.root.toDot p.tables)))) = true := by decide +kernel
  obtain ⟨p, analyzed, differs⟩ := (Option.any_eq_true _ _).1 lost
  refine ⟨p, eq_ok_of_toOption analyzed, by decide, ⟨by decide +kernel, of_decide_eq_true differs⟩,
    ?_⟩
  exact ⟨by decide +kernel, show ((compileSession { source := "a.go" }).run Host.answer
    { files := workspace, hasReader := false }).state.files.content? "a.j" ≠
      workspace.content? "a.j" by decide +kernel⟩

end MiniGo.Command
