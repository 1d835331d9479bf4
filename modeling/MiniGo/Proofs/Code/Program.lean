import MiniGo.Compile
import MiniGo.Proofs.Code.Emission
import MiniGo.Proofs.Code.Typed
import MiniGo.Proofs.WellTyped.Program

/-!
# The class of a well-typed program

* `ClassCode`: the parts of the class of a program, and `ClassCode.lines`, how they are put
  together.
* `emission_wellTyped`: code generation on a well-typed program writes its class.
* `compile_accepts_or_rejects`: a source text that passes analysis is never refused later.
-/

namespace MiniGo

/-! ### The parts of a class -/

/-- The context in which the code of a program is generated. -/
def Program.context (p : Program) (options : Options) (frame : Frame) : Context :=
  ⟨p.tables, options, frame⟩

/-- A function with its body and the code of it. -/
structure MethodCode where
  function : Function
  body : List Node
  code : List Line

/-- The return instruction at the end of a method, unless its body ends with a return statement. -/
def closingReturn (body : List Node) : List Line :=
  if Emission.endsWithReturn body then [] else [.instr .ret]

/-- The lines of a method around those of its body. -/
def methodBlock (options : Options) (access : Access) (signature : Signature) (locals : Nat)
    (body : List Line) : List Line :=
  [.blank, .method access signature, .limitStack options.stackLimit, .limitLocals locals] ++ body ++
    [.endMethod]

/-- The code of all parts of a program. -/
structure ClassCode (p : Program) (options : Options) where
  globals : List Node
  initializer : List Line
  methods : List MethodCode
  root : p.root = .statement .program (globals ++ (methods.map MethodCode.body).mapIdx functionNode)
  functions : methods.map MethodCode.function = p.tables.functions.entries
  initializerCode : ∃ c, StmtsCode (p.context options .initializer) .globals
      {} globals initializer c
  methodCode : ∀ {i m}, methods[i]? = some m →
    ∃ c, StmtsCode (p.context options (.ofFunction i m.function.isEntryPoint)) (.function i) {}
      m.body m.code c

namespace ClassCode

variable {p : Program} {options : Options}

/-- The lines of the initializer, which is left out if there are no global statements. -/
def initializerLines (k : ClassCode p options) : List Line :=
  if k.globals = [] then []
  else methodBlock options .initializer Emission.initializerSignature 1
    (k.initializer ++ [.instr .ret])

/-- The lines of the method of the function at an index. -/
def methodLines (options : Options) (i : Nat) (m : MethodCode) : List Line :=
  methodBlock options .static_ m.function.signature
    (Emission.localCount (.ofFunction i m.function.isEntryPoint) m.function)
    (m.code ++ closingReturn m.body)

/-- The lines of the class. -/
def lines (k : ClassCode p options) : List Line :=
  Emission.headerLines { tables := p.tables, options } ++ Emission.constructorLines ++
    k.initializerLines ++ (k.methods.mapIdx (methodLines options)).flatten

end ClassCode

/-! ### The children of the root -/

section

variable {ctx : Context} {s : Scope}

/-- No statement is a function. -/
theorem StmtCode.isFunction {exit? : Option Label} {c c' : LabelCounters} {n : Node}
    {lines : List Line} (h : StmtCode ctx s exit? c n lines c') :
    Emission.isFunction n = false := by
  cases h <;> rfl

theorem StmtsCode.isFunction {c c' : LabelCounters} {nodes : List Node} {lines : List Line} :
    StmtsCode ctx s c nodes lines c' → ∀ n ∈ nodes, Emission.isFunction n = false
  | .nil, n, mem => by simp at mem
  | .cons first others, n, mem => by
    rcases List.mem_cons.1 mem with rfl | mem
    · exact first.isFunction
    · exact others.isFunction n mem

end

theorem isFunction_of_mem_mapIdx {bodies : List (List Node)} {n : Node}
    (h : n ∈ bodies.mapIdx functionNode) : Emission.isFunction n = true := by
  obtain ⟨i, _, rfl⟩ := List.mem_mapIdx.1 h
  rfl

namespace ClassCode

variable {p : Program} {options : Options}

/-- The children of the root that are no functions are the global statements. -/
theorem statements_eq (k : ClassCode p options) :
    p.root.children.filter (!Emission.isFunction ·) = k.globals := by
  obtain ⟨c, code⟩ := k.initializerCode
  rw [k.root, Node.statement, Node.children_mk, List.filter_append,
    List.filter_eq_self.2 (fun n mem => by simp [code.isFunction n mem]),
    List.filter_eq_nil_iff.2 (fun n mem => by simp [isFunction_of_mem_mapIdx mem]), List.append_nil]

/-- The other children are the functions. -/
theorem functions_eq (k : ClassCode p options) :
    p.root.children.filter Emission.isFunction =
      (k.methods.map MethodCode.body).mapIdx functionNode := by
  obtain ⟨c, code⟩ := k.initializerCode
  rw [k.root, Node.statement, Node.children_mk, List.filter_append,
    List.filter_eq_nil_iff.2 (fun n mem => by simp [code.isFunction n mem]),
    List.filter_eq_self.2 (fun n mem => isFunction_of_mem_mapIdx mem), List.nil_append]

end ClassCode

/-! ### Emission -/

namespace Emission

variable {ctx : Context} {c : LabelCounters}

theorem emitLines_emits (lines : List Line) : Emits (emitLines lines) c lines c () := by
  induction lines with
  | nil => exact .pure
  | cons line lines ih => exact Emits.line.bind ih

/-- Labels start anew in each method. -/
theorem withFreshLabels_emits {x : Emit Unit} {lines : List Line} {c' : LabelCounters}
    (h : Emits x {} lines c' ()) : Emits (withFreshLabels x) c lines c () := by
  unfold Emits withFreshLabels at *
  rw [h]

/-- Typed statements have code in a context with their tables. -/
theorem typed_haveCode (ctx : Context) {s : Scope} {nodes : List Node}
    (wf : ctx.tables.WellFormed) (typed : ∀ n ∈ nodes, StmtTyped ctx.tables s n) :
    ∃ lines c', StmtsCode ctx s {} nodes lines c' :=
  stmts_haveCode (fun n mem => (typed n mem).hasCode wf) {}

/-- The method of a function with a typed body has code. -/
theorem emitMethod_code {i : Nat} {f : Function} {body : List Node} (wf : ctx.tables.WellFormed)
    (hf : ctx.tables.functions.get? i = some f)
    (typed : ∀ n ∈ body, StmtTyped ctx.tables (.function i) n) :
    ∃ code c', StmtsCode { ctx with frame := .ofFunction i f.isEntryPoint } (.function i)
      {} body code c' ∧
      ∀ {c}, Emits (emitMethod ctx (functionNode i body)) c
        (ClassCode.methodLines ctx.options i ⟨f, body, code⟩) c () := by
  have stands : Context.StandsIn { ctx with frame := .ofFunction i f.isEntryPoint } (.function i) :=
    ⟨f, hf, rfl⟩
  obtain ⟨code, c', stmtsCode⟩ :=
    typed_haveCode { ctx with frame := .ofFunction i f.isEntryPoint } wf typed
  have emits := stmtsCode.emits stands
  have closes : Emits (if !endsWithReturn body then Emit.instr .ret >>= fun _ => .line .endMethod
      else .line .endMethod) c' (closingReturn body ++ [.endMethod]) c' () := by
    unfold closingReturn
    by_cases ends : endsWithReturn body = true
    · simp only [ends]
      exact .line
    · simp only [ends]
      exact Emits.instr.bind .line
  refine ⟨code, c', stmtsCode, withFreshLabels_emits (.cast (.bind (lookupFunction_emits hf)
    (.bind (emitLines_emits _) (.bind emits closes))) ?_)⟩
  simp [ClassCode.methodLines, methodBlock, methodStart]

/-- The methods of functions with typed bodies have code. -/
theorem emitMethods_code {fs : List Function} {bodies : List (List Node)} {k : Nat}
    (wf : ctx.tables.WellFormed) (functions : ctx.tables.functions.entries.drop k = fs)
    (count : bodies.length = fs.length)
    (typed : ∀ j body, bodies[j]? = some body →
      ∀ n ∈ body, StmtTyped ctx.tables (.function (k + j)) n) :
    ∃ methods : List MethodCode, methods.map MethodCode.function = fs ∧
      methods.map MethodCode.body = bodies ∧
      (∀ j m, methods[j]? = some m →
        ∃ c', StmtsCode { ctx with frame := .ofFunction (k + j) m.function.isEntryPoint }
          (.function (k + j)) {} m.body m.code c') ∧
      ∀ {c}, Emits (emitMethods ctx (bodies.mapIdx fun j => functionNode (k + j))) c
        (methods.mapIdx fun j => ClassCode.methodLines ctx.options (k + j)).flatten c () := by
  -- The induction is on the bodies, with as many of the functions left in the table.
  induction bodies generalizing fs k with
  | nil =>
    obtain rfl := List.length_eq_zero_iff.1 count.symm
    exact ⟨[], rfl, rfl, by simp, .pure⟩
  | cons body bodies ih =>
    cases fs with
    | nil => simp at count
    | cons f fs =>
      have hf : ctx.tables.functions.get? k = some f := by
        rw [FuncTable.get?, ← List.head?_drop, functions]
        rfl
      have rest : ctx.tables.functions.entries.drop (k + 1) = fs := by
        rw [← List.tail_drop, functions]
        rfl
      obtain ⟨code, c', stmtsCode, emits⟩ := emitMethod_code wf hf (typed 0 body rfl)
      obtain ⟨methods, fs', bodies', codes, emitsRest⟩ := ih rest (by simpa using count)
        (fun j body' h => by
          rw [show k + 1 + j = k + (j + 1) by omega]
          exact typed (j + 1) body' h)
      refine ⟨⟨f, body, code⟩ :: methods, by simp [fs'], by simp [bodies'], ?_, ?_⟩
      · intro j m h
        cases j with
        | zero =>
          obtain rfl := Option.some.inj h
          exact ⟨c', stmtsCode⟩
        | succ j =>
          rw [show k + (j + 1) = k + 1 + j by omega]
          exact codes j m h
      · intro c
        simp only [List.mapIdx_cons, Nat.add_zero, ← Nat.add_assoc, Nat.add_right_comm k _ 1,
          List.flatten_cons, emitMethods]
        exact emits.bind emitsRest

end Emission

open Emission in
/-- Code generation on a well-typed program succeeds and writes the class of the program. -/
theorem emission_wellTyped {p : Program} (h : p.WellTyped) (options : Options) :
    ∃ k : ClassCode p options, emission p.root p.tables options = ⟨k.lines, {}, .ok ()⟩ := by
  obtain ⟨globals, bodies, root, count, globalsTyped, bodiesTyped⟩ := h.statements
  have stands : Context.StandsIn (p.context options .initializer) .globals := rfl
  obtain ⟨init, c, initCode⟩ :=
    typed_haveCode (p.context options .initializer) h.tables globalsTyped
  have emitsInit := initCode.emits stands
  obtain ⟨methods, functions, bodies', codes, emitsMethods⟩ :=
    @emitMethods_code ⟨p.tables, options, {}⟩ _ bodies 0 h.tables rfl count
      (fun j body hj => by simpa using bodiesTyped j body hj)
  simp only [Nat.zero_add] at codes emitsMethods
  let k : ClassCode p options :=
    ⟨globals, init, methods, by rw [bodies', root], functions, ⟨c, initCode⟩, codes _ _⟩
  refine ⟨k, ?_⟩
  -- The children of the root are told apart again.
  have statements : p.root.children.filter (!isFunction ·) = globals := k.statements_eq
  have functionNodes : p.root.children.filter isFunction = bodies.mapIdx functionNode := by
    rw [k.functions_eq, bodies']
  unfold emission emitProgram
  rw [statements, functionNodes, if_pos (by rw [root]; rfl)]
  have initializer : Emits (emitInitializer ⟨p.tables, options, {}⟩ globals) {}
      (methodBlock options .initializer initializerSignature 1 (init ++ [.instr .ret])) {} () := by
    refine withFreshLabels_emits
      (Emits.cast (.bind (emitLines_emits _) (.bind emitsInit (emitLines_emits _))) ?_)
    simp [methodBlock, methodStart]
  have methodsEmit := emitsMethods (c := {})
  simp only [k, ClassCode.lines, ClassCode.initializerLines]
  cases globals with
  | nil =>
    exact Emits.cast (.bind (emitLines_emits _) (.bind (emitLines_emits _) methodsEmit)) (by simp)
  | cons n globals =>
    exact Emits.cast (.bind (emitLines_emits _) (.bind (emitLines_emits _)
      (.bind initializer methodsEmit))) (by simp)

/-- The assembly of a well-typed program is the text of its class. -/
theorem generate_wellTyped {p : Program} (h : p.WellTyped) (options : Options) :
    ∃ k : ClassCode p options, emission p.root p.tables options = ⟨k.lines, {}, .ok ()⟩ ∧
      generate p.root p.tables options = .ok (Line.render k.lines) := by
  obtain ⟨k, emitted⟩ := emission_wellTyped h options
  refine ⟨k, emitted, ?_⟩
  simp only [generate, emitted, Except.map]

/-- A source text passes analysis if it parses and its tree does. -/
theorem analyzeSource_eq_ok_iff {source : String} {p : Program} : analyzeSource source = .ok p ↔
    ∃ file, File.parse source = .ok file ∧ analyze file = .ok p := by
  constructor
  · intro h
    unfold analyzeSource at h
    split at h
    · cases h
    · rename_i file parsed
      split at h
      · cases h
      · rename_i program analyzed
        cases h
        exact ⟨file, parsed, analyzed⟩
  · rintro ⟨file, parsed, analyzed⟩
    simp only [analyzeSource, parsed, analyzed]

/-- The program of a source text that passes analysis is well typed. -/
theorem wellTyped_of_analyzeSource {source : String} {p : Program}
    (h : analyzeSource source = .ok p) :
    p.WellTyped := by
  obtain ⟨file, -, analyzed⟩ := analyzeSource_eq_ok_iff.1 h
  obtain ⟨noErrors, rfl⟩ := analyze_eq_ok analyzed
  exact Analysis.lowerProgram_wellTyped noErrors

theorem eq_ok_of_toOption {ε α : Type} {x : Except ε α} {a : α} (h : x.toOption = some a) :
    x = .ok a := by
  cases x with
  | error e => cases h
  | ok b =>
    cases h
    rfl

theorem exists_text_of_isOk (source : String) (options : Options)
    (h : (compile source options).isOk = true) : ∃ text, compile source options = .ok text := by
  cases result : compile source options with
  | ok text => exact ⟨text, rfl⟩
  | error e =>
    rw [result] at h
    cases h

/-- A source text that is compiled passes analysis, and its assembly is the text of the class of its
program. -/
theorem compile_eq_ok {source text : String} {options : Options}
    (h : compile source options = .ok text) :
    ∃ file p, File.parse source = .ok file ∧ analyze file = .ok p ∧ p.WellTyped ∧
      ∃ k : ClassCode p options, emission p.root p.tables options = ⟨k.lines, {}, .ok ()⟩ ∧
        text = Line.render k.lines := by
  unfold compile at h
  split at h
  · cases h
  · rename_i p analyzed
    have typed := wellTyped_of_analyzeSource analyzed
    obtain ⟨file, parsed, analyzed⟩ := analyzeSource_eq_ok_iff.1 analyzed
    obtain ⟨k, emitted, generated⟩ := generate_wellTyped typed options
    rw [generated] at h
    cases h
    exact ⟨file, p, parsed, analyzed, typed, k, emitted, rfl⟩

/-- What can be checked of the lines of a source text by evaluation holds of its assembly. -/
theorem exists_lines_of_check (source : String) (options : Options) (check : List Line → Bool)
    (h : (analyzeSource source).toOption.any
      (fun p => check (emission p.root p.tables options).lines) = true) :
    ∃ p lines, analyzeSource source = .ok p ∧
      emission p.root p.tables options = ⟨lines, {}, .ok ()⟩ ∧
      compile source options = .ok (Line.render lines) ∧ check lines = true := by
  cases analyzed : analyzeSource source with
  | error e =>
    rw [analyzed] at h
    cases h
  | ok p =>
    obtain ⟨k, emitted, generated⟩ :=
      generate_wellTyped (wellTyped_of_analyzeSource analyzed) options
    rw [analyzed] at h
    refine ⟨p, k.lines, rfl, emitted, ?_, ?_⟩
    · simp only [compile, analyzed, generated]
    · simpa [Except.toOption, emitted] using h

/-- A source text is compiled, or it is refused for its syntax or for its names and types. What
passes analysis is never refused by code generation. -/
theorem compile_accepts_or_rejects (source : String) (options : Options) :
    (∃ text, compile source options = .ok text) ∨
      (∃ e, compile source options = .error (.syntactic e)) ∨
      ∃ errors, compile source options = .error (.semantic errors) := by
  unfold compile
  cases analyzed : analyzeSource source with
  | ok p =>
    obtain ⟨k, -, generated⟩ := generate_wellTyped (wellTyped_of_analyzeSource analyzed) options
    exact .inl ⟨Line.render k.lines, by simp only [generated]⟩
  | error e =>
    unfold analyzeSource at analyzed
    split at analyzed
    · cases analyzed
      exact .inr (.inl ⟨_, rfl⟩)
    · split at analyzed
      · cases analyzed
        exact .inr (.inr ⟨_, rfl⟩)
      · cases analyzed

end MiniGo
