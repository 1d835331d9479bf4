import MiniGo.Proofs.Assembly.Texts
import MiniGo.Proofs.Frames.Accesses
import MiniGo.Proofs.Machine.Operands
import MiniGo.Proofs.Reordering.Signatures
import MiniGo.Proofs.Results

/-!
# Frames and calls

Where the variables of a function are kept: its parameters are its first variables, each variable
has a slot of its own behind the arguments of the entry point, and a call leaves each argument in
the slot of its parameter.

* `Function.DeclaredBy`: the first variables of a function are the parameters of its declaration.
* `Method.KeepsFrame`: the local slots that a method loads and stores.
* `PassesArguments`: what becomes of the arguments of a call.
* `compile_frames`: the main statement, for every source text and every run.
-/

namespace MiniGo

/-! ### Parameters -/

/-- The parameters of a declaration, each with the name of its type. -/
def FuncDecl.declaredParams (func : FuncDecl) : List (Ident × Ident) :=
  func.params.flatMap fun group => group.names.map (·, group.type)

/-- A variable is a parameter with a given name, of a type with a given name. -/
structure Variable.IsParam (x : Variable) (param : Ident × Ident) : Prop where
  name : x.name = param.1.name
  line : x.line = param.1.line
  ty : Ty.ofName? param.2.name = some x.ty
  scalar : x.array? = none

/-- The variables of a function with which it is entered. -/
def Function.paramVars (f : Function) : List Variable := f.vars.entries.take f.params.length

/-- The first variables of a function are the parameters of its declaration, in the same order, and
they have the types of its signature. -/
structure Function.DeclaredBy (f : Function) (func : FuncDecl) : Prop where
  name : f.name = func.name.name
  params : List.Forall₂ (fun param x => x.IsParam param) func.declaredParams f.paramVars
  types : f.paramVars.map Variable.ty = f.params
  descriptors : f.isEntryPoint = true ∨ f.paramVars.map Variable.descriptor =
      f.signature.type.params

namespace Analysis

theorem lowerParams_declared {groups : List ParamGroup} {params : List (Ident × Ty)}
    (h : (lowerParams groups).value = some params) :
    List.Forall₂ (fun param x => Variable.IsParam x param)
      (groups.flatMap fun group => group.names.map (·, group.type)) (MiniGo.paramVars params) := by
  induction groups generalizing params with
  | nil =>
    obtain rfl := Option.some.inj h
    exact .nil
  | cons group groups ih =>
    simp only [lowerParams, Report.value_bind, Report.value_pure, Option.bind_eq_bind,
      Option.bind_eq_some_iff, Option.some.injEq] at h
    obtain ⟨ty, resolved, rest, hrest, rfl⟩ := h
    have known : Ty.ofName? group.type.name = some ty := by
      unfold resolveType at resolved
      split at resolved
      · rename_i found
        rw [found]
        exact resolved
      · cases resolved
    rw [List.flatMap_cons, MiniGo.paramVars, List.map_append]
    refine List.rel_append ?_ (ih hrest)
    rw [groupParams, List.map_map, List.forall₂_map_left_iff, List.forall₂_map_right_iff]
    exact List.forall₂_same.2 fun name _ => ⟨rfl, rfl, known, rfl⟩

end Analysis

/-- What holds of a function when its body is not typed yet holds later on. -/
theorem FuncDecl.HasEntry.declaredBy {func : FuncDecl} {g f : Function} (h : func.HasEntry g)
    (ext : g.Extends f) :
    f.DeclaredBy func := by
  obtain ⟨known, -, -⟩ := h
  rename_i params returns
  have first : f.paramVars = MiniGo.paramVars params := by
    obtain ⟨rest, entries⟩ := ext.vars
    have count : f.params.length = (MiniGo.paramVars params).length := by
      simp [ext.params, MiniGo.paramVars]
    rw [Function.paramVars, ← entries, count, List.take_left]
  have types : f.paramVars.map Variable.ty = f.params := by
    simp [first, ext.params, MiniGo.paramVars]
  refine ⟨ext.name, ?_, types, ?_⟩
  · rw [first]
    exact Analysis.lowerParams_declared (congrArg Report.value known)
  · by_cases main : f.isEntryPoint = true
    · exact .inl main
    · refine .inr ?_
      rw [Function.signature, if_neg main, methodType, ← types, first]
      simp [MiniGo.paramVars, Variable.descriptor]

/-- The functions of a program are declared in its file, in the same order. -/
theorem analyze_declaredBy {file : File} {p : Program} (h : analyze file = .ok p) {i : Nat}
    {f : Function} (entry : p.tables.functions.get? i = some f) :
    ∃ func, file.funcDecls[i]? = some func ∧ f.DeclaredBy func := by
  obtain ⟨noErrors, rfl⟩ := analyze_eq_ok h
  obtain ⟨globals, bodies, t₀, t₁, t₂, -, none, -, phase₁, -, -, -, fills, -, -, result⟩ :=
    Analysis.lowerProgram_runs noErrors
  rw [result] at entry
  obtain ⟨vars, ⟨functions⟩⟩ := t₀
  obtain rfl : functions = [] := List.eq_nil_of_length_eq_zero none
  obtain ⟨fs, entries, -, -, rfl⟩ := Analysis.declareFunctions_first_run_iff.1 phase₁
  obtain ⟨bound, -⟩ := List.getElem?_eq_some_iff.1 entry
  have bound : i < fs.length := lt_of_lt_of_eq bound fills.size
  have declared : i < file.funcDecls.length := by rwa [entries.length_eq]
  obtain ⟨g, found, hasEntry⟩ := forall₂_getElem? entries (List.getElem?_eq_getElem declared)
  obtain ⟨f', entry', ext⟩ := fills.functions found
  obtain rfl : f' = f := Option.some.inj (entry'.symm.trans entry)
  exact ⟨_, List.getElem?_eq_getElem declared, hasEntry.declaredBy ext⟩

/-! ### Slots -/

/-- The accesses of statements to the variables of their function, in order. -/
def Node.localAccesses (body : List Node) : List VarAccess :=
  (Node.accessesAll body).filter VarAccess.isLocal

/-- How the method of a function keeps its variables. Its instructions for local slots are those for
the accesses of its body, one for one, all of them to variables of this function. They are written
with the letter of the descriptor of the variable. Each slot is below the declared limit and behind
the arguments of the entry point, and different variables have different slots. -/
structure Method.KeepsFrame (m : Method) (ctx : Context) (i : Nat) (f : Function)
    (body : List Node) : Prop where
  accesses : List.Forall₂ (ctx.Accesses (.function i)) (Node.localAccesses body) (localCode m.code)
  written : ∀ a ∈ (Node.localAccesses body).zip (localCode m.code), ∃ x,
      ctx.tables.var? a.1.variable = some x ∧
    (Line.instr a.2).text =
      "\t" ++ (x.descriptor.letter ++ a.1.word ++ toString (ctx.frame.slot a.1.variable.slot))
  apart : ∀ a ∈ (Node.localAccesses body).zip (localCode m.code),
    ∀ b ∈ (Node.localAccesses body).zip (localCode m.code), a.2.slot? = b.2.slot? ↔
      a.1.variable = b.1.variable
  limit : ∃ n, (∀ n', .limitLocals n' ∈ m.code ↔ n' = n) ∧
    ∀ instr ∈ localCode m.code, ∀ slot, instr.slot? = some slot →
      (f.isEntryPoint = true → slot ≠ 0) ∧ slot < n

/-- The variable that is accessed is one of the function. -/
theorem Context.Accesses.slot_lt {ctx : Context} {i : Nat} {f : Function} {a : VarAccess}
    {instr : Instr} (h : ctx.Accesses (.function i) a instr)
    (function : ctx.tables.functions.get? i = some f) :
    a.variable.slot < f.vars.size := by
  obtain ⟨x, entry⟩ := h.entry
  have own := h.own
  generalize a.variable = v at own entry
  obtain ⟨slot, scope⟩ := v
  obtain rfl : scope = .function i := own
  have found : f.vars.entries[slot]? = some x := by
    simpa [Tables.var?, Tables.table?, function, VarTable.get?] using entry
  exact (List.getElem?_eq_some_iff.1 found).1

theorem localCode_append (ls ms : List Line) :
    localCode (ls ++ ms) = localCode ls ++ localCode ms :=
  List.filterMap_append

theorem localCode_closingReturn (body : List Node) : localCode (closingReturn body) = [] := by
  unfold closingReturn
  split <;> rfl

namespace ClassCode

variable {p : Program} {options : Options}

/-- The local slots of the method of a function are those of what its body accesses. -/
theorem method_accesses (k : ClassCode p options) {i : Nat} {m : MethodCode}
    (h : k.methods[i]? = some m) :
    List.Forall₂ ((p.context options (.ofFunction i m.function.isEntryPoint)).Accesses
      (.function i)) (Node.localAccesses m.body) (localCode (m.method options i).code) := by
  obtain ⟨c, code⟩ := k.methodCode h
  have same : localCode (m.method options i).code = localCode m.code := by
    rw [MethodCode.method, localCode_append, localCode_append, localCode_closingReturn,
      List.append_nil]
    rfl
  rw [same]
  exact code.inFrame

/-- The initializer uses no local slots. -/
theorem localCode_initializer (k : ClassCode p options) :
    localCode k.initializerMethod.code = [] := by
  obtain ⟨c, code⟩ := k.initializerCode
  have none : localCode k.initializer = [] := code.inFrame.eq_nil
  rw [initializerMethod, localCode_append, localCode_append, none]
  rfl

theorem method_keepsFrame (k : ClassCode p options) (wf : p.tables.WellFormed) {i : Nat}
    {m : MethodCode} (h : k.methods[i]? = some m) :
    (m.method options i).KeepsFrame
      (p.context options (.ofFunction i m.function.isEntryPoint)) i m.function m.body := by
  have accesses := k.method_accesses h
  obtain ⟨length, related⟩ := List.forall₂_iff_zip.1 accesses
  refine ⟨accesses, fun a mem => (related mem).text wf,
    fun a mem b mem' => (related mem).slot_eq_iff (related mem'), Emission.localCount
      (.ofFunction i m.function.isEntryPoint) m.function, fun n => ?_,
      fun instr mem slot found => ?_⟩
  · -- There are no limits among the code.
    obtain ⟨c, code⟩ := k.methodCode h
    have noLimit : .limitLocals n ∉ m.code ++ closingReturn m.body := by
      intro mem
      cases List.forall_mem_append.2 ⟨code.isCode, isCode_closingReturn m.body⟩ _ mem
    simp [MethodCode.method, noLimit]
  · obtain ⟨j, found'⟩ := List.mem_iff_getElem?.1 mem
    obtain ⟨bound, rfl⟩ := List.getElem?_eq_some_iff.1 found'
    have access := accesses.get (length ▸ bound) bound
    have bound' := access.slot_lt (k.function_of_method h)
    obtain rfl := Option.some.inj (access.slot.symm.trans found)
    simp only [Program.context, Frame.slot, Emission.localCount]
    refine ⟨fun main => ?_, by omega⟩
    simp [Frame.ofFunction, main]

end ClassCode

/-! ### Calls -/

variable {P : Platform}

/-- The values that an activation has put on its stack for a call. The code of a value for each
parameter stands before the call. Whenever the code of some of these values had been run, they were
on the stack one above the other, with what is put there before the arguments of the entry point and
what was there before. -/
structure ArgumentsPushed (cls : ClassFile) (start : MachineState P) (ctx : Context) (s : Scope)
    (f : Function) (n : Nat) (a : Activation P) (callers : List (Activation P))
    (data lead below : List (Datum P)) : Prop where
  count : data.length = f.params.length
  leads : lead.length = f.leading.length
  stack : a.stack = data.reverse ++ (lead ++ below)
  pushed : ∃ before nodes code, a.code.take a.pc = before ++ asLines (f.leading ++ code) ∧
    ArgumentsCode ctx s nodes f.params code ∧
    (∃ t ≤ n, StandsAt cls start a.code callers t before.length below) ∧
    ∀ k ≤ f.params.length, ∃ first, ∃ t ≤ n, ArgumentsCode ctx s (nodes.take k)
      (f.params.take k) first ∧
      first <+: code ∧
      StandsAt cls start a.code callers t (before.length + f.leading.length + first.length)
        ((data.take k).reverse ++ (lead ++ below))

/-- A call passes to a function what was put on the stack for it: each argument is in the slot of
its parameter when the method of the function starts, and the caller goes on with what was on its
stack before. -/
def PassesArguments (cls : ClassFile) (start : MachineState P) (p : Program) (options : Options)
    (n : Nat) (a : Activation P) (callers : List (Activation P)) (mem : Memory P)
    (ref : MethodRef) : Prop :=
  ∃ (i : Nat) (f : Function) (role : Role) (data lead below : List (Datum P)) (m : Method)
    (locals : Nat → Option (Datum P)), p.tables.functions.get? i = some f ∧
    ref = ⟨options.className, f.signature⟩ ∧ role.BelongsTo p ∧
    ArgumentsPushed cls start (p.context options role.frame) role.scope f n a callers
    data lead below ∧ cls.method? ref = some m ∧
    step cls ⟨a :: callers, mem⟩ =
    some ⟨⟨m.code, 0, [], locals⟩ :: { a.next with stack := below } :: callers, mem⟩ ∧
      ∀ k, locals ((Frame.ofFunction i f.isEntryPoint).slot k) = data[k]?

/-- The parameters of the method of a function are preceded by those of the entry point. -/
theorem Function.length_params_signature (f : Function) :
    f.signature.type.params.length = f.leading.length + f.params.length := by
  unfold Function.leading Function.signature
  split
  · rename_i main
    simp [(Function.isEntryPoint_iff.1 main).2]
  · simp [methodType]

theorem Function.length_leading (f : Function) (i : Nat) :
    f.leading.length = (Frame.ofFunction i f.isEntryPoint).base := by
  unfold Function.leading Frame.ofFunction
  split <;> rfl

/-- A call takes its arguments from the stack and leaves the rest. -/
theorem step_call {cls : ClassFile} {a : Activation P} {callers : List (Activation P)}
    {mem : Memory P} {ref : MethodRef} {m : Method} {given below : List (Datum P)}
    (line : a.code[a.pc]? = some (.instr (.invokeStatic ref))) (found : cls.method? ref = some m)
    (count : given.length = ref.signature.type.params.length) (stack : a.stack = given ++ below) :
    step cls ⟨a :: callers, mem⟩ =
      some ⟨m.activate given.reverse :: { a.next with stack := below } :: callers, mem⟩ := by
  simp [step, line, Instr.step, found, ← count, stack]

namespace ClassCode

variable {p : Program} {options : Options}

/-- In the class of a program, each call passes its arguments. -/
theorem passesArguments (k : ClassCode p options) (typed : p.WellTyped) {m : Method}
    (isMethod : m ∈ ClassFile.methodsOf k.lines) {args : List (Datum P)} {mem₀ mem : Memory P}
    {n : Nat} {a : Activation P} {callers : List (Activation P)} {ref : MethodRef}
    (call : IsAt (ClassFile.ofLines k.lines) ⟨[m.activate args], mem₀⟩ n a callers mem
      (.invokeStatic ref)) :
    PassesArguments (ClassFile.ofLines k.lines)
      ⟨[m.activate args], mem₀⟩ p options n a callers mem ref := by
  obtain ⟨m', isMethod', same⟩ := code_of_mem_calls isMethod call.state a (List.mem_cons_self ..)
  obtain ⟨role, belongs, -, inPlace, -⟩ := k.methods_inPlace typed m' isMethod'
  rcases inPlace a.pc _ (same ▸ call.line) with stands | ⟨ret, -⟩
  · rw [← same] at stands
    generalize given : a.code.take a.pc = lines at stands
    cases stands with
    | plain plain => cases plain
    | @call before j f nodes code function argsCode =>
      obtain ⟨body, method, rfl⟩ := k.method_of_function function
      have found := k.method?_eq typed.tables method
      -- Going back from the call, the code of the arguments was run.
      have straight : ∀ i ∈ body.function.leading ++ code, i.target? = none := by
        refine List.forall_mem_append.2 ⟨?_, argsCode.target?⟩
        unfold Function.leading
        split <;> simp [Instr.target?]
      obtain ⟨inside, -⟩ := List.getElem?_eq_some_iff.1 call.line
      obtain ⟨t, below, ran⟩ :=
        exists_ran ⟨a.locals, mem, call.state⟩ (Nat.le_of_lt inside) given straight
          (by simp [call.line])
      obtain ⟨t', stk, leading, arguments⟩ := ran.split
      obtain ⟨lead, leads, rfl⟩ := leading.leading
      obtain ⟨data, count, stack, prefixes⟩ := argsCode.ran arguments
      have taken : (data.reverse ++ lead).length = body.function.signature.type.params.length := by
        rw [Function.length_params_signature, List.length_append, List.length_reverse, count, leads,
          Nat.add_comm]
      refine ⟨j, _, role, data, lead, below, _, _, function, rfl, belongs,
        ⟨count, leads, stack, ?_⟩, found, step_call call.line found taken
          (by rw [stack, List.append_assoc]), fun slot => ?_⟩
      · refine ⟨before, nodes, code, given, argsCode, ⟨t, ran.le, ran.first⟩, fun k upTo => ?_⟩
        obtain ⟨first, t'', firstCode, part, -, upTo', here⟩ := prefixes k upTo
        exact ⟨first, t'', upTo', firstCode, part, here⟩
      · have base : (Frame.ofFunction j body.function.isEntryPoint).slot slot =
            lead.reverse.length + slot := by
          rw [Frame.slot, ← Function.length_leading, ← leads, List.length_reverse]
        rw [base, List.reverse_append, List.reverse_reverse,
          List.getElem?_append_right (Nat.le_add_right _ _), Nat.add_sub_cancel_left]
  · cases ret

end ClassCode

/-! ### Source texts -/

/-- In a compiled class, the frames of functions and the calls of functions belong together. The
first variables of each function are its parameters; its method keeps its own variables in slots of
their own; whatever method is run and in whatever memory, each call leaves its arguments in the
slots of the parameters; and the initializer uses no slots. -/
theorem compile_frames {source text : String} {options : Options}
    (h : compile source options = .ok text) :
    ∃ file p lines, ∃ cls : ClassFile, File.parse source = .ok file ∧ analyze file = .ok p ∧
      emission p.root p.tables options = ⟨lines, {}, .ok ()⟩ ∧
      cls.ReadFrom lines text options.className ∧
      (∀ i f, p.tables.functions.get? i = some f →
        (∃ func, file.funcDecls[i]? = some func ∧ f.DeclaredBy func) ∧
        ∃ m body, cls.method? ⟨options.className, f.signature⟩ = some m ∧
          functionNode i body ∈ p.root.children ∧
          m.KeepsFrame (p.context options (.ofFunction i f.isEntryPoint)) i f body) ∧
      (∀ (P : Platform) (m : Method), m ∈ cls.methods →
        ∀ (args : List (Datum P)) (mem₀ : Memory P) n a callers mem ref,
          IsAt cls ⟨[m.activate args], mem₀⟩ n a callers mem (.invokeStatic ref) →
            PassesArguments cls ⟨[m.activate args], mem₀⟩ p options n a callers mem ref) ∧
      ∀ m ∈ cls.methods, m.access = .initializer → localCode m.code = [] := by
  obtain ⟨file, p, parsed, analyzed, typed, k, emitted, rfl⟩ := compile_eq_ok h
  have readFrom := k.readFrom parsed analyzed typed.tables
  refine ⟨file, p, k.lines, _, parsed, analyzed, emitted, readFrom, fun i f function => ⟨?_, ?_⟩,
    ?_, ?_⟩
  · exact analyze_declaredBy analyzed function
  · obtain ⟨m, method, rfl⟩ := k.method_of_function function
    exact ⟨_, m.body, k.method?_eq typed.tables method, k.functionNode_mem method,
      k.method_keepsFrame typed.tables method⟩
  · exact fun P m isMethod args mem₀ n a callers mem ref call =>
      k.passesArguments typed isMethod call
  · intro m mem access
    -- Of the methods of the class, only the initializer has this access.
    have all : ∀ m ∈ ClassFile.methodsOf k.lines, ∃ role : Role, role.BelongsTo p ∧
        role.signature = m.signature ∧ (m.access = .initializer → localCode m.code = []) :=
      k.forall_methods (fun constructor => nomatch constructor) (fun _ => k.localCode_initializer)
        fun _ function => nomatch function
    obtain ⟨role, -, -, none⟩ := all m mem
    exact none access

/-- A function with a parameter of each kind that calls itself in an argument, and a call of the
entry point. -/
def framedSource : String :=
  "var g int\nfunc f(a, b int, c float32, d string) int \x7b\nif a < b \x7b\nmain()\n\x7d\n" ++
    "e := f(b, f(a, a, c, d), c + 1.0, d)\nreturn e\n\x7d\nfunc main() \x7b\ng = f(1, 2, 3.0, \"a\")\nx := g\nwrite(x)\n\x7d\n"

theorem framedSource_frames : ∃ text, compile framedSource {} = .ok text ∧
    ∃ file p lines, ∃ cls : ClassFile, File.parse framedSource = .ok file ∧ analyze file = .ok p ∧
      emission p.root p.tables {} = ⟨lines, {}, .ok ()⟩ ∧ cls.ReadFrom lines text "GoProgram" ∧
      (∀ i f, p.tables.functions.get? i = some f →
        (∃ func, file.funcDecls[i]? = some func ∧ f.DeclaredBy func) ∧
        ∃ m body, cls.method? ⟨"GoProgram", f.signature⟩ = some m ∧
          functionNode i body ∈ p.root.children ∧
          m.KeepsFrame (p.context {} (.ofFunction i f.isEntryPoint)) i f body) ∧
      (∀ (P : Platform) (m : Method), m ∈ cls.methods →
        ∀ (args : List (Datum P)) (mem₀ : Memory P) n a callers mem ref,
          IsAt cls ⟨[m.activate args], mem₀⟩ n a callers mem (.invokeStatic ref) →
            PassesArguments cls ⟨[m.activate args], mem₀⟩ p {} n a callers mem ref) ∧
      ∀ m ∈ cls.methods, m.access = .initializer → localCode m.code = [] := by
  obtain ⟨text, h⟩ := exists_text_of_isOk framedSource {} (by decide +kernel)
  exact ⟨text, h, compile_frames h⟩

end MiniGo
