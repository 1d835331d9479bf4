import MiniGo.Proofs.Assembly.Texts
import MiniGo.Proofs.Shapes.Method
import MiniGo.Proofs.Simulation.Program
import MiniGo.Proofs.Slots.Order

/-!
# Loads before stores in a compiled class

A line loads a local slot that holds no argument before anything was stored into it only if the
variable of the slot is declared in a branch of a conditional statement or in the body of a loop,
and the line is behind the code of this branch or body. The loads within it are all behind the store
of the declaration.

* `analyze_ordered`: in the body of a function, variables are declared behind the parameters, and in
  order.
* `Method.LoadsUnstored`: a line loads a slot without an argument on some way before a store.
* `compile_loads_stored`: this happens behind the branch that declares the variable only.
-/

namespace MiniGo

namespace Analysis

variable {t : Tables}

/-! ### Functions -/

/-- Tables in which the variables of a function are its parameters. -/
def OnlyParams (t : Tables) : Prop :=
  ∀ i f, t.functions.get? i = some f → t.count (.function i) = f.params.length

/-- A function that is declared without an error has its parameters as variables. -/
theorem declareParams_onlyParams {params : List (Ident × Ty)} {functions : FuncTable} {f : Function}
    (only : OnlyParams t) (scalars : ∀ ty ∈ params.map Prod.snd, ty.isScalar = true)
    (fresh : f.vars = {}) (types : f.params = params.map Prod.snd)
    (declared : t.functions.declare f = .ok functions)
    (h : ((declareParams (.function t.functions.size) params).run { t with functions }).errors =
      []) :
    OnlyParams ((declareParams (.function t.functions.size) params).run
      { t with functions }).value.2 := by
  have entries := (FuncTable.declare_eq_ok_iff.1 declared).2
  have last : functions.get? t.functions.size = some f := by
    simp [FuncTable.get?, entries, FuncTable.size]
  have own : Tables.table? { t with functions } (.function t.functions.size) = some {} := by
    simp [Tables.table?, last, fresh]
  obtain ⟨grows, -⟩ := @declareParams_runs { t with functions } t.functions.size params scalars
  obtain ⟨vars', own', paramTypes⟩ := declareParams_types own h
  intro i g found
  by_cases new : i = t.functions.size
  · subst new
    obtain ⟨g', found', ext⟩ := grows.functions last
    obtain rfl : g' = g := Option.some.inj (found'.symm.trans found)
    have size : vars'.size = f.params.length := by
      rw [types, VarTable.size, ← List.length_map Variable.ty, paramTypes]
      rfl
    rw [Tables.count, own', ext.params]
    exact size
  · -- The other functions were there before, and their variables are left alone.
    obtain ⟨bound, -⟩ := List.getElem?_eq_some_iff.1 found
    have old : i < t.functions.size := by
      have size := grows.size
      simp only [FuncTable.size, entries, List.length_append,
        List.length_singleton] at size bound new ⊢
      omega
    have here : functions.get? i = some (t.functions.entries.get ⟨i, old⟩) := by
      rw [FuncTable.get?, entries, List.getElem?_append_left old]
      exact List.getElem?_eq_getElem old
    have before : t.functions.get? i = some (t.functions.entries.get ⟨i, old⟩) :=
      List.getElem?_eq_getElem old
    obtain ⟨g', found', ext⟩ := grows.functions here
    obtain rfl : g' = g := Option.some.inj (found'.symm.trans found)
    rw [ext.params, ← only i _ before, Tables.count, grows.apart _ (by simpa using new),
      Tables.count, Tables.table?, Tables.table?, here, before]

theorem declareFunction_onlyParams {func : FuncDecl} (only : OnlyParams t)
    (h : ((declareFunction func).run t).errors = []) :
    OnlyParams ((declareFunction func).run t).value.2 := by
  obtain ⟨params, returns, functions, hparams, -, declared, noErrors, result⟩ :=
    declareFunction_run h
  rw [result]
  exact declareParams_onlyParams only (lowerParams_isScalar hparams) rfl rfl declared noErrors

theorem declareFunctions_onlyParams {funcs : List FuncDecl} (only : OnlyParams t)
    (h : ((declareFunctions funcs).run t).errors = []) :
    OnlyParams ((declareFunctions funcs).run t).value.2 := by
  induction funcs generalizing t with
  | nil => exact only
  | cons func funcs ih =>
    simp only [declareFunctions, errors_bind_eq_nil] at h
    obtain ⟨first, rest, -⟩ := h
    exact ih (declareFunction_onlyParams only first) rest

/-- The body of a function is in order, from its variables on. -/
theorem lowerFunction_ordered {func : FuncDecl} {k : Nat} (ready : Ready (.function k) t) :
    Clean (Tables.Grows (.function k)) t (lowerFunction func k) fun _ node => ∀ body,
      node = functionNode k body →
      ∃ n, Ordered (.function k) (t.count (.function k)) (Node.accessesAll body) n := by
  refine (lowerBlock_ordered func.body ready).bind fun t' block grows ordered => .pure ?_
  rintro body ⟨⟩
  exact ⟨_, ordered⟩

end Analysis

/-- In the body of a function, the variables behind the parameters are declared in order, and loaded
behind their declarations. -/
theorem analyze_ordered {file : File} {p : Program} (h : analyze file = .ok p) {i : Nat}
    {f : Function} {body : List Node} (entry : p.tables.functions.get? i = some f)
    (node : functionNode i body ∈ p.root.children) :
    ∃ n, Ordered (.function i) f.params.length (Node.accessesAll body) n := by
  obtain ⟨noErrors, rfl⟩ := analyze_eq_ok h
  obtain ⟨globals, bodies, t₀, t₁, t₂, -, none, globalsTyped, phase₁, declares, -, phase₂, fills,
    count, -, result⟩ :=
    Analysis.lowerProgram_runs noErrors
  rw [result] at entry node
  have only₀ : Analysis.OnlyParams t₀ := by
    intro i f found
    rw [FuncTable.get?, List.eq_nil_of_length_eq_zero none] at found
    cases found
  have only := Analysis.declareFunctions_onlyParams only₀ (by rw [phase₁])
  rw [phase₁] at only
  obtain ⟨bound, -⟩ := List.getElem?_eq_some_iff.1 entry
  have bound : i < t₁.functions.entries.length := lt_of_lt_of_eq bound fills.size
  have found : t₁.functions.get? i = some (t₁.functions.entries.get ⟨i, bound⟩) :=
    List.getElem?_eq_getElem bound
  obtain ⟨g, entry', ext⟩ := fills.functions found
  obtain rfl : g = f := Option.some.inj (entry'.symm.trans entry)
  have member : functionNode i body ∈ bodies.mapIdx functionNode := by
    refine (List.mem_append.1 node).resolve_left fun mem => ?_
    cases globalsTyped _ mem
  obtain ⟨j, inside, same⟩ := List.mem_mapIdx.1 member
  cases same
  -- The body is typed after others, which have left the variables of the function alone.
  have wf := declares.sound.toWellFormed
  obtain ⟨-, -, each⟩ := (Analysis.lowerFunctions_each wf).result phase₂
  obtain ⟨node', u, u', atNode, run, fillsTo, before, -, -⟩ :=
    each i _ (List.getElem?_eq_getElem (count ▸ inside))
  rw [Nat.zero_add] at run before
  have ready : Analysis.Ready (.function i) u := by
    refine ⟨fillsTo.wellFormed wf, ?_⟩
    rw [before, Tables.table?, found]
    rfl
  have node' : node' = functionNode i bodies[i] := by
    simpa [List.getElem?_mapIdx, inside] using atNode.symm
  obtain ⟨n, ordered⟩ := (Analysis.lowerFunction_ordered ready).result run _ node'
  rw [Tables.count, before] at ordered
  exact ⟨n, ext.params ▸ only i _ found ▸ ordered⟩

/-! ### Methods -/

/-- The number of local slots with the arguments of a method. An instance method has its object in
the first one. -/
def Method.argumentSlots (m : Method) : Nat :=
  (if m.access = .instance_ then 1 else 0) + m.signature.type.params.length

/-- A line of a method loads a slot without an argument, and on some way it does so before anything
was stored into the slot. -/
structure Method.LoadsUnstored (m : Method) (slot pc : Nat) : Prop where
  noArgument : m.argumentSlots ≤ slot
  load : ∃ l, m.code[pc]? = some l ∧ l.touch? slot = some .load
  reached : Unstored m.code slot pc

/-- A line that loads a slot finds a value of some kind there. -/
theorem Line.isSome_local_of_load {env : MethodEnv} {l : Line} {shape shape' : Shape} {slot : Nat}
    (typed : l.after env shape = some shape') (load : l.touch? slot = some .load) :
    (env.locals slot).isSome = true := by
  cases l with
  | instr i =>
    simp only [Line.touch?] at load
    cases i with
    | load kind slot' =>
      simp only [Instr.touch?] at load
      split at load
      · rename_i same
        subst same
        simp only [Line.after, Instr.after] at typed
        split at typed
        · rename_i kind' found
          rw [found]
          rfl
        · cases typed
      · cases load
    | loadThis =>
      simp only [Instr.touch?] at load
      split at load
      · rename_i same
        subst same
        simp only [Line.after, Instr.after] at typed
        split at typed
        · rename_i className found
          rw [found]
          rfl
        · cases typed
      · cases load
    | store kind slot' =>
      simp only [Instr.touch?] at load
      split at load <;> cases load
    | _ => cases load
  | _ => cases load

theorem Method.TypedBy.isSome_local_of_load {cls : ClassFile} {locals : Nat → Option StackKind}
    {m : Method} {shape : Nat → Shape} (typed : m.TypedBy ⟨cls, locals⟩ shape) {slot pc : Nat}
    (h : m.LoadsUnstored slot pc) :
    (locals slot).isSome = true := by
  obtain ⟨l, found, load⟩ := h.load
  exact Line.isSome_local_of_load (typed.line found) load

/-- Lines without a branch and without a load. -/
theorem guarded_of_no_branch {code lines : List Line} {slot pc : Nat} {exits : Nat → Prop}
    (seg : Seg code pc lines) (unique : LabelsUnique code)
    (branches : BranchTo lines fun _ => False) (loads : ∀ l ∈ lines, l.touch? slot ≠ some .load) :
    Guarded code slot pc lines.length exits True fun _ => False := by
  have labels : BranchTo lines fun l => .label l ∈ lines ∨ False :=
    branches.mono fun _ => False.elim
  refine (Guarded.lines seg unique labels fun _ _ exit => exit.elim).mono id ?_
  rintro _ ⟨l, mem, load⟩
  exact loads l mem load

namespace ClassCode

variable {p : Program} {options : Options}

/-- The method of a function is guarded by what its body keeps, and exposes only certain loads. -/
theorem method_guarded (k : ClassCode p options) {i : Nat} {m : MethodCode}
    (h : k.methods[i]? = some m) {v : VarRef} {slot : Nat}
    (fresh : DeclaredFirst v (Node.accessesAll m.body))
    (places : (p.context options (.ofFunction i m.function.isEntryPoint)).Places
      (.function i) v slot) :
    ∃ keeps, Guarded (m.method options i).code slot 0 (m.method options i).code.length
      (fun _ => False) keeps
      (ExposedIn (p.context options (.ofFunction i m.function.isEntryPoint)) (.function i) v slot
        (m.method options i).code m.body 0) := by
  obtain ⟨c, code⟩ := k.methodCode h
  have unique : LabelsUnique (m.method options i).code :=
    code.labelsUnique rfl (labelsOf_closingReturn m.body)
  have seg : Seg (m.method options i).code 0
      ([.limitStack _, .limitLocals _] ++ (m.code ++ closingReturn m.body)) :=
    List.prefix_rfl
  have limits :=
    @guarded_of_no_branch _ _ slot _ (fun _ => False) seg.left unique (limits_branches _ _)
      (by simp [Line.touch?])
  have closing := @guarded_of_no_branch _ _ slot _ (fun _ => False) seg.right.right unique
    (closingReturn_branches m.body)
    (by unfold closingReturn; split <;> simp [Line.touch?, Instr.touch?])
  have body := code.guarded places unique seg.right.left fresh
  have whole := limits.append (body.inside.append closing)
  rw [← List.length_append, ← List.length_append] at whole
  refine ⟨_, whole.mono id ?_⟩
  rintro q (none | ⟨-, -, (first | ⟨n, mem, behind⟩) | ⟨-, -, none⟩⟩)
  · exact none.elim
  · exact .inl first
  · have declares : .declare v ∈ Node.accessesAll m.body :=
      Node.mem_accessesAll.2 ⟨n, mem, behind.declares⟩
    exact .inr ⟨n, mem, behind.after places seg.left (.free (by simp [Line.local?])) fresh declares⟩
  · exact none.elim

/-- The arguments of the method of a function are its parameters, and before them those of the entry
point. -/
theorem argumentSlots_method (i : Nat) (m : MethodCode) :
    (m.method options i).argumentSlots =
      (Frame.ofFunction i m.function.isEntryPoint).base + m.function.params.length := by
  by_cases main : m.function.isEntryPoint = true
  · have params := (Function.isEntryPoint_iff.1 main).2
    simp [Method.argumentSlots, MethodCode.method, Function.signature, Frame.ofFunction, main,
      params]
  · simp [Method.argumentSlots, MethodCode.method, Function.signature, Frame.ofFunction, main,
      methodType]

/-- A load before a store is behind the branch that declares the variable. -/
theorem behind_of_loadsUnstored (k : ClassCode p options) {file : File}
    (analyzed : analyze file = .ok p) {i : Nat} {m : MethodCode} (h : k.methods[i]? = some m)
    {slot pc : Nat} (unstored : (m.method options i).LoadsUnstored slot pc) :
    ∃ n ∈ m.body, Behind (p.context options (.ofFunction i m.function.isEntryPoint)) (.function i)
      ⟨slot - (Frame.ofFunction i m.function.isEntryPoint).base, .function i⟩ slot
        (m.method options i).code n 0 pc := by
  obtain ⟨behind, ⟨l, found, load⟩, reached⟩ := unstored
  rw [argumentSlots_method] at behind
  have places : (p.context options (.ofFunction i m.function.isEntryPoint)).Places (.function i)
      ⟨slot - (Frame.ofFunction i m.function.isEntryPoint).base, .function i⟩ slot := by
    refine ⟨by simp, rfl, ?_⟩
    simp only [Program.context, Frame.slot]
    omega
  -- The variable is no parameter, so that it is declared before all else that is done to it.
  obtain ⟨n, ordered⟩ := analyze_ordered analyzed (k.function_of_method h) (k.functionNode_mem h)
  have new : m.function.params.length ≤
      slot - (Frame.ofFunction i m.function.isEntryPoint).base := by omega
  obtain ⟨keeps, guarded⟩ := k.method_guarded h (ordered.declaredFirst rfl new) places
  exact (guarded.exposes_of_unstored reached found load).resolve_left
    (ordered.not_firstLoad rfl new)

end ClassCode

/-! ### Source texts -/

/-- In a compiled class, a line loads a slot without an argument before anything was stored into it
only if the variable of the slot is declared in a branch of a conditional statement or in the body
of a loop, and the line is behind the code of this branch or body. -/
theorem compile_loads_stored {source text : String} {options : Options}
    (h : compile source options = .ok text) :
    ∃ file p lines, ∃ cls : ClassFile, File.parse source = .ok file ∧ analyze file = .ok p ∧
      emission p.root p.tables options = ⟨lines, {}, .ok ()⟩ ∧
      cls.ReadFrom lines text options.className ∧
      ∀ m ∈ cls.methods, ∃ role : Role, role.BelongsTo p ∧ role.signature = m.signature ∧
        ∀ slot pc, m.LoadsUnstored slot pc → ∃ i f body, role = .function i f body ∧
          ∃ n ∈ body, Behind (p.context options (.ofFunction i f.isEntryPoint)) (.function i)
            ⟨slot - (Frame.ofFunction i f.isEntryPoint).base, .function i⟩ slot m.code n 0 pc := by
  obtain ⟨file, p, parsed, analyzed, typed, k, emitted, rfl⟩ := compile_eq_ok h
  have readFrom := k.readFrom parsed analyzed typed.tables
  refine ⟨file, p, k.lines, _, parsed, analyzed, emitted, readFrom,
    k.forall_methods ?_ ?_ fun {i m} method => ?_⟩
  · intro slot pc unstored
    obtain ⟨shape, typedFor⟩ := k.constructor_typedFor typed.tables
    have kind := typedFor.toTypedBy.isSome_local_of_load unstored
    have behind := unstored.noArgument
    have pos : slot ≠ 0 := by
      rintro rfl
      simp [Method.argumentSlots, ClassCode.constructorMethod] at behind
    simp [Role.locals, pos] at kind
  · intro slot pc unstored
    obtain ⟨shape, typedFor⟩ := k.initializer_typedFor typed.tables
    have kind := typedFor.toTypedBy.isSome_local_of_load unstored
    cases kind
  · exact fun slot pc unstored => ⟨i, _, _, rfl, k.behind_of_loadsUnstored analyzed method unstored⟩

/-- A variable that is used in the loop that declares it, and one that is used in the loop and
behind it. -/
def countdownSource : String :=
  "func main() \x7b\nn := 3\nfor 0 < n \x7b\nm := n - 1\nn = m\n\x7d\nwrite(n)\n\x7d\n"

theorem countdownSource_loads_stored : ∃ text, compile countdownSource {} = .ok text ∧
    ∃ file p lines, ∃ cls : ClassFile, File.parse countdownSource = .ok file ∧
      analyze file = .ok p ∧
      emission p.root p.tables {} = ⟨lines, {}, .ok ()⟩ ∧ cls.ReadFrom lines text "GoProgram" ∧
      ∀ m ∈ cls.methods, ∃ role : Role, role.BelongsTo p ∧ role.signature = m.signature ∧
        ∀ slot pc, m.LoadsUnstored slot pc → ∃ i f body, role = .function i f body ∧
          ∃ n ∈ body, Behind (p.context {} (.ofFunction i f.isEntryPoint)) (.function i)
            ⟨slot - (Frame.ofFunction i f.isEntryPoint).base, .function i⟩ slot m.code n 0 pc := by
  obtain ⟨text, h⟩ := exists_text_of_isOk countdownSource {} (by decide +kernel)
  exact ⟨text, h, compile_loads_stored h⟩

/-- Control goes through a line, and nothing is stored into a slot there. -/
def Line.passes (slot : Nat) (l : Line) : Bool := l.fallsThrough && l.touch? slot != some .store

/-- Lines without a store are passed one after the other. -/
theorem Unstored.pass {code : List Line} {slot pc n : Nat} (h : Unstored code slot pc)
    (bound : pc + n ≤ code.length)
    (passes : ((code.drop pc).take n).all (Line.passes slot) = true) :
    Unstored code slot (pc + n) := by
  induction n with
  | zero => exact h
  | succ n ih =>
    have found : code[pc + n]? = some code[pc + n] := List.getElem?_eq_getElem (by omega)
    have inside : n < (code.drop pc).length := by rw [List.length_drop]; omega
    rw [List.take_succ_eq_append_getElem inside, List.all_append, Bool.and_eq_true,
      List.getElem_drop] at passes
    have last : code[pc + n].passes slot = true := by simpa using passes.2
    obtain ⟨falls, keeps⟩ := Bool.and_eq_true_iff.1 last
    exact .step (ih (by omega) passes.1) found (by simpa using keeps) (.next found falls)

/-- A variable that is declared in a branch and printed behind it. -/
def leakySource : String := "func main() \x7b\nif 1 < 2 \x7b\nx := 1\n\x7d\nwrite(x)\n\x7d\n"

theorem leakySource_loads_unstored : ∃ p lines, analyzeSource leakySource = .ok p ∧
    emission p.root p.tables {} = ⟨lines, {}, .ok ()⟩ ∧
    compile leakySource {} = .ok (Line.render lines) ∧
    ∃ m ∈ (ClassFile.ofLines lines).methods, m.LoadsUnstored 1 9 := by
  obtain ⟨p, lines, analyzed, emitted, compiled, checked⟩ := exists_lines_of_check leakySource {}
    (fun lines => (ClassFile.ofLines lines).methods.any fun m =>
      m.argumentSlots == 1 && m.code.length == 12 && (m.code.take 4).all (Line.passes 1) &&
        m.code[4]? == some (.instr (.ifCompare .ge (.endOf 0))) &&
        m.code.findIdx? (Activation.isLabel (.endOf 0)) == some 7 &&
        ((m.code.drop 7).take 2).all (Line.passes 1) && m.code[9]? == some (.instr (.load .int 1)))
    (by decide +kernel)
  refine ⟨p, lines, analyzed, emitted, compiled, ?_⟩
  simp only [List.any_eq_true, Bool.and_eq_true, beq_iff_eq] at checked
  obtain ⟨m, mem, ⟨⟨⟨⟨⟨slots, length⟩, before⟩, branch⟩, label⟩, behind⟩, load⟩ := checked
  -- The way leads past the branch with the store.
  have toBranch : Unstored m.code 1 (0 + 4) := Unstored.start.pass (by omega) before
  have toLabel : Unstored m.code 1 7 := .step toBranch branch (by decide) (.branch branch rfl label)
  have toLoad : Unstored m.code 1 (7 + 2) := toLabel.pass (by omega) behind
  exact ⟨m, mem, slots.le, ⟨_, load, rfl⟩, toLoad⟩

end MiniGo
