import MiniGo.Proofs.Shapes.Statements

/-!
# The methods of a compiled class are typed

For each method of the class there is an assignment of shapes to its lines under which every
instruction finds what it needs. The main statement is `compile_methods_typed`.

* `Role`: what a method of the class is for, with its local slots and its statements.
* `Method.TypedFor`: a method is typed for its role, and nothing is on the stack around its
  statements.
-/

namespace MiniGo

/-! ### Roles of methods -/

/-- What a method of a class is for: the constructor, the initializer, or a function with its
body. -/
inductive Role where
  | constructor
  | initializer
  | function (i : Nat) (f : Function) (body : List Node)

namespace Role

/-- The signature of the method. -/
def signature : Role → Signature
  | constructor => (Library.constructor Library.objectClass []).signature
  | initializer => Emission.initializerSignature
  | function _ f _ => f.signature

/-- The frame in which the code of the method is generated. -/
def frame : Role → Frame
  | constructor | initializer => .initializer
  | function i f _ => .ofFunction i f.isEntryPoint

/-- The kinds of the local slots: a slot of a function has the kind of the entry of its variable.
Before them, the entry point has its arguments, and the constructor its object. -/
def locals (options : Options) : Role → Nat → Option StackKind
  | constructor, slot => if slot = 0 then some (.object options.className) else none
  | initializer, _ => none
  | function i f _, slot =>
    let base := (Frame.ofFunction i f.isEntryPoint).base
    if slot < base then some (.array .string)
    else (f.vars.get? (slot - base)).bind fun x => x.descriptor.kind?

/-- The statements that the method runs. -/
def statements (p : Program) : Role → List Node
  | constructor => []
  | initializer => p.root.children.filter (!Emission.isFunction ·)
  | function _ _ body => body

/-- The function of a role is one of the program, and has its body there. -/
def BelongsTo (p : Program) : Role → Prop
  | constructor | initializer => True
  | function i f body => p.tables.functions.get? i = some f ∧ functionNode i body ∈ p.root.children

end Role

/-- A method is typed for a role by an assignment of shapes: its parameters are in the first slots,
and the stack is empty before and after each statement that it runs, however deep it stands. -/
structure Method.TypedFor (m : Method) (p : Program) (options : Options) (cls : ClassFile)
    (role : Role) (shape : Nat → Shape) :
    Prop extends m.TypedBy ⟨cls, role.locals options⟩ shape where
  params : ∀ {j d}, m.signature.type.params[j]? = some d → role.locals options j = d.kind?
  statements : ∀ n ∈ role.statements p, ∀ n', n.Contains n' →
    ∃ exit? c before code behind,
      code = (Emission.emitBranch (p.context options role.frame) exit? n' c).lines ∧
      m.code = before ++ code ++ behind ∧ shape before.length = [] ∧
      shape (before ++ code).length = []

/-! ### The class has what its code refers to -/

namespace ClassCode

variable {p : Program} {options : Options}

/-- The locals of a role, as far as the code of its scope refers to them. -/
def RoleOf (s : Scope) (role : Role) (p : Program) : Prop :=
  match s with
  | .globals => True
  | .function i => ∃ f body, role = .function i f body ∧ p.tables.functions.get? i = some f

theorem knows (k : ClassCode p options) (wf : p.tables.WellFormed) (role : Role) (s : Scope)
    (h : RoleOf s role p) :
    MethodEnv.Knows ⟨ClassFile.ofLines k.lines, role.locals options⟩ (p.context options role.frame)
      s where
  globals x mem := k.hasField rfl (field_mem_fieldLines mem)
  results f mem i ty result := k.hasField rfl (result_mem_fieldLines mem result)
  methods f mem := by
    obtain ⟨i, hf⟩ := List.mem_iff_getElem?.1 mem
    obtain ⟨m, hm, rfl⟩ := k.method_of_function hf
    rw [show (p.context options role.frame).options.className = options.className from rfl,
      k.method?_eq wf hm]
    rfl
  locals i v x own scope entry := by
    subst own
    obtain ⟨f, body, rfl, hf⟩ := h
    obtain ⟨slot, scope'⟩ := v
    obtain rfl : scope' = .function i := scope
    have found : f.vars.get? slot = some x := by
      simpa [Program.context, Tables.var?, Tables.table?, hf] using entry
    have behind : ¬ (Frame.ofFunction i f.isEntryPoint).base + slot <
        (Frame.ofFunction i f.isEntryPoint).base := by omega
    simp only [Role.locals, Role.frame, Program.context, Frame.slot, if_neg behind,
      Nat.add_sub_cancel_left, found, Option.bind_some]

end ClassCode

/-! ### The end of a method -/

theorem getLast?_append_of_some {α : Type} {xs ys : List α} {y : α} (h : ys.getLast? = some y) :
    (xs ++ ys).getLast? = some y := by
  rw [List.getLast?_append, h]
  rfl

/-- The code of a return statement ends with a return. -/
theorem StmtCode.getLast?_of_ret {ctx : Context} {s : Scope} {exit? : Option Label}
    {c c' : LabelCounters} {n : Node} {lines : List Line} (h : StmtCode ctx s exit? c n lines c')
    (ret : n.kind = .ret) : lines.getLast? = some (.instr .ret) := by
  cases h with
  | ret => simp
  | _ => cases ret

theorem StmtsCode.getLast?_of_endsWithReturn {ctx : Context} {s : Scope} {c c' : LabelCounters}
    {nodes : List Node} {lines : List Line} :
    StmtsCode ctx s c nodes lines c' → Emission.endsWithReturn nodes = true →
      lines.getLast? = some (.instr .ret)
  | .nil, ends => by simp [Emission.endsWithReturn] at ends
  | .cons first others, ends => by
    cases others with
    | nil =>
      simp only [Emission.endsWithReturn, List.getLast?_singleton, beq_iff_eq] at ends
      simpa using first.getLast?_of_ret ends
    | cons second rest =>
      refine getLast?_append_of_some (getLast?_of_endsWithReturn (.cons second rest) ?_)
      simpa [Emission.endsWithReturn] using ends

/-! ### Typing a method -/

section

variable {p : Program} {options : Options} {cls : ClassFile} {role : Role} {s : Scope}

/-- Code that is put together from the code of statements and a return is typed for its role. -/
theorem Method.typedFor_of_code {m : Method} (limits : List Line) {closing code : List Line}
    {nodes : List Node} {c c' : LabelCounters} (wf : p.tables.WellFormed)
    (stands : (p.context options role.frame).StandsIn s)
    (knows : MethodEnv.Knows ⟨cls, role.locals options⟩ (p.context options role.frame) s)
    (stmtsCode : StmtsCode (p.context options role.frame) s c nodes code c')
    (parts : m.code = limits ++ code ++ closing)
    (limitsFlow : Flows ⟨cls, role.locals options⟩ limits [] [])
    (closingFlow : Flows ⟨cls, role.locals options⟩ closing [] [])
    (limitsBranch : BranchTo limits fun _ => False)
    (closingBranch : BranchTo closing fun _ => False) (last : m.code.getLast? = some (.instr .ret))
    (params : ∀ {j d}, m.signature.type.params[j]? = some d → role.locals options j = d.kind?)
    (statements : role.statements p = nodes) :
    ∃ shape, m.TypedFor p options cls role shape := by
  have flows := (limitsFlow.append (stmtsCode.flows knows wf)).append closingFlow
  rw [← parts] at flows
  have branches : BranchTo m.code fun l => .label l ∈ m.code := by
    rw [parts]
    refine ((limitsBranch.mono fun _ => False.elim).append (stmtsCode.branches.mono ?_)).append
      (closingBranch.mono fun _ => False.elim)
    exact fun l mem => List.mem_append_left _ (List.mem_append_right _ mem)
  refine ⟨_, Method.typedBy_of_flows flows branches last, params, ?_⟩
  intro n mem n' contains
  rw [statements] at mem
  have located := (stmtsCode.located knows wf n mem).within limitsFlow closing
  rw [← parts] at located
  -- Each statement inside of the method has its own code, and the stack is empty before and behind
  -- it.
  obtain ⟨exit?, c₁, c₂, before, sub, behind, split, subCode, beforeFlow⟩ :=
    located.contains knows wf contains
  have emitted : sub = (Emission.emitBranch (p.context options role.frame) exit? n' c₁).lines := by
    rw [subCode.emits stands]
  have subFlow := beforeFlow.append (subCode.flows knows wf)
  refine ⟨exit?, c₁, before, sub, behind, emitted, split, ?_, ?_⟩
  · rw [split, List.append_assoc, List.take_left, beforeFlow]
    rfl
  · rw [split, List.take_left, subFlow]
    rfl

end

/-! ### The methods of a class -/

/-- Limits at the start of a method. -/
theorem limits_flows (env : MethodEnv) (stack locals : Nat) :
    Flows env [.limitStack stack, .limitLocals locals] [] [] := by
  simp [Flows, flow, Line.after]

theorem limits_branches (stack locals : Nat) :
    BranchTo [.limitStack stack, .limitLocals locals] fun _ => False := by
  simp [BranchTo]

theorem ret_branches : BranchTo [.instr .ret] fun _ => False :=
  branchTo_instr (by simp [Instr.target?])

theorem closingReturn_flows (env : MethodEnv) (body : List Node) :
    Flows env (closingReturn body) [] [] := by
  unfold closingReturn
  split
  · exact .nil
  · exact .line rfl

theorem closingReturn_branches (body : List Node) :
    BranchTo (closingReturn body) fun _ => False := by
  unfold closingReturn
  split
  · simp [BranchTo]
  · exact ret_branches

/-- A parameter of a function is in the slot of its number, behind the arguments of the entry
point. -/
theorem Role.locals_param {options : Options} {i : Nat} {f : Function} {body : List Node}
    (wf : f.WellFormed) (first : f.ParamsFirst) {j : Nat} {d : Descriptor}
    (h : f.signature.type.params[j]? = some d) :
    (Role.function i f body).locals options j = d.kind? := by
  by_cases entry : f.isEntryPoint = true
  · rw [Function.signature, if_pos entry] at h
    obtain ⟨rfl, rfl⟩ : j = 0 ∧ d = .array .string := by
      cases j with
      | zero => exact ⟨rfl, by simpa using h.symm⟩
      | succ j => simp at h
    simp [Role.locals, Frame.ofFunction, entry, Descriptor.kind?]
  · rw [Function.signature, if_neg entry, methodType, List.getElem?_map,
      Option.map_eq_some_iff] at h
    obtain ⟨ty, param, rfl⟩ := h
    have scalar := wf.params ty (List.mem_of_getElem? param)
    have slot := getElem?_of_isPrefix first param
    rw [List.getElem?_map, Option.map_eq_some_iff] at slot
    obtain ⟨x, found, rfl⟩ := slot
    have wfx := wf.vars.entries x (List.mem_of_getElem? found)
    simp only [Role.locals, Frame.ofFunction, entry, Bool.false_eq_true, if_false, Nat.not_lt_zero,
      Nat.sub_zero, VarTable.get?, found, Option.bind_some]
    rw [Variable.kind?_of_scalar wfx scalar, Ty.kind?_descriptor scalar]

namespace ClassCode

variable {p : Program} {options : Options}

/-- The constructor calls that of the superclass. -/
theorem constructor_typedFor (k : ClassCode p options) (wf : p.tables.WellFormed) :
    ∃ shape, constructorMethod.TypedFor p options
      (ClassFile.ofLines k.lines) .constructor shape := by
  let calls : List Instr := [.loadThis, .invokeSpecial (Library.constructor Library.objectClass [])]
  have callsFlow : Flows ⟨ClassFile.ofLines k.lines, Role.constructor.locals options⟩
      (asLines calls) [] [] := by
    simp [calls, Flows, flow, Line.after, Instr.after, Role.locals, Library.constructors,
      popArguments, Library.constructor]
  have stands : (p.context options Role.constructor.frame).StandsIn .globals := rfl
  exact Method.typedFor_of_code (c := {}) (asLines calls) wf stands
    (k.knows wf _ .globals trivial) .nil rfl callsFlow (.instr rfl)
    (branchTo_asLines (by simp [calls, Instr.target?])) ret_branches rfl
      (by simp [constructorMethod, Library.constructor]) rfl

/-- The initializer runs the global statements. -/
theorem initializer_typedFor (k : ClassCode p options) (wf : p.tables.WellFormed) :
    ∃ shape, k.initializerMethod.TypedFor p options
      (ClassFile.ofLines k.lines) .initializer shape := by
  have stands : (p.context options Role.initializer.frame).StandsIn .globals := rfl
  obtain ⟨c, code⟩ := k.initializerCode
  refine Method.typedFor_of_code [.limitStack options.stackLimit, .limitLocals 1] wf stands
    (k.knows wf _ .globals trivial) code rfl (limits_flows _ _ _) (.instr rfl) (limits_branches _ _)
    ret_branches ?_ ?_ k.statements_eq
  · exact getLast?_append_of_some (getLast?_append_of_some rfl)
  · simp [initializerMethod, Emission.initializerSignature]

/-- The method of a function runs the statements of its body. -/
theorem method_typedFor (k : ClassCode p options) (wf : p.tables.WellFormed) {i : Nat}
    {m : MethodCode} (first : m.function.ParamsFirst) (h : k.methods[i]? = some m) :
    ∃ shape, (m.method options i).TypedFor p options (ClassFile.ofLines k.lines)
      (.function i m.function m.body) shape := by
  have found := k.function_of_method h
  obtain ⟨c, code⟩ := k.methodCode h
  have stands : (p.context options (Role.function i m.function m.body).frame).StandsIn
      (.function i) :=
    ⟨m.function, found, rfl⟩
  refine Method.typedFor_of_code [.limitStack options.stackLimit, .limitLocals _] wf stands
    (k.knows wf _ (.function i) ⟨_, _, rfl, found⟩) code rfl
    (limits_flows _ _ _) (closingReturn_flows _ m.body) (limits_branches _ _)
    (closingReturn_branches m.body) ?_ (Role.locals_param (wf.get? found) first) rfl
  refine getLast?_append_of_some ?_
  unfold closingReturn
  by_cases ends : Emission.endsWithReturn m.body = true
  · rw [if_pos ends, List.append_nil]
    exact code.getLast?_of_endsWithReturn ends
  · rw [if_neg ends]
    exact getLast?_append_of_some rfl

/-- What holds of the constructor, the initializer and the method of each function, each in its
role, holds of all methods of the class. -/
theorem forall_methods (k : ClassCode p options) {holds : Role → Method → Prop}
    (constructor : holds .constructor constructorMethod)
    (initializer : holds .initializer k.initializerMethod)
    (function : ∀ {i : Nat} {m : MethodCode}, k.methods[i]? = some m →
      holds (.function i m.function m.body) (m.method options i)) :
    ∀ m ∈ ClassFile.methodsOf k.lines, ∃ role : Role, role.BelongsTo p ∧
      role.signature = m.signature ∧
      holds role m := by
  intro m mem
  rw [k.methodsOf_lines, List.mem_cons, List.mem_append] at mem
  rcases mem with rfl | mem | mem
  · exact ⟨.constructor, trivial, rfl, constructor⟩
  · split at mem
    · simp at mem
    · obtain rfl := List.mem_singleton.1 mem
      exact ⟨.initializer, trivial, rfl, initializer⟩
  · obtain ⟨i, bound, rfl⟩ := List.mem_mapIdx.1 mem
    have method : k.methods[i]? = some k.methods[i] := List.getElem?_eq_getElem bound
    exact ⟨.function i _ _, ⟨k.function_of_method method, k.functionNode_mem method⟩, rfl,
      function method⟩

theorem paramsFirst (k : ClassCode p options) (h : p.WellTyped) {i : Nat} {m : MethodCode}
    (method : k.methods[i]? = some m) : m.function.ParamsFirst :=
  h.paramsFirst _ (List.mem_of_getElem? (k.function_of_method method))

/-- Each method of the class is typed for its role. -/
theorem methods_typedFor (k : ClassCode p options) (h : p.WellTyped) :
    ∀ m ∈ ClassFile.methodsOf k.lines, ∃ role : Role, role.BelongsTo p ∧
      role.signature = m.signature ∧
      ∃ shape, m.TypedFor p options (ClassFile.ofLines k.lines) role shape :=
  k.forall_methods (k.constructor_typedFor h.tables) (k.initializer_typedFor h.tables)
    fun method => k.method_typedFor h.tables (k.paramsFirst h method) method

end ClassCode

/-- A source text that is compiled becomes a class all of whose methods are typed. -/
theorem compile_methods_typed {source text : String} {options : Options}
    (h : compile source options = .ok text) :
    ∃ p lines, analyzeSource source = .ok p ∧
      emission p.root p.tables options = ⟨lines, {}, .ok ()⟩ ∧
      text = Line.render lines ∧
      ∀ m ∈ (ClassFile.ofLines lines).methods,
        ∃ role : Role, role.BelongsTo p ∧ role.signature = m.signature ∧
          ∃ shape, m.TypedFor p options (ClassFile.ofLines lines) role shape := by
  obtain ⟨file, p, parsed, analyzed, typed, k, emitted, rfl⟩ := compile_eq_ok h
  exact ⟨p, k.lines, analyzeSource_eq_ok_iff.2 ⟨file, parsed, analyzed⟩, emitted, rfl,
    k.methods_typedFor typed⟩

/-- A function with two results of different types, one of them stored into a float. -/
def twoResultsSource : String :=
  "var z float32\nfunc f() (int, string) \x7b\nreturn 1, \"a\"\n\x7d\n" ++
    "func main() \x7b\ns := \"\"\nz, s = f()\nif z < 2 && s == \"a\" \x7b\nwrite(s)\n\x7d\n\x7d\n"

theorem twoResultsSource_typed : ∃ text, compile twoResultsSource {} = .ok text ∧
    ∃ p lines, analyzeSource twoResultsSource = .ok p ∧
      emission p.root p.tables {} = ⟨lines, {}, .ok ()⟩ ∧ text = Line.render lines ∧
      ∀ m ∈ (ClassFile.ofLines lines).methods,
        ∃ role : Role, role.BelongsTo p ∧ role.signature = m.signature ∧
          ∃ shape, m.TypedFor p {} (ClassFile.ofLines lines) role shape := by
  obtain ⟨text, h⟩ := exists_text_of_isOk twoResultsSource {} (by decide +kernel)
  exact ⟨text, h, compile_methods_typed h⟩

end MiniGo
