import MiniGo.Proofs.Simulation.Stmt

/-!
# The code of functions and programs

* `Simulates.function_runs`: the method of a function does what a call means.
* `ClassCode.simulates`: calls and statements run as they mean, with any fuel.
* `ClassCode.executes`: the class of a program does what the program means.
-/

namespace MiniGo

variable {P : Platform} {p : Program} {options : Options}

/-! ### The body of a function -/

/-- The body of a function in the tree is the one that its method runs. -/
theorem ClassCode.body?_eq (k : ClassCode p options) {i : Nat} {m : MethodCode}
    (h : k.methods[i]? = some m) : p.body? i = some (.mk .block .noType m.body) := by
  obtain ⟨c, code⟩ := k.initializerCode
  let nodes := (k.methods.map MethodCode.body).mapIdx functionNode
  have bound : i < nodes.length := by
    simpa [nodes] using (List.getElem?_eq_some_iff.1 h).1
  have here : nodes[i] = functionNode i m.body := by
    obtain ⟨_, rfl⟩ := List.getElem?_eq_some_iff.1 h
    simp [nodes]
  have split : p.root.children =
      (k.globals ++ nodes.take i) ++ functionNode i m.body :: nodes.drop (i + 1) := by
    rw [k.root, Node.statement, Node.children_mk, List.append_assoc, ← here,
      List.cons_getElem_drop_succ, List.take_append_drop]
  refine List.findSome?_eq_some_iff.2 ⟨_, _, _, split, by simp [functionNode, Node.statement], ?_⟩
  intro n mem
  rcases List.mem_append.1 mem with mem | mem
  · -- A global statement is no function.
    have noFunction := code.isFunction n mem
    obtain ⟨kind, ty, children⟩ := n
    cases kind with
    | function j => cases noFunction
    | _ => rfl
  · obtain ⟨j, lt, rfl⟩ := List.mem_take_iff_getElem.1 mem
    have ne : j ≠ i := by omega
    simp [nodes, functionNode, Node.statement, ne]

/-- Statements that end with a return do not run to their end. -/
theorem execStmts_ne_next {returns : List Ty} {fuel : Nat} {nodes : List Node} {σ σ' : Store P}
    {flow : Flow P} (ends : Emission.endsWithReturn nodes = true)
    (exec : execStmts p returns fuel nodes σ = some (flow, σ')) : flow ≠ .next := by
  induction nodes generalizing fuel σ with
  | nil => simp [Emission.endsWithReturn] at ends
  | cons node nodes ih =>
    cases fuel with
    | zero => cases exec
    | succ fuel =>
      rcases execStmts_cons exec with ⟨σ₁, first, rest⟩ | ⟨results, -, rfl⟩
      · cases nodes with
        | nil =>
          -- The last statement is the return.
          obtain ⟨kind, ty, children⟩ := node
          obtain rfl : kind = .ret := by simpa [Emission.endsWithReturn] using ends
          cases fuel with
          | zero => cases first
          | succ fuel =>
            obtain ⟨results, w, -, impossible, -⟩ := execStmt_ret first
            cases impossible
        | cons next nodes => exact ih (by simpa [Emission.endsWithReturn] using ends) rest
      · simp

theorem execStmt_block_ne_next {returns : List Ty} {fuel : Nat} {ty : Ty} {nodes : List Node}
    {σ σ' : Store P} {flow : Flow P} (ends : Emission.endsWithReturn nodes = true)
    (exec : execStmt p returns fuel (.mk .block ty nodes) σ = some (flow, σ')) : flow ≠ .next := by
  cases fuel with
  | zero => cases exec
  | succ fuel => exact execStmts_ne_next ends exec

/-! ### The start of a function -/

/-- At the start of a function its parameters are in their slots, behind what the machine passed in
front. -/
theorem Matches.enter (wt : p.WellTyped) {i : Nat} {f : Function}
    (callee : p.tables.functions.get? i = some f) {args : List (Value P)}
    (typed : List.Forall₂ Value.HasTy args f.params) {w : World P} {mem : Memory P}
    (shared : Shared (p.context options .initializer) w mem) {passed : List (Datum P)}
    (count : passed.length = (Frame.ofFunction i f.isEntryPoint).base) :
    Matches (p.context options (.ofFunction i f.isEntryPoint)) (.function i) mem.heap.length
      (.enter args w) (fun slot => (passed ++ args.map Value.datum)[slot]?) mem := by
  let ctx := p.context options (.ofFunction i f.isEntryPoint)
  let locals : Nat → Option (Datum P) := fun slot => (passed ++ args.map Value.datum)[slot]?
  have globals : Matches ctx .globals 0 ⟨(Store.enter args w).locals, w⟩ locals mem :=
    Matches.globals shared _ _ _
  -- A variable of the function is in a slot of its own, which holds an argument or nothing.
  have slots : ∀ {slot x}, ctx.place mem locals ⟨slot, .function i⟩ x =
      args[slot]?.map Value.datum := by
    intro slot x
    have place : ctx.place mem locals ⟨slot, .function i⟩ x =
        (passed ++ args.map Value.datum)[passed.length + slot]? := by
      rw [count]
      rfl
    rw [place, List.getElem?_append_right (Nat.le_add_right _ _), Nat.add_sub_cancel_left,
      List.getElem?_map]
  have noArray : ∀ {v x}, v.scope = .function i → ∀ a, ctx.place mem locals v x ≠
      some (.array a) := by
    rintro ⟨slot, scope⟩ x rfl a place
    rw [slots, Option.map_eq_some_iff] at place
    obtain ⟨u, -, same⟩ := place
    exact u.datum_ne_array a same
  have own : ∀ {v : VarRef}, Scope.Sees (.function i) v → v.scope ≠ .globals →
      v.scope = .function i :=
    fun sees scope => sees.resolve_left scope
  constructor
  · intro v x sees entry
    by_cases scope : v.scope = .globals
    · have shown := globals.shows (.inl scope) entry
      exact shown
    · obtain ⟨slot, scope'⟩ := v
      obtain rfl : scope' = .function i := own sees scope
      rw [slots]
      have found : f.vars.get? slot = some x := by
        simpa [Program.context, Tables.var?, Tables.table?, callee] using entry
      cases arg : args[slot]? with
      | none =>
        have cell : (Store.enter args w).cell ⟨slot, .function i⟩ = .empty := by
          simp [Store.cell, World.cell, Store.enter, arg]
        rw [cell]
        exact .empty (by simp)
      | some u =>
        have cell : (Store.enter args w).cell ⟨slot, .function i⟩ = .scalar u := by
          simp [Store.cell, World.cell, Store.enter, arg]
        obtain ⟨ty, param, hasTy⟩ := forall₂_getElem? typed arg
        have first := getElem?_of_isPrefix (wt.paramsFirst f (List.mem_of_getElem? callee)) param
        rw [List.getElem?_map, show f.vars.entries[slot]? = some x from found] at first
        obtain rfl : x.ty = ty := Option.some.inj first
        rw [cell]
        exact .scalar ((wt.tables.var? entry).array?_eq_none hasTy.isScalar) hasTy
  · intro v v' x x' a sees sees' entry entry' place place'
    by_cases scope : v.scope = .globals
    · by_cases scope' : v'.scope = .globals
      · exact globals.apart (.inl scope) (.inl scope') entry entry' place place'
      · exact absurd place' (noArray (own sees' scope') a)
    · exact absurd place (noArray (own sees scope) a)
  · intro v x a sees _ scope place
    exact absurd place (noArray (own sees scope) a)
  · exact le_rfl
  · exact shared.input
  · exact shared.output

/-! ### Methods -/

/-- No label stands twice in a method. -/
theorem StmtsCode.labelsUnique {ctx : Context} {s : Scope} {c c' : LabelCounters}
    {nodes : List Node} {lines before behind : List Line} (h : StmtsCode ctx s c nodes lines c')
    (hb : labelsOf before = []) (hb' : labelsOf behind = []) :
    LabelsUnique (before ++ (lines ++ behind)) :=
  (FreshLabels.append (.of_nil hb) (h.freshLabels.append (.of_nil hb'))).unique

theorem labelsOf_closingReturn (body : List Node) : labelsOf (closingReturn body) = [] := by
  unfold closingReturn
  split <;> rfl

/-- A method starts behind its limits. -/
theorem Reaches.start {cls : ClassFile} {m : Method} {stack locals : Nat} {lines : List Line}
    (code : m.code = [.limitStack stack, .limitLocals locals] ++ lines) (args : List (Datum P))
    (callers : List (Activation P)) (mem : Memory P) :
    Reaches cls ⟨m.activate args :: callers, mem⟩
      (Work.at ⟨[], fun slot => args[slot]?, mem⟩ m.code 2 callers) := by
  have first : step cls ⟨m.activate args :: callers, mem⟩ =
      some (Work.at ⟨[], fun slot => args[slot]?, mem⟩ m.code 1 callers) := by
    simp [step, Method.activate, code, Activation.next, Work.at]
  have second : step cls (Work.at ⟨[], fun slot => args[slot]?, mem⟩ m.code 1 callers) =
      some (Work.at ⟨[], fun slot => args[slot]?, mem⟩ m.code 2 callers) := by
    simp [step, code, Activation.next, Work.at]
  exact (Reaches.single first).trans (.single second)

/-- A call takes its arguments from the stack. -/
theorem Reaches.invokeStatic {cls : ClassFile} {m : MethodRef} {method : Method} {code : List Line}
    {pc : Nat} {args stk : List (Datum P)} {locals : Nat → Option (Datum P)} {mem : Memory P}
    {callers : List (Activation P)} (line : code[pc]? = some (.instr (.invokeStatic m)))
    (found : cls.method? m = some method) (count : args.length = m.signature.type.params.length) :
    Reaches cls (Work.at ⟨args.reverse ++ stk, locals, mem⟩ code pc callers)
      ⟨method.activate args :: ⟨code, pc + 1, stk, locals⟩ :: callers, mem⟩ := by
  refine .single ?_
  have length : m.signature.type.params.length = args.reverse.length := by simp [count]
  simp only [step, Work.at, line, Instr.step, found, length, Option.bind_eq_bind, Option.bind_some]
  rw [if_pos (by simp), List.take_left, List.drop_left, List.reverse_reverse]
  rfl

theorem Function.length_argumentData {f : Function} {args : List (Value P)}
    (typed : List.Forall₂ Value.HasTy args f.params) :
    (f.argumentData args).length = f.signature.type.params.length := by
  unfold Function.argumentData Function.signature
  split
  · rename_i entry
    rw [(isEntryPoint_iff.1 entry).2, List.forall₂_nil_right_iff] at typed
    simp [typed]
  · simp [methodType, typed.length_eq]

theorem Keeps.of_frame {frame frame' : Frame} {bound : Nat} {mem mem' : Memory P}
    (h : Keeps (p.context options frame) bound mem mem') :
    Keeps (p.context options frame') bound mem mem' :=
  ⟨h.grows, h.heap, h.arrays⟩

namespace Simulates

variable {cls : ClassFile} {fuel : Nat}

/-- The method of a function does what a call of the function means. -/
theorem function_runs (sim : Simulates P cls p options fuel) (k : ClassCode p options)
    (wt : p.WellTyped) (frame : Frame) {i : Nat} {m : MethodCode} (h : k.methods[i]? = some m)
    {args results : List (Value P)} {w w' : World P}
    (typed : List.Forall₂ Value.HasTy args m.function.params)
    (called : callFunction p (fuel + 1) i args w = some (results, w')) {mem : Memory P}
    (shared : Shared (p.context options frame) w mem) {passed : List (Datum P)}
    (count : passed.length = (Frame.ofFunction i m.function.isEntryPoint).base) :
    ∃ mem', Shared (p.context options frame) w' mem' ∧
      Keeps (p.context options frame) mem.heap.length mem mem' ∧
      List.Forall₂ Value.HasTy results m.function.returns ∧
      HoldsResults (p.context options frame) m.function results mem' ∧
      ∀ callers, Reaches cls
        ⟨(m.method options i).activate (passed ++ args.map Value.datum) :: callers, mem⟩
          ⟨callers, mem'⟩ := by
  have callee := k.function_of_method h
  obtain ⟨c, code⟩ := k.methodCode h
  obtain ⟨f, body, flow, σ, callee', found, exec, rfl, outcome⟩ := callFunction_succ called
  cases callee.symm.trans callee'
  cases (k.body?_eq h).symm.trans found
  have inv := Matches.enter wt callee typed shared count
  have returns : ReturnsIn p (.function i) m.function.returns := by
    rintro j f ⟨⟩ entry
    cases callee.symm.trans entry
    rfl
  -- The labels of a method are those of its body.
  have unique : LabelsUnique (m.method options i).code :=
    code.labelsUnique rfl (labelsOf_closingReturn m.body)
  have seg : Seg (m.method options i).code 2 (m.code ++ closingReturn m.body) := List.prefix_rfl
  have start : ∀ callers, Reaches cls
      ⟨(m.method options i).activate (passed ++ args.map Value.datum) :: callers, mem⟩
      (Work.at ⟨[], _, mem⟩ (m.method options i).code 2 callers) :=
        fun callers => .start rfl _ callers mem
  have block : StmtCode _ _ none _ (.mk .block .noType m.body) _ _ := .block code
  have ends := sim.stmt block returns exec inv
  rcases outcome with rfl | ⟨rfl, noResults, rfl⟩
  · obtain ⟨mem', after, keeps, ⟨j, f, same, entry, typed, held⟩, leaves⟩ := ends
    cases same
    cases callee.symm.trans entry
    refine ⟨mem', after, keeps.of_frame, typed, held, fun callers => ?_⟩
    exact (start callers).trans (leaves callers unique seg.left (by simp [ExitAt]))
  · obtain ⟨locals', mem', inv', keeps, passes⟩ := ends
    have closing : closingReturn m.body = [.instr .ret] := by
      refine if_neg fun ends => ?_
      exact execStmt_block_ne_next ends exec rfl
    rw [closing] at seg
    refine ⟨mem', inv'.shared, (keeps (by simp)).of_frame, ?_, by simp [HoldsResults],
      fun callers => ?_⟩
    · rw [noResults]
      exact .nil
    · have passed := passes callers unique seg.left (by simp [ExitAt])
      exact ((start callers).trans passed).trans (.ret seg.right.line)

/-- Calls run as they mean if the bodies of functions do. -/
theorem calls_succ (k : ClassCode p options) (wt : p.WellTyped)
    (sim : Simulates P (.ofLines k.lines) p options fuel) (frame : Frame) :
    CallRuns (.ofLines k.lines) (p.context options frame) (callFunction (P := P) p (fuel + 1)) := by
  intro i f args w results w' mem callee typed called shared
  obtain ⟨m, method, rfl⟩ := k.method_of_function callee
  have count : (if m.function.isEntryPoint then [.null] else [] : List (Datum P)).length =
      (Frame.ofFunction i m.function.isEntryPoint).base := by
    unfold Frame.ofFunction
    split <;> rfl
  obtain ⟨mem', after, keeps, results, held, runs⟩ :=
    sim.function_runs k wt frame method typed called shared count
  refine ⟨mem', after, keeps, results, held, fun stk locals code pc callers seg => ?_⟩
  exact (Reaches.invokeStatic seg.line (k.method?_eq wt.tables method)
    (Function.length_argumentData typed)).trans (runs _)

end Simulates

/-- The class has all fields that its code refers to. -/
theorem ClassCode.linked (k : ClassCode p options) (wf : p.tables.WellFormed)
    (plain : ∀ x ∈ p.tables.globals.entries, '$' ∉ x.name.toList) (frame : Frame) :
    Linked (.ofLines k.lines) (p.context options frame) where
  wf := wf
  plain := plain
  fields _ mem := k.hasField rfl (field_mem_fieldLines mem)
  results _ mem _ _ result := k.hasField rfl (result_mem_fieldLines mem result)

/-- Calls and statements run as they mean. -/
theorem ClassCode.simulates (k : ClassCode p options) (wt : p.WellTyped)
    (plain : ∀ x ∈ p.tables.globals.entries, '$' ∉ x.name.toList) (fuel : Nat) :
    Simulates P (.ofLines k.lines) p options fuel := by
  induction fuel with
  | zero =>
    constructor
    · intro frame i f args w results w' mem _ _ called
      cases called
    · intro _ _ _ _ _ _ _ _ _ _ _ _ _ _ _ _ exec
      cases exec
    · intro _ _ _ _ _ _ _ _ _ _ _ _ _ _ _ exec
      cases exec
  | succ fuel ih =>
    constructor
    · exact ih.calls_succ k wt
    · intro _ _ _ _ _ _ _ _ _ _ _ _ _ _ code returns exec inv
      exact ih.stmt_succ (k.linked wt.tables plain) code returns exec inv
    · intro _ _ _ _ _ _ _ _ _ _ _ _ _ code returns exec inv
      exact ih.stmts_succ code returns exec inv

/-! ### Programs -/

theorem Descriptor.initial_ne_array (d : Descriptor) (a : Nat) :
    (d.initial : Datum P) ≠ .array a := by
  cases d <;> simp [Descriptor.initial]

theorem Shows.initial {heap : List (ArrayObject P)} {x : Variable} (wf : x.WellFormed) :
    Shows heap x (.initial x) (some x.descriptor.initial) := by
  cases wf with
  | @scalar name line ty scalar =>
    have datum : ty.descriptor.initial = (Value.initial ty : Value P).datum :=
      (Value.datum_initial ty).symm
    simp only [Variable.descriptor, Cell.initial, datum]
    exact .scalar rfl (Value.hasTy_initial scalar)
  | array => exact .empty fun a same => Descriptor.initial_ne_array _ a (Option.some.inj same)

/-- Before a program starts, its variables are as the machine has its fields. -/
theorem Shared.start (wf : p.tables.WellFormed) (options : Options) (frame : Frame)
    (input : P.Input) :
    Shared (p.context options frame) (p.start input) (.start input) := by
  have noPlace : ∀ {ctx : Context} {v : VarRef} {x : Variable} {a : Nat},
      ctx.place (.start input : Memory P) (fun _ => none) v x ≠ some (.array a) := by
    intro ctx v x a place
    obtain ⟨slot, scope⟩ := v
    cases scope with
    | globals => exact Descriptor.initial_ne_array _ a (Option.some.inj place)
    | function i => cases place
  constructor
  · intro v x sees entry
    obtain ⟨slot, scope⟩ := v
    obtain rfl : scope = .globals := by simpa [Scope.Sees] using sees
    have found : p.tables.globals.get? slot = some x := entry
    have cell : (Store.mk (fun _ => .empty) (p.start input) : Store P).cell ⟨slot, .globals⟩ =
        .initial x := by
      simp [Store.cell, World.cell, Program.start, found]
    rw [cell]
    exact .initial (wf.var? entry)
  · intro v v' x x' a _ _ _ _ place
    exact absurd place noPlace
  · intro v x a _ _ _ place
    exact absurd place noPlace
  · exact Nat.zero_le _
  · rfl
  · rfl

/-- A new array is none of a global variable. -/
theorem Shared.allocate {ctx : Context} {w : World P} {mem : Memory P} (h : Shared ctx w mem)
    (object : ArrayObject P) : Shared ctx w (mem.allocate object) where
  shows {v x} sees entry := by
    have shown := h.shows sees entry
    refine shown.of_heap fun a place => ?_
    have place' : Context.place { ctx with frame := .initializer } mem (fun _ => none) v x =
        some (.array a) := place
    rw [place'] at shown
    exact List.getElem?_append_left shown.address_lt
  apart := h.apart
  above := h.above
  room := Nat.zero_le _
  input := h.input
  output := h.output

namespace ClassCode

theorem initializer?_eq (k : ClassCode p options) :
    (ClassFile.ofLines k.lines).initializer? = if k.globals =
      [] then none else some k.initializerMethod := by
  have others : (k.methods.mapIdx (MethodCode.method options)).find?
      (fun m => m.access == .initializer && m.signature == Emission.initializerSignature) =
        none := by
    refine List.find?_eq_none.2 fun m mem => ?_
    obtain ⟨i, _, rfl⟩ := List.mem_mapIdx.1 mem
    simp [MethodCode.method]
  rw [ClassFile.initializer?, ClassFile.ofLines, k.methodsOf_lines,
    List.find?_cons_of_neg (by simp [constructorMethod]), List.find?_append, others, Option.or_none]
  split
  · rfl
  · simp [initializerMethod]

/-- The initializer does what the global statements mean. -/
theorem initializes (k : ClassCode p options) (wt : p.WellTyped)
    (plain : ∀ x ∈ p.tables.globals.entries, '$' ∉ x.name.toList) {fuel : Nat} {input : P.Input}
    {flow : Flow P} {σ : Store P}
    (exec : execStmts p [] fuel p.globalStatements ⟨fun _ => .empty, p.start input⟩ =
      some (flow, σ)) :
    ∃ mem, Shared (p.context options .initializer) σ.world mem ∧
      (ClassFile.ofLines k.lines).Initializes (.start input) mem := by
  rw [Program.globalStatements, k.statements_eq] at exec
  have start := Shared.start wt.tables options .initializer input
  unfold ClassFile.Initializes
  rw [k.initializer?_eq]
  by_cases none : k.globals = []
  · -- Without statements there is no initializer.
    rw [if_pos none]
    rw [none] at exec
    cases fuel with
    | zero => cases exec
    | succ fuel =>
      cases exec
      exact ⟨_, start, rfl⟩
  · rw [if_neg none]
    obtain ⟨c, code⟩ := k.initializerCode
    have inv := start.matches_globals (fun _ => .empty) (fun slot => ([] : List (Datum P))[slot]?)
    have ends := (k.simulates wt plain fuel).stmts code (by rintro i f ⟨⟩) exec inv
    -- A global statement does not return, since there is no function to return from.
    cases flow with
    | returned results =>
      obtain ⟨_, _, _, ⟨i, f, same, _⟩, _⟩ := ends
      cases same
    | next =>
      obtain ⟨locals, mem, inv', -, passes⟩ := ends
      have unique : LabelsUnique k.initializerMethod.code := code.labelsUnique rfl rfl
      have seg : Seg k.initializerMethod.code 2 (k.initializer ++ [.instr .ret]) := List.prefix_rfl
      have first : Reaches (.ofLines k.lines) ⟨[k.initializerMethod.activate []], .start input⟩ _ :=
        .start rfl [] [] (.start input)
      have passed := passes [] unique seg.left (by simp [ExitAt])
      exact ⟨mem, inv'.shared, (first.trans passed).trans (.ret seg.right.line)⟩

/-- The class of a program does what the program means. -/
theorem executes (k : ClassCode p options) (wt : p.WellTyped)
    (plain : ∀ x ∈ p.tables.globals.entries, '$' ∉ x.name.toList) {fuel : Nat} {input : P.Input}
    {w : World P} (run : p.run fuel input = some w) (arguments : List P.Text) :
    ∃ mem, (ClassFile.ofLines k.lines).Executes arguments input mem ∧
      Shared (p.context options .initializer) w mem := by
  simp only [Program.run, Option.bind_eq_bind, Option.bind_eq_some_iff, Prod.exists] at run
  obtain ⟨flow, σ, exec, i, entry, results, w', called, ⟨⟩⟩ := run
  obtain ⟨mem, shared, initializes⟩ := k.initializes wt plain exec
  obtain ⟨bound, isEntry, -⟩ := List.findIdx?_eq_some_iff_getElem.1 entry
  have callee : p.tables.functions.get? i = some p.tables.functions.entries[i] :=
    List.getElem?_eq_getElem bound
  obtain ⟨m, method, same⟩ := k.method_of_function callee
  rw [← same] at isEntry
  cases fuel with
  | zero => cases called
  | succ fuel =>
    have typed : List.Forall₂ Value.HasTy ([] : List (Value P)) m.function.params := by
      rw [(Function.isEntryPoint_iff.1 isEntry).2]
      exact .nil
    -- The machine passes an array of arguments, behind which the variables of the entry point
    -- start.
    have count : ([.array mem.heap.length] : List (Datum P)).length =
        (Frame.ofFunction i m.function.isEntryPoint).base := by simp [Frame.ofFunction, isEntry]
    obtain ⟨mem', after, -, -, -, runs⟩ :=
      (k.simulates wt plain fuel).function_runs k wt .initializer method typed called
        (shared.allocate ⟨.string, arguments.map .text⟩) count
    have found := k.method?_eq wt.tables method
    rw [Function.signature, if_pos isEntry] at found
    exact ⟨mem', ⟨_, mem, found, initializes, runs []⟩, after⟩

end ClassCode

end MiniGo
