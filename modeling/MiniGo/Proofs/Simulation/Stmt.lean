import MiniGo.Proofs.Simulation.Condition
import MiniGo.Proofs.Simulation.Place

/-!
# The code of statements

The code of a statement runs to its end, or leaves the function with its results in their fields.

* `Ends`: how lines end that run a statement, and what is true then.
* `Simulates`: calls and statements run as they mean, up to some fuel.
* `Simulates.stmt_succ`, `Simulates.stmts_succ`: the same with more fuel, by the kind of the
  statement.
-/

namespace MiniGo

variable {P : Platform}

/-! ### How lines end -/

/-- The label behind a chain of conditional statements stands at a line. -/
def ExitAt (code : List Line) (exit? : Option Label) (pc : Nat) : Prop :=
  ∀ l ∈ exit?, code[pc]? = some (.label l)

/-- Lines lead from their start to their end, with nothing on the stack. -/
def Passes (cls : ClassFile) (exit? : Option Label) (lines : List Line)
    (locals : Nat → Option (Datum P)) (mem : Memory P) (locals' : Nat → Option (Datum P))
    (mem' : Memory P) : Prop :=
  ∀ ⦃code pc⦄ callers, LabelsUnique code → Seg code pc lines →
    ExitAt code exit? (pc + lines.length) → Reaches cls (Work.at ⟨[], locals, mem⟩ code pc callers)
      (Work.at ⟨[], locals', mem'⟩ code (pc + lines.length) callers)

/-- Lines lead from their start back to the caller. -/
def Leaves (cls : ClassFile) (exit? : Option Label) (lines : List Line)
    (locals : Nat → Option (Datum P)) (mem mem' : Memory P) : Prop :=
  ∀ ⦃code pc⦄ callers, LabelsUnique code → Seg code pc lines →
    ExitAt code exit? (pc + lines.length) → Reaches cls (Work.at ⟨[], locals, mem⟩ code pc callers)
      ⟨callers, mem'⟩

/-- The results of the function of a scope have its types and are in their fields. -/
def Delivers (ctx : Context) (s : Scope) (results : List (Value P)) (mem : Memory P) : Prop :=
  ∃ i f, s = .function i ∧ ctx.tables.functions.get? i = some f ∧
    List.Forall₂ Value.HasTy results f.returns ∧ HoldsResults ctx f results mem

/-- What is true where lines end that run a statement. Only global declarations give global
variables new arrays. -/
def Ends (cls : ClassFile) (ctx : Context) (s : Scope) (floor : Nat) (exit? : Option Label)
    (lines : List Line) (locals : Nat → Option (Datum P)) (mem : Memory P) (flow : Flow P)
    (σ : Store P) : Prop :=
  match flow with
  | .next => ∃ locals' mem', Matches ctx s floor σ locals' mem' ∧
      (s ≠ .globals → Keeps ctx floor mem mem') ∧ Passes cls exit? lines locals mem locals' mem'
  | .returned results => ∃ mem', Shared ctx σ.world mem' ∧ Keeps ctx floor mem mem' ∧
      Delivers ctx s results mem' ∧ Leaves cls exit? lines locals mem mem'

section

variable {cls : ClassFile} {ctx : Context} {s : Scope} {floor : Nat} {exit? : Option Label}
  {ls ms : List Line} {is : List Instr} {locals locals' : Nat → Option (Datum P)}
  {mem mem' : Memory P} {flow : Flow P} {σ : Store P} {l : Label}

theorem Passes.of_does (h : Does cls is ⟨[], locals, mem⟩ ⟨[], locals', mem'⟩) :
    Passes cls exit? (asLines is) locals mem locals' mem' := by
  intro code pc callers _ seg _
  rw [List.length_map]
  exact h callers seg

/-- Instructions one after the other. -/
theorem Ends.of_does (inv : Matches ctx s floor σ locals' mem')
    (keeps : s ≠ .globals → Keeps ctx floor mem mem')
    (h : Does cls is ⟨[], locals, mem⟩ ⟨[], locals', mem'⟩) :
    Ends cls ctx s floor exit? (asLines is) locals mem .next σ :=
  ⟨locals', mem', inv, keeps, .of_does h⟩

/-- Lines that need no label behind them. -/
theorem Ends.anyExit (h : Ends cls ctx s floor none ls locals mem flow σ) :
    Ends cls ctx s floor exit? ls locals mem flow σ := by
  have noExit : ∀ {code pc}, ExitAt code none pc := by simp [ExitAt]
  cases flow with
  | next =>
    obtain ⟨locals', mem', inv, keeps, run⟩ := h
    exact ⟨locals', mem', inv, keeps, fun _ _ callers unique seg _ => run callers unique seg noExit⟩
  | returned results =>
    obtain ⟨mem', shared, keeps, delivers, run⟩ := h
    exact ⟨mem', shared, keeps, delivers, fun _ _ callers unique seg _ =>
      run callers unique seg noExit⟩

/-- A run within lines goes before the rest of them. -/
theorem Ends.prepend (offset : Nat) (keeps : s ≠ .globals → Keeps ctx floor mem mem')
    (run : ∀ ⦃code pc⦄ callers, LabelsUnique code → Seg code pc ls →
      ExitAt code exit? (pc + ls.length) →
      Reaches cls (Work.at ⟨[], locals, mem⟩ code pc callers)
        (Work.at ⟨[], locals', mem'⟩ code (pc + offset) callers))
    (within : ∀ ⦃code pc⦄, Seg code pc ls → Seg code (pc + offset) ms)
    (length : offset + ms.length = ls.length)
    (h : Ends cls ctx s floor exit? ms locals' mem' flow σ) :
    Ends cls ctx s floor exit? ls locals mem flow σ := by
  cases flow with
  | next =>
    obtain ⟨locals₂, mem₂, inv, keeps₂, rest⟩ := h
    refine ⟨locals₂, mem₂, inv, fun own => (keeps own).trans (keeps₂ own), ?_⟩
    intro code pc callers unique seg exitAt
    refine (run callers unique seg exitAt).trans ?_
    rw [← length, ← Nat.add_assoc] at exitAt ⊢
    exact rest callers unique (within seg) exitAt
  | returned results =>
    obtain ⟨mem₂, shared, keeps₂, delivers, rest⟩ := h
    -- Only functions return, and they keep the arrays of global variables.
    have own : s ≠ .globals := by
      obtain ⟨i, f, rfl, -⟩ := delivers
      simp
    refine ⟨mem₂, shared, (keeps own).trans keeps₂, delivers, ?_⟩
    intro code pc callers unique seg exitAt
    refine (run callers unique seg exitAt).trans ?_
    rw [← length, ← Nat.add_assoc] at exitAt
    exact rest callers unique (within seg) exitAt

/-- Lines one after the other. -/
theorem Ends.append (keeps : s ≠ .globals → Keeps ctx floor mem mem')
    (run : Passes cls none ls locals mem locals' mem')
    (h : Ends cls ctx s floor exit? ms locals' mem' flow σ) :
    Ends cls ctx s floor exit? (ls ++ ms) locals mem flow σ := by
  refine h.prepend ls.length keeps (fun code pc callers unique seg _ => ?_)
    (fun code pc seg => seg.right) List.length_append.symm
  exact run callers unique seg.left (by simp [ExitAt])

/-- A function that returns does not run the lines behind. -/
theorem Ends.append_of_returned {results : List (Value P)}
    (h : Ends cls ctx s floor none ls locals mem (.returned results) σ) (ms : List Line) :
    Ends cls ctx s floor exit? (ls ++ ms) locals mem (.returned results) σ := by
  obtain ⟨mem', shared, keeps, delivers, run⟩ := h
  exact ⟨mem', shared, keeps, delivers, fun _ _ callers unique seg _ =>
    run callers unique seg.left (by simp [ExitAt])⟩

/-- The label behind a chain of conditional statements, at the end of the first of them. -/
theorem Ends.close (h : Ends cls ctx s floor (some (exit?.getD l)) ls locals mem flow σ) :
    Ends cls ctx s floor exit?
      (ls ++ if exit?.isNone then [.label l] else []) locals mem flow σ := by
  cases exit? with
  | some l' => simpa using h
  | none =>
    have exitAt : ∀ {code pc}, Seg code pc (ls ++ [.label l]) →
        ExitAt code (some l) (pc + ls.length) := by
      intro code pc seg l' mem
      cases mem
      exact seg.right.line
    cases flow with
    | next =>
      obtain ⟨locals', mem', inv, keeps, run⟩ := h
      refine ⟨locals', mem', inv, keeps, fun code pc callers unique seg _ => ?_⟩
      refine (run callers unique seg.left (exitAt seg)).trans ?_
      rw [List.length_append, ← Nat.add_assoc]
      exact .label seg.right.line
    | returned results =>
      obtain ⟨mem', shared, keeps, delivers, run⟩ := h
      exact ⟨mem', shared, keeps, delivers, fun code pc callers unique seg _ =>
        run callers unique seg.left (exitAt seg)⟩

/-- A branch that is left with a jump behind the other one. -/
theorem Ends.skipOther (h : Ends cls ctx s floor none ls locals mem flow σ) (l' : Label)
    (others : List Line) :
    Ends cls ctx s floor (some l) (ls ++ [.instr (.goto l), .label l'] ++
      others) locals mem flow σ := by
  cases flow with
  | returned results =>
    rw [List.append_assoc]
    exact h.append_of_returned _
  | next =>
    obtain ⟨locals', mem', inv, keeps, run⟩ := h
    refine ⟨locals', mem', inv, keeps, fun code pc callers unique seg exitAt => ?_⟩
    have first := run callers unique seg.left.left (by simp [ExitAt])
    exact first.trans (.goto unique seg.left.right.line (exitAt l rfl))

end

/-! ### Statements without parts -/

section

variable {cls : ClassFile} {ctx : Context} {s : Scope} {floor : Nat} {exit? : Option Label}
  {call : Call P} {locals : Nat → Option (Datum P)} {mem : Memory P} {σ σ' : Store P} {w : World P}

theorem zeroInstr_effect (ty : Ty) (s : Work P) :
    (zeroInstr ty).effect cls s =
      some { s with stack := (Value.zero ty : Value P).datum :: s.stack } := by
  cases ty <;> rfl

/-- The declaration of an array makes a new one. -/
theorem Ends.declareArray (linked : Linked cls ctx) {v : VarRef} {x : Variable} {shape : ArrayShape}
    (own : v.scope = s) (entry : ctx.tables.var? v = some x) (array : x.array? = some shape)
    (short : shape.length < arrayLimit) (inv : Matches ctx s floor σ locals mem) :
    Ends cls ctx s floor exit?
      (asLines ([.ldc (.int shape.length), .newArray shape.element.arrayType] ++
        [ctx.storeInstr v x]))
      locals mem .next (σ.setCell v
        (.array (.replicate shape.length (.initial shape.element)))) := by
  let object : ArrayObject P :=
    ⟨shape.element.arrayType, .replicate shape.length shape.element.arrayType.initial⟩
  have makes : Does cls [.ldc (.int shape.length), .newArray shape.element.arrayType]
      ⟨[], locals, mem⟩ ⟨[.array mem.heap.length], locals, mem.allocate object⟩ := by
    refine .cons rfl (.effect ?_)
    simp only [Constant.datum, Instr.effect, toNat_ofInt short, if_pos short, object]
  have isRef := (linked.wf.var? entry).array_kind (P := P) array mem.heap.length
  have after := inv.declare linked.wf (.inr own) entry array short rfl
  refine .of_does after (fun notGlobal => ?_)
    (makes.append (.effect (storeInstr_effect linked entry isRef)))
  -- A variable of a function is no field, and the new array is above the floor.
  obtain ⟨slot, scope⟩ := v
  cases scope with
  | globals => exact absurd own.symm notGlobal
  | function i =>
    refine ⟨by simp [Context.putMemory, Memory.allocate], fun below _ => ?_, fun _ _ _ => rfl⟩
    exact List.getElem?_append_left (below.trans_le inv.room)

/-- A declaration gives a variable its zero value or a new array. -/
theorem Ends.declaration (linked : Linked cls ctx) {v : VarRef} {x : Variable} {c : Cell P}
    (own : v.scope = s) (entry : ctx.tables.var? v = some x) (declared : Cell.declared? x = some c)
    (inv : Matches ctx s floor σ locals mem) :
    Ends cls ctx s floor exit? (asLines (defaultCode x ++ [ctx.storeInstr v x])) locals mem .next
      (σ.setCell v c) := by
  unfold Cell.declared? at declared
  unfold defaultCode
  cases array : x.array? with
  | some shape =>
    simp only [array] at declared
    by_cases short : shape.length < arrayLimit
    · rw [if_pos short] at declared
      cases declared
      exact .declareArray linked own entry array short inv
    · rw [if_neg short] at declared
      cases declared
  | none =>
    simp only [array] at declared
    cases declared
    have scalar : x.ty.isScalar = true := by
      cases linked.wf.var? entry with
      | scalar scalar => exact scalar
      | array => cases array
    have stores := storeInstr_runs linked inv (.inr own) entry scalar (Value.hasTy_zero scalar)
    exact .of_does stores.inv (fun _ => stores.keeps)
      (.cons (zeroInstr_effect x.ty _) (stores.after []))

/-- An assignment computes a value, converts it and stores it. -/
theorem Ends.assign (linked : Linked cls ctx) {target value : Node} {before code after : List Instr}
    (place : PlaceCode ctx s target before after) (valueRuns : ValueRuns cls ctx s call value code)
    (takes : target.ty.Takes value.ty) {v u : Value P}
    (eval : evalValue ctx.tables call σ.locals value σ.world = some (v, w))
    (converted : v.convert value.ty target.ty = some u)
    (assigned : Store.assign ⟨σ.locals, w⟩ target u = some σ')
    (inv : Matches ctx s floor σ locals mem) :
    Ends cls ctx s floor exit?
      (asLines (before ++ code ++ convertCode value.ty target.ty ++
        after)) locals mem .next σ' := by
  obtain ⟨mem₁, inv₁, keeps₁, typed, does⟩ := valueRuns eval inv
  obtain ⟨typed', converts⟩ := typed.convert cls takes converted
  obtain ⟨locals', mem', address, stores⟩ := place.stores linked inv₁ typed' assigned
  have addressed := stores.before [] mem fun x found array => keeps₁.arrays x found array
  refine .of_does stores.inv (fun _ => (keeps₁.mono inv.room).trans stores.keeps) ?_
  exact ((addressed.append (does _)).append (converts _ _ _)).append (stores.after [])

/-- An assignment of the results of a call. -/
theorem Ends.assignResults (linked : Linked cls ctx) (calls : CallRuns cls ctx call) {i : Nat}
    {f : Function} {targets nodes : List Node} {code stores : List Instr}
    (callee : ctx.tables.functions.get? i = some f)
    (argsRun : ArgumentsRun cls ctx s call nodes f.params code)
    (results : ResultsCode ctx s f 0 targets f.returns stores) {args vs : List (Value P)}
    {w' : World P}
    (eval : evalArguments ctx.tables call σ.locals nodes f.params σ.world = some (args, w))
    (called : call i args w = some (vs, w'))
    (assigned : Store.assignResults ⟨σ.locals, w'⟩ targets f.returns vs = some σ')
    (inv : Matches ctx s floor σ locals mem) :
    Ends cls ctx s floor exit? (asLines (callCode ctx f code ++ stores)) locals mem .next σ' := by
  obtain ⟨mem₁, inv₁, keeps₁, typed, holds, does⟩ := argsRun.thenCall calls callee eval called inv
  have held : ∀ ⦃j v ty⦄, vs[j]? = some v → f.returns[0 + j]? = some ty →
      mem₁.statics (ctx.resultOf f (0 + j) ty).key = v.datum := by
    intro j v ty
    rw [Nat.zero_add]
    exact @holds j v ty
  obtain ⟨locals', mem', inv', keeps', stored⟩ :=
    results.runs linked (List.mem_of_getElem? callee) inv₁ typed held assigned
  exact .of_does inv' (fun _ => (keeps₁.mono inv.room).trans keeps') ((does []).append (stored []))

/-- A call whose results are not used. -/
theorem Ends.callOnly (calls : CallRuns cls ctx call) {i : Nat} {f : Function} {nodes : List Node}
    {code : List Instr} (callee : ctx.tables.functions.get? i = some f)
    (argsRun : ArgumentsRun cls ctx s call nodes f.params code) {args vs : List (Value P)}
    {w' : World P}
    (eval : evalArguments ctx.tables call σ.locals nodes f.params σ.world = some (args, w))
    (called : call i args w = some (vs, w')) (inv : Matches ctx s floor σ locals mem) :
    Ends cls ctx s floor exit? (asLines (callCode ctx f code)) locals mem .next ⟨σ.locals, w'⟩ := by
  obtain ⟨mem', inv', keeps, -, -, does⟩ := argsRun.thenCall calls callee eval called inv
  exact .of_does inv' (fun _ => keeps.mono inv.room) (does [])

/-- A return computes all results before it stores the first. -/
theorem Ends.ret (linked : Linked cls ctx) {i : Nat} {f : Function} {nodes : List Node}
    {code : List Instr} (own : s = .function i) (caller : ctx.tables.functions.get? i = some f)
    (valuesRun : ArgumentsRun cls ctx s call nodes f.returns code) {results : List (Value P)}
    (eval : evalArguments ctx.tables call σ.locals nodes f.returns σ.world = some (results, w))
    (inv : Matches ctx s floor σ locals mem) :
    Ends cls ctx s floor exit? (asLines (code ++ resultStores ctx f f.returns ++ [.ret])) locals mem
      (.returned results) ⟨σ.locals, w⟩ := by
  obtain ⟨mem₁, inv₁, keeps₁, typed, does⟩ := valuesRun eval inv
  have found := List.mem_of_getElem? caller
  obtain ⟨mem', only, holds, stored⟩ := resultStores_does typed.length_eq
    (fun _ _ returns => linked.results f found returns) mem₁
  obtain ⟨inv', keeps'⟩ := inv₁.of_resultsOnly linked only
  refine ⟨mem', inv'.shared, (keeps₁.mono inv.room).trans keeps',
    ⟨i, f, own, caller, typed, holds⟩, fun lines pc callers _ seg _ => ?_⟩
  rw [asLines, List.map_append] at seg
  have line := seg.right.line
  rw [List.length_map] at line
  exact (((does []).append (stored [] locals)) callers seg.left).trans (.ret line)

/-! ### Input and output -/

theorem Matches.setInput (inv : Matches ctx s floor σ locals mem) (input : P.Input) :
    Matches ctx s floor ⟨σ.locals, { σ.world with input }⟩ locals { mem with input } :=
  ⟨inv.shows, inv.apart, inv.above, inv.room, rfl, inv.output⟩

theorem Matches.print (inv : Matches ctx s floor σ locals mem) (v : Value P) :
    Matches ctx s floor ⟨σ.locals, { σ.world with output := v :: σ.world.output }⟩ locals
      (mem.print v) :=
  ⟨inv.shows, inv.apart, inv.above, inv.room, inv.input, congrArg (v :: ·) inv.output⟩

/-- A value that is read has the type that is wanted. -/
theorem Value.HasTy.of_read {ty : Ty} {v : Value P} {input input' : P.Input}
    (scanned : Value.read ty input = some (v, input')) : v.HasTy ty := by
  cases ty with
  | int | float | bool | string =>
    simp only [Value.read, Option.map_eq_some_iff, Prod.exists, Prod.mk.injEq] at scanned
    obtain ⟨_, _, _, rfl, rfl⟩ := scanned
    constructor
  | array | null | noType => cases scanned

/-- The code of a read pushes a value from the input. -/
theorem scanCode_does {ty : Ty} {method : MethodRef} (scans : Library.scan? ty = some method)
    {v : Value P} {input : P.Input} (scanned : Value.read ty mem.input = some (v, input))
    (stk : List (Datum P)) :
    Does cls (scanCode method) ⟨stk, locals, mem⟩ ⟨v.datum :: stk, locals, { mem with input }⟩ := by
  have called : libraryCall method (.object Library.scannerClass :: stk) mem =
      some (v.datum :: stk, { mem with input }) := by
    cases ty with
    | int | float | bool | string =>
      cases scans
      simp [libraryCall, Library.concat, Library.compareTo, Library.println, Library.scan?,
        Library.stringClass, Library.scannerClass, scanned]
    | array | null | noType => cases scans
  have constructed :
      Does cls [.newObject Library.scannerClass, .dup, .getStatic Library.standardInput,
      .invokeSpecial (Library.constructor Library.scannerClass [Library.standardInput.descriptor])]
        ⟨stk, locals, mem⟩ ⟨.object Library.scannerClass :: stk, locals, mem⟩ :=
    .cons rfl (.cons rfl (.cons rfl (.effect rfl)))
  refine constructed.append (.effect ?_)
  simp [Instr.effect, called]

/-- A read stores a value from the input. -/
theorem Ends.read (linked : Linked cls ctx) {target : Node} {before after : List Instr}
    {method : MethodRef} (place : PlaceCode ctx s target before after)
    (scans : Library.scan? target.ty = some method) {v : Value P} {input : P.Input}
    (scanned : Value.read target.ty σ.world.input = some (v, input))
    (assigned : Store.assign ⟨σ.locals, { σ.world with input }⟩ target v = some σ')
    (inv : Matches ctx s floor σ locals mem) :
    Ends cls ctx s floor exit?
      (asLines (before ++ scanCode method ++ after)) locals mem .next σ' := by
  rw [← inv.input] at scanned
  obtain ⟨locals', mem', address, stores⟩ :=
    place.stores linked (inv.setInput input) (.of_read scanned) assigned
  have addressed := stores.before [] mem fun _ _ _ => rfl
  refine .of_does stores.inv
    (fun _ => ⟨stores.keeps.grows, stores.keeps.heap, stores.keeps.arrays⟩) ?_
  exact (addressed.append (scanCode_does scans scanned _)).append (stores.after [])

/-- What is printed for a value of a type. -/
theorem libraryCall_println {ty : Ty} {v : Value P} (typed : v.HasTy ty)
    (printable : v.isPrintable = true) (mem : Memory P) :
    libraryCall (Library.println ty.descriptor) [v.datum, .object "java/io/PrintStream"] mem =
      some ([], mem.print v) := by
  cases typed with
  | @bool b => cases b <;> rfl
  | null => cases printable
  | _ => rfl

/-- A write prints a value. -/
theorem Ends.write {value : Node} {code : List Instr}
    (valueRuns : ValueRuns cls ctx s call value code) {v : Value P}
    (eval : evalValue ctx.tables call σ.locals value σ.world = some (v, w))
    (printable : v.isPrintable = true) (inv : Matches ctx s floor σ locals mem) :
    Ends cls ctx s floor exit?
      (asLines ([.getStatic Library.standardOutput] ++ code ++
        [.invokeVirtual (Library.println value.ty.descriptor)]))
      locals mem .next ⟨σ.locals, { w with output := v :: w.output }⟩ := by
  obtain ⟨mem', inv', keeps, typed, does⟩ := valueRuns eval inv
  have keeps' := keeps.mono inv.room
  have opened : Does cls [.getStatic Library.standardOutput] ⟨[], locals, mem⟩
      ⟨[.object "java/io/PrintStream"], locals, mem⟩ := .effect rfl
  refine .of_does (inv'.print v) (fun _ => ⟨keeps'.grows, keeps'.heap, keeps'.arrays⟩)
    ((opened.append (does _)).append (.effect ?_))
  simp [Instr.effect, libraryCall_println typed printable]

end

/-! ### Branches -/

section

variable {cls : ClassFile} {ctx : Context} {s : Scope} {floor : Nat} {exit? : Option Label}
  {call : Call P} {locals : Nat → Option (Datum P)} {mem : Memory P} {flow : Flow P}
  {σ σ' : Store P} {w : World P} {b : Bool} {condition : Node} {l l' : Label}
    {jump lines others : List Line}

/-- What a condition leaves for the branch that it chooses. -/
theorem ConditionRuns.branch {l : Label}
    (runs : ConditionRuns cls ctx s call ⟨false, l⟩ condition jump)
    (eval : evalCondition ctx.tables call σ.locals condition σ.world = some (b, w))
    (inv : Matches ctx s floor σ locals mem) :
    ∃ mem', Matches ctx s floor ⟨σ.locals, w⟩ locals mem' ∧ Keeps ctx floor mem mem' ∧
      ∀ ⦃code pc target⦄ callers, LabelsUnique code → Seg code pc jump →
        code[target]? = some (.label l) →
        Reaches cls (Work.at ⟨[], locals, mem⟩ code pc callers)
          (Work.at ⟨[], locals, mem'⟩ code (if b then pc + jump.length else target) callers) := by
  obtain ⟨mem', inv', keeps, jumps⟩ := runs eval inv
  refine ⟨mem', inv', keeps.mono inv.room, fun code pc target callers unique seg found => ?_⟩
  have jumped := jumps callers unique seg found
  cases b <;> exact jumped

/-- A conditional statement without an else part. -/
theorem Ends.cond (runs : ConditionRuns cls ctx s call ⟨false, l⟩ condition jump)
    (eval : evalCondition ctx.tables call σ.locals condition σ.world = some (b, w))
    (inv : Matches ctx s floor σ locals mem)
    (body : ∀ ⦃mem'⦄, b = true → Matches ctx s floor ⟨σ.locals, w⟩ locals mem' →
      Ends cls ctx s floor none lines locals mem' flow σ')
    (rest : b = false → flow = .next ∧ σ' = ⟨σ.locals, w⟩) :
    Ends cls ctx s floor (some l) (jump ++ lines) locals mem flow σ' := by
  obtain ⟨mem', inv', keeps, jumps⟩ := runs.branch eval inv
  cases b with
  | true =>
    refine (body rfl inv').anyExit.prepend jump.length (fun _ => keeps)
      (fun code pc callers unique seg exitAt => ?_)
        (fun _ _ seg => seg.right) List.length_append.symm
    exact jumps callers unique seg.left (exitAt l rfl)
  | false =>
    obtain ⟨rfl, rfl⟩ := rest rfl
    refine ⟨locals, mem', inv', fun _ => keeps, fun code pc callers unique seg exitAt => ?_⟩
    exact jumps callers unique seg.left (exitAt l rfl)

/-- A conditional statement with an else part. -/
theorem Ends.condElse (runs : ConditionRuns cls ctx s call ⟨false, l'⟩ condition jump)
    (eval : evalCondition ctx.tables call σ.locals condition σ.world = some (b, w))
    (inv : Matches ctx s floor σ locals mem)
    (body : ∀ ⦃mem'⦄, b = true → Matches ctx s floor ⟨σ.locals, w⟩ locals mem' →
      Ends cls ctx s floor none lines locals mem' flow σ')
    (otherwise : ∀ ⦃mem'⦄, b = false → Matches ctx s floor ⟨σ.locals, w⟩ locals mem' →
      Ends cls ctx s floor (some l) others locals mem' flow σ') :
    Ends cls ctx s floor (some l) (jump ++ lines ++ [.instr (.goto l), .label l'] ++
      others) locals mem flow σ' := by
  obtain ⟨mem', inv', keeps, jumps⟩ := runs.branch eval inv
  -- The label of the else part stands behind the jump at the end of the body.
  have elseAt :
      ∀ {code pc}, Seg code pc (jump ++ lines ++ [.instr (.goto l), .label l'] ++ others) →
        code[pc + (jump ++ lines).length + 1]? = some (.label l') := fun seg => by
    have behind : Seg _ _ ([.instr (.goto l)] ++ [.label l']) := seg.left.right
    exact behind.right.line
  cases b with
  | true =>
    refine ((body rfl inv').skipOther l' others).prepend jump.length (fun _ => keeps)
      (fun code pc callers unique seg _ => ?_) (fun code pc seg => ?_) ?_
    · exact jumps callers unique seg.left.left.left (elseAt seg)
    · rw [List.append_assoc, List.append_assoc, ← List.append_assoc lines] at seg
      exact seg.right
    · simp [Nat.add_assoc]
  | false =>
    refine (otherwise rfl inv').prepend ((jump ++ lines).length + 2) (fun _ => keeps)
      (fun code pc callers unique seg _ => ?_) (fun code pc seg => ?_) ?_
    · have jumped := jumps callers unique seg.left.left.left (elseAt seg)
      exact jumped.trans (.label (elseAt seg))
    · have right := seg.right
      rw [List.length_append] at right
      exact right
    · simp only [List.length_append, List.length_cons, List.length_nil]

/-- The lines of a loop. -/
def loopLines (top exit : Label) (jump lines : List Line) : List Line :=
  [.label top] ++ jump ++ lines ++ [.instr (.goto top), .label exit]

/-- Where the parts of a loop stand. -/
theorem Seg.loop {code : List Line} {pc : Nat} {top exit : Label}
    (seg : Seg code pc (loopLines top exit jump lines)) :
    code[pc]? = some (.label top) ∧ Seg code (pc + 1) jump ∧ Seg code (pc + 1 + jump.length) lines ∧
      code[pc + 1 + jump.length + lines.length]? = some (.instr (.goto top)) ∧
      code[pc + 1 + jump.length + lines.length + 1]? = some (.label exit) := by
  have body := seg.left.right
  rw [List.length_append, ← Nat.add_assoc] at body
  have back : Seg code _ ([.instr (.goto top)] ++ [.label exit]) := seg.right
  rw [List.length_append, List.length_append, ← Nat.add_assoc, ← Nat.add_assoc] at back
  exact ⟨seg.left.left.left.line, seg.left.left.right, body, back.left.line, back.right.line⟩

/-- One round of a loop: it ends, it returns, or all starts again. -/
theorem Ends.loop {top exit : Label}
    (runs : ConditionRuns cls ctx s call ⟨false, exit⟩ condition jump)
    (eval : evalCondition ctx.tables call σ.locals condition σ.world = some (b, w))
    (inv : Matches ctx s floor σ locals mem)
    (body : ∀ ⦃mem'⦄, b = true → Matches ctx s floor ⟨σ.locals, w⟩ locals mem' →
      (∃ results, flow = .returned results ∧
        Ends cls ctx s floor none lines locals mem' (.returned results) σ') ∨
      ∃ σ₁, Ends cls ctx s floor none lines locals mem' .next σ₁ ∧
        ∀ ⦃locals₁ mem₁⦄, Matches ctx s floor σ₁ locals₁ mem₁ →
          Ends cls ctx s floor exit? (loopLines top exit jump lines) locals₁ mem₁ flow σ')
    (rest : b = false → flow = .next ∧ σ' = ⟨σ.locals, w⟩) :
    Ends cls ctx s floor exit? (loopLines top exit jump lines) locals mem flow σ' := by
  obtain ⟨mem', inv', keeps, jumps⟩ := runs.branch eval inv
  have noExit : ∀ {code pc}, ExitAt code none pc := by simp [ExitAt]
  -- The label at the top is passed before the condition.
  have enters : ∀ ⦃code pc⦄ callers, LabelsUnique code →
      Seg code pc (loopLines top exit jump lines) →
        Reaches cls (Work.at ⟨[], locals, mem⟩ code pc callers)
          (Work.at ⟨[], locals, mem'⟩ code (if b then pc + 1 + jump.length
          else pc + 1 + jump.length + lines.length + 1) callers) := by
    intro code pc callers unique seg
    obtain ⟨topAt, jumpAt, -, -, exitAt⟩ := seg.loop
    exact (Reaches.label topAt).trans (jumps callers unique jumpAt exitAt)
  cases b with
  | false =>
    obtain ⟨rfl, rfl⟩ := rest rfl
    refine ⟨locals, mem', inv', fun _ => keeps, fun code pc callers unique seg _ => ?_⟩
    obtain ⟨-, -, -, -, exitAt⟩ := seg.loop
    have left := (enters callers unique seg).trans (.label exitAt)
    rw [show pc + (loopLines top exit jump lines).length = pc + 1 + jump.length +
      lines.length + 1 + 1 by
      simp only [loopLines, List.length_append, List.length_cons, List.length_nil]
      omega]
    exact left
  | true =>
    rcases body rfl inv' with ⟨results, rfl, returns⟩ | ⟨σ₁, first, again⟩
    · obtain ⟨mem₁, shared, keeps₁, delivers, leaves⟩ := returns
      refine ⟨mem₁, shared, keeps.trans keeps₁, delivers, fun code pc callers unique seg _ => ?_⟩
      obtain ⟨-, -, bodyAt, -, -⟩ := seg.loop
      exact (enters callers unique seg).trans (leaves callers unique bodyAt noExit)
    · -- The next round starts where this one did, so nothing is put behind it.
      obtain ⟨locals₁, mem₁, inv₁, keeps₁, passes⟩ := first
      refine (again inv₁).prepend 0 (fun own => keeps.trans (keeps₁ own))
        (fun code pc callers unique seg _ => ?_) (fun _ _ seg => seg) (Nat.zero_add _)
      obtain ⟨topAt, -, bodyAt, backAt, -⟩ := seg.loop
      have passed := (enters callers unique seg).trans (passes callers unique bodyAt noExit)
      exact passed.trans (.goto unique backAt topAt)

end

/-! ### All statements -/

/-- The results of the function of a scope have the given types. -/
def ReturnsIn (p : Program) (s : Scope) (returns : List Ty) : Prop :=
  ∀ i f, s = .function i → p.tables.functions.get? i = some f → returns = f.returns

/-- Calls and statements run as they mean, if they do so with some fuel. -/
structure Simulates (P : Platform) (cls : ClassFile) (p : Program) (options : Options)
    (fuel : Nat) :
    Prop where
  calls : ∀ frame, CallRuns cls (p.context options frame) (callFunction (P := P) p fuel)
  stmt : ∀ ⦃frame s returns exit? c n lines c' floor σ locals mem flow σ'⦄,
    StmtCode (p.context options frame) s exit? c n lines c' → ReturnsIn p s returns →
    execStmt (P := P) p returns fuel n σ = some (flow, σ') →
    Matches (p.context options frame) s floor σ locals mem →
    Ends cls (p.context options frame) s floor exit? lines locals mem flow σ'
  stmts : ∀ ⦃frame s returns c nodes lines c' floor σ locals mem flow σ'⦄,
    StmtsCode (p.context options frame) s c nodes lines c' → ReturnsIn p s returns →
    execStmts (P := P) p returns fuel nodes σ = some (flow, σ') →
    Matches (p.context options frame) s floor σ locals mem →
    Ends cls (p.context options frame) s floor none lines locals mem flow σ'

namespace Simulates

variable {cls : ClassFile} {p : Program} {options : Options} {fuel : Nat} {frame : Frame}
  {s : Scope}
  {returns : List Ty} {floor : Nat} {locals : Nat → Option (Datum P)} {mem : Memory P}
  {flow : Flow P} {σ σ' : Store P} {c c' : LabelCounters} {lines : List Line}

theorem kind_ne_varList {ctx : Context} {target : Node} {before after : List Instr}
    (h : PlaceCode ctx s target before after) : target.kind ≠ .varList := by
  cases h <;> simp

/-- A statement runs as it means if its parts do. -/
theorem stmt_succ (linked : ∀ frame, Linked cls (p.context options frame))
    (sim : Simulates P cls p options fuel) {exit? : Option Label} {n : Node}
    (h : StmtCode (p.context options frame) s exit? c n lines c') (results : ReturnsIn p s returns)
    (exec : execStmt p returns (fuel + 1) n σ = some (flow, σ'))
    (inv : Matches (p.context options frame) s floor σ locals mem) :
    Ends cls (p.context options frame) s floor exit? lines locals mem flow σ' := by
  have link := linked frame
  have calls := sim.calls frame
  cases h with
  | declaration own entry =>
    obtain ⟨x, cell, entry', declared, rfl, rfl⟩ := execStmt_declaration exec
    cases entry.symm.trans entry'
    exact .declaration link own entry declared inv
  | assign takes place valueCode =>
    obtain ⟨v, w, u, eval, converted, assigned, rfl⟩ := execStmt_assign (kind_ne_varList place) exec
    exact .assign link place (valueCode.runs link calls) takes eval converted assigned inv
  | assignResults callee _ argsCode resultsCode =>
    obtain ⟨f, args, w, vs, w', callee', eval, called, assigned, rfl⟩ := execStmt_assignResults exec
    cases callee.symm.trans callee'
    exact .assignResults link calls callee (argsCode.runs link calls) resultsCode eval
      called assigned inv
  | block body =>
    simp only [execStmt] at exec
    exact (sim.stmts body results exec inv).anyExit
  | cond conditionCode bodyCode =>
    obtain ⟨b, w, eval, rest⟩ := execStmt_cond exec
    refine .close (.cond (conditionCode.runs link calls) eval inv (fun mem' holds inv' => ?_)
      fun fails => ?_)
    · rw [holds, if_pos rfl] at rest
      exact sim.stmt (.block bodyCode) results rest inv'
    · rwa [fails] at rest
  | condElse conditionCode bodyCode otherwiseCode =>
    obtain ⟨b, w, eval, rest⟩ := execStmt_condElse exec
    refine .close (.condElse (conditionCode.runs link calls) eval inv (fun mem' holds inv' => ?_)
      fun mem' fails inv' => ?_)
    · rw [holds, if_pos rfl] at rest
      exact sim.stmt (.block bodyCode) results rest inv'
    · rw [fails, if_neg (by simp)] at rest
      exact sim.stmt otherwiseCode results rest inv'
  | loop conditionCode bodyCode =>
    obtain ⟨b, w, eval, rest⟩ := execStmt_loop exec
    refine .loop (conditionCode.runs link calls) eval inv (fun mem' holds inv' => ?_)
      fun fails => ?_
    · rw [holds, if_pos rfl] at rest
      rcases rest with ⟨σ₁, first, again⟩ | ⟨vs, first, rfl⟩
      · refine .inr ⟨σ₁, sim.stmt (.block bodyCode) results first inv', fun locals₁ mem₁ inv₁ => ?_⟩
        exact sim.stmt (.loop conditionCode bodyCode) results again inv₁
      · exact .inl ⟨vs, rfl, sim.stmt (.block bodyCode) results first inv'⟩
    · rwa [fails] at rest
  | call callee _ argsCode =>
    obtain ⟨f, args, w, vs, w', callee', eval, called, rfl, rfl⟩ := execStmt_call exec
    cases callee.symm.trans callee'
    exact .callOnly calls callee (argsCode.runs link calls) eval called inv
  | ret own caller valuesCode =>
    obtain ⟨vs, w, eval, rfl, rfl⟩ := execStmt_ret exec
    obtain rfl := results _ _ own caller
    exact .ret link own caller (valuesCode.runs link calls) eval inv
  | read _ place scans =>
    obtain ⟨v, input, scanned, assigned, rfl⟩ := execStmt_read exec
    exact .read link place scans scanned assigned inv
  | write _ valueCode =>
    obtain ⟨v, w, eval, printable, rfl, rfl⟩ := execStmt_write exec
    exact .write (valueCode.runs link calls) eval printable inv

/-- Statements run one after the other if each of them runs as it means. -/
theorem stmts_succ (sim : Simulates P cls p options fuel) {nodes : List Node}
    (h : StmtsCode (p.context options frame) s c nodes lines c') (results : ReturnsIn p s returns)
    (exec : execStmts p returns (fuel + 1) nodes σ = some (flow, σ'))
    (inv : Matches (p.context options frame) s floor σ locals mem) :
    Ends cls (p.context options frame) s floor none lines locals mem flow σ' := by
  cases h with
  | nil =>
    simp only [execStmts, Option.some.injEq, Prod.mk.injEq] at exec
    obtain ⟨rfl, rfl⟩ := exec
    exact .of_does inv (fun _ => .refl) .nil
  | cons first others =>
    rcases execStmts_cons exec with ⟨σ₁, firstExec, restExec⟩ | ⟨vs, firstExec, rfl⟩
    · obtain ⟨locals₁, mem₁, inv₁, keeps, passes⟩ := sim.stmt first results firstExec inv
      exact .append keeps passes (sim.stmts others results restExec inv₁)
    · exact (sim.stmt first results firstExec inv).append_of_returned _

end Simulates

end MiniGo
