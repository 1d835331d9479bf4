import Mathlib.Data.List.Forall2
import MiniGo.Proofs.Simulation.Store

/-!
# The code of values

The code of a value leaves the datum of the value on the stack. What calls do is a hypothesis here.

* `Linked`: the class has the fields that its code refers to.
* `CallRuns`: calls do what they mean, and leave their results in fields.
* `ValueCode.runs`, `ArgumentsCode.runs`: the code of values and of arguments.
-/

namespace MiniGo

variable {P : Platform}

/-! ### The class -/

/-- The class has the fields that code refers to, and no global variable is named like the field of
a result. -/
structure Linked (cls : ClassFile) (ctx : Context) : Prop where
  wf : ctx.tables.WellFormed
  plain : ∀ x ∈ ctx.tables.globals.entries, '$' ∉ x.name.toList
  fields : ∀ x ∈ ctx.tables.globals.entries, cls.hasField (ctx.fieldOf x) = true
  results : ∀ f ∈ ctx.tables.functions.entries, ∀ {i ty}, f.returns[i]? = some ty →
    cls.hasField (ctx.resultOf f i ty) = true

/-- A field of the class does not hold an object of the library. -/
theorem Library.object?_eq_none {f : FieldRef} (h : ∀ className, f.descriptor = .object className →
    className = Library.stringClass) : Library.object? f = none := by
  unfold Library.object?
  split
  · rename_i same
    have impossible := h "java/io/PrintStream" (by rw [same]; rfl)
    simp [Library.stringClass] at impossible
  · split
    · rename_i same
      have impossible := h "java/io/InputStream" (by rw [same]; rfl)
      simp [Library.stringClass] at impossible
    · rfl

theorem Ty.descriptor_eq_object {ty : Ty} (h : ty.isScalar = true) :
    ∀ className, ty.descriptor = .object className → className = Library.stringClass := by
  intro className same
  cases ty with
  | string =>
    cases same
    rfl
  | bool | int | float => cases same
  | array | null | noType => cases h

theorem Variable.WellFormed.descriptor_eq_object {x : Variable} (wf : x.WellFormed) :
    ∀ className, x.descriptor = .object className → className = Library.stringClass := by
  cases wf with
  | scalar scalar => exact Ty.descriptor_eq_object scalar
  | array => simp [Variable.descriptor]

section

variable {cls : ClassFile} {ctx : Context} {s : Scope} {v : VarRef} {x : Variable} {d : Datum P}
  {stk : List (Datum P)} {locals : Nat → Option (Datum P)} {mem : Memory P}

/-! ### Loads and stores -/

theorem getStatic_effect {f : FieldRef} (field : cls.hasField f = true)
    (own : ∀ className, f.descriptor = .object className → className = Library.stringClass) :
    (Instr.getStatic f).effect cls ⟨stk, locals, mem⟩ =
      some ⟨mem.statics f.key :: stk, locals, mem⟩ := by
  simp [Instr.effect, Library.object?_eq_none own, field]

theorem loadInstr_effect (linked : Linked cls ctx) (entry : ctx.tables.var? v = some x)
    (place : ctx.place mem locals v x = some d) (kind : d.kind = x.ty.valueKind) :
    (ctx.loadInstr v x).effect cls ⟨stk, locals, mem⟩ = some ⟨d :: stk, locals, mem⟩ := by
  obtain ⟨slot, scope⟩ := v
  cases scope with
  | globals =>
    have found := mem_globals_of_var? rfl entry
    obtain rfl : mem.statics (ctx.fieldOf x).key = d := Option.some.inj place
    exact getStatic_effect (linked.fields x found) (linked.wf.var? entry).descriptor_eq_object
  | function i =>
    have loaded : locals (ctx.frame.slot slot) = some d := place
    simp [Context.loadInstr, Instr.effect, loaded, kind]

theorem storeInstr_effect (linked : Linked cls ctx) (entry : ctx.tables.var? v = some x)
    (kind : d.kind = x.ty.valueKind) :
    (ctx.storeInstr v x).effect cls ⟨d :: stk, locals, mem⟩ =
      some ⟨stk, ctx.putLocals locals v d, ctx.putMemory mem v x d⟩ := by
  obtain ⟨slot, scope⟩ := v
  cases scope with
  | globals =>
    have found := mem_globals_of_var? rfl entry
    simp [Context.storeInstr, Instr.effect, linked.fields x found, Context.putLocals,
      Context.putMemory]
  | function i =>
    simp [Context.storeInstr, Instr.effect, kind, Context.putLocals, Context.putMemory]

/-- An index below the greatest length of an array. -/
theorem toNat_ofInt {k : Nat} (h : k < arrayLimit) : (BitVec.ofInt 32 k).toNat = k := by
  have limit : arrayLimit = 2147483648 := rfl
  rw [BitVec.ofInt_natCast, BitVec.toNat_ofNat]
  omega

/-- An array is kept as a reference. -/
theorem Variable.WellFormed.array_kind {x : Variable} {shape : ArrayShape} (wf : x.WellFormed)
    (array : x.array? = some shape) (a : Nat) :
    (Datum.array a : Datum P).kind = x.ty.valueKind := by
  rw [(wf.of_array array).1]
  rfl

/-- The address of an element is that of the array and the index. -/
theorem addressCode_does (linked : Linked cls ctx) (entry : ctx.tables.var? v = some x)
    {shape : ArrayShape} (array : x.array? = some shape) {a k : Nat}
    (place : ctx.place mem locals v x = some (.array a)) :
    Does cls (ctx.addressCode v x k) ⟨stk, locals, mem⟩
      ⟨.int (.ofInt 32 k) :: .array a :: stk, locals, mem⟩ := by
  exact .cons (loadInstr_effect linked entry place ((linked.wf.var? entry).array_kind array a))
    (.effect rfl)

theorem elementKind_arrayType (ty : Ty) : ty.arrayType.elementKind = ty.elementKind := by
  cases ty <;> rfl

end

/-! ### Conversions -/

/-- A converted value has the type that is wanted, and the code of the conversion makes it. -/
theorem Value.HasTy.convert (cls : ClassFile) {v v' : Value P} {value wanted : Ty}
    (typed : v.HasTy value) (takes : wanted.Takes value) (h : v.convert value wanted = some v') :
    v'.HasTy wanted ∧ ∀ stk locals mem, Does cls (convertCode value wanted)
      ⟨v.datum :: stk, locals, mem⟩ ⟨v'.datum :: stk, locals, mem⟩ := by
  unfold Value.convert at h
  unfold convertCode
  split at h
  · rename_i widens
    obtain ⟨rfl, rfl⟩ := widens
    cases typed
    cases h
    exact ⟨.float, fun _ _ _ => .effect rfl⟩
  · rename_i same
    cases h
    refine ⟨?_, fun _ _ _ => ?_⟩
    · rcases takes with rfl | ⟨rfl, rfl⟩
      · exact typed
      · exact absurd ⟨rfl, rfl⟩ same
    · rw [if_neg same]
      exact .nil

/-! ### Calls -/

/-- The data that are passed to a function. The entry point takes an array of arguments. -/
def Function.argumentData (f : Function) (args : List (Value P)) : List (Datum P) :=
  (if f.isEntryPoint then [.null] else []) ++ args.map Value.datum

/-- The results of a function are in their fields. -/
def HoldsResults (ctx : Context) (f : Function) (results : List (Value P)) (mem : Memory P) :
    Prop :=
  ∀ ⦃j v ty⦄, results[j]? = some v → f.returns[j]? = some ty →
    mem.statics (ctx.resultOf f j ty).key = v.datum

/-- Calls do what they mean. They take their arguments from the stack and leave results in
fields. -/
def CallRuns (cls : ClassFile) (ctx : Context) (call : Call P) : Prop :=
  ∀ ⦃i f args w results w' mem⦄, ctx.tables.functions.get? i = some f →
    List.Forall₂ Value.HasTy args f.params → call i args w = some (results, w') → Shared ctx w mem →
    ∃ mem', Shared ctx w' mem' ∧ Keeps ctx mem.heap.length mem mem' ∧
      List.Forall₂ Value.HasTy results f.returns ∧ HoldsResults ctx f results mem' ∧
      ∀ stk locals, Does cls [.invokeStatic ⟨ctx.options.className, f.signature⟩]
        ⟨(f.argumentData args).reverse ++ stk, locals, mem⟩ ⟨stk, locals, mem'⟩

/-! ### Values and arguments -/

/-- Instructions push the value of a node. -/
def ValueRuns (cls : ClassFile) (ctx : Context) (s : Scope) (call : Call P) (n : Node)
    (code : List Instr) : Prop :=
  ∀ ⦃floor σ locals mem v w⦄, evalValue ctx.tables call σ.locals n σ.world = some (v, w) →
    Matches ctx s floor σ locals mem →
    ∃ mem', Matches ctx s floor ⟨σ.locals, w⟩ locals mem' ∧ Keeps ctx mem.heap.length mem mem' ∧
      v.HasTy n.ty ∧ ∀ stk, Does cls code ⟨stk, locals, mem⟩ ⟨v.datum :: stk, locals, mem'⟩

/-- Instructions push the values of nodes, each converted to a type. -/
def ArgumentsRun (cls : ClassFile) (ctx : Context) (s : Scope) (call : Call P) (ns : List Node)
    (tys : List Ty) (code : List Instr) : Prop :=
  ∀ ⦃floor σ locals mem vs w⦄, evalArguments ctx.tables call σ.locals ns tys σ.world =
    some (vs, w) → Matches ctx s floor σ locals mem →
    ∃ mem', Matches ctx s floor ⟨σ.locals, w⟩ locals mem' ∧ Keeps ctx mem.heap.length mem mem' ∧
      List.Forall₂ Value.HasTy vs tys ∧
      ∀ stk, Does cls code ⟨stk, locals, mem⟩ ⟨(vs.map Value.datum).reverse ++ stk, locals, mem'⟩

section

variable {cls : ClassFile} {ctx : Context} {s : Scope} {call : Call P} {ty : Ty} {tys : List Ty}
  {n left right : Node} {ns : List Node} {code rest l r : List Instr}

theorem ArgumentsRun.nil : ArgumentsRun cls ctx s call [] [] [] := by
  intro floor σ locals mem vs w eval inv
  obtain ⟨rfl, rfl⟩ := evalArguments_nil eval
  exact ⟨mem, inv, .refl, .nil, fun _ => .nil⟩

theorem ArgumentsRun.cons (first : ValueRuns cls ctx s call n code) (takes : ty.Takes n.ty)
    (others : ArgumentsRun cls ctx s call ns tys rest) :
    ArgumentsRun cls ctx s call (n :: ns) (ty :: tys) (code ++ convertCode n.ty ty ++ rest) := by
  intro floor σ locals mem vs w eval inv
  obtain ⟨v, w₁, u, us, evalFirst, converted, evalOthers, rfl⟩ := evalArguments_cons eval
  obtain ⟨mem₁, inv₁, keeps₁, typed, does⟩ := first evalFirst inv
  obtain ⟨typed', converts⟩ := typed.convert cls takes converted
  obtain ⟨mem₂, inv₂, keeps₂, typedOthers, doesOthers⟩ := others evalOthers inv₁
  refine ⟨mem₂, inv₂, keeps₁.append keeps₂, .cons typed' typedOthers, fun stk => ?_⟩
  have all := ((does stk).append (converts stk locals mem₁)).append (doesOthers (u.datum :: stk))
  simpa using all

/-- The operands of an operation. -/
theorem ArgumentsRun.pair (leftRuns : ValueRuns cls ctx s call left l)
    (takesLeft : ty.Takes left.ty) (rightRuns : ValueRuns cls ctx s call right r)
    (takesRight : ty.Takes right.ty) :
    ArgumentsRun cls ctx s call [left, right] [ty, ty]
      (l ++ convertCode left.ty ty ++ r ++ convertCode right.ty ty) := by
  have both := ArgumentsRun.cons leftRuns takesLeft (.cons rightRuns takesRight .nil)
  simpa using both

/-! ### Single kinds of values -/

/-- A constant. -/
theorem ValueRuns.constant {i : Instr} {v : Value P} (typed : v.HasTy n.ty)
    (value : ∀ locals w, evalValue ctx.tables call locals n w = some (v, w))
    (push : ∀ stk locals mem, i.effect cls ⟨stk, locals, mem⟩ =
      some ⟨v.datum :: stk, locals, mem⟩) :
    ValueRuns cls ctx s call n [i] := by
  intro floor σ locals mem v' w eval inv
  rw [value] at eval
  cases eval
  exact ⟨mem, inv, .refl, typed, fun stk => .effect (push stk locals mem)⟩

theorem ValueRuns.int {i : Int} (number : ty.isNumeric = true) :
    ValueRuns cls ctx s call (.mk (.intVal i) ty []) [.ldc (Emission.intConstant i ty)] := by
  refine .constant (v := .literal i ty) ?_ (fun _ _ => rfl) (fun _ _ _ => ?_)
  · cases ty with
    | int => exact .int
    | float => exact .float
    | _ => cases number
  · simp only [Instr.effect, Emission.intConstant, Value.literal]
    split <;> rfl

theorem ValueRuns.name (linked : Linked cls ctx) {v : VarRef} {x : Variable} (sees : s.Sees v)
    (entry : ctx.tables.var? v = some x) :
    ValueRuns cls ctx s call (.mk (.varUse v) x.ty []) [ctx.loadInstr v x] := by
  intro floor σ locals mem u w eval inv
  simp only [evalValue, Option.map_eq_some_iff, Prod.mk.injEq] at eval
  obtain ⟨u, value, rfl, rfl⟩ := eval
  have shown := inv.shows sees entry
  have cell : σ.cell v = .scalar u := by
    unfold Store.cell
    revert value
    cases σ.world.cell σ.locals v <;> simp [Cell.value?]
  rw [cell] at shown
  generalize place : ctx.place mem locals v x = d at shown
  cases shown with
  | scalar plain typed =>
    exact ⟨mem, inv, .refl, typed, fun stk =>
      .effect (loadInstr_effect linked entry place typed.kind_datum)⟩

/-- What is known where an element of an array has a value. -/
theorem Matches.element {floor : Nat} {σ : Store P} {locals : Nat → Option (Datum P)}
    {mem : Memory P} (inv : Matches ctx s floor σ locals mem) {v : VarRef} {x : Variable}
    {shape : ArrayShape} (sees : s.Sees v) (entry : ctx.tables.var? v = some x)
    (array : x.array? = some shape) {vs : List (Value P)} (cell : σ.cell v = .array vs) :
    ∃ a, ctx.place mem locals v x = some (.array a) ∧ vs.length = shape.length ∧
      shape.length < arrayLimit ∧ (∀ u ∈ vs, u.HasTy shape.element) ∧
      mem.heap[a]? = some ⟨shape.element.arrayType, vs.map Value.datum⟩ := by
  have shown := inv.shows sees entry
  rw [cell] at shown
  generalize place : ctx.place mem locals v x = d at shown
  cases shown with
  | array array' length short typed object =>
    rw [array] at array'
    cases array'
    exact ⟨_, rfl, length, short, typed, object⟩

theorem ValueRuns.element (linked : Linked cls ctx) {v : VarRef} {x : Variable} {shape : ArrayShape}
    {k : Nat} (sees : s.Sees v) (entry : ctx.tables.var? v = some x) (array : x.array? = some shape)
    (bound : k < shape.length) :
    ValueRuns cls ctx s call (.mk (.arrayUse v k) shape.element [])
      (ctx.addressCode v x k ++ [.elementLoad shape.element.elementKind]) := by
  intro floor σ locals mem u w eval inv
  simp only [evalValue, Option.map_eq_some_iff, Prod.mk.injEq] at eval
  obtain ⟨u, value, rfl, rfl⟩ := eval
  obtain ⟨vs, cell, found⟩ : ∃ vs, σ.cell v = .array vs ∧ vs[k]? = some u := by
    unfold Store.cell
    revert value
    cases σ.world.cell σ.locals v <;> simp [Cell.element?]
  obtain ⟨a, place, length, short, typed, object⟩ := inv.element sees entry array cell
  refine ⟨mem, inv, .refl, typed u (List.mem_of_getElem? found), fun stk => ?_⟩
  refine (addressCode_does linked entry array place).append (.effect ?_)
  simp only [Instr.effect, toNat_ofInt (bound.trans short), object, Option.bind_eq_bind,
    Option.bind_some, List.getElem?_map, found, Option.map_some, elementKind_arrayType, if_true]

theorem ValueRuns.arithmetic {o : BinaryOp} {op : ArithOp} (family : o.arith? = some op)
    (number : ty.isNumeric = true) (operands : ArgumentsRun cls ctx s call ns [ty, ty] code) :
    ValueRuns cls ctx s call (.mk (.op o) ty ns) (code ++ [.arith ty.valueKind op]) := by
  intro floor σ locals mem v w eval inv
  obtain ⟨op', l, r, family', evalOperands, computed⟩ := evalValue_op eval
  rw [family] at family'
  cases family'
  obtain ⟨mem', inv', keeps, typed, does⟩ := operands evalOperands inv
  have result : v.HasTy ty ∧ Datum.arith ty.valueKind op l.datum r.datum = some v.datum := by
    cases ty with
    | int =>
      cases typed with
      | cons typedL typed =>
        cases typed with
        | cons typedR =>
          cases typedL
          cases typedR
          simp only [Value.arith, Option.map_eq_some_iff] at computed
          obtain ⟨i, computed, rfl⟩ := computed
          exact ⟨.int, by simp [Datum.arith, Value.datum, Ty.valueKind, computed]⟩
    | float =>
      cases typed with
      | cons typedL typed =>
        cases typed with
        | cons typedR =>
          cases typedL
          cases typedR
          cases computed
          exact ⟨.float, rfl⟩
    | _ => cases number
  refine ⟨mem', inv', keeps, result.1, fun stk => (does stk).append (.effect ?_)⟩
  simp [Instr.effect, result.2]

theorem ValueRuns.concat (operands : ArgumentsRun cls ctx s call ns [.string, .string] code) :
    ValueRuns cls ctx s call (.mk (.op .add) .string ns)
      (code ++ [.invokeVirtual Library.concat]) := by
  intro floor σ locals mem v w eval inv
  obtain ⟨op, l, r, family, evalOperands, computed⟩ := evalValue_op eval
  cases family
  obtain ⟨mem', inv', keeps, -, does⟩ := operands evalOperands inv
  -- Neither operand is null, since strings are joined.
  cases l <;> cases r <;> simp only [Value.arith, reduceCtorEq] at computed
  cases computed
  refine ⟨mem', inv', keeps, .text, fun stk => (does stk).append (.effect ?_)⟩
  simp [Instr.effect, libraryCall, Value.datum]

/-- A call up to its end, with the results in their fields. -/
theorem ArgumentsRun.thenCall (calls : CallRuns cls ctx call) {i : Nat} {f : Function}
    (callee : ctx.tables.functions.get? i = some f)
    (argsRun : ArgumentsRun cls ctx s call ns f.params code) {floor : Nat} {σ : Store P}
    {locals : Nat → Option (Datum P)} {mem : Memory P} {args results : List (Value P)}
    {w w' : World P}
    (eval : evalArguments ctx.tables call σ.locals ns f.params σ.world = some (args, w))
    (called : call i args w = some (results, w')) (inv : Matches ctx s floor σ locals mem) :
    ∃ mem', Matches ctx s floor ⟨σ.locals, w'⟩ locals mem' ∧ Keeps ctx mem.heap.length mem mem' ∧
      List.Forall₂ Value.HasTy results f.returns ∧ HoldsResults ctx f results mem' ∧
      ∀ stk, Does cls (callCode ctx f code) ⟨stk, locals, mem⟩ ⟨stk, locals, mem'⟩ := by
  obtain ⟨mem₁, inv₁, keeps₁, typed, does⟩ := argsRun eval inv
  obtain ⟨mem₂, shared, keeps₂, typedResults, holds, invoked⟩ :=
    calls callee typed called inv₁.shared
  refine ⟨mem₂, inv₁.resume shared keeps₂, keeps₁.append keeps₂, typedResults, holds, fun stk => ?_⟩
  unfold callCode
  by_cases entry : f.isEntryPoint = true
  · have first : Does cls [.nullConst] ⟨stk, locals, mem⟩ ⟨.null :: stk, locals, mem⟩ := .effect rfl
    have last := invoked stk locals
    simp only [Function.argumentData, entry, if_true, List.reverse_append,
      List.append_assoc] at last
    rw [if_pos entry]
    exact (first.append (does _)).append last
  · have last := invoked stk locals
    simp only [Function.argumentData, entry] at last
    rw [if_neg entry]
    exact (does stk).append last

theorem ValueRuns.ofCall (linked : Linked cls ctx) (calls : CallRuns cls ctx call) {i : Nat}
    {f : Function} (callee : ctx.tables.functions.get? i = some f) (result : f.returns = [ty])
    (argsRun : ArgumentsRun cls ctx s call ns f.params code) :
    ValueRuns cls ctx s call (.mk (.call i) ty ns)
      (callCode ctx f code ++ [.getStatic (ctx.resultOf f 0 ty)]) := by
  intro floor σ locals mem v w eval inv
  obtain ⟨f', args, w₁, callee', evalArgs, called⟩ := evalValue_call eval
  rw [callee] at callee'
  cases callee'
  obtain ⟨mem', inv', keeps, typed, holds, does⟩ :=
    argsRun.thenCall calls callee evalArgs called inv
  have returns : f.returns[0]? = some ty := by rw [result]; rfl
  have found := List.mem_of_getElem? callee
  have scalar := (linked.wf.functions f found).returns ty (by rw [result]; simp)
  rw [result] at typed
  cases typed with
  | cons typed _ =>
    refine ⟨mem', inv', keeps, typed, fun stk => (does stk).append (.effect ?_)⟩
    rw [getStatic_effect (linked.results f found returns) (Ty.descriptor_eq_object scalar),
      holds rfl returns]

end

section

variable {cls : ClassFile} {ctx : Context} {s : Scope} {call : Call P}

mutual

/-- The code of a value pushes the value. -/
theorem ValueCode.runs (linked : Linked cls ctx) (calls : CallRuns cls ctx call) {n : Node}
    {code : List Instr} : ValueCode ctx s n code → ValueRuns cls ctx s call n code
  | .int _ number => .int number
  | .float => .constant .float (fun _ _ => rfl) (fun _ _ _ => rfl)
  | .bool => .constant .bool (fun _ _ => rfl) (fun _ _ _ => rfl)
  | .string => .constant .text (fun _ _ => rfl) (fun _ _ _ => rfl)
  | .name sees entry _ => .name linked sees entry
  | .element sees entry array bound => .element linked sees entry array bound
  | .arithmetic family number takesLeft takesRight leftCode rightCode =>
    .arithmetic family number
      (.pair (leftCode.runs linked calls) takesLeft (rightCode.runs linked calls) takesRight)
  | .concat leftString rightString leftCode rightCode => by
    have operands := ArgumentsRun.pair (leftCode.runs linked calls) (.inl leftString)
      (rightCode.runs linked calls) (.inl rightString)
    rw [leftString, rightString] at operands
    exact .concat (by simpa [convertCode] using operands)
  | .call callee result _ argsCode =>
    .ofCall linked calls callee result (argsCode.runs linked calls)

/-- The code of arguments pushes their values in order. -/
theorem ArgumentsCode.runs (linked : Linked cls ctx) (calls : CallRuns cls ctx call)
    {args : List Node} {tys : List Ty} {code : List Instr} :
    ArgumentsCode ctx s args tys code → ArgumentsRun cls ctx s call args tys code
  | .nil => .nil
  | .cons takes first others => .cons (first.runs linked calls) takes (others.runs linked calls)

end

end

end MiniGo
