import Mathlib.Data.List.Induction
import MiniGo.Proofs.Shapes.Basic

/-!
# Shapes along the code of nodes

The code of a value pushes one value of the kind of its type and leaves the rest of the stack alone.
The code of a condition and of a statement starts and ends with an empty stack. The lemmas follow
the relations between nodes and code; the main ones are `ValueCode.flows`, `ConditionCode.flows` and
`StmtCode.flows`.
-/

namespace MiniGo

/-! ### Kinds of types -/

/-- The kind of a value of a type. -/
def Ty.kind : Ty → StackKind
  | .bool | .int => .int
  | .float => .float
  | .string => .string
  | .array | .null | .noType => .null

namespace Ty

variable {ty : Ty}

theorem kind?_descriptor (h : ty.isScalar = true) : ty.descriptor.kind? = some ty.kind := by
  cases ty <;> first | rfl | cases h

theorem elementKind?_descriptor (h : ty.isScalar = true) :
    ty.descriptor.elementKind? = some ty.elementKind := by
  cases ty <;> first | rfl | cases h

theorem descriptor_arrayType (h : ty.isScalar = true) :
    ty.arrayType.descriptor = ty.descriptor := by
  cases ty <;> first | rfl | cases h

theorem valueKind_kind (ty : Ty) : ty.kind.valueKind = ty.valueKind := by
  cases ty <;> rfl

theorem accepts_descriptor (h : ty.isScalar = true) : ty.descriptor.accepts ty.kind = true := by
  simp [Descriptor.accepts, kind?_descriptor h]

end Ty

theorem Variable.kind?_of_scalar {x : Variable} (wf : x.WellFormed)
    (scalar : x.ty.isScalar = true) :
    x.descriptor.kind? = some x.ty.kind := by
  rw [Variable.descriptor, wf.array?_eq_none scalar]
  exact Ty.kind?_descriptor scalar

theorem Variable.kind?_of_array {x : Variable} {shape : ArrayShape}
    (array : x.array? = some shape) :
    x.descriptor.kind? = some (.array shape.element.descriptor) := by
  rw [Variable.descriptor, array]
  rfl

/-! ### Fields and methods of the class -/

section

variable {env : MethodEnv} {shape shape' : Shape} {k : StackKind}

theorem getStatic_flows {f : FieldRef} (field : env.cls.hasField f = true)
    (hk : f.descriptor.kind? = some k) : Flows env (asLines [.getStatic f]) shape (k :: shape) := by
  refine .instr ?_
  rw [Instr.after, if_pos (.inr field), pushResult, hk]
  rfl

theorem putStatic_flows {f : FieldRef} (field : env.cls.hasField f = true)
    (hk : f.descriptor.kind? = some k) : Flows env (asLines [.putStatic f]) (k :: shape) shape := by
  refine .instr ?_
  rw [Instr.after, if_pos ⟨field, hk⟩]

theorem invokeStatic_flows {m : MethodRef} (method : (env.cls.method? m).isSome = true)
    (void : m.signature.type.result = .void)
    (pop : popArguments m.signature.type.params.reverse shape = some shape') :
    Flows env (asLines [.invokeStatic m]) shape shape' := by
  refine .instr ?_
  rw [Instr.after, if_pos method, pop, void]
  rfl

end

/-! ### What the code refers to -/

/-- The class has what the code of a scope refers to, and the local slots hold the variables of the
scope. -/
structure MethodEnv.Knows (env : MethodEnv) (ctx : Context) (s : Scope) : Prop where
  globals : ∀ x ∈ ctx.tables.globals.entries, env.cls.hasField (ctx.fieldOf x) = true
  results : ∀ f ∈ ctx.tables.functions.entries, ∀ i ty, f.returns[i]? = some ty →
    env.cls.hasField (ctx.resultOf f i ty) = true
  methods : ∀ f ∈ ctx.tables.functions.entries,
    (env.cls.method? ⟨ctx.options.className, f.signature⟩).isSome = true
  locals : ∀ i v x, s = .function i → v.scope = s → ctx.tables.var? v = some x →
    env.locals (ctx.frame.slot v.slot) = x.descriptor.kind?

section

variable {env : MethodEnv} {ctx : Context} {s : Scope} {v : VarRef} {x : Variable} {k : StackKind}
  {shape : Shape} {ty : Ty}

theorem hasField_of_entry (knows : env.Knows ctx s) (globals : v.scope = .globals)
    (entry : ctx.tables.var? v = some x) : env.cls.hasField (ctx.fieldOf x) = true := by
  obtain ⟨slot, scope⟩ := v
  obtain rfl : scope = .globals := globals
  exact knows.globals x (List.mem_of_getElem? entry)

/-! ### Variables -/

theorem load_flows (knows : env.Knows ctx s) (sees : s.Sees v) (entry : ctx.tables.var? v = some x)
    (hk : x.descriptor.kind? = some k) (kinds : k.valueKind = x.ty.valueKind) :
    Flows env (asLines [ctx.loadInstr v x]) shape (k :: shape) := by
  unfold Context.loadInstr
  cases scope : v.scope with
  | globals => exact getStatic_flows (hasField_of_entry knows scope entry) hk
  | function i =>
    refine .instr ?_
    have own : v.scope = s := sees.resolve_left (by simp [scope])
    have slot := knows.locals i v x (own.symm.trans scope) own entry
    simp only [Instr.after, slot, hk, kinds, if_true]

theorem store_flows (knows : env.Knows ctx s) (sees : s.Sees v) (entry : ctx.tables.var? v = some x)
    (hk : x.descriptor.kind? = some k) (kinds : k.valueKind = x.ty.valueKind) :
    Flows env (asLines [ctx.storeInstr v x]) (k :: shape) shape := by
  unfold Context.storeInstr
  cases scope : v.scope with
  | globals => exact putStatic_flows (hasField_of_entry knows scope entry) hk
  | function i =>
    refine .instr ?_
    have own : v.scope = s := sees.resolve_left (by simp [scope])
    have slot := knows.locals i v x (own.symm.trans scope) own entry
    simp only [Instr.after, slot, hk, kinds, true_and, if_true]

theorem address_flows (knows : env.Knows ctx s) (wf : ctx.tables.WellFormed) (sees : s.Sees v)
    (entry : ctx.tables.var? v = some x) {a : ArrayShape} (array : x.array? = some a) (i : Nat) :
    Flows env (asLines (ctx.addressCode v x i)) shape
      (.int :: .array a.element.descriptor :: shape) := by
  have isArray := ((wf.var? entry).of_array array).1
  have load := @load_flows env ctx s v x _ shape knows sees entry (Variable.kind?_of_array array)
    (by rw [isArray]; rfl)
  exact load.append (.instr rfl)

theorem convert_flows {value wanted : Ty} (takes : wanted.Takes value) :
    Flows env (asLines (convertCode value wanted)) (value.kind :: shape)
      (wanted.kind :: shape) := by
  unfold convertCode
  rcases takes with rfl | ⟨rfl, rfl⟩
  · split
    · rename_i h
      simp [h.1] at h
    · exact .nil
  · simp only [and_self, if_true]
    exact .instr rfl

/-! ### Calls -/

/-- Arguments of the kinds of scalar types are taken from the stack. -/
theorem popArguments_map {tys : List Ty} (scalars : ∀ ty ∈ tys, ty.isScalar = true) :
    popArguments (tys.map Ty.descriptor) (tys.map Ty.kind ++ shape) = some shape := by
  induction tys with
  | nil => rfl
  | cons ty tys ih =>
    obtain ⟨first, others⟩ := List.forall_mem_cons.1 scalars
    simp only [List.map_cons, List.cons_append, popArguments, Ty.accepts_descriptor first, if_true]
    exact ih others

theorem call_flows {f : Function} {code : List Instr} (knows : env.Knows ctx s) (wf : f.WellFormed)
    (mem : f ∈ ctx.tables.functions.entries)
    (args : ∀ shape, Flows env (asLines code) shape ((f.params.map Ty.kind).reverse ++ shape)) :
    Flows env (asLines (callCode ctx f code)) shape shape := by
  have method := knows.methods f mem
  unfold callCode
  by_cases main : f.isEntryPoint = true
  · -- The entry point takes an array of strings in place of its parameters, which are none.
    have signature : f.signature = ⟨mainName, [.array .string], .void⟩ := by
      simp [Function.signature, main]
    have params : f.params = [] := by
      simp only [Function.isEntryPoint, Bool.and_eq_true, List.isEmpty_iff] at main
      exact main.2
    rw [if_pos main, List.append_assoc]
    rw [params] at args
    exact Flows.code (.instr rfl) ((args _).code
      (invokeStatic_flows method (by rw [signature]) (by rw [signature]; rfl)))
  · have signature : f.signature = ⟨f.name, methodType f.params⟩ := by
      simp [Function.signature, main]
    rw [if_neg main, List.nil_append]
    refine (args _).code (invokeStatic_flows method (by rw [signature]; rfl) ?_)
    rw [signature]
    simp only [methodType, ← List.map_reverse]
    exact popArguments_map fun ty mem => wf.params ty (List.mem_reverse.1 mem)

theorem result_flows {f : Function} {i : Nat} (knows : env.Knows ctx s) (wf : f.WellFormed)
    (mem : f ∈ ctx.tables.functions.entries) (result : f.returns[i]? = some ty) :
    Flows env (asLines [.getStatic (ctx.resultOf f i ty)]) shape (ty.kind :: shape) := by
  exact getStatic_flows (knows.results f mem i ty result)
    (Ty.kind?_descriptor (wf.returns ty (List.mem_of_getElem? result)))

end

/-! ### Values -/

section

variable {env : MethodEnv} {ctx : Context} {s : Scope}

mutual

/-- The code of a value pushes a value of the kind of its type. -/
theorem ValueCode.flows (knows : env.Knows ctx s) (wf : ctx.tables.WellFormed) {n : Node}
    {code : List Instr} :
    ValueCode ctx s n code → ∀ shape, Flows env (asLines code) shape (n.ty.kind :: shape)
  | @ValueCode.int _ _ _ ty _ number, _ => by
    cases ty <;> first | exact .instr rfl | cases number
  | .float, _ => .instr rfl
  | .bool, _ => .instr rfl
  | .string, _ => .instr rfl
  | .name sees entry scalar, _ =>
    load_flows knows sees entry (Variable.kind?_of_scalar (wf.var? entry) scalar)
      (Ty.valueKind_kind _)
  | .element sees entry array _, _ => by
    have scalar := ((wf.var? entry).of_array array).2
    refine (address_flows knows wf sees entry array _).code (.instr ?_)
    simp only [Instr.after, Ty.elementKind?_descriptor scalar, if_true, Ty.kind?_descriptor scalar]
    rfl
  | @ValueCode.arithmetic _ _ _ _ ty _ _ _ _ _ number takesLeft takesRight leftCode rightCode,
      _ => by
    refine ((((leftCode.flows knows wf _).code (convert_flows takesLeft)).code
      (rightCode.flows knows wf _)).code (convert_flows takesRight)).code (.instr ?_)
    cases ty <;> first | rfl | cases number
  | @ValueCode.concat _ _ left right _ _ leftString rightString leftCode rightCode, shape => by
    have l := leftCode.flows knows wf shape
    have r := rightCode.flows knows wf (left.ty.kind :: shape)
    rw [rightString, leftString] at r
    rw [leftString] at l
    exact (l.code r).code (.instr rfl)
  | .call callee result _ argsCode, _ =>
    have mem := List.mem_of_getElem? callee
    (call_flows knows (wf.get? callee) mem (argsCode.flows knows wf)).code
      (result_flows knows (wf.get? callee) mem (by rw [result]; rfl))

/-- The code of arguments pushes values of the kinds of the types. -/
theorem ArgumentsCode.flows (knows : env.Knows ctx s) (wf : ctx.tables.WellFormed)
    {args : List Node} {tys : List Ty} {code : List Instr} :
    ArgumentsCode ctx s args tys code →
      ∀ shape, Flows env (asLines code) shape ((tys.map Ty.kind).reverse ++ shape)
  | .nil, _ => .nil
  | .cons takes first others, _ => by
    simp only [List.map_cons, List.reverse_cons, List.append_assoc, List.singleton_append]
    rw [← List.append_assoc]
    exact ((first.flows knows wf _).code (convert_flows takes)).code (others.flows knows wf _)

end

/-! ### Conditions -/

theorem compare_flows {o : BinaryOp} {ty : Ty} {code : CondCode} {l : Label}
    (comparable : ty.isComparable = true) :
    Flows env (asLines (compareCode o ty code l)) [ty.kind, ty.kind] [] := by
  cases ty with
  | int => exact .instr rfl
  | bool => exact .instr rfl
  | float => exact .append (.instr rfl) (.instr rfl)
  | string => exact .append (.instr rfl) (.instr rfl)
  | _ => cases comparable

/-- The code of a condition leaves nothing on the stack, whether it jumps or not. -/
theorem ConditionCode.flows (knows : env.Knows ctx s) (wf : ctx.tables.WellFormed)
    {jump : Emission.Jump} {c c' : LabelCounters} {n : Node} {lines : List Line}
    (h : ConditionCode ctx s jump c n lines c') : Flows env lines [] [] := by
  induction h with
  | value truth valueCode =>
    have value := valueCode.flows knows wf []
    rw [truth] at value
    exact value.code (.instr rfl)
  | comparison _ comparable takesLeft takesRight leftCode rightCode =>
    exact (((((leftCode.flows knows wf _).code (convert_flows takesLeft)).code
      (rightCode.flows knows wf _)).code (convert_flows takesRight))).code
        (compare_flows comparable)
  | both _ _ _ ihl ihr => exact ihl.append ihr
  | skip _ _ _ ihl ihr => exact (ihl.append ihr).append (.line rfl)

/-! ### Places -/

/-- A place takes a value of its type, on top of what was pushed before the value. -/
theorem PlaceCode.flows (knows : env.Knows ctx s) (wf : ctx.tables.WellFormed) {target : Node}
    {before after : List Instr} (h : PlaceCode ctx s target before after) :
    ∃ address, (∀ shape, Flows env (asLines before) shape (address ++ shape)) ∧
      ∀ shape, Flows env (asLines after) (target.ty.kind :: (address ++ shape)) shape := by
  cases h with
  | name sees entry scalar =>
    exact ⟨[], fun _ => .nil, fun _ => store_flows knows sees entry
      (Variable.kind?_of_scalar (wf.var? entry) scalar) (Ty.valueKind_kind _)⟩
  | declared own entry scalar =>
    exact ⟨[], fun _ => .nil, fun _ => store_flows knows (.inr own) entry
      (Variable.kind?_of_scalar (wf.var? entry) scalar) (Ty.valueKind_kind _)⟩
  | @element v x a i sees entry array _ =>
    have scalar := ((wf.var? entry).of_array array).2
    refine ⟨[.int, .array a.element.descriptor], fun _ => address_flows knows wf sees entry array i,
      fun _ => .instr ?_⟩
    simp only [List.cons_append, List.nil_append, Instr.after, Node.ty_mk,
      Ty.elementKind?_descriptor scalar, Ty.kind?_descriptor scalar, and_self, if_true]

theorem ResultsCode.flows (knows : env.Knows ctx s) (wf : ctx.tables.WellFormed) {f : Function}
    {i : Nat} {targets : List Node} {tys : List Ty} {code : List Instr}
    (h : ResultsCode ctx s f i targets tys code)
    (mem : f ∈ ctx.tables.functions.entries) : Flows env (asLines code) [] [] := by
  induction h with
  | nil => exact .nil
  | cons takes result place _ ih =>
    obtain ⟨address, before, after⟩ := place.flows knows wf
    have loads := (before []).code (result_flows knows (wf.functions f mem) mem result)
    exact ((loads.code (convert_flows takes)).code (after [])).code ih

/-- Results are popped into their fields, the last one first. -/
theorem resultStores_flows {f : Function} {tys : List Ty}
    (fields : ∀ i ty, tys[i]? = some ty → env.cls.hasField (ctx.resultOf f i ty) = true)
    (scalars : ∀ ty ∈ tys, ty.isScalar = true) :
    Flows env (asLines (resultStores ctx f tys)) ((tys.map Ty.kind).reverse ++ []) [] := by
  induction tys using List.reverseRecOn with
  | nil => exact .nil
  | append_singleton tys ty ih =>
    rw [List.forall_mem_append] at scalars
    have field := fields tys.length ty (by simp)
    have others := ih (fun i ty' h => fields i ty' (getElem?_of_isPrefix ⟨[ty], rfl⟩ h)) scalars.1
    have stores : resultStores ctx f (tys ++ [ty]) =
        [.putStatic (ctx.resultOf f tys.length ty)] ++ resultStores ctx f tys := by
      simp [resultStores, List.mapIdx_append]
    rw [stores, List.map_append, List.reverse_append]
    exact (putStatic_flows field (Ty.kind?_descriptor (scalars.2 ty (by simp)))).code others

/-! ### Statements -/

theorem zeroInstr_flows {ty : Ty} {shape : Shape} :
    Flows env (asLines [zeroInstr ty]) shape (ty.kind :: shape) := by
  cases ty <;> exact .instr rfl

/-- The default of a variable is of the kind of the variable. -/
theorem default_flows {x : Variable} (wf : x.WellFormed) :
    ∃ k, x.descriptor.kind? = some k ∧ k.valueKind = x.ty.valueKind ∧
      Flows env (asLines (defaultCode x)) [] [k] := by
  cases wf with
  | scalar scalar =>
    exact ⟨_, Ty.kind?_descriptor scalar, Ty.valueKind_kind _, zeroInstr_flows⟩
  | @array _ _ a scalar =>
    have length : Flows env (asLines [.ldc (.int a.length)]) [] [.int] := .instr rfl
    refine ⟨_, rfl, rfl, length.append (.instr ?_)⟩
    rw [Instr.after, Ty.descriptor_arrayType scalar]

theorem scan_flows {ty : Ty} {method : MethodRef} {shape : Shape}
    (scans : Library.scan? ty = some method) :
    Flows env (asLines (scanCode method)) shape (ty.kind :: shape) := by
  cases ty with
  | int => cases scans; rfl
  | float => cases scans; rfl
  | bool => cases scans; rfl
  | string => cases scans; rfl
  | _ => cases scans

mutual

/-- The code of a statement starts and ends with an empty stack. -/
theorem StmtCode.flows (knows : env.Knows ctx s) (wf : ctx.tables.WellFormed) {exit? : Option Label}
    {c c' : LabelCounters} {n : Node} {lines : List Line} :
    StmtCode ctx s exit? c n lines c' → Flows env lines [] []
  | .declaration own entry => by
    obtain ⟨k, kind, kinds, value⟩ := @default_flows env _ (wf.var? entry)
    exact value.code (store_flows knows (.inr own) entry kind kinds)
  | .assign takes place valueCode => by
    obtain ⟨address, before, after⟩ := place.flows knows wf
    exact (((before []).code (valueCode.flows knows wf _)).code (convert_flows takes)).code
      (after [])
  | .assignResults callee _ argsCode results => by
    have mem := List.mem_of_getElem? callee
    exact (call_flows knows (wf.get? callee) mem (argsCode.flows knows wf)).code
      (results.flows knows wf mem)
  | .block body => body.flows knows wf
  | .cond conditionCode bodyCode => by
    refine ((conditionCode.flows knows wf).append (bodyCode.flows knows wf)).append ?_
    split
    · exact .line rfl
    · exact .nil
  | .condElse conditionCode bodyCode otherwiseCode => by
    have branch := (conditionCode.flows knows wf).append (bodyCode.flows knows wf)
    refine ((branch.append (.append (.instr rfl) (.line rfl))).append
      (otherwiseCode.flows knows wf)).append ?_
    split
    · exact .line rfl
    · exact .nil
  | .loop conditionCode bodyCode =>
    (((Flows.line rfl).append (conditionCode.flows knows wf)).append
      (bodyCode.flows knows wf)).append (.append (.instr rfl) (.line rfl))
  | .call callee _ argsCode =>
    call_flows knows (wf.get? callee) (List.mem_of_getElem? callee) (argsCode.flows knows wf)
  | .ret _ caller valuesCode => by
    have fields := knows.results _ (List.mem_of_getElem? caller)
    exact ((valuesCode.flows knows wf []).code
      (resultStores_flows fields (wf.get? caller).returns)).code (.instr rfl)
  | .read _ place scans => by
    obtain ⟨address, before, after⟩ := place.flows knows wf
    exact ((before []).code (scan_flows scans)).code (after [])
  | @StmtCode.write _ _ _ _ value _ scalar valueCode => by
    refine ((Flows.instr rfl).code (valueCode.flows knows wf _)).code (.instr ?_)
    cases ty : value.ty with
    | int => rfl
    | float => rfl
    | bool => rfl
    | string => rfl
    | _ =>
      rw [ty] at scalar
      cases scalar

/-- The code of statements starts and ends with an empty stack. -/
theorem StmtsCode.flows (knows : env.Knows ctx s) (wf : ctx.tables.WellFormed)
    {c c' : LabelCounters} {nodes : List Node} {lines : List Line} :
    StmtsCode ctx s c nodes lines c' → Flows env lines [] []
  | .nil => .nil
  | .cons first others => (first.flows knows wf).append (others.flows knows wf)

end

end

end MiniGo
