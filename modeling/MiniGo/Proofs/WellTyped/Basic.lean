import Mathlib.Data.List.Forall2
import MiniGo.Analyzer.Program

/-!
# Well-typed trees

What a typed tree must satisfy so that code can be generated for it. The judgements are relative to
symbol tables and to the scope in which a node stands.

* `Tables.WellFormed`, `Tables.Extends`: tables with sensible entries, and tables with more entries.
* `ValueTyped`, `ConditionTyped`, `TargetTyped`, `StmtTyped`: the nodes that may stand in the
  position of a value, of a condition, on the left of an assignment, and of a statement.
* `Program.WellTyped`: a program all of whose nodes stand where they belong.

All judgements survive an extension of the tables, so a node stays typed while later declarations
are added.
-/

namespace MiniGo

/-! ### Tables -/

/-- A variable is a scalar, or an array of scalars. -/
inductive Variable.WellFormed : Variable → Prop
  | scalar {name : String} {line : Nat} {ty : Ty} (scalar : ty.isScalar = true) :
      WellFormed ⟨name, line, ty, none⟩
  | array {name : String} {line : Nat} {shape : ArrayShape}
      (scalar : shape.element.isScalar = true) : WellFormed ⟨name, line, .array, some shape⟩

/-- All variables of a table are well formed, and no two have the same name. -/
structure VarTable.WellFormed (t : VarTable) : Prop where
  distinct : (t.entries.map Variable.name).Nodup
  entries : ∀ x ∈ t.entries, x.WellFormed

/-- A function takes and gives scalars. -/
structure Function.WellFormed (f : Function) : Prop where
  params : ∀ ty ∈ f.params, ty.isScalar = true
  returns : ∀ ty ∈ f.returns, ty.isScalar = true
  vars : f.vars.WellFormed

/-- All variables and functions are well formed, and no two functions have the same name. -/
structure Tables.WellFormed (t : Tables) : Prop where
  globals : t.globals.WellFormed
  functions : ∀ f ∈ t.functions.entries, f.WellFormed
  distinct : (t.functions.entries.map Function.name).Nodup

/-- The parameters of a function are its first variables. -/
def Function.ParamsFirst (f : Function) : Prop := f.params <+: f.vars.entries.map Variable.ty

/-- The same function with more variables. -/
structure Function.Extends (f f' : Function) : Prop where
  name : f'.name = f.name
  params : f'.params = f.params
  returns : f'.returns = f.returns
  vars : f.vars.entries <+: f'.vars.entries

/-- The same tables with more variables and functions. -/
structure Tables.Extends (t t' : Tables) : Prop where
  globals : t.globals.entries <+: t'.globals.entries
  functions : ∀ {i : Nat} {f : Function}, t.functions.get? i = some f →
    ∃ f', t'.functions.get? i = some f' ∧ f.Extends f'

/-- An entry of a list is also one of any longer list. -/
theorem getElem?_of_isPrefix {α : Type} {xs ys : List α} (h : xs <+: ys) {i : Nat} {x : α}
    (hx : xs[i]? = some x) : ys[i]? = some x := by
  obtain ⟨bound, rfl⟩ := List.getElem?_eq_some_iff.1 hx
  exact List.prefix_iff_getElem?.1 h i bound

/-- Related lists have related entries at each place. -/
theorem forall₂_getElem? {α β : Type} {R : α → β → Prop} {xs : List α} {ys : List β}
    (h : List.Forall₂ R xs ys) {i : Nat} {x : α} (hx : xs[i]? = some x) :
    ∃ y, ys[i]? = some y ∧ R x y := by
  induction h generalizing i with
  | nil => simp at hx
  | cons first _ ih =>
    cases i with
    | zero =>
      cases hx
      exact ⟨_, rfl, first⟩
    | succ i => exact ih hx

/-- What follows from being related holds of all of the second list. -/
theorem forall₂_right {α β : Type} {R : α → β → Prop} {P : β → Prop} {xs : List α} {ys : List β}
    (h : List.Forall₂ R xs ys) (property : ∀ x y, R x y → P y) : ∀ y ∈ ys, P y := by
  induction h with
  | nil => simp
  | cons first _ ih => exact List.forall_mem_cons.2 ⟨property _ _ first, ih⟩

/-- What is related to the first halves of pairs. -/
theorem forall₂_of_zip_left {α β γ : Type} {R : α → γ → Prop} {xs : List α} {ys : List β}
    {zs : List γ} (same : xs.length = ys.length)
    (h : List.Forall₂ (fun pair => R pair.1) (xs.zip ys) zs) :
    List.Forall₂ R xs zs := by
  have each : List.Forall₂ R ((xs.zip ys).map Prod.fst) zs := List.forall₂_map_left_iff.2 h
  rwa [List.map_fst_zip (Nat.le_of_eq same)] at each

/-- What is related to the second halves of pairs. -/
theorem forall₂_of_zip_right {α β γ : Type} {R : β → γ → Prop} {xs : List α} {ys : List β}
    {zs : List γ} (same : xs.length = ys.length)
    (h : List.Forall₂ (fun pair => R pair.2) (xs.zip ys) zs) :
    List.Forall₂ R ys zs := by
  have each : List.Forall₂ R ((xs.zip ys).map Prod.snd) zs := List.forall₂_map_left_iff.2 h
  rwa [List.map_snd_zip (Nat.le_of_eq same.symm)] at each

namespace Function

theorem Extends.refl (f : Function) : f.Extends f := ⟨rfl, rfl, rfl, List.prefix_rfl⟩

theorem Extends.trans {f g h : Function} (fg : f.Extends g) (gh : g.Extends h) : f.Extends h where
  name := gh.name.trans fg.name
  params := gh.params.trans fg.params
  returns := gh.returns.trans fg.returns
  vars := fg.vars.trans gh.vars

theorem ParamsFirst.mono {f f' : Function} (h : f.ParamsFirst) (le : f.Extends f') :
    f'.ParamsFirst := by
  unfold ParamsFirst
  rw [le.params]
  exact h.trans (le.vars.map _)

end Function

namespace Tables

theorem Extends.refl (t : Tables) : t.Extends t :=
  ⟨List.prefix_rfl, fun h => ⟨_, h, .refl _⟩⟩

theorem Extends.trans {t u v : Tables} (tu : t.Extends u) (uv : u.Extends v) : t.Extends v where
  globals := tu.globals.trans uv.globals
  functions h := by
    obtain ⟨f', hf', le⟩ := tu.functions h
    obtain ⟨f'', hf'', le'⟩ := uv.functions hf'
    exact ⟨f'', hf'', le.trans le'⟩

/-- An extension keeps the entry of every variable. -/
theorem Extends.var? {t t' : Tables} (le : t.Extends t') {v : VarRef} {x : Variable}
    (h : t.var? v = some x) : t'.var? v = some x := by
  obtain ⟨slot, scope⟩ := v
  cases scope with
  | globals => exact getElem?_of_isPrefix le.globals h
  | function i =>
    simp only [Tables.var?, table?, Option.bind_map, Option.bind_eq_some_iff,
      Function.comp_apply] at h ⊢
    obtain ⟨f, hf, hx⟩ := h
    obtain ⟨f', hf', ext⟩ := le.functions hf
    exact ⟨f', hf', getElem?_of_isPrefix ext.vars hx⟩

/-- The entry of a variable is well formed. -/
theorem WellFormed.var? {t : Tables} (wf : t.WellFormed) {v : VarRef} {x : Variable}
    (h : t.var? v = some x) : x.WellFormed := by
  obtain ⟨slot, scope⟩ := v
  cases scope with
  | globals => exact wf.globals.entries x (List.mem_of_getElem? h)
  | function i =>
    simp only [Tables.var?, table?, Option.bind_map, Option.bind_eq_some_iff,
      Function.comp_apply] at h
    obtain ⟨f, hf, hx⟩ := h
    exact (wf.functions f (List.mem_of_getElem? hf)).vars.entries x (List.mem_of_getElem? hx)

/-- A function is well formed. -/
theorem WellFormed.get? {t : Tables} (wf : t.WellFormed) {i : Nat} {f : Function}
    (h : t.functions.get? i = some f) : f.WellFormed :=
  wf.functions f (List.mem_of_getElem? h)

end Tables

/-- A variable with a scalar type is no array. -/
theorem Variable.WellFormed.array?_eq_none {x : Variable} (wf : x.WellFormed)
    (scalar : x.ty.isScalar = true) : x.array? = none := by
  cases wf with
  | scalar => rfl
  | array => simp [Ty.isScalar, Ty.isComparable] at scalar

/-- A variable that is no array has a scalar type. -/
theorem Variable.WellFormed.isScalar {x : Variable} (wf : x.WellFormed) (plain : x.array? = none) :
    x.ty.isScalar = true := by
  cases wf with
  | scalar scalar => exact scalar
  | array => cases plain

/-- An array variable has the type of arrays and scalar elements. -/
theorem Variable.WellFormed.of_array {x : Variable} {shape : ArrayShape} (wf : x.WellFormed)
    (h : x.array? = some shape) : x.ty = .array ∧ shape.element.isScalar = true := by
  cases wf with
  | scalar => simp at h
  | array scalar =>
    obtain rfl := Option.some.inj h
    exact ⟨rfl, scalar⟩

/-! ### Values and conditions -/

/-- The variables that a scope can refer to are its own and the global ones. -/
def Scope.Sees (s : Scope) (v : VarRef) : Prop := v.scope = .globals ∨ v.scope = s

/-- A value may be computed in a type if it has that type, or if it is an int and the type is
float. -/
def Ty.Takes (ty value : Ty) : Prop := value = ty ∨ (ty = .float ∧ value = .int)

/-- The types in which an operator computes: numbers for all, and strings for a sum. -/
def BinaryOp.ComputesIn (o : BinaryOp) (ty : Ty) : Prop :=
  ty.isNumeric = true ∨ (o = .add ∧ ty = .string)

/-- A value that may be stored into a place of a type: it has that type, or it is an int in a
variable, an array element or the result of a call, and the type is float. -/
def Node.StoresInto (value : Node) (ty : Ty) : Prop :=
  value.ty = ty ∨ (ty = .float ∧ value.ty = .int ∧ value.isReference = true)

/-- A node in the position of a value. An array is no value, nor is a comparison or a logical
operation. -/
inductive ValueTyped (t : Tables) (s : Scope) : Node → Prop
  | int {i : Int} {ty : Ty} (fits : Analysis.fitsInt i = true) (number : ty.isNumeric = true) :
      ValueTyped t s (.mk (.intVal i) ty [])
  | float {x : Binary32} : ValueTyped t s (.mk (.floatVal x) .float [])
  | bool {b : Bool} : ValueTyped t s (.mk (.boolVal b) .bool [])
  | string {text : String} : ValueTyped t s (.mk (.strVal text) .string [])
  | name {v : VarRef} {x : Variable} (sees : s.Sees v) (entry : t.var? v = some x)
      (scalar : x.ty.isScalar = true) : ValueTyped t s (.mk (.varUse v) x.ty [])
  | element {v : VarRef} {x : Variable} {shape : ArrayShape} {k : Nat} (sees : s.Sees v)
      (entry : t.var? v = some x) (array : x.array? = some shape) (bound : k < shape.length) :
      ValueTyped t s (.mk (.arrayUse v k) shape.element [])
  | arithmetic {o : BinaryOp} {ty : Ty} {left right : Node} (family : o.isArithmetic = true)
      (computes : o.ComputesIn ty) (leftTyped : ValueTyped t s left)
      (rightTyped : ValueTyped t s right) (takesLeft : ty.Takes left.ty)
      (takesRight : ty.Takes right.ty) : ValueTyped t s (.mk (.op o) ty [left, right])
  | call {i : Nat} {f : Function} {ty : Ty} {args : List Node}
      (callee : t.functions.get? i = some f) (argsTyped : ∀ arg ∈ args, ValueTyped t s arg)
      (types : args.map Node.ty = f.params) (result : f.returns = [ty]) :
      ValueTyped t s (.mk (.call i) ty args)

/-- A node in the position of a condition: a value that is a truth value, a comparison of values, or
a logical operation on conditions. -/
inductive ConditionTyped (t : Tables) (s : Scope) : Node → Prop
  | value {n : Node} (typed : ValueTyped t s n) (truth : n.ty = .bool) : ConditionTyped t s n
  | comparison {o : BinaryOp} {ty : Ty} {left right : Node} (family : o.isComparison = true)
      (comparable : ty.isComparable = true) (leftTyped : ValueTyped t s left)
      (rightTyped : ValueTyped t s right) (takesLeft : ty.Takes left.ty)
      (takesRight : ty.Takes right.ty) : ConditionTyped t s (.mk (.op o) ty [left, right])
  | logical {o : BinaryOp} {left right : Node} (family : o.isLogical = true)
      (leftTyped : ConditionTyped t s left) (rightTyped : ConditionTyped t s right) :
      ConditionTyped t s (.mk (.op o) .bool [left, right])

/-! ### Targets and statements -/

/-- A node that refers to a place that is already declared: a scalar variable or an array
element. -/
inductive PlaceTyped (t : Tables) (s : Scope) : Node → Prop
  | name {v : VarRef} {x : Variable} (sees : s.Sees v) (entry : t.var? v = some x)
      (scalar : x.ty.isScalar = true) : PlaceTyped t s (.mk (.varUse v) x.ty [])
  | element {v : VarRef} {x : Variable} {shape : ArrayShape} {k : Nat} (sees : s.Sees v)
      (entry : t.var? v = some x) (array : x.array? = some shape) (bound : k < shape.length) :
      PlaceTyped t s (.mk (.arrayUse v k) shape.element [])

/-- A node on the left of an assignment: a place, or a scalar variable of the scope that is declared
by it. -/
inductive TargetTyped (t : Tables) (s : Scope) : Node → Prop
  | place {n : Node} (typed : PlaceTyped t s n) : TargetTyped t s n
  | declared {v : VarRef} {x : Variable} (own : v.scope = s) (entry : t.var? v = some x)
      (scalar : x.ty.isScalar = true) : TargetTyped t s (.mk (.varDecl v) x.ty [])

/-- A call of a function with arguments of exactly the types of its parameters. -/
structure CallTyped (t : Tables) (s : Scope) (i : Nat) (f : Function) (args : List Node) :
    Prop where
  callee : t.functions.get? i = some f
  typed : ∀ arg ∈ args, ValueTyped t s arg
  types : args.map Node.ty = f.params

/-- A node in the position of a statement. -/
inductive StmtTyped (t : Tables) (s : Scope) : Node → Prop
  | declaration {v : VarRef} {x : Variable} (own : v.scope = s) (entry : t.var? v = some x) :
      StmtTyped t s (.mk (.varDecl v) x.ty [])
  | assign {target value : Node} (targetTyped : TargetTyped t s target)
      (valueTyped : ValueTyped t s value) (stores : value.StoresInto target.ty) :
      StmtTyped t s (.mk .assign .noType [target, value])
  | assignResults {i : Nat} {f : Function} {targets args : List Node}
      (call : CallTyped t s i f args) (targetsTyped : ∀ target ∈ targets, TargetTyped t s target)
      (take : List.Forall₂ Ty.Takes (targets.map Node.ty) f.returns) :
      StmtTyped t s
        (.mk .assign .noType [.mk .varList .noType targets, .mk (.call i) f.valueTy args])
  | block {nodes : List Node} (typed : ∀ n ∈ nodes, StmtTyped t s n) :
      StmtTyped t s (.mk .block .noType nodes)
  | cond {body : List Node} {condition : Node} (bodyTyped : ∀ n ∈ body, StmtTyped t s n)
      (conditionTyped : ConditionTyped t s condition) :
      StmtTyped t s (.mk .cond .noType [.mk .block .noType body, condition])
  | condElse {body : List Node} {otherwise condition : Node}
      (bodyTyped : ∀ n ∈ body, StmtTyped t s n) (otherwiseTyped : StmtTyped t s otherwise)
      (branch : otherwise.kind = .block ∨ otherwise.kind = .cond)
      (conditionTyped : ConditionTyped t s condition) :
      StmtTyped t s (.mk .cond .noType [.mk .block .noType body, otherwise, condition])
  | loop {body : List Node} {condition : Node} (bodyTyped : ∀ n ∈ body, StmtTyped t s n)
      (conditionTyped : ConditionTyped t s condition) :
      StmtTyped t s (.mk .repeat_ .noType [.mk .block .noType body, condition])
  | call {i : Nat} {f : Function} {args : List Node} (call : CallTyped t s i f args) :
      StmtTyped t s (.mk (.call i) f.valueTy args)
  | ret {i : Nat} {f : Function} {values : List Node} (own : s = .function i)
      (caller : t.functions.get? i = some f) (typed : ∀ n ∈ values, ValueTyped t s n)
      (stores : List.Forall₂ Node.StoresInto values f.returns) :
      StmtTyped t s (.mk .ret .noType values)
  | read {target : Node} (typed : PlaceTyped t s target) :
      StmtTyped t s (.mk .read .noType [target])
  | write {value : Node} (typed : ValueTyped t s value) :
      StmtTyped t s (.mk .write .noType [value])

/-- The node of a function with the statements of its body. -/
def functionNode (i : Nat) (body : List Node) : Node :=
  .statement (.function i) [.statement .block body]

/-- A program is well typed: its tree has the global statements first and then one node for each
function, in the order of the table, and all statements are typed in the scope where they stand. -/
structure Program.WellTyped (p : Program) : Prop where
  tables : p.tables.WellFormed
  paramsFirst : ∀ f ∈ p.tables.functions.entries, f.ParamsFirst
  main : ∃ (i : Nat) (f : Function),
    p.tables.functions.get? i = some f ∧ f.name = "main" ∧ f.params = []
  statements : ∃ (globals : List Node) (bodies : List (List Node)),
    p.root = .statement .program (globals ++ bodies.mapIdx functionNode) ∧
    bodies.length = p.tables.functions.size ∧
    (∀ n ∈ globals, StmtTyped p.tables .globals n) ∧
    ∀ i body, bodies[i]? = some body → ∀ n ∈ body, StmtTyped p.tables (.function i) n

/-! ### More declarations -/

section Mono

variable {t t' : Tables} {s : Scope} {n : Node}

theorem ValueTyped.mono (h : ValueTyped t s n) (le : t.Extends t') : ValueTyped t' s n := by
  induction h with
  | int fits number => exact .int fits number
  | float => exact .float
  | bool => exact .bool
  | string => exact .string
  | name sees entry scalar => exact .name sees (le.var? entry) scalar
  | element sees entry array bound => exact .element sees (le.var? entry) array bound
  | arithmetic family computes _ _ takesLeft takesRight ihl ihr =>
    exact .arithmetic family computes ihl ihr takesLeft takesRight
  | call callee _ types result ih =>
    obtain ⟨f', callee', ext⟩ := le.functions callee
    exact .call callee' ih (types.trans ext.params.symm) (ext.returns.trans result)

theorem ConditionTyped.mono (h : ConditionTyped t s n) (le : t.Extends t') :
    ConditionTyped t' s n := by
  induction h with
  | value typed truth => exact .value (typed.mono le) truth
  | comparison family comparable left right takesLeft takesRight =>
    exact .comparison family comparable (left.mono le) (right.mono le) takesLeft takesRight
  | logical family _ _ ihl ihr => exact .logical family ihl ihr

theorem PlaceTyped.mono (h : PlaceTyped t s n) (le : t.Extends t') : PlaceTyped t' s n := by
  cases h with
  | name sees entry scalar => exact .name sees (le.var? entry) scalar
  | element sees entry array bound => exact .element sees (le.var? entry) array bound

theorem TargetTyped.mono (h : TargetTyped t s n) (le : t.Extends t') : TargetTyped t' s n := by
  cases h with
  | place typed => exact .place (typed.mono le)
  | declared own entry scalar => exact .declared own (le.var? entry) scalar

/-- A call stays typed; the function that it calls may have more variables. -/
theorem CallTyped.mono {i : Nat} {f : Function} {args : List Node} (h : CallTyped t s i f args)
    (le : t.Extends t') : ∃ f', CallTyped t' s i f' args ∧ f.Extends f' := by
  obtain ⟨f', callee', ext⟩ := le.functions h.callee
  exact ⟨f', ⟨callee', fun arg mem => (h.typed arg mem).mono le, h.types.trans ext.params.symm⟩,
    ext⟩

theorem Function.Extends.valueTy {f f' : Function} (ext : f.Extends f') :
    f'.valueTy = f.valueTy := by
  simp only [Function.valueTy, ext.returns]

theorem StmtTyped.mono (h : StmtTyped t s n) (le : t.Extends t') : StmtTyped t' s n := by
  induction h with
  | declaration own entry => exact .declaration own (le.var? entry)
  | assign target value stores => exact .assign (target.mono le) (value.mono le) stores
  | assignResults call targets take =>
    obtain ⟨f', call', ext⟩ := call.mono le
    rw [← ext.valueTy]
    exact .assignResults call' (fun l mem => (targets l mem).mono le) (ext.returns ▸ take)
  | block _ ih => exact .block ih
  | cond _ condition ih => exact .cond ih (condition.mono le)
  | condElse _ _ branch condition ih ih' => exact .condElse ih ih' branch (condition.mono le)
  | loop _ condition ih => exact .loop ih (condition.mono le)
  | call call =>
    obtain ⟨f', call', ext⟩ := call.mono le
    rw [← ext.valueTy]
    exact .call call'
  | ret own caller typed stores =>
    obtain ⟨f', caller', ext⟩ := le.functions caller
    exact .ret own caller' (fun n mem => (typed n mem).mono le) (ext.returns ▸ stores)
  | read typed => exact .read (typed.mono le)
  | write typed => exact .write (typed.mono le)

end Mono

end MiniGo
