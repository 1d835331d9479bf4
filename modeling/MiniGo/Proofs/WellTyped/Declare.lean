import Mathlib.Order.Defs.Unbundled
import MiniGo.Proofs.WellTyped.Expr

/-!
# Declarations extend the tables and give well-typed statements

A declaration adds variables to the table of its scope and to no other. So what was typed before
stays typed, and the new nodes are typed in the tables that come out.

* `Runs`: what a run that extends the tables gives, with rules for its steps.
* `Tables.Grows`: the relation between the tables before and after declarations in one scope.
* `lowerVarDecl_typed`, `lowerDeclaration_typed`: declarations give typed statements.
-/

namespace MiniGo

/-! ### Tables that grow in one scope -/

/-- Tables before and after declarations in a scope. -/
structure Tables.Grows (s : Scope) (t t' : Tables) : Prop extends Tables.Extends t t' where
  wellFormed : t.WellFormed → t'.WellFormed
  size : t'.functions.size = t.functions.size
  apart : ∀ s', s' ≠ s → t'.table? s' = t.table? s'

instance {s : Scope} : IsPreorder Tables (Tables.Grows s) where
  refl t := ⟨.refl t, id, rfl, fun _ _ => rfl⟩
  trans _ _ _ h k :=
    ⟨h.toExtends.trans k.toExtends, k.wellFormed ∘ h.wellFormed, k.size.trans h.size,
      fun s' ne => (k.apart s' ne).trans (h.apart s' ne)⟩

namespace VarTable

/-- A declared variable is the last of its table. -/
theorem get?_of_declare {vars vars' : VarTable} {x : Variable} (h : vars.declare x = .ok vars') :
    vars'.get? vars.size = some x := by
  simp [get?, (declare_eq_ok_iff.1 h).2, size]

theorem WellFormed.of_declare {vars vars' : VarTable} {x : Variable} (wf : vars.WellFormed)
    (hx : x.WellFormed) (h : vars.declare x = .ok vars') : vars'.WellFormed := by
  obtain ⟨free, entries⟩ := declare_eq_ok_iff.1 h
  constructor
  · rw [entries, List.map_append, List.nodup_append]
    refine ⟨wf.distinct, by simp, ?_⟩
    intro name mem name' mem'
    obtain ⟨w, hw, rfl⟩ := List.mem_map.1 mem
    obtain rfl : name' = x.name := by simpa using mem'
    exact free w hw
  · rw [entries]
    intro y mem
    rcases List.mem_append.1 mem with mem | mem
    · exact wf.entries y mem
    · obtain rfl := List.mem_singleton.1 mem
      exact hx

end VarTable

namespace FuncTable

theorem get?_setVars {functions : FuncTable} {i j : Nat} {vars : VarTable} :
    (functions.setVars i vars).get? j =
      if i = j then (functions.get? j).map fun f => { f with vars } else functions.get? j := by
  simp only [get?, setVars, List.getElem?_modify]
  split
  · rfl
  · simp

end FuncTable

namespace Tables

variable {t : Tables} {s s' : Scope} {vars vars' : VarTable} {x : Variable}

/-- Replacing the variables of a scope changes this scope only. -/
theorem table?_setTable (own : t.table? s = some vars) :
    (t.setTable vars' s).table? s' = if s' = s then some vars' else t.table? s' := by
  cases s with
  | globals => cases s' <;> simp [setTable, table?]
  | function i =>
    cases s' with
    | globals => simp [setTable, table?]
    | function j =>
      simp only [table?, Option.map_eq_some_iff] at own
      obtain ⟨f, hf, -⟩ := own
      simp only [setTable, table?, FuncTable.get?_setVars, Scope.function.injEq]
      by_cases eq : i = j
      · subst eq
        simp [hf]
      · simp [eq, Ne.symm eq]

/-- A declared variable has its entry in the new tables. -/
theorem var?_setTable (own : t.table? s = some vars) (h : vars.declare x = .ok vars') :
    (t.setTable vars' s).var? ⟨vars.size, s⟩ = some x := by
  simp only [var?, table?_setTable own, if_true, Option.bind_some]
  exact VarTable.get?_of_declare h

/-- A declaration extends the tables. -/
theorem extends_setTable (own : t.table? s = some vars) (h : vars.declare x = .ok vars') :
    t.Extends (t.setTable vars' s) := by
  have entries := (VarTable.declare_eq_ok_iff.1 h).2
  cases s with
  | globals =>
    obtain rfl := Option.some.inj own
    exact ⟨⟨[x], entries.symm⟩, fun hf => ⟨_, hf, .refl _⟩⟩
  | function i =>
    refine ⟨List.prefix_rfl, fun {j f} hf => ?_⟩
    simp only [setTable, FuncTable.get?_setVars]
    by_cases eq : i = j
    · subst eq
      simp only [table?, hf, Option.map_some, Option.some.injEq] at own
      subst own
      simp only [if_true, hf, Option.map_some]
      exact ⟨_, rfl, rfl, rfl, rfl, ⟨[x], entries.symm⟩⟩
    · simp only [eq, if_false]
      exact ⟨f, hf, .refl f⟩

/-- A declaration of a well-formed variable keeps the tables well formed. -/
theorem WellFormed.setTable (wf : t.WellFormed) (hx : x.WellFormed) (own : t.table? s = some vars)
    (h : vars.declare x = .ok vars') : (t.setTable vars' s).WellFormed := by
  cases s with
  | globals =>
    obtain rfl := Option.some.inj own
    exact ⟨wf.globals.of_declare hx h, wf.functions, wf.distinct⟩
  | function i =>
    refine ⟨wf.globals, ?_, ?_⟩
    · intro g mem
      obtain ⟨j, hg⟩ := List.mem_iff_getElem?.1 mem
      have hg' : (t.functions.setVars i vars').get? j = some g := hg
      -- Only the function itself gets another table of variables.
      rw [FuncTable.get?_setVars] at hg'
      split at hg'
      · rename_i eq
        obtain ⟨f, hf, rfl⟩ := Option.map_eq_some_iff.1 hg'
        subst eq
        simp only [table?, hf, Option.map_some, Option.some.injEq] at own
        subst own
        exact ⟨(wf.get? hf).params, (wf.get? hf).returns, (wf.get? hf).vars.of_declare hx h⟩
      · exact wf.get? hg'
    · -- No function gets another name.
      have names : (t.functions.setVars i vars').entries.map Function.name =
          t.functions.entries.map Function.name := by
        apply List.ext_getElem?
        intro j
        simp only [FuncTable.setVars, List.getElem?_map, List.getElem?_modify]
        split <;> cases t.functions.entries[j]? <;> rfl
      exact names ▸ wf.distinct

theorem grows_setTable (hx : x.WellFormed) (own : t.table? s = some vars)
    (h : vars.declare x = .ok vars') : Tables.Grows s t (t.setTable vars' s) where
  toExtends := extends_setTable own h
  wellFormed wf := wf.setTable hx own h
  size := by
    cases s with
    | globals => rfl
    | function i => simp [setTable, FuncTable.setVars, FuncTable.size]
  apart s' ne := by simp [table?_setTable own, ne]

end Tables

namespace Analysis

/-! ### Runs -/

section Runs

variable {α β : Type} {R : Tables → Tables → Prop} {t : Tables} {x : Lower α}
  {P : Tables → α → Prop} {S : Tables → β → Prop}

/-- A run changes the tables within a relation, and its result has a property in the new tables. -/
def Runs (R : Tables → Tables → Prop) (t : Tables) (x : Lower α) (post : Tables → α → Prop) :
    Prop :=
  R t (x.run t).value.2 ∧ post (x.run t).value.2 (x.run t).value.1

theorem Runs.pure [IsPreorder Tables R] {a : α} (h : P t a) : Runs R t (Pure.pure a) P :=
  ⟨refl_of R t, h⟩

theorem Runs.bind [IsPreorder Tables R] {f : α → Lower β} (hx : Runs R t x P)
    (hf : ∀ t' a, R t t' → P t' a → Runs R t' (f a) S) : Runs R t (x >>= f) S := by
  obtain ⟨step, post⟩ := hx
  obtain ⟨step', post'⟩ := hf _ _ step post
  exact ⟨trans_of R step step', post'⟩

theorem Runs.get {f : Tables → Lower β} (h : Runs R t (f t) S) :
    Runs R t (MonadState.get >>= f) S := h

theorem Runs.report {r : Report α} {f : α → Lower β} (h : Runs R t (f r.value) S) :
    Runs R t (liftM r >>= f) S := h

/-- An error may be recorded in between. -/
theorem Runs.ifReport {c : Prop} [Decidable c] {r : Report Unit} {f : Unit → Lower β}
    (h : Runs R t (f ()) S) : Runs R t (if c then liftM r >>= f else f ()) S := by
  split
  · exact .report h
  · exact h

theorem Runs.lift [IsPreorder Tables R] {r : Report α} (h : P t r.value) : Runs R t (liftM r) P :=
  ⟨refl_of R t, h⟩

theorem Runs.weaken {R' : Tables → Tables → Prop} (hx : Runs R t x P)
    (h : ∀ t', R t t' → R' t t') : Runs R' t x P :=
  ⟨h _ hx.1, hx.2⟩

end Runs

/-- All nodes are statements that may stand in a scope. -/
def AllTyped (s : Scope) (t : Tables) (nodes : List Node) : Prop := ∀ n ∈ nodes, StmtTyped t s n

theorem AllTyped.nil {s : Scope} {t : Tables} : AllTyped s t [] := by simp [AllTyped]

theorem AllTyped.append {s : Scope} {t t' : Tables} {ns ms : List Node} (h : AllTyped s t ns)
    (le : t.Extends t') (h' : AllTyped s t' ms) : AllTyped s t' (ns ++ ms) :=
  List.forall_mem_append.2 ⟨fun n mem => (h n mem).mono le, h'⟩

/-- A run of a declaration or a statement in a scope: it gives typed statements. -/
def Lowers (s : Scope) (t : Tables) (x : Lower (List Node)) : Prop :=
  Runs (Tables.Grows s) t x (AllTyped s)

variable {t : Tables} {s : Scope} {operator : String} {line : Nat}

/-- One run after the other gives the statements of both. -/
theorem Lowers.append {x y : Lower (List Node)} (wf : t.WellFormed) (hx : Lowers s t x)
    (hy : ∀ t', t'.WellFormed → Lowers s t' y) :
    Lowers s t (do let nodes ← x; return nodes ++ (← y)) := by
  refine hx.bind fun t' ns grows typed => ?_
  refine (hy t' (grows.wellFormed wf)).bind fun t'' ms grows' typed' => ?_
  exact .pure (typed.append grows'.toExtends typed')

/-! ### Variables -/

/-- A declared variable belongs to the scope and has its entry. -/
def DeclaredAs (s : Scope) (ty : Ty) (array? : Option ArrayShape) (t : Tables) (v : VarRef) :
    Prop :=
  v.scope = s ∧ ∃ x, t.var? v = some x ∧ x.ty = ty ∧ x.array? = array?

theorem DeclaredAs.mono {t' : Tables} {ty : Ty} {array? : Option ArrayShape} {v : VarRef}
    (h : DeclaredAs s ty array? t v) (le : t.Extends t') : DeclaredAs s ty array? t' v := by
  obtain ⟨own, x, entry, rfl, rfl⟩ := h
  exact ⟨own, x, le.var? entry, rfl, rfl⟩

theorem DeclaredAs.declaration {ty : Ty} {array? : Option ArrayShape} {v : VarRef}
    (h : DeclaredAs s ty array? t v) : StmtTyped t s (.leaf (.varDecl v) ty) := by
  obtain ⟨own, x, entry, rfl, -⟩ := h
  exact .declaration own entry

theorem DeclaredAs.target {ty : Ty} {array? : Option ArrayShape} {v : VarRef}
    (h : DeclaredAs s ty array? t v) (scalar : ty.isScalar = true) :
    TargetTyped t s (.leaf (.varDecl v) ty) := by
  obtain ⟨own, x, entry, rfl, -⟩ := h
  exact .declared own entry scalar

theorem declareVariable_runs {name : Ident} {ty : Ty} {array? : Option ArrayShape}
    (hx : Variable.WellFormed ⟨name.name, name.line, ty, array?⟩) :
    Runs (Tables.Grows s) t (declareVariable s name ty array?)
      fun t' v? => ∀ v ∈ v?, DeclaredAs s ty array? t' v := by
  unfold declareVariable
  refine .get ?_
  split
  · exact .pure (by simp)
  · rename_i vars own
    split
    · rename_i vars' declared
      refine ⟨Tables.grows_setTable hx own declared, ?_⟩
      rintro v ⟨⟩
      exact ⟨rfl, _, Tables.var?_setTable own declared, rfl, rfl⟩
    · exact .report (.pure (by simp))

theorem declareNames_typed {ty : Ty} {array? : Option ArrayShape} (names : List Ident)
    (hx : ∀ name line, Variable.WellFormed ⟨name, line, ty, array?⟩) :
    Lowers s t (declareNames s ty array? names) := by
  induction names generalizing t with
  | nil => exact .pure .nil
  | cons name names ih =>
    refine (declareVariable_runs (hx _ _)).bind fun t' v? grows declared => ?_
    refine ih.bind fun t'' nodes grows' typed => ?_
    split
    · rename_i v
      have first := ((declared v rfl).mono grows'.toExtends).declaration
      exact .pure (List.forall_mem_cons.2 ⟨first, typed⟩)
    · exact .pure typed

/-! ### Results of a call -/

/-- A call whose results go to targets is typed, and there are as many results as targets. -/
theorem lowerResultCall_typed {callee : Ident} {args : List Expr} {targets : Nat} {call : Node}
    {returns : List Ty} (wf : t.WellFormed)
    (h : (lowerResultCall t s callee args targets line).value = some (call, returns)) :
    ∃ i f children, call = .mk (.call i) f.valueTy children ∧ CallTyped t s i f children ∧
      f.returns = returns ∧ returns.length = targets := by
  obtain ⟨lowered, types, count⟩ := value_lowerResultCall.1 h
  obtain ⟨i, f, children, rfl, typed⟩ := lowerCall_typed wf (lowerValues_operands wf args) lowered
  simp only [resultTypes?, Node.kind_mk, typed.callee, Option.map_some, Option.some.injEq] at types
  exact ⟨i, f, children, rfl, typed, types, count⟩

theorem resultAssignment_typed {i : Nat} {f : Function} {targets children : List Node}
    (call : CallTyped t s i f children) (typed : ∀ l ∈ targets, TargetTyped t s l)
    (take : List.Forall₂ Ty.Takes (targets.map Node.ty) f.returns) :
    AllTyped s t [resultAssignment targets (.mk (.call i) f.valueTy children)] := by
  simp only [AllTyped, List.mem_singleton, forall_eq]
  exact .assignResults call typed take

theorem declareResults_runs {declared : Option Ty} (names : List Ident) (results : List Ty)
    (scalarDeclared : ∀ ty ∈ declared, ty.isScalar = true)
    (scalars : ∀ ty ∈ results, ty.isScalar = true) (same : names.length = results.length) :
    Runs (Tables.Grows s) t (declareResults s declared operator line names results)
      fun t' targets? => ∀ targets ∈ targets?, (∀ l ∈ targets, TargetTyped t' s l) ∧
        List.Forall₂ Ty.Takes (targets.map Node.ty) results := by
  induction names generalizing t results with
  | nil =>
    obtain rfl := List.length_eq_zero_iff.1 same.symm
    refine .pure ?_
    rintro targets ⟨⟩
    exact ⟨by simp, .nil⟩
  | cons name names ih =>
    cases results with
    | nil => simp at same
    | cons result results =>
      have scalar : (declared.getD result).isScalar = true := by
        cases declared with
        | none => exact scalars result (.head _)
        | some ty => exact scalarDeclared ty rfl
      have rest {t' : Tables} := @ih t' results (fun ty mem => scalars ty (.tail _ mem))
        (by simpa using same)
      unfold declareResults
      simp only
      -- The declaration is the same whether the result fits or not.
      refine .ifReport ((declareVariable_runs (.scalar scalar)).bind fun t' v? grows declares => ?_)
      refine rest.bind fun t'' rest? grows' typed => ?_
      split
      · rename_i v targets
        refine .pure ?_
        intro all mem
        split at mem
        · rename_i fit
          obtain rfl := Option.some.inj mem
          have first := ((declares v rfl).mono grows'.toExtends).target scalar
          obtain ⟨targetsTyped, take⟩ := typed targets rfl
          exact ⟨List.forall_mem_cons.2 ⟨first, targetsTyped⟩, .cons (Ty.assignable_iff.1 fit) take⟩
        · cases mem
      · exact .pure (by simp)

/-! ### Pairs of names and values -/

theorem declareInitialized_typed {declared : Option Ty} {name : Ident} {value? : Option Node}
    (operand : ∀ n ∈ value?, Operand t s n)
    (scalarDeclared : ∀ ty ∈ declared, ty.isScalar = true) :
    Lowers s t (declareInitialized s declared operator line name value?) := by
  unfold declareInitialized
  split
  · split
    · rename_i ty
      exact (declareVariable_runs (.scalar (scalarDeclared ty rfl))).bind
        fun _ _ _ _ => .pure .nil
    · exact .pure .nil
  · rename_i value
    simp only
    split
    · exact .report (.pure .nil)
    · rename_i scalar
      have scalar : (declared.getD value.ty).isScalar = true := by simpa using scalar
      refine .report ?_
      refine (declareVariable_runs (.scalar scalar)).bind fun t' v? grows declares => ?_
      split
      · rename_i v assigned eq
        obtain ⟨typed, stores⟩ := assignTo_typed (operand value rfl) scalar eq
        refine .pure ?_
        simp only [AllTyped, List.mem_singleton, forall_eq]
        exact .assign ((declares v rfl).target scalar) (typed.mono grows.toExtends) stores
      · exact .pure .nil

theorem declarePairs_typed {declared : Option Ty} (names : List Ident) (values : List (Option Node))
    (operands : ∀ n, some n ∈ values → Operand t s n)
    (scalarDeclared : ∀ ty ∈ declared, ty.isScalar = true) :
    Lowers s t (declarePairs s declared operator line names values) := by
  induction names generalizing t values with
  | nil => exact .pure .nil
  | cons name names ih =>
    cases values with
    | nil => exact .pure .nil
    | cons value? values =>
      have first : Lowers s t (declareInitialized s declared operator line name value?) :=
        declareInitialized_typed (fun n mem => operands n (by rw [← mem]; exact .head _))
          scalarDeclared
      refine first.bind fun t' nodes grows typed => ?_
      have operands' : ∀ n, some n ∈ values → Operand t' s n := fun n mem =>
        (operands n (.tail _ mem)).mono grows.toExtends
      refine (ih values operands').bind fun t'' nodes' grows' typed' => ?_
      exact .pure (typed.append grows'.toExtends typed')

/-- A declaration of names with initial values gives typed assignments. -/
theorem lowerDeclaration_typed {names : List Ident} {declared : Option Ty} {values : List Expr}
    (wf : t.WellFormed) (scalarDeclared : ∀ ty ∈ declared, ty.isScalar = true) :
    Lowers s t (lowerDeclaration s names declared values operator line) := by
  unfold lowerDeclaration
  refine .get ?_
  split
  · rename_i callee args isCall
    refine .report ?_
    split
    · exact .pure .nil
    · rename_i call returns lowered
      obtain ⟨i, f, children, rfl, typed, rfl, count⟩ := lowerResultCall_typed wf lowered
      refine (declareResults_runs names f.returns scalarDeclared (wf.get? typed.callee).returns
        count.symm).bind fun t' targets? grows targets => ?_
      split
      · exact .pure .nil
      · rename_i nodes
        obtain ⟨targetsTyped, take⟩ := targets nodes rfl
        obtain ⟨f', typed', ext⟩ := typed.mono grows.toExtends
        refine .pure ?_
        rw [← ext.valueTy]
        exact resultAssignment_typed typed' targetsTyped (ext.returns ▸ take)
  · split
    · exact .report (declarePairs_typed names _ (lowerValues_operands wf values) scalarDeclared)
    · exact .report (.report (.pure .nil))

/-! ### Specifications -/

theorem isScalar_of_resolveType {name : Ident} {ty : Ty} (h : (resolveType name).value = some ty) :
    ty.isScalar = true := by
  unfold resolveType at h
  split at h
  · rename_i ty' named
    obtain rfl := Option.some.inj h
    unfold Ty.ofName? at named
    split at named <;> cases named <;> rfl
  · cases h

theorem lowerArraySpec_typed {spec : VarSpec} {length : Expr} {element : Ident} :
    Lowers s t (lowerArraySpec s spec length element line) := by
  unfold lowerArraySpec
  refine .report ?_
  simp only
  -- The length is checked before the initial values are looked at.
  refine .ifReport ?_
  split
  · exact .get (.report (.report (.pure .nil)))
  · split
    · rename_i ty i resolved _
      exact declareNames_typed spec.names fun _ _ => .array (isScalar_of_resolveType resolved)
    · exact .pure .nil

theorem lowerVarSpec_typed {spec : VarSpec} (wf : t.WellFormed) :
    Lowers s t (lowerVarSpec s spec) := by
  unfold lowerVarSpec
  split
  · exact lowerArraySpec_typed
  · rename_i name type
    refine .report ?_
    split
    · rename_i ty resolved
      have scalar := isScalar_of_resolveType resolved
      split
      · exact declareNames_typed spec.names fun _ _ => .scalar scalar
      · exact lowerDeclaration_typed wf (by rintro ty' ⟨⟩; exact scalar)
    · exact .get (.report (.pure .nil))
  · exact lowerDeclaration_typed wf (by simp)

theorem lowerVarSpecs_typed (specs : List VarSpec) (wf : t.WellFormed) :
    Lowers s t (lowerVarSpecs s specs) := by
  induction specs generalizing t with
  | nil => exact .pure .nil
  | cons spec specs ih => exact .append wf (lowerVarSpec_typed wf) fun t' wf' => ih wf'

/-- A variable declaration gives typed statements. -/
theorem lowerVarDecl_typed {decl : VarDecl} (wf : t.WellFormed) :
    Lowers s t (lowerVarDecl s decl) :=
  lowerVarSpecs_typed decl.specs wf

end Analysis

end MiniGo
