import MiniGo.Analyzer.Program
import MiniGo.Proofs.Analyzer.Index
import Mathlib.Order.Defs.Unbundled

/-!
# What an analysis may change

All functions of the analyzer share one state, and each of them could change all of it. Expressions,
conditions and targets record errors and do nothing else. Statements, blocks and declarations also
append variables to the table of the scope in the context, and the body of a function does so in the
scope of the function, after which the context before is back. This holds in every state, whether
errors are met or not.

* `Registry.AddsOnly`: tables before and after variables are added in one scope.
* `Analyzer.OnlyReports`, `Analyzer.ExtendsIn`: states before and after a part of an analysis.
* `Steps`: a part of an analysis that relates each state to the state behind it, with its rules.
* `lowering_touches_own_scope`: what each part of a program may change.
* `Allowed`, `lowerStatement_steps`, `lowerProgram_steps`: relations that hold across statements and
  programs.
* `lowerProgram_keeps`: what stays in the analysis of a whole program.
-/

namespace MiniGo

/-! ### Tables -/

namespace VarRegistry

/-- A table with more variables at its end, each of them noted in the index. -/
def append (r : VarRegistry) (new : List Variable) : VarRegistry := new.foldl push r

@[simp] theorem append_nil (r : VarRegistry) : r.append [] = r := rfl

theorem append_append (r : VarRegistry) (new more : List Variable) :
    r.append (new ++ more) = (r.append new).append more :=
  List.foldl_append

theorem entries_append (r : VarRegistry) (new : List Variable) :
    (r.append new).entries = r.entries ++ new := by
  induction new generalizing r with
  | nil => exact (List.append_nil _).symm
  | cons x new ih =>
    show ((r.push x).append new).entries = _
    rw [ih, push, List.append_assoc, List.singleton_append]

/-- Adding a variable appends it if its name is free, and does nothing otherwise. -/
theorem snd_addVariable (r : VarRegistry) (x : Variable) :
    ((addVariable x).run r).2 = if (r.lookup? x.name).isSome then r else r.append [x] := by
  simp only [addVariable, StateT.run_bind, StateT.run_get, pure_bind]
  cases free : r.index.get? x.name with
  | none =>
    rw [lookup?, free]
    rfl
  | some i =>
    rw [lookup?, free]
    rfl

end VarRegistry

/-- What does not change in a function when variables are added to it. -/
def FuncEntry.signature (f : FuncEntry) : String × Nat × List Ty × List Ty :=
  (f.name, f.line, f.params, f.returns)

namespace Registry

variable {r r' : Registry} {s : Scope} {vars vars' : VarRegistry}

/-- Tables before and after variables are added in one scope. -/
structure AddsOnly (s : Scope) (r r' : Registry) : Prop where
  /-- New variables of the scope stand behind the others. -/
  own : ∃ new, r'.table? s = (r.table? s).map (·.append new)
  /-- A name that has a slot in the scope keeps it. -/
  found : ∀ vars vars' name i, r.table? s = some vars → r'.table? s = some vars' →
    vars.lookup? name = some i → vars'.lookup? name = some i
  /-- All other scopes have the variables that they had. -/
  apart : ∀ s', s' ≠ s → r'.table? s' = r.table? s'
  /-- The functions are the same, with the same signatures. -/
  signatures : r'.functions.entries.map FuncEntry.signature =
    r.functions.entries.map FuncEntry.signature
  /-- The names of the functions are noted as they were. -/
  functions : r'.functions.index = r.functions.index

instance : IsPreorder Registry (AddsOnly s) where
  refl r := by
    refine ⟨⟨[], ?_⟩, fun vars vars' name i own own' => ?_, fun _ _ => rfl, rfl, rfl⟩
    · cases r.table? s <;> rfl
    · rw [Option.some.inj (own.symm.trans own')]
      exact id
  trans r r' r'' h k := by
    obtain ⟨new, own⟩ := h.own
    obtain ⟨more, own'⟩ := k.own
    refine ⟨⟨new ++ more, ?_⟩, fun vars vars'' name i first last at_ => ?_, fun s' ne => ?_,
      k.signatures.trans h.signatures, k.functions.trans h.functions⟩
    · rw [own', own, Option.map_map]
      cases r.table? s with
      | none => rfl
      | some vars => simp [VarRegistry.append_append]
    · rw [first, Option.map_some] at own
      exact k.found _ _ name i own last (h.found _ _ name i first own at_)
    · exact (k.apart s' ne).trans (h.apart s' ne)

theorem table?_setTable (own : r.table? s = some vars) (s' : Scope) :
    (r.setTable vars' s).table? s' = if s' = s then some vars' else r.table? s' := by
  cases s with
  | globals => cases s' <;> rfl
  | function i =>
    cases s' with
    | globals => rfl
    | function j =>
      obtain ⟨f, found, -⟩ := Option.map_eq_some_iff.1 own
      have entry : r.functions.entries[i]? = some f := found
      simp only [table?, setTable, FuncRegistry.get?, FuncRegistry.setVars, List.getElem?_modify,
        Scope.function.injEq]
      by_cases here : i = j
      · subst here
        simp [entry]
      · simp [here, Ne.symm here]

theorem signatures_setTable :
    (r.setTable vars' s).functions.entries.map FuncEntry.signature =
      r.functions.entries.map FuncEntry.signature := by
  cases s with
  | globals => rfl
  | function i =>
    refine List.ext_getElem? fun j => ?_
    simp only [setTable, FuncRegistry.setVars, List.getElem?_map, List.getElem?_modify]
    cases r.functions.entries[j]? <;> by_cases here : i = j <;> simp [here, FuncEntry.signature]

theorem index_setTable : (r.setTable vars' s).functions.index = r.functions.index := by
  cases s <;> rfl

/-- Adding a variable in a scope adds to this scope, if anything. -/
theorem addVariable_addsOnly (s : Scope) (x : Variable) (r : Registry) :
    r.AddsOnly s ((addVariable s x).run r).2 := by
  cases own : r.table? s with
  | none =>
    have same : ((addVariable s x).run r).2 = r := by
      simp only [addVariable, StateT.run_bind, StateT.run_get, pure_bind, own]
      rfl
    rw [same]
    exact refl_of (AddsOnly s) r
  | some vars =>
    have run : ((addVariable s x).run r).2 =
        r.setTable ((VarRegistry.addVariable x).run vars).2 s := by
      simp only [addVariable, StateT.run_bind, StateT.run_get, pure_bind, own]
      rfl
    rw [run, vars.snd_addVariable]
    split
    · rw [setTable_self own]
      exact refl_of (AddsOnly s) r
    · rename_i free
      refine ⟨⟨[x], ?_⟩, fun old new name i table table' at_ => ?_, fun s' ne => ?_,
        signatures_setTable, index_setTable⟩
      · rw [table?_setTable own, if_pos rfl, own, Option.map_some]
      · rw [table?_setTable own, if_pos rfl] at table'
        obtain rfl := Option.some.inj table'
        obtain rfl := Option.some.inj (own.symm.trans table)
        -- The name is not the new one, which had no slot.
        have other : name ≠ x.name := by
          rintro rfl
          exact free (by rw [at_, Option.isSome_some])
        show (vars.index.insert x.name vars.entries.length).get? name = some i
        rw [NameIndex.get?_insert, if_neg other]
        exact at_
      · rw [table?_setTable own, if_neg ne]

end Registry

/-! ### States -/

namespace Analyzer

variable {a b c : Analyzer} {s : Scope}

/-- States of which the second differs in new errors only. -/
structure OnlyReports (a b : Analyzer) : Prop where
  tables : b.tables = a.tables
  context : b.context = a.context
  diagnostics : a.diagnostics <+: b.diagnostics

instance : IsPreorder Analyzer OnlyReports where
  refl _ := ⟨rfl, rfl, List.prefix_rfl⟩
  trans _ _ _ h k :=
    ⟨k.tables.trans h.tables, k.context.trans h.context, h.diagnostics.trans k.diagnostics⟩

/-- States of which the second differs in new errors and new variables of one scope only. -/
structure ExtendsIn (s : Scope) (a b : Analyzer) : Prop where
  tables : a.tables.AddsOnly s b.tables
  context : b.context = a.context
  diagnostics : a.diagnostics <+: b.diagnostics

instance : IsPreorder Analyzer (ExtendsIn s) where
  refl a := ⟨refl_of (Registry.AddsOnly s) a.tables, rfl, List.prefix_rfl⟩
  trans _ _ _ h k := ⟨trans_of (Registry.AddsOnly s) h.tables k.tables,
    k.context.trans h.context, h.diagnostics.trans k.diagnostics⟩

theorem OnlyReports.extendsIn (h : a.OnlyReports b) : a.ExtendsIn s b :=
  ⟨h.tables ▸ refl_of (Registry.AddsOnly s) a.tables, h.context, h.diagnostics⟩

/-- States of which the second differs in new errors and new variables of the current scope only. -/
def Extends (a b : Analyzer) : Prop := a.ExtendsIn a.context.scope b

instance : IsPreorder Analyzer Extends where
  refl a := refl_of (ExtendsIn a.context.scope) a
  trans a b c h k := by
    have second : b.ExtendsIn b.context.scope c := k
    rw [h.context] at second
    exact trans_of (ExtendsIn a.context.scope) h second

end Analyzer

open Analyzer

/-! ### Steps -/

/-- A part of an analysis after which each state is related to the state before. -/
structure Steps {α : Type} (R : Analyzer → Analyzer → Prop) (x : Analyze α) : Prop where
  run : ∀ a, R a (x.run a).2

section Steps

variable {α β : Type} {R R' : Analyzer → Analyzer → Prop} {x : Analyze α} {f : α → Analyze β}

theorem Steps.mono (h : Steps R x) (weaker : ∀ a b, R a b → R' a b) : Steps R' x :=
  ⟨fun a => weaker a _ (h.run a)⟩

theorem Steps.get {f : Analyzer → Analyze α} (h : ∀ a, Steps R (f a)) :
    Steps R (MonadState.get >>= f) :=
  ⟨fun a => (h a).run a⟩

variable [IsPreorder Analyzer R]

theorem Steps.pure {v : α} : Steps R (Pure.pure v) := ⟨refl_of R⟩

theorem Steps.bind (hx : Steps R x) (hf : ∀ v, Steps R (f v)) : Steps R (x >>= f) :=
  ⟨fun a => trans_of R (hx.run a) ((hf (x.run a).1).run (x.run a).2)⟩

theorem Steps.proceed {a? : Option α} {f : α → Analyze (Option β)} (h : ∀ v, Steps R (f v)) :
    Steps R (proceed a? f) := by
  cases a? with
  | none => exact .pure
  | some v => exact h v

theorem steps_error (e : SemanticError) : Steps OnlyReports (error e) :=
  ⟨fun a => ⟨rfl, rfl, List.prefix_append a.diagnostics [e]⟩⟩

theorem steps_reject (e : SemanticError) : Steps OnlyReports (reject e : Analyze (Option α)) :=
  .bind (steps_error e) fun _ => .pure

end Steps

namespace Analyzer

/-! ### Expressions -/

theorem resolveTypeName_steps (name : Ident) : Steps OnlyReports (resolveTypeName name) := by
  unfold resolveTypeName
  split
  · exact .pure
  · exact steps_reject _

theorem binaryResultType_steps (op : BinaryOp) (left right : Node) (line : Nat) :
    Steps OnlyReports (binaryResultType op left right line) := by
  unfold binaryResultType
  split
  · exact .pure
  · exact steps_reject _

theorem checkAssignable_steps (target : Ty) (value : Node) (operator : String) (line : Nat) :
    Steps OnlyReports (checkAssignable target value operator line) := by
  unfold checkAssignable
  split
  · exact .pure
  · exact steps_reject _

theorem checkIsValue_steps (line : Nat) (node : Node) :
    Steps OnlyReports (checkIsValue line node) := by
  unfold checkIsValue
  split
  · exact steps_reject _
  · exact .pure

theorem lowerLiteral_steps (lit : Literal) (negate : Bool) :
    Steps OnlyReports (lowerLiteral lit negate) := by
  unfold lowerLiteral
  dsimp only
  split
  · exact .pure
  · exact steps_reject _

theorem lowerVariable_steps (name : Ident) : Steps OnlyReports (lowerVariable name) := by
  refine .get fun a => ?_
  split
  · exact steps_reject _
  · exact .pure

theorem lowerIndex_steps (array : Ident) (index : Expr) :
    Steps OnlyReports (lowerIndex array index) := by
  refine .get fun a => ?_
  split
  · exact steps_reject _
  · refine .proceed fun entry => ?_
    split
    · exact steps_reject _
    · split
      · exact steps_reject _
      · split
        · exact .pure
        · exact steps_reject _

theorem matchArguments_steps (callee : Ident) (line position : Nat) (args : List (Option Node))
    (params : List Ty) : Steps OnlyReports (matchArguments callee line position args params) := by
  induction args generalizing position params with
  | nil => exact .pure
  | cons arg? args ih =>
    cases params with
    | nil => exact .pure
    | cons param params =>
      refine .bind (.proceed fun arg => ?_) fun _ => .bind (ih _ _) fun _ => .pure
      split
      · exact .pure
      · exact steps_reject _

theorem finishCall_steps (callee : Ident) (args : List (Option Node)) (line : Nat) :
    Steps OnlyReports (finishCall callee args line) := by
  refine .get fun a => ?_
  split
  · exact steps_reject _
  · refine .proceed fun f => ?_
    split
    · exact .bind (matchArguments_steps ..) fun _ => .proceed fun _ => .pure
    · exact steps_reject _

theorem lowerSigned_steps (sign : Sign) (line : Nat) (node : Node) :
    Steps OnlyReports (lowerSigned sign line node) := by
  refine .bind (checkIsValue_steps line node) fun _ => .proceed fun node => ?_
  split
  · exact .pure
  · exact steps_reject _

theorem finishBinary_steps (op : BinaryOp) (line : Nat) (left right : Node) :
    Steps OnlyReports (finishBinary op line left right) :=
  .bind (binaryResultType_steps op left right line) fun _ => .proceed fun _ => .pure

mutual

theorem lowerExpression_steps : ∀ e : Expr, Steps OnlyReports (lowerExpression e)
  | .binary op line left right => by
    have operands (left? right? : Option Node) : Steps OnlyReports
        (proceed left? fun left => proceed right? fun right => finishBinary op line left right) :=
      .proceed fun left => .proceed fun right => finishBinary_steps op line left right
    have value (line : Nat) (node? : Option Node) :
        Steps OnlyReports (proceed node? (checkIsValue line)) :=
      .proceed fun node => checkIsValue_steps line node
    unfold lowerExpression
    refine .bind (lowerExpression_steps left) fun left? => ?_
    dsimp only
    split
    · exact .bind .pure fun left? => .bind (lowerExpression_steps right) fun right? =>
        .bind .pure fun right? => operands left? right?
    · exact .bind (value left.line left?) fun left? => .bind (lowerExpression_steps right)
        fun right? => .bind (value right.line right?) fun right? => operands left? right?
  | .operand sign primary line => by
    unfold lowerExpression
    split
    · exact lowerLiteral_steps _ true
    · refine .bind (lowerPrimary_steps line primary) fun node? => ?_
      split
      · exact .pure
      · exact .proceed fun node => lowerSigned_steps _ line node

theorem lowerPrimary_steps (line : Nat) : ∀ p : Primary, Steps OnlyReports (lowerPrimary line p)
  | .literal lit => lowerLiteral_steps lit false
  | .name id => lowerVariable_steps id
  | .call callee args => by
    unfold lowerPrimary
    refine .bind (lowerValues_steps args) fun _ => .bind (finishCall_steps ..) fun _ => ?_
    refine .proceed fun call => ?_
    split
    · exact steps_reject _
    · exact .pure
  | .index array index => lowerIndex_steps array index
  | .paren inner => by
    unfold lowerPrimary
    exact lowerExpression_steps inner

theorem lowerValues_steps : ∀ es : List Expr, Steps OnlyReports (lowerValues es)
  | [] => .pure
  | e :: es => by
    unfold lowerValues
    refine .bind (lowerExpression_steps e) fun _ => ?_
    refine .bind (.proceed fun node => checkIsValue_steps e.line node) fun _ => ?_
    exact .bind (lowerValues_steps es) fun _ => .pure

end

theorem lowerValue_steps (e : Expr) : Steps OnlyReports (lowerValue e) :=
  .bind (lowerExpression_steps e) fun _ => .proceed fun node => checkIsValue_steps e.line node

theorem lowerCall_steps (callee : Ident) (args : List Expr) (line : Nat) :
    Steps OnlyReports (lowerCall callee args line) :=
  .bind (lowerValues_steps args) fun _ => finishCall_steps ..

theorem lowerCondition_steps (e : Expr) (construct : String) (line : Nat) :
    Steps OnlyReports (lowerCondition e construct line) := by
  refine .bind (lowerExpression_steps e) fun _ => .proceed fun node => ?_
  split
  · exact .pure
  · exact steps_reject _

theorem checkExpressions_steps (es : List Expr) : Steps OnlyReports (checkExpressions es) := by
  induction es with
  | nil => exact .pure
  | cons e es ih => exact .bind (lowerExpression_steps e) fun _ => ih

theorem lowerTarget_steps (target : Target) : Steps OnlyReports (lowerTarget target) := by
  have scalar (node? : Option Node) : Steps OnlyReports (proceed node? fun node =>
      if node.ty.isScalar then return some node
      else reject (.typeMismatch target.line "=" node.ty node.ty)) := by
    refine .proceed fun node => ?_
    split
    · exact .pure
    · exact steps_reject _
  cases target with
  | name id => exact .bind (lowerVariable_steps id) scalar
  | index array index => exact .bind (lowerIndex_steps array index) scalar

/-! ### Declarations -/

theorem declareIn_steps (s : Scope) (name : Ident) (ty : Ty) (array? : Option ArrayShape) :
    Steps (ExtendsIn s) (declareIn s name ty array?) := by
  refine ⟨fun a => ?_⟩
  have grows := a.tables.addVariable_addsOnly s ⟨name.name, name.line, ty, array?⟩
  simp only [declareIn, StateT.run_bind, StateT.run_get, pure_bind, StateT.run_modify]
  -- The tables are what the addition leaves; only its error is still to be recorded.
  have added : a.ExtendsIn s { a with tables := _ } := ⟨grows, rfl, List.prefix_rfl⟩
  refine trans_of (ExtendsIn s) added (OnlyReports.extendsIn (Steps.run ?_ _))
  split
  · exact .pure
  · exact .pure
  · exact steps_reject _

theorem lowerResultCall_steps (callee : Ident) (args : List Expr) (targets line : Nat) :
    Steps OnlyReports (lowerResultCall callee args targets line) := by
  refine .bind (lowerCall_steps ..) fun _ => .proceed fun call => .get fun a => ?_
  refine .proceed fun returns => ?_
  split
  · exact .pure
  · exact steps_reject _

/-! ### Assignments, input and output, return -/

theorem lowerTargets_steps (targets : List Target) : Steps OnlyReports (lowerTargets targets) := by
  induction targets with
  | nil => exact .pure
  | cons target targets ih =>
    exact .bind (lowerTarget_steps target) fun _ => .bind ih fun _ => .pure

theorem matchResults_steps (line : Nat) (targets : List (Option Node)) (results : List Ty) :
    Steps OnlyReports (matchResults line targets results) := by
  induction targets generalizing results with
  | nil => exact .pure
  | cons target? targets ih =>
    cases results with
    | nil => exact .pure
    | cons result results =>
      refine .proceed fun target => ?_
      split
      · exact .bind (ih _) fun _ => .pure
      · exact steps_reject _

theorem assignPairs_steps (line : Nat) (targets : List (Option Node)) (values : List Expr) :
    Steps OnlyReports (assignPairs line targets values) := by
  induction targets generalizing values with
  | nil => exact .pure
  | cons target? targets ih =>
    cases values with
    | nil => exact .pure
    | cons value values =>
      refine .bind (lowerValue_steps value) fun value? => .bind ?_ fun _ =>
        .bind (ih _) fun _ => .pure
      exact .proceed fun target => .proceed fun value =>
        .bind (checkAssignable_steps ..) fun _ => .pure

theorem lowerAssignment_steps (targets : List Target) (values : List Expr) (line : Nat) :
    Steps OnlyReports (lowerAssignment targets values line) := by
  refine .bind (lowerTargets_steps targets) fun targets' => .get fun a => ?_
  split
  · refine .bind (lowerResultCall_steps ..) fun result? => ?_
    split
    · exact .pure
    · refine .bind (matchResults_steps ..) fun list? => ?_
      split <;> exact .pure
  · split
    · exact assignPairs_steps ..
    · exact .bind (checkExpressions_steps values) fun _ => .bind (steps_error _) fun _ => .pure

theorem lowerWrite_steps (args : List Expr) (line : Nat) :
    Steps OnlyReports (lowerWrite args line) := by
  unfold lowerWrite
  split
  · refine .bind (lowerValue_steps _) fun _ => .proceed fun value => ?_
    split
    · exact .pure
    · exact steps_reject _
  · exact steps_reject _

theorem lowerRead_steps (args : List Expr) (line : Nat) :
    Steps OnlyReports (lowerRead args line) := by
  unfold lowerRead
  split
  · split
    · exact .bind (lowerTarget_steps _) fun _ => .proceed fun _ => .pure
    · exact .bind (lowerExpression_steps _) fun _ => steps_reject _
  · exact steps_reject _

theorem lowerCallStatement_steps (callee : Ident) (args : List Expr) (line : Nat) :
    Steps OnlyReports (lowerCallStatement callee args line) := by
  refine .get fun a => ?_
  dsimp only
  split
  · exact lowerWrite_steps args line
  · split
    · exact lowerRead_steps args line
    · exact lowerCall_steps callee args line

theorem matchReturns_steps (line : Nat) (values : List (Option Node)) (results : List Ty) :
    Steps OnlyReports (matchReturns line values results) := by
  induction values generalizing results with
  | nil => exact .pure
  | cons value? values ih =>
    cases results with
    | nil => exact .pure
    | cons result results =>
      exact .bind (.proceed fun value => checkAssignable_steps ..) fun _ =>
        .bind (ih _) fun _ => .pure

theorem lowerReturn_steps (values : List Expr) (line : Nat) :
    Steps OnlyReports (lowerReturn values line) := by
  refine .get fun a => .proceed fun i => .proceed fun f => ?_
  refine .bind (lowerValues_steps values) fun values' => ?_
  split
  · exact .bind (matchReturns_steps ..) fun _ => .pure
  · exact steps_reject _

/-! ### Declarations and statements -/

/-! A relation of states holds across all declarations and statements if it holds where only errors
are new and where one variable is declared in the current scope. -/

/-- A relation that holds where only errors are new, and across the declaration of a variable in the
current scope. -/
structure Allowed (R : Analyzer → Analyzer → Prop) : Prop where
  errors : ∀ a b, OnlyReports a b → R a b
  declares : ∀ name ty array?, Steps R (declareVariable name ty array?)

theorem Allowed.reports {R : Analyzer → Analyzer → Prop} {α : Type} {x : Analyze α}
    (allowed : Allowed R) (h : Steps OnlyReports x) : Steps R x :=
  h.mono allowed.errors

section Allowed

variable {R : Analyzer → Analyzer → Prop} [IsPreorder Analyzer R] (allowed : Allowed R)

include allowed

theorem declareNames_steps (ty : Ty) (array? : Option ArrayShape) (names : List Ident) :
    Steps R (declareNames ty array? names) := by
  induction names with
  | nil => exact .pure
  | cons name names ih =>
    refine .bind (allowed.declares ..) fun v? => .bind ih fun nodes => ?_
    split <;> exact .pure

theorem declareResults_steps (declared : Option Ty) (operator : String) (line : Nat)
    (names : List Ident) (results : List Ty) :
    Steps R (declareResults declared operator line names results) := by
  induction names generalizing results with
  | nil => exact .pure
  | cons name names ih =>
    cases results with
    | nil => exact .pure
    | cons result results =>
      unfold declareResults
      dsimp only
      split
      on_goal 1 => refine .bind (allowed.reports (steps_error _)) fun _ => ?_
      all_goals
        refine .bind (allowed.declares ..) fun v? => .bind (ih _) fun rest? => ?_
        split <;> exact .pure

theorem declareInitialized_steps (declared : Option Ty) (operator : String) (line : Nat)
    (name : Ident) (value? : Option Node) :
    Steps R (declareInitialized declared operator line name value?) := by
  unfold declareInitialized
  split
  · split
    · exact .bind (allowed.declares ..) fun _ => .pure
    · exact .pure
  · dsimp only
    split
    · exact .bind (allowed.reports (steps_error _)) fun _ => .pure
    · refine .bind (allowed.reports (checkAssignable_steps ..)) fun value? => ?_
      refine .bind (allowed.declares ..) fun v? => ?_
      split <;> exact .pure

theorem declarePairs_steps (declared : Option Ty) (operator : String) (line : Nat)
    (names : List Ident) (values : List (Option Node)) :
    Steps R (declarePairs declared operator line names values) := by
  induction names generalizing values with
  | nil => exact .pure
  | cons name names ih =>
    cases values with
    | nil => exact .pure
    | cons value? values =>
      exact .bind (declareInitialized_steps allowed ..) fun _ => .bind (ih _) fun _ => .pure

theorem lowerDeclaration_steps (names : List Ident) (declared : Option Ty) (values : List Expr)
    (operator : String) (line : Nat) :
    Steps R (lowerDeclaration names declared values operator line) := by
  refine .get fun a => ?_
  split
  · refine .bind (allowed.reports (lowerResultCall_steps ..)) fun result? => ?_
    split
    · exact .pure
    · refine .bind (declareResults_steps allowed ..) fun targets? => ?_
      split <;> exact .pure
  · split
    · exact .bind (allowed.reports (lowerValues_steps values)) fun _ =>
        declarePairs_steps allowed ..
    · exact .bind (allowed.reports (checkExpressions_steps values)) fun _ =>
        .bind (allowed.reports (steps_error _)) fun _ => .pure

theorem lowerArraySpec_steps (spec : VarSpec) (length : Expr) (element : Ident) (line : Nat) :
    Steps R (lowerArraySpec spec length element line) := by
  unfold lowerArraySpec
  refine .bind (allowed.reports (resolveTypeName_steps element)) fun element? => ?_
  dsimp only
  split
  -- What is left is the same behind an error as without one.
  on_goal 1 => refine .bind (allowed.reports (steps_error _)) fun _ => ?_
  all_goals
    split
    · exact .bind (allowed.reports (lowerValue_steps _)) fun _ =>
        .bind (allowed.reports (steps_error _)) fun _ => .pure
    · split
      · exact declareNames_steps allowed ..
      · exact .pure

theorem lowerVarSpec_steps (spec : VarSpec) : Steps R (lowerVarSpec spec) := by
  unfold lowerVarSpec
  split
  · exact lowerArraySpec_steps allowed ..
  · refine .bind (allowed.reports (resolveTypeName_steps _)) fun ty? => ?_
    split
    · split
      · exact declareNames_steps allowed ..
      · exact lowerDeclaration_steps allowed ..
    · exact .bind (allowed.reports (checkExpressions_steps _)) fun _ => .pure
  · exact lowerDeclaration_steps allowed ..

theorem lowerVarSpecs_steps (specs : List VarSpec) : Steps R (lowerVarSpecs specs) := by
  induction specs with
  | nil => exact .pure
  | cons spec specs ih =>
    exact .bind (lowerVarSpec_steps allowed spec) fun _ => .bind ih fun _ => .pure

theorem lowerVarDecl_steps (decl : VarDecl) : Steps R (lowerVarDecl decl) :=
  lowerVarSpecs_steps allowed decl.specs

end Allowed

section Statements

variable {R : Analyzer → Analyzer → Prop} [IsPreorder Analyzer R]

mutual

theorem lowerStatement_steps (allowed : Allowed R) : ∀ stmt : Stmt, Steps R (lowerStatement stmt)
  | .var decl => lowerVarDecl_steps allowed decl
  | .define .. => lowerDeclaration_steps allowed ..
  | .assign .. => (allowed.reports (lowerAssignment_steps ..))
  | .cond stmt => by
    unfold lowerStatement
    exact .bind (lowerIf_steps allowed stmt) fun _ => .pure
  | .loop condition body line => by
    unfold lowerStatement
    exact .bind (allowed.reports (lowerCondition_steps ..)) fun _ =>
      .bind (lowerBlock_steps allowed body) fun _ => .pure
  | .ret .. => .bind (allowed.reports (lowerReturn_steps ..)) fun _ => .pure
  | .call .. => .bind (allowed.reports (lowerCallStatement_steps ..)) fun _ => .pure
  | .block body => by
    unfold lowerStatement
    exact .bind (lowerBlock_steps allowed body) fun _ => .pure

theorem lowerBlock_steps (allowed : Allowed R) : ∀ block : Block, Steps R (lowerBlock block)
  | .mk statements _ _ => by
    unfold lowerBlock
    exact .bind (lowerStatements_steps allowed statements) fun _ => .pure

theorem lowerStatements_steps (allowed : Allowed R) :
    ∀ stmts : List Stmt, Steps R (lowerStatements stmts)
  | [] => .pure
  | stmt :: stmts => by
    unfold lowerStatements
    exact .bind (lowerStatement_steps allowed stmt) fun _ =>
      .bind (lowerStatements_steps allowed stmts) fun _ => .pure

theorem lowerIf_steps (allowed : Allowed R) : ∀ stmt : IfStmt, Steps R (lowerIf stmt)
  | .mk condition body otherwise line => by
    unfold lowerIf
    refine .bind (allowed.reports (lowerCondition_steps ..)) fun _ =>
      .bind (lowerBlock_steps allowed body) fun _ => ?_
    exact .bind (lowerElse_steps allowed otherwise) fun _ => .pure

theorem lowerElse_steps (allowed : Allowed R) : ∀ branch : ElseBranch, Steps R (lowerElse branch)
  | .absent => .pure
  | .block body => by
    unfold lowerElse
    exact .bind (lowerBlock_steps allowed body) fun _ => .pure
  | .elseIf stmt => by
    unfold lowerElse
    exact .bind (lowerIf_steps allowed stmt) fun _ => .pure

end

end Statements

/-! ### The frame -/

theorem allowed_extends : Allowed Extends where
  errors _ _ := OnlyReports.extendsIn
  declares name ty array? := ⟨fun a => (declareIn_steps a.context.scope name ty array?).run a⟩

/-- The body of a function extends the scope of the function, and then the context before is
back. -/
theorem lowerFunction_steps (func : FuncDecl) (i : Nat) :
    Steps (ExtendsIn (.function i)) (lowerFunction func i) := by
  refine ⟨fun a => ?_⟩
  have body := (lowerBlock_steps allowed_extends func.body).run { a with context := .function i }
  exact ⟨body.tables, rfl, body.diagnostics⟩

/-- Expressions, values, conditions and targets leave the tables and the context of any state as
they are. A statement, a block or a declaration appends variables to the table of the scope in the
context, and a function body to the table of its function; all else stays as it is, and so does the
context. Errors are only ever recorded behind the others. -/
theorem lowering_touches_own_scope (a : Analyzer) :
    (∀ e, a.OnlyReports ((lowerExpression e).run a).2) ∧
    (∀ e, a.OnlyReports ((lowerValue e).run a).2) ∧
    (∀ e construct line, a.OnlyReports ((lowerCondition e construct line).run a).2) ∧
    (∀ target, a.OnlyReports ((lowerTarget target).run a).2) ∧
    (∀ stmt, a.ExtendsIn a.context.scope ((lowerStatement stmt).run a).2) ∧
    (∀ block, a.ExtendsIn a.context.scope ((lowerBlock block).run a).2) ∧
    (∀ decl, a.ExtendsIn a.context.scope ((lowerVarDecl decl).run a).2) ∧
    (∀ func i, a.ExtendsIn (.function i) ((lowerFunction func i).run a).2) :=
  ⟨fun e => (lowerExpression_steps e).run a, fun e => (lowerValue_steps e).run a,
    fun e construct line => (lowerCondition_steps e construct line).run a,
    fun target => (lowerTarget_steps target).run a,
      fun stmt => (lowerStatement_steps allowed_extends stmt).run a,
    fun block => (lowerBlock_steps allowed_extends block).run a,
      fun decl => (lowerVarDecl_steps allowed_extends decl).run a,
    fun func i => (lowerFunction_steps func i).run a⟩

/-! ### A whole program -/

/-- States of which the second has all functions, variables and errors of the first, at the same
places, and the same context. -/
structure Keeps (a b : Analyzer) : Prop where
  signatures : a.tables.functions.entries.map FuncEntry.signature <+:
    b.tables.functions.entries.map FuncEntry.signature
  vars : ∀ v x, a.tables.var? v = some x → b.tables.var? v = some x
  context : b.context = a.context
  diagnostics : a.diagnostics <+: b.diagnostics

instance : IsPreorder Analyzer Keeps where
  refl _ := ⟨List.prefix_rfl, fun _ _ => id, rfl, List.prefix_rfl⟩
  trans _ _ _ h k :=
    ⟨h.signatures.trans k.signatures, fun v x entry => k.vars v x (h.vars v x entry),
      k.context.trans h.context, h.diagnostics.trans k.diagnostics⟩

theorem ExtendsIn.keeps {a b : Analyzer} {s : Scope} (h : a.ExtendsIn s b) : a.Keeps b where
  signatures := h.tables.signatures ▸ List.prefix_rfl
  vars v x entry := by
    obtain ⟨vars, table, found⟩ := Option.bind_eq_some_iff.1 entry
    by_cases own : v.scope = s
    · obtain ⟨new, eq⟩ := h.tables.own
      rw [← own, table, Option.map_some] at eq
      have bound : v.slot < vars.entries.length := (List.getElem?_eq_some_iff.1 found).1
      rw [Registry.var?, eq, Option.bind_some, VarRegistry.get?, VarRegistry.entries_append,
        List.getElem?_append_left bound]
      exact found
    · rw [Registry.var?, h.tables.apart v.scope own]
      exact entry
  context := h.context
  diagnostics := h.diagnostics

theorem allowed_keeps : Allowed Keeps where
  errors _ _ h := ExtendsIn.keeps (s := .globals) h.extendsIn
  declares name ty array? := (allowed_extends.declares name ty array?).mono fun _ _ =>
    ExtendsIn.keeps

/-- A new function stands behind the others. -/
theorem addFunction_keeps (name : String) (line : Nat) (params returns : List Ty) (a : Analyzer) :
    a.Keeps
      { a with tables := ((Registry.addFunction name line params returns).run a.tables).2 } := by
  have run : ((Registry.addFunction name line params returns).run a.tables).2 =
      { a.tables with functions :=
        ((FuncRegistry.addFunction name line params returns).run a.tables.functions).2 } := rfl
  rw [run]
  simp only [FuncRegistry.addFunction, StateT.run_bind, StateT.run_get, pure_bind]
  split
  · exact refl_of Keeps a
  · refine ⟨?_, fun v x entry => ?_, rfl, List.prefix_rfl⟩
    · show _ <+: (a.tables.functions.entries ++ [_]).map FuncEntry.signature
      rw [List.map_append]
      exact List.prefix_append _ _
    · obtain ⟨slot, scope⟩ := v
      cases scope with
      | globals => exact entry
      | function i =>
        obtain ⟨vars, table, found⟩ := Option.bind_eq_some_iff.1 entry
        obtain ⟨f, function, rfl⟩ := Option.map_eq_some_iff.1 table
        have bound : i < a.tables.functions.entries.length :=
          (List.getElem?_eq_some_iff.1 function).1
        refine Option.bind_eq_some_iff.2 ⟨f.vars, ?_, found⟩
        show ((a.tables.functions.entries ++ [_])[i]?).map FuncEntry.vars = _
        rw [List.getElem?_append_left bound]
        exact table

theorem lowerParams_steps (groups : List ParamGroup) : Steps OnlyReports (lowerParams groups) := by
  induction groups with
  | nil => exact .pure
  | cons group groups ih =>
    exact .bind (resolveTypeName_steps _) fun _ => .bind ih fun _ => .pure

theorem lowerResults_steps (results : List Ident) : Steps OnlyReports (lowerResults results) := by
  induction results with
  | nil => exact .pure
  | cons result results ih =>
    exact .bind (resolveTypeName_steps _) fun _ => .bind ih fun _ => .pure

theorem declareParams_steps (s : Scope) (params : List (Ident × Ty)) :
    Steps (ExtendsIn s) (declareParams s params) := by
  induction params with
  | nil => exact .pure
  | cons param params ih => exact .bind (declareIn_steps ..) fun _ => ih

theorem declareFunction_steps (func : FuncDecl) : Steps Keeps (declareFunction func) := by
  refine .bind (allowed_keeps.reports (lowerParams_steps _)) fun params? =>
    .bind (allowed_keeps.reports (lowerResults_steps _)) fun returns? => ?_
  split
  · rename_i params returns
    refine ⟨fun a => ?_⟩
    simp only [StateT.run_bind, StateT.run_get, pure_bind, StateT.run_modify]
    refine trans_of Keeps (addFunction_keeps _ _ _ _ a) (Steps.run ?_ _)
    split
    · exact allowed_keeps.reports (steps_reject _)
    · exact .bind ((declareParams_steps ..).mono fun _ _ => ExtendsIn.keeps) fun _ => .pure
  · exact .pure

theorem checkMain_steps (file : File) : Steps OnlyReports (checkMain file) := by
  refine .get fun a => ?_
  dsimp only
  split
  · exact steps_error _
  · split
    · exact .pure
    · split
      · exact .pure
      · exact steps_error _

/-- A relation holds across the analysis of a program if it holds across its declarations and across
the bodies of its functions. -/
theorem lowerProgram_steps {R : Analyzer → Analyzer → Prop} [IsPreorder Analyzer R]
    (allowed : Allowed R) (declares : ∀ func, Steps R (declareFunction func))
    (enters : ∀ func i, Steps R (lowerFunction func i)) (file : File) :
    Steps R (lowerProgram file) := by
  have globals (decls : List VarDecl) : Steps R (lowerGlobals decls) := by
    induction decls with
    | nil => exact .pure
    | cons decl decls ih =>
      exact .bind (lowerVarDecl_steps allowed decl) fun _ => .bind ih fun _ => .pure
  have declared (funcs : List FuncDecl) : Steps R (declareFunctions funcs) := by
    induction funcs with
    | nil => exact .pure
    | cons func funcs ih => exact .bind (declares func) fun _ => .bind ih fun _ => .pure
  have bodies (funcs : List FuncDecl) (indices : List (Option Nat)) :
      Steps R (lowerFunctions funcs indices) := by
    induction funcs generalizing indices with
    | nil => exact .pure
    | cons func funcs ih =>
      match indices with
      | [] => exact .pure
      | none :: indices => exact ih indices
      | some i :: indices => exact .bind (enters func i) fun _ => .bind (ih indices) fun _ => .pure
  refine .bind (globals _) fun _ => .bind (declared _) fun _ => ?_
  exact .bind (allowed.reports (checkMain_steps file)) fun _ => .bind (bodies _ _) fun _ => .pure

/-- In the analysis of a program, nothing that is declared or recorded is lost: each variable and
function stays at its place, each error stays in front of the later ones. -/
theorem lowerProgram_keeps (file : File) : Steps Keeps (lowerProgram file) :=
  lowerProgram_steps allowed_keeps declareFunction_steps
    (fun func i => (lowerFunction_steps func i).mono fun _ _ => ExtendsIn.keeps) file

end Analyzer

end MiniGo
