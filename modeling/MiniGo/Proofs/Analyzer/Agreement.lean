import MiniGo.Analyzer.Program
import MiniGo.Proofs.Analyzer.Index

/-!
# The analyzer and the functions of an analysis

The functions in `Analysis` say what a part of an analysis gives: from symbol tables and a scope
they give a result, the errors on the way to it, and new tables. The analyzer keeps all of this in
its state. Both do the same: its result is the same, its tables have the same entries, and the
errors come behind those that are recorded already.

* `ReportsAs`, `RunsAs`: agreement of a part of an analysis with a report, and with a run on tables.
* `lowerExpression_reportsAs`, `lowerStatement_runsAs`: expressions and statements.
* `analyze_eq_report`: the result for a whole file.
-/

namespace MiniGo

open Analyzer

/-! ### Agreement -/

/-- In given tables and a context, a part of an analysis gives the value of a report and records its
errors. Nothing else changes. -/
structure ReportsAs {α : Type} (c : AnalysisContext) (t : Tables) (x : Analyze α) (r : Report α) :
    Prop where
  run : ∀ errors, x.run ⟨t.indexed, errors, c⟩ = (r.value, ⟨t.indexed, errors ++ r.errors, c⟩)

/-- In given tables and a context, a part of an analysis does what a run on the tables does. -/
structure RunsAs {α : Type} (c : AnalysisContext) (t : Tables) (x : Analyze α) (y : Lower α) :
    Prop where
  run : ∀ errors, x.run ⟨t.indexed, errors, c⟩ =
    ((y.run t).value.1, ⟨(y.run t).value.2.indexed, errors ++ (y.run t).errors, c⟩)

section Rules

variable {α β : Type} {c : AnalysisContext} {t : Tables} {x : Analyze α} {r : Report α}
  {f : α → Analyze β} {e : SemanticError}

/-! ### Rules for reports -/

theorem ReportsAs.pure (a : α) : ReportsAs c t (Pure.pure a) (Pure.pure a) where
  run errors := by
    simp only [StateT.run_pure, Report.value_pure, Report.errors_pure, List.append_nil]
    rfl

theorem ReportsAs.bind {g : α → Report β} (h : ReportsAs c t x r)
    (next : ∀ a, ReportsAs c t (f a) (g a)) :
    ReportsAs c t (x >>= f) (r >>= g) where
  run errors := by
    have second := (next r.value).run (errors ++ r.errors)
    rw [List.append_assoc] at second
    rw [StateT.run_bind, h.run errors]
    exact second

/-- One of two steps comes first. -/
theorem ReportsAs.bindIf {p : Prop} [Decidable p] {x' : Analyze α} {r' : Report α}
    {g : α → Report β} (h : ReportsAs c t (if p then x else x') (if p then r else r'))
    (next : ∀ a, ReportsAs c t (f a) (g a)) :
    ReportsAs c t (if p then x >>= f else x' >>= f) (if p then r >>= g else r' >>= g) := by
  split at h
  · simpa [*] using h.bind next
  · simpa [*] using h.bind next

theorem ReportsAs.error (e : SemanticError) : ReportsAs c t (Analyzer.error e) (Report.record e) :=
  ⟨fun _ => rfl⟩

theorem ReportsAs.reject (e : SemanticError) :
    ReportsAs c t (Analyzer.reject e : Analyze (Option α)) (Report.reject e) :=
  ⟨fun _ => rfl⟩

theorem ReportsAs.proceed {a? : Option α} {f : α → Analyze (Option β)} {g : α → Report (Option β)}
    (next : ∀ a, ReportsAs c t (f a) (g a)) :
    ReportsAs c t (Analyzer.proceed a? f) (Analysis.continueWith a? g) := by
  cases a? with
  | none => exact .pure none
  | some a => exact next a

/-- The state is read first. Only its tables and its context matter. -/
theorem ReportsAs.get {f : Analyzer → Analyze α}
    (h : ∀ errors, ReportsAs c t (f ⟨t.indexed, errors, c⟩) r) :
    ReportsAs c t (MonadState.get >>= f) r :=
  ⟨fun errors => (h errors).run errors⟩

/-! ### Rules for runs -/

theorem RunsAs.lift (h : ReportsAs c t x r) : RunsAs c t x (liftM r) where
  run errors := by
    have run : (liftM r : Lower α).run t = ⟨(r.value, t), r.errors ++ []⟩ := rfl
    rw [run, h.run errors, List.append_nil]

theorem RunsAs.pure (a : α) : RunsAs c t (Pure.pure a) (Pure.pure a : Lower α) :=
  .lift (.pure a)

theorem RunsAs.bind {y : Lower α} {g : α → Lower β} (h : RunsAs c t x y)
    (next : ∀ a t', RunsAs c t' (f a) (g a)) : RunsAs c t (x >>= f) (y >>= g) where
  run errors := by
    have second := (next (y.run t).value.1 (y.run t).value.2).run (errors ++ (y.run t).errors)
    rw [List.append_assoc] at second
    rw [StateT.run_bind, h.run errors]
    exact second

/-- A report comes first, which leaves the tables alone. -/
theorem RunsAs.report {g : α → Lower β} (h : ReportsAs c t x r)
    (next : ∀ a, RunsAs c t (f a) (g a)) : RunsAs c t (x >>= f) (liftM r >>= g) where
  run errors := by
    have second := (next r.value).run (errors ++ r.errors)
    rw [List.append_assoc] at second
    have run : (liftM r >>= g : Lower β).run t =
        ⟨((g r.value).run t).value, (r.errors ++ []) ++ ((g r.value).run t).errors⟩ := rfl
    rw [StateT.run_bind, h.run errors, run, List.append_nil]
    exact second

/-- An error may be recorded first. -/
theorem RunsAs.ifError {p : Prop} [Decidable p] {f : Unit → Analyze β} {g : Unit → Lower β}
    (next : RunsAs c t (f ()) (g ())) :
    RunsAs c t (if p then Analyzer.error e >>= f else f ())
      (if p then liftM (Report.record e) >>= g else g ()) := by
  split
  · exact .report (.error e) fun _ => next
  · exact next

theorem RunsAs.get {y : Tables → Lower α} (h : RunsAs c t x (y t)) :
    RunsAs c t x (MonadState.get >>= y) :=
  ⟨h.run⟩

/-- The state is read first. Only its tables and its context matter. -/
theorem RunsAs.read {f : Analyzer → Analyze α} {y : Lower α}
    (h : ∀ errors, RunsAs c t (f ⟨t.indexed, errors, c⟩) y) :
    RunsAs c t (MonadState.get >>= f) y :=
  ⟨fun errors => (h errors).run errors⟩

end Rules

variable {c : AnalysisContext} {t : Tables}

/-! ### Expressions -/

namespace Analyzer

theorem resolveTypeName_reportsAs (name : Ident) :
    ReportsAs c t (resolveTypeName name) (Analysis.resolveType name) := by
  unfold resolveTypeName Analysis.resolveType
  cases Ty.ofName? name.name with
  | some ty => exact .pure _
  | none => exact .reject _

theorem binaryResultType_reportsAs (op : BinaryOp) (left right : Node) (line : Nat) :
    ReportsAs c t (binaryResultType op left right line) (Analysis.binaryTy op left right line) := by
  unfold binaryResultType Analysis.binaryTy
  cases Analysis.binaryTy? op left right with
  | some ty => exact .pure _
  | none => exact .reject _

theorem checkAssignable_reportsAs (target : Ty) (value : Node) (operator : String) (line : Nat) :
    ReportsAs c t (checkAssignable target value operator line)
      (Analysis.assignTo target value operator line) := by
  unfold checkAssignable Analysis.assignTo
  split
  · exact .pure _
  · exact .reject _

theorem checkIsValue_reportsAs (line : Nat) (node : Node) :
    ReportsAs c t (checkIsValue line node) (Analysis.asValue line node) := by
  unfold checkIsValue Analysis.asValue
  split
  · exact .reject _
  · exact .pure _

theorem lowerLiteral_reportsAs (lit : Literal) (negate : Bool) :
    ReportsAs c t (lowerLiteral lit negate) (Analysis.lowerLiteral lit negate) := by
  obtain ⟨kind, text, line⟩ := lit
  unfold lowerLiteral Analysis.lowerLiteral
  cases kind with
  | int =>
    dsimp only
    cases Analysis.intLiteral? text negate with
    | some node => exact .pure _
    | none => exact .reject _
  | float =>
    dsimp only
    cases Analysis.floatLiteral? text negate with
    | some node => exact .pure _
    | none => exact .reject _
  | string => exact .pure _
  | bool => exact .pure _

theorem lowerVariable_reportsAs (name : Ident) :
    ReportsAs c t (lowerVariable name) (Analysis.lowerVariable t c.scope name) := by
  refine .get fun errors => ?_
  unfold Analysis.lowerVariable
  simp only [Tables.resolve?_indexed, Tables.var?_indexed]
  cases t.resolve? name.name c.scope with
  | none => exact .reject _
  | some v => exact .pure _

theorem lowerIndex_reportsAs (array : Ident) (index : Expr) :
    ReportsAs c t (lowerIndex array index) (Analysis.lowerIndex t c.scope array index) := by
  refine .get fun errors => ?_
  unfold Analysis.lowerIndex
  simp only [Tables.resolve?_indexed, Tables.var?_indexed]
  cases t.resolve? array.name c.scope with
  | none => exact .reject _
  | some v =>
    refine .proceed fun entry => ?_
    cases entry.array? with
    | none => exact .reject _
    | some shape =>
      cases Analysis.constantInt? index with
      | none => exact .reject _
      | some i =>
        dsimp only
        split
        · exact .pure _
        · exact .reject _

theorem matchArguments_reportsAs (callee : Ident) (line position : Nat) (args : List (Option Node))
    (params : List Ty) :
    ReportsAs c t (matchArguments callee line position args params)
      (Analysis.matchArguments callee line position args params) := by
  induction args generalizing position params with
  | nil => exact .pure _
  | cons arg? args ih =>
    cases params with
    | nil => exact .pure _
    | cons param params =>
      refine .bind (.proceed fun arg => ?_) fun _ => .bind (ih _ _) fun _ => .pure _
      split
      · exact .pure _
      · exact .reject _

theorem finishCall_reportsAs (callee : Ident) (args : List (Option Node)) (line : Nat) :
    ReportsAs c t (finishCall callee args line) (Analysis.lowerCall t callee args line) := by
  refine .get fun errors => ?_
  unfold Analysis.lowerCall
  simp only [Tables.indexed, FuncTable.lookup?_indexed, FuncTable.get?_indexed]
  cases t.functions.find? callee.name with
  | none => exact .reject _
  | some i =>
    dsimp only
    cases t.functions.get? i with
    | none => exact .pure _
    | some f =>
      simp only [Option.map_some, proceed, Analysis.continueWith]
      show ReportsAs c t (if f.params.length = args.length then _ else _) _
      split
      · exact .bind (matchArguments_reportsAs ..) fun children? => .proceed fun children => .pure _
      · exact .reject _

theorem lowerSigned_reportsAs (sign : Sign) (line : Nat) (node : Node) :
    ReportsAs c t (lowerSigned sign line node) (Analysis.lowerSigned sign line node) := by
  refine .bind (checkIsValue_reportsAs line node) fun _ => .proceed fun node => ?_
  split
  · exact .pure _
  · exact .reject _

theorem finishBinary_reportsAs (op : BinaryOp) (line : Nat) (left right : Node) :
    ReportsAs c t (finishBinary op line left right) (Analysis.lowerOperation op line left right) :=
  .bind (binaryResultType_reportsAs op left right line) fun _ => .proceed fun _ => .pure _

/-- An operand of a logical operator may be any node, one of another operator must have a value. -/
theorem checkOperand_reportsAs (logical : Bool) (line : Nat) (node? : Option Node) :
    ReportsAs c t (if logical then pure node? else proceed node? (checkIsValue line))
      (if logical then pure node? else Analysis.continueWith node? (Analysis.asValue line)) := by
  cases logical with
  | true => exact .pure _
  | false => exact .proceed fun node => checkIsValue_reportsAs line node

mutual

theorem lowerExpression_reportsAs : ∀ e : Expr,
    ReportsAs c t (lowerExpression e) (Analysis.lowerExpr t c.scope e)
  | .binary op line left right => by
    unfold lowerExpression Analysis.lowerExpr
    refine .bind (lowerExpression_reportsAs left) fun _ =>
      .bindIf (checkOperand_reportsAs ..) fun _ => ?_
    refine .bind (lowerExpression_reportsAs right) fun _ =>
      .bindIf (checkOperand_reportsAs ..) fun _ => ?_
    exact .proceed fun left => .proceed fun right => finishBinary_reportsAs op line left right
  | .operand sign primary line => by
    unfold lowerExpression Analysis.lowerExpr
    cases Analysis.negatedLiteral? sign primary with
    | some lit => exact lowerLiteral_reportsAs lit true
    | none =>
      refine .bind (lowerPrimary_reportsAs line primary) fun node? => ?_
      cases sign with
      | none => exact .pure _
      | some sign => exact .proceed fun node => lowerSigned_reportsAs sign line node

theorem lowerPrimary_reportsAs (line : Nat) : ∀ p : Primary,
    ReportsAs c t (lowerPrimary line p) (Analysis.lowerPrimary t c.scope line p)
  | .literal lit => lowerLiteral_reportsAs lit false
  | .name id => lowerVariable_reportsAs id
  | .call callee args => by
    unfold lowerPrimary Analysis.lowerPrimary
    refine .bind (lowerValues_reportsAs args) fun args =>
      .bind (finishCall_reportsAs ..) fun _ => ?_
    refine .proceed fun call => ?_
    unfold Analysis.asCallValue
    split
    · exact .reject _
    · exact .pure _
  | .index array index => lowerIndex_reportsAs array index
  | .paren inner => by
    unfold lowerPrimary Analysis.lowerPrimary
    exact lowerExpression_reportsAs inner

theorem lowerValues_reportsAs : ∀ es : List Expr,
    ReportsAs c t (lowerValues es) (Analysis.lowerValues t c.scope es)
  | [] => .pure _
  | e :: es => by
    unfold lowerValues Analysis.lowerValues
    refine .bind (lowerExpression_reportsAs e) fun _ => ?_
    refine .bind (.proceed fun node => checkIsValue_reportsAs e.line node) fun _ => ?_
    exact .bind (lowerValues_reportsAs es) fun _ => .pure _

end

theorem lowerValue_reportsAs (e : Expr) :
    ReportsAs c t (lowerValue e) (Analysis.lowerValue t c.scope e) :=
  .bind (lowerExpression_reportsAs e) fun _ => .proceed fun node =>
    checkIsValue_reportsAs e.line node

theorem lowerCondition_reportsAs (e : Expr) (construct : String) (line : Nat) :
    ReportsAs c t (lowerCondition e construct line)
      (Analysis.lowerCondition t c.scope e construct line) := by
  refine .bind (lowerExpression_reportsAs e) fun _ => .proceed fun node => ?_
  unfold Analysis.asCondition
  split
  · exact .pure _
  · exact .reject _

theorem checkExpressions_reportsAs (es : List Expr) :
    ReportsAs c t (checkExpressions es) (Analysis.checkExprs t c.scope es) := by
  induction es with
  | nil => exact .pure _
  | cons e es ih => exact .bind (lowerExpression_reportsAs e) fun _ => ih

theorem lowerTarget_reportsAs (target : Target) :
    ReportsAs c t (lowerTarget target) (Analysis.lowerTarget t c.scope target) := by
  have scalar (node? : Option Node) : ReportsAs c t
      (proceed node? fun node =>
        if node.ty.isScalar then return some node
        else reject (.typeMismatch target.line "=" node.ty node.ty))
      (Analysis.continueWith node? fun node =>
        if node.ty.isScalar then pure (some node)
        else .reject (.typeMismatch target.line "=" node.ty node.ty)) := by
    refine .proceed fun node => ?_
    split
    · exact .pure _
    · exact .reject _
  cases target with
  | name id => exact .bind (lowerVariable_reportsAs id) scalar
  | index array index => exact .bind (lowerIndex_reportsAs array index) scalar

/-! ### Declarations -/

theorem declareIn_runsAs (s : Scope) (name : Ident) (ty : Ty) (array? : Option ArrayShape) :
    RunsAs c t (declareIn s name ty array?) (Analysis.declareVariable s name ty array?) := by
  refine ⟨fun errors => ?_⟩
  have added := t.addVariable_indexed s ⟨name.name, name.line, ty, array?⟩
  simp only [declareIn, Analysis.declareVariable, StateT.run_bind, StateT.run_get, pure_bind,
    StateT.run_modify, added]
  cases t.table? s with
  | none =>
    show (none, (⟨t.indexed, errors, c⟩ : Analyzer)) = (none, ⟨t.indexed, errors ++ [], c⟩)
    rw [List.append_nil]
  | some vars =>
    dsimp only
    cases vars.declare ⟨name.name, name.line, ty, array?⟩ with
    | ok vars' =>
      show (some (VarRef.mk vars.size s), (⟨(t.setTable vars' s).indexed, errors, c⟩ : Analyzer)) =
        (some ⟨vars.size, s⟩, ⟨(t.setTable vars' s).indexed, errors ++ [], c⟩)
      rw [List.append_nil]
    | error e => rfl

theorem declareVariable_runsAs (name : Ident) (ty : Ty) (array? : Option ArrayShape) :
    RunsAs c t (declareVariable name ty array?)
      (Analysis.declareVariable c.scope name ty array?) :=
  ⟨(declareIn_runsAs c.scope name ty array?).run⟩

theorem multiResultCall?_indexed (errors : List SemanticError) (targets : Nat)
    (values : List Expr) :
    multiResultCall? ⟨t.indexed, errors, c⟩ targets values =
      Analysis.resultCall? t targets values := by
  have functions (name : String) :
      ((t.functions.indexed.lookup? name).bind t.functions.indexed.get?) =
        ((t.functions.find? name).bind t.functions.get?).map Function.indexed := by
    rw [FuncTable.lookup?_indexed, Option.map_bind]
    exact Option.bind_congr fun i _ => t.functions.get?_indexed i
  match values with
  | [] => rfl
  | _ :: _ :: _ => rfl
  | [value] =>
    dsimp only [multiResultCall?, Analysis.resultCall?]
    cases value.call? with
    | none => rfl
    | some call =>
      dsimp only [Tables.indexed]
      rw [functions]
      cases (t.functions.find? call.1.name).bind t.functions.get? <;> rfl

theorem resultTypes?_indexed (errors : List SemanticError) (call : Node) :
    resultTypes? ⟨t.indexed, errors, c⟩ call = Analysis.resultTypes? t call := by
  unfold resultTypes? Analysis.resultTypes?
  cases call.kind with
  | call i =>
    dsimp only [Tables.indexed]
    rw [FuncTable.get?_indexed, Option.map_map]
    rfl
  | _ => rfl

theorem lowerResultCall_reportsAs (callee : Ident) (args : List Expr) (targets line : Nat) :
    ReportsAs c t (lowerResultCall callee args targets line)
      (Analysis.lowerResultCall t c.scope callee args targets line) := by
  unfold lowerResultCall lowerCall Analysis.lowerResultCall
  simp only [bind_assoc]
  refine .bind (lowerValues_reportsAs args) fun _ => .bind (finishCall_reportsAs ..) fun _ => ?_
  refine .proceed fun call => .get fun errors => ?_
  rw [resultTypes?_indexed]
  refine .proceed fun returns => ?_
  split
  · exact .pure _
  · exact .reject _

theorem declareNames_runsAs (ty : Ty) (array? : Option ArrayShape) (names : List Ident) :
    RunsAs c t (declareNames ty array? names)
      (Analysis.declareNames c.scope ty array? names) := by
  induction names generalizing t with
  | nil => exact .pure _
  | cons name names ih =>
    refine .bind (declareVariable_runsAs ..) fun v? _ => .bind ih fun nodes _ => ?_
    split <;> exact .pure _

theorem declareResults_runsAs (declared : Option Ty) (operator : String) (line : Nat)
    (names : List Ident) (results : List Ty) :
    RunsAs c t (declareResults declared operator line names results)
      (Analysis.declareResults c.scope declared operator line names results) := by
  induction names generalizing t results with
  | nil => exact .pure _
  | cons name names ih =>
    cases results with
    | nil => exact .pure _
    | cons result results =>
      unfold declareResults Analysis.declareResults
      refine .ifError (.bind (declareVariable_runsAs ..) fun v? _ => .bind (ih _) fun rest? _ => ?_)
      cases v? <;> cases rest? <;> exact .pure _

theorem declareInitialized_runsAs (declared : Option Ty) (operator : String) (line : Nat)
    (name : Ident) (value? : Option Node) :
    RunsAs c t (declareInitialized declared operator line name value?)
      (Analysis.declareInitialized c.scope declared operator line name value?) := by
  unfold declareInitialized Analysis.declareInitialized
  cases value? with
  | none =>
    cases declared with
    | none => exact .pure _
    | some ty => exact .bind (declareVariable_runsAs ..) fun _ _ => .pure _
  | some value =>
    dsimp only
    split
    · exact .report (.error _) fun _ => .pure _
    · refine .report (checkAssignable_reportsAs ..) fun value? => ?_
      refine .bind (declareVariable_runsAs ..) fun v? _ => ?_
      cases v? <;> cases value? <;> exact .pure _

theorem declarePairs_runsAs (declared : Option Ty) (operator : String) (line : Nat)
    (names : List Ident) (values : List (Option Node)) :
    RunsAs c t (declarePairs declared operator line names values)
      (Analysis.declarePairs c.scope declared operator line names values) := by
  induction names generalizing t values with
  | nil => exact .pure _
  | cons name names ih =>
    cases values with
    | nil => exact .pure _
    | cons value? values =>
      exact .bind (declareInitialized_runsAs ..) fun _ _ => .bind (ih _) fun _ _ => .pure _

theorem lowerDeclaration_runsAs (names : List Ident) (declared : Option Ty) (values : List Expr)
    (operator : String) (line : Nat) :
    RunsAs c t (lowerDeclaration names declared values operator line)
      (Analysis.lowerDeclaration c.scope names declared values operator line) := by
  refine .get (.read fun errors => ?_)
  rw [multiResultCall?_indexed]
  cases Analysis.resultCall? t names.length values with
  | some call =>
    refine .report (lowerResultCall_reportsAs ..) fun result? => ?_
    cases result? with
    | none => exact .pure _
    | some result =>
      refine .bind (declareResults_runsAs ..) fun targets? _ => ?_
      cases targets? <;> exact .pure _
  | none =>
    dsimp only
    split
    · exact .report (lowerValues_reportsAs values) fun values => declarePairs_runsAs ..
    · exact .report (checkExpressions_reportsAs values) fun _ => .report (.error _) fun _ => .pure _

theorem lowerArraySpec_runsAs (spec : VarSpec) (length : Expr) (element : Ident) (line : Nat) :
    RunsAs c t (lowerArraySpec spec length element line)
      (Analysis.lowerArraySpec c.scope spec length element line) := by
  unfold lowerArraySpec Analysis.lowerArraySpec
  refine .report (resolveTypeName_reportsAs element) fun element? => .ifError ?_
  cases spec.values with
  | cons value _ =>
    exact .get (.report (lowerValue_reportsAs _) fun _ => .report (.error _) fun _ => .pure _)
  | nil =>
    cases element? with
    | none => exact .pure _
    | some element =>
      dsimp only
      cases (Analysis.constantInt? length).filter fun i => decide (0 ≤ i) with
      | none => exact .pure _
      | some i => exact declareNames_runsAs ..

theorem lowerVarSpec_runsAs (spec : VarSpec) :
    RunsAs c t (lowerVarSpec spec) (Analysis.lowerVarSpec c.scope spec) := by
  unfold lowerVarSpec Analysis.lowerVarSpec
  cases spec.type? with
  | none => exact lowerDeclaration_runsAs ..
  | some type =>
    cases type with
    | array length element line => exact lowerArraySpec_runsAs ..
    | named name =>
      refine .report (resolveTypeName_reportsAs _) fun ty? => ?_
      cases ty? with
      | none => exact .get (.report (checkExpressions_reportsAs _) fun _ => .pure _)
      | some ty =>
        dsimp only
        split
        · exact declareNames_runsAs ..
        · exact lowerDeclaration_runsAs ..

theorem lowerVarSpecs_runsAs (specs : List VarSpec) :
    RunsAs c t (lowerVarSpecs specs) (Analysis.lowerVarSpecs c.scope specs) := by
  induction specs generalizing t with
  | nil => exact .pure _
  | cons spec specs ih =>
    exact .bind (lowerVarSpec_runsAs spec) fun _ _ => .bind ih fun _ _ => .pure _

/-! ### Statements -/

theorem lowerTargets_reportsAs (targets : List Target) :
    ReportsAs c t (lowerTargets targets) (Analysis.lowerTargets t c.scope targets) := by
  induction targets with
  | nil => exact .pure _
  | cons target targets ih =>
    exact .bind (lowerTarget_reportsAs target) fun _ => .bind ih fun _ => .pure _

theorem matchResults_reportsAs (line : Nat) (targets : List (Option Node)) (results : List Ty) :
    ReportsAs c t (matchResults line targets results)
      (Analysis.matchResults line targets results) := by
  induction targets generalizing results with
  | nil => exact .pure _
  | cons target? targets ih =>
    cases results with
    | nil => exact .pure _
    | cons result results =>
      refine .proceed fun target => ?_
      split
      · exact .bind (ih _) fun _ => .pure _
      · exact .reject _

theorem assignPairs_reportsAs (line : Nat) (targets : List (Option Node)) (values : List Expr) :
    ReportsAs c t (assignPairs line targets values)
      (Analysis.assignPairs t c.scope line targets values) := by
  induction targets generalizing values with
  | nil => exact .pure _
  | cons target? targets ih =>
    cases values with
    | nil => exact .pure _
    | cons value values =>
      refine .bind (lowerValue_reportsAs value) fun value? => .bind ?_ fun _ =>
        .bind (ih _) fun _ => .pure _
      exact .proceed fun target => .proceed fun value =>
        .bind (checkAssignable_reportsAs ..) fun _ => .pure _

theorem lowerAssignment_reportsAs (targets : List Target) (values : List Expr) (line : Nat) :
    ReportsAs c t (lowerAssignment targets values line)
      (Analysis.lowerAssignment t c.scope targets values line) := by
  refine .bind (lowerTargets_reportsAs targets) fun targets' => .get fun errors => ?_
  rw [multiResultCall?_indexed]
  cases Analysis.resultCall? t targets.length values with
  | some call =>
    refine .bind (lowerResultCall_reportsAs ..) fun result? => ?_
    cases result? with
    | none => exact .pure _
    | some result =>
      refine .bind (matchResults_reportsAs ..) fun list? => ?_
      cases list? <;> exact .pure _
  | none =>
    dsimp only
    split
    · exact assignPairs_reportsAs ..
    · exact .bind (checkExpressions_reportsAs values) fun _ => .bind (.error _) fun _ => .pure _

theorem lowerWrite_reportsAs (args : List Expr) (line : Nat) :
    ReportsAs c t (lowerWrite args line) (Analysis.lowerWrite t c.scope args line) := by
  match args with
  | [] => exact .reject _
  | _ :: _ :: _ => exact .reject _
  | [arg] =>
    refine .bind (lowerValue_reportsAs _) fun _ => .proceed fun value => ?_
    split
    · exact .pure _
    · exact .reject _

theorem lowerRead_reportsAs (args : List Expr) (line : Nat) :
    ReportsAs c t (lowerRead args line) (Analysis.lowerRead t c.scope args line) := by
  match args with
  | [] => exact .reject _
  | _ :: _ :: _ => exact .reject _
  | [arg] =>
    dsimp only [lowerRead, Analysis.lowerRead]
    cases arg.target? with
    | some target => exact .bind (lowerTarget_reportsAs _) fun _ => .proceed fun node => .pure _
    | none => exact .bind (lowerExpression_reportsAs _) fun _ => .reject _

theorem lowerCallStatement_reportsAs (callee : Ident) (args : List Expr) (line : Nat) :
    ReportsAs c t (lowerCallStatement callee args line)
      (Analysis.lowerCallStmt t c.scope callee args line) := by
  refine .get fun errors => ?_
  unfold Analysis.lowerCallStmt
  simp only [Tables.indexed, FuncTable.lookup?_indexed]
  split
  · exact lowerWrite_reportsAs args line
  · split
    · exact lowerRead_reportsAs args line
    · exact .bind (lowerValues_reportsAs args) fun _ => finishCall_reportsAs ..

theorem matchReturns_reportsAs (line : Nat) (values : List (Option Node)) (results : List Ty) :
    ReportsAs c t (matchReturns line values results)
      (Analysis.matchReturns line values results) := by
  induction values generalizing results with
  | nil => exact .pure _
  | cons value? values ih =>
    cases results with
    | nil => exact .pure _
    | cons result results =>
      exact .bind (.proceed fun value => checkAssignable_reportsAs ..) fun _ =>
        .bind (ih _) fun _ => .pure _

end Analyzer

/-- A context in which the function is the one that the scope belongs to. -/
def AnalysisContext.Plain (c : AnalysisContext) : Prop := c = .global ∨ ∃ i, c = .function i

namespace Analyzer

theorem lowerReturn_reportsAs (plain : c.Plain) (values : List Expr) (line : Nat) :
    ReportsAs c t (lowerReturn values line) (Analysis.lowerReturn t c.scope values line) := by
  refine .get fun errors => ?_
  rcases plain with rfl | ⟨i, rfl⟩
  · exact .pure none
  · have entry : t.indexed.functions.get? i = (t.functions.get? i).map Function.indexed :=
      t.functions.get?_indexed i
    dsimp only [AnalysisContext.function, proceed, Analysis.lowerReturn]
    rw [entry]
    cases t.functions.get? i with
    | none => exact .pure none
    | some f =>
      refine .bind (lowerValues_reportsAs values) fun values' => ?_
      show ReportsAs _ _ (if f.returns.length = values.length then _ else _) _
      split
      · exact .bind (matchReturns_reportsAs ..) fun _ => .pure _
      · exact .reject _

mutual

theorem lowerStatement_runsAs (plain : c.Plain) : ∀ {t : Tables} (stmt : Stmt),
    RunsAs c t (lowerStatement stmt) (Analysis.lowerStmt c.scope stmt)
  | _, .var decl => lowerVarSpecs_runsAs decl.specs
  | _, .define .. => lowerDeclaration_runsAs ..
  | _, .assign .. => .get (.lift (lowerAssignment_reportsAs ..))
  | _, .cond stmt => by
    unfold lowerStatement Analysis.lowerStmt
    exact .bind (lowerIf_runsAs plain stmt) fun _ _ => .pure _
  | _, .loop condition body line => by
    unfold lowerStatement Analysis.lowerStmt
    refine .get (.report (lowerCondition_reportsAs ..) fun _ => ?_)
    exact .bind (lowerBlock_runsAs plain body) fun _ _ => .pure _
  | _, .ret .. => .get (.report (lowerReturn_reportsAs plain ..) fun _ => .pure _)
  | _, .call .. => .get (.report (lowerCallStatement_reportsAs ..) fun _ => .pure _)
  | _, .block body => by
    unfold lowerStatement Analysis.lowerStmt
    exact .bind (lowerBlock_runsAs plain body) fun _ _ => .pure _

theorem lowerBlock_runsAs (plain : c.Plain) : ∀ {t : Tables} (block : Block),
    RunsAs c t (lowerBlock block) (Analysis.lowerBlock c.scope block)
  | _, .mk statements _ _ => by
    unfold lowerBlock Analysis.lowerBlock
    exact .bind (lowerStatements_runsAs plain statements) fun _ _ => .pure _

theorem lowerStatements_runsAs (plain : c.Plain) : ∀ {t : Tables} (stmts : List Stmt),
    RunsAs c t (lowerStatements stmts) (Analysis.lowerStmts c.scope stmts)
  | _, [] => .pure _
  | _, stmt :: stmts => by
    unfold lowerStatements Analysis.lowerStmts
    exact .bind (lowerStatement_runsAs plain stmt) fun _ _ =>
      .bind (lowerStatements_runsAs plain stmts) fun _ _ => .pure _

theorem lowerIf_runsAs (plain : c.Plain) : ∀ {t : Tables} (stmt : IfStmt),
    RunsAs c t (lowerIf stmt) (Analysis.lowerIf c.scope stmt)
  | _, .mk condition body otherwise line => by
    unfold lowerIf Analysis.lowerIf
    refine .get (.report (lowerCondition_reportsAs ..) fun _ => ?_)
    refine .bind (lowerBlock_runsAs plain body) fun _ _ => ?_
    exact .bind (lowerElse_runsAs plain otherwise) fun _ _ => .pure _

theorem lowerElse_runsAs (plain : c.Plain) : ∀ {t : Tables} (branch : ElseBranch),
    RunsAs c t (lowerElse branch) (Analysis.lowerElse c.scope branch)
  | _, .absent => .pure _
  | _, .block body => by
    unfold lowerElse Analysis.lowerElse
    exact .bind (lowerBlock_runsAs plain body) fun _ _ => .pure _
  | _, .elseIf stmt => by
    unfold lowerElse Analysis.lowerElse
    exact .bind (lowerIf_runsAs plain stmt) fun _ _ => .pure _

end

/-! ### Programs -/

theorem lowerParams_reportsAs (groups : List ParamGroup) :
    ReportsAs c t (lowerParams groups) (Analysis.lowerParams groups) := by
  induction groups with
  | nil => exact .pure _
  | cons group groups ih =>
    exact .bind (resolveTypeName_reportsAs _) fun _ => .bind ih fun _ => .pure _

theorem lowerResults_reportsAs (results : List Ident) :
    ReportsAs c t (lowerResults results) (Analysis.lowerResults results) := by
  induction results with
  | nil => exact .pure _
  | cons result results ih =>
    exact .bind (resolveTypeName_reportsAs _) fun _ => .bind ih fun _ => .pure _

theorem declareParams_runsAs (s : Scope) (params : List (Ident × Ty)) :
    RunsAs c t (declareParams s params) (Analysis.declareParams s params) := by
  induction params generalizing t with
  | nil => exact .pure _
  | cons param params ih => exact .bind (declareIn_runsAs ..) fun _ _ => ih

theorem declareFunction_runsAs (func : FuncDecl) :
    RunsAs c t (declareFunction func) (Analysis.declareFunction func) := by
  refine .report (lowerParams_reportsAs _) fun params? =>
    .report (lowerResults_reportsAs _) fun returns? => ?_
  cases params? with
  | none => exact .pure _
  | some params =>
    cases returns? with
    | none => exact .pure _
    | some returns =>
      refine ⟨fun errors => ?_⟩
      have added := t.addFunction_indexed func.name.name func.line (params.map Prod.snd) returns
      simp only [StateT.run_bind, StateT.run_get, pure_bind, StateT.run_modify, added]
      cases t.functions.declare ⟨func.name.name, func.line, params.map Prod.snd, returns, {}⟩ with
      | error e => rfl
      | ok functions =>
        have declared : RunsAs c { t with functions } _ _ :=
          .bind (declareParams_runsAs (.function t.functions.size) params) fun _ _ =>
            .pure (some t.functions.size)
        exact declared.run errors

theorem lowerFunction_runsAs (func : FuncDecl) (i : Nat) :
    RunsAs c t (lowerFunction func i) (Analysis.lowerFunction func i) := by
  refine ⟨fun errors => ?_⟩
  have body := (lowerBlock_runsAs (c := .function i) (t := t) (.inr ⟨i, rfl⟩) func.body).run errors
  have run : (Analysis.lowerFunction func i).run t =
      let r := (Analysis.lowerBlock (.function i) func.body).run t
      ⟨(.statement (.function i) [r.value.1], r.value.2), r.errors ++ []⟩ := rfl
  simp only [lowerFunction, StateT.run_bind, StateT.run_get, pure_bind, StateT.run_modify, body,
    run, List.append_nil]
  rfl

theorem checkMain_reportsAs (file : File) :
    ReportsAs c t (checkMain file) (Analysis.checkMain t file) := by
  refine .get fun errors => ?_
  unfold Analysis.checkMain
  simp only [Tables.indexed, FuncTable.lookup?_indexed, FuncTable.get?_indexed]
  cases t.functions.find? "main" with
  | none => exact .error _
  | some i =>
    dsimp only
    cases t.functions.get? i with
    | none => exact .pure _
    | some main =>
      show ReportsAs c t (if main.params.isEmpty then _ else _)
        (if main.params.isEmpty then _ else _)
      split
      · exact .pure _
      · exact .error _

theorem lowerGlobals_runsAs (decls : List VarDecl) :
    RunsAs .global t (lowerGlobals decls) (Analysis.lowerGlobals decls) := by
  induction decls generalizing t with
  | nil => exact .pure _
  | cons decl decls ih =>
    exact .bind (lowerVarSpecs_runsAs decl.specs) fun _ _ => .bind ih fun _ _ => .pure _

theorem declareFunctions_runsAs (funcs : List FuncDecl) :
    RunsAs c t (declareFunctions funcs) (Analysis.declareFunctions funcs) := by
  induction funcs generalizing t with
  | nil => exact .pure _
  | cons func funcs ih =>
    exact .bind (declareFunction_runsAs func) fun _ _ => .bind ih fun _ _ => .pure _

theorem lowerFunctions_runsAs (funcs : List FuncDecl) (indices : List (Option Nat)) :
    RunsAs c t (lowerFunctions funcs indices) (Analysis.lowerFunctions funcs indices) := by
  induction funcs generalizing t indices with
  | nil => exact .pure _
  | cons func funcs ih =>
    cases indices with
    | nil => exact .pure _
    | cons i? indices =>
      cases i? with
      | none => exact ih indices
      | some i =>
        exact .bind (lowerFunction_runsAs func i) fun _ _ => .bind (ih indices) fun _ _ => .pure _

theorem lowerProgram_runsAs (file : File) :
    RunsAs .global t (lowerProgram file) (Analysis.lowerProgram file) := by
  refine .bind (lowerGlobals_runsAs _) fun _ _ => .bind (declareFunctions_runsAs _) fun _ _ => ?_
  refine .get (.report (checkMain_reportsAs file) fun _ => ?_)
  exact .bind (lowerFunctions_runsAs ..) fun _ _ => .pure _

end Analyzer

/-- A file is analysed without errors exactly if a run on empty tables has none, and then the
program is what the run gives. -/
theorem analyze_eq_report (file : File) :
    analyze file =
      let report := (Analysis.lowerProgram file).run {}
      if report.errors.isEmpty then .ok ⟨report.value.1, report.value.2⟩
        else .error report.errors := by
  have run : (lowerProgram file).run {} = _ := (lowerProgram_runsAs (t := {}) file).run []
  simp only [analyze, run, List.nil_append, Tables.tables_indexed]

end MiniGo
