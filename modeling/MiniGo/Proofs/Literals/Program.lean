import MiniGo.Proofs.Literals.Basic
import MiniGo.Proofs.WellTyped.Clean

/-!
# The literals that an analysis reports

An analysis reports a literal only if it is too large, and each literal at most once, in the order
of the syntax tree. There is no other place at which a literal is called invalid. Some expressions
are not typed at all, such as those of a call of `write` with more than one argument, but then there
is another error.

* `Report.Blames`, `LowerBlames`: only literals of a list that are too large are reported.
* `lowerStmt_blames`, `lowerProgram_blames`: statements and programs.
* `literal_checks_agree`: each literal of a source text that is read, the expressions that it is in,
  and the analysis.
-/

namespace MiniGo

open Binary32 Report

/-! ### Reports and runs -/

namespace Report

variable {α β : Type} {ls ms : List SignedLiteral} {r : Report α} {f : α → Report β}

/-- Of legal literals, only those that are too large are called invalid, each at most once and in
order. -/
def Blames (r : Report α) (ls : List SignedLiteral) : Prop :=
  (∀ l ∈ ls, l.literal.Legal) → r.invalidLiterals.Sublist (tooLarge ls)

theorem Quiet.blames (h : r.Quiet) : r.Blames ls := by
  intro _
  rw [h]
  exact List.nil_sublist _

theorem Blames.of_rejects (h : (∀ l ∈ ls, l.literal.Legal) → r.Rejects ls) : r.Blames ls := by
  intro legal
  rw [h legal]

theorem Blames.bind (h : r.Blames ls) (h' : ∀ a, (f a).Blames ms) :
    (r >>= f).Blames (ls ++ ms) := by
  intro legal
  obtain ⟨legal, legal'⟩ := List.forall_mem_append.1 legal
  rw [invalidLiterals_bind, tooLarge_append]
  exact (h legal).append (h' _ legal')

theorem Blames.andThen (h : r.Blames ls) (h' : ∀ a, (f a).Quiet) : (r >>= f).Blames ls := by
  intro legal
  rw [invalidLiterals_bind, h', List.append_nil]
  exact h legal

theorem Quiet.andBlames (h : r.Quiet) (h' : ∀ a, (f a).Blames ls) : (r >>= f).Blames ls := by
  intro legal
  rw [invalidLiterals_bind, h, List.nil_append]
  exact h' _ legal

theorem Blames.continueWith {a? : Option α} {f : α → Report (Option β)} (h : ∀ a, (f a).Blames ls) :
    (Analysis.continueWith a? f).Blames ls := by
  cases a? with
  | none => exact Quiet.pure.blames
  | some a => exact h a

end Report

namespace Analysis

section Runs

variable {α β : Type} {ls ms : List SignedLiteral} {x : Lower α} {f : α → Lower β}

/-- What a run reports, whatever the tables are. -/
def LowerBlames (x : Lower α) (ls : List SignedLiteral) : Prop := ∀ t, (x.run t).Blames ls

theorem LowerBlames.pure {a : α} : LowerBlames (Pure.pure a) ls := fun _ => Quiet.pure.blames

theorem LowerBlames.bind (h : LowerBlames x ls) (h' : ∀ a, LowerBlames (f a) ms) :
    LowerBlames (x >>= f) (ls ++ ms) :=
  fun t => (h t).bind fun result => h' result.1 result.2

/-- A run with nothing about literals behind it. -/
theorem LowerBlames.andThen (h : LowerBlames x ls) (h' : ∀ a, LowerBlames (f a) []) :
    LowerBlames (x >>= f) ls := by
  rw [← ls.append_nil]
  exact h.bind h'

/-- A run behind one that is not about literals. -/
theorem LowerBlames.behind (h : LowerBlames x []) (h' : ∀ a, LowerBlames (f a) ls) :
    LowerBlames (x >>= f) ls :=
  h.bind h'

theorem LowerBlames.get {f : Tables → Lower β} (h : ∀ t, LowerBlames (f t) ls) :
    LowerBlames (MonadState.get >>= f) ls :=
  fun t => h t t

theorem LowerBlames.set {t : Tables} {f : PUnit → Lower β} (h : LowerBlames (f ()) ls) :
    LowerBlames (MonadStateOf.set t >>= f) ls :=
  fun _ => h t

theorem LowerBlames.report {r : Report α} (h : r.Blames ls) : LowerBlames (liftM r) ls := by
  intro t legal
  rw [invalidLiterals, errors_run_lift]
  exact h legal

/-- An error that is not about a literal. -/
theorem LowerBlames.record {e : SemanticError} (other : e.literal? = none) :
    LowerBlames (liftM (Report.record e)) [] :=
  .report (Quiet.blames (by simp [Quiet, invalidLiterals, Report.record, other]))

/-- An error that is recorded on a condition, and is not about a literal. -/
theorem LowerBlames.ifRecord {c : Prop} [Decidable c] {e : SemanticError} {f : Unit → Lower β}
    (other : e.literal? = none) (h : LowerBlames (f ()) ls) :
    LowerBlames (if c then liftM (Report.record e) >>= f else f ()) ls := by
  split
  · exact (LowerBlames.record other).behind fun _ => h
  · exact h

end Runs

variable {t : Tables} {s : Scope} {line : Nat} {operator : String}

theorem declareVariable_blames (name : Ident) (ty : Ty) (array? : Option ArrayShape) :
    LowerBlames (declareVariable s name ty array?) [] := by
  unfold declareVariable
  refine .get fun t => ?_
  split
  · exact .pure
  · split
    · exact .set .pure
    · rename_i refused
      obtain ⟨_, _, _, _, rfl⟩ := VarTable.declare_eq_error refused
      exact (LowerBlames.record rfl).andThen fun _ => .pure

theorem declareNames_blames (ty : Ty) (array? : Option ArrayShape) (names : List Ident) :
    LowerBlames (declareNames s ty array? names) [] := by
  induction names with
  | nil => exact .pure
  | cons name names ih =>
    refine (declareVariable_blames name ty array?).behind fun v? => ih.behind fun nodes => ?_
    split <;> exact .pure

theorem asCondition_quiet {construct : String} (n : Node) : Quiet (asCondition construct line n) :=
  .ite .pure (.reject rfl)

theorem assignTo_quiet (target : Ty) (value : Node) : Quiet (assignTo target value operator line) :=
  .ite .pure (.reject rfl)

theorem declareResults_blames (declared : Option Ty) (names : List Ident) (results : List Ty) :
    LowerBlames (declareResults s declared operator line names results) [] := by
  induction names generalizing results with
  | nil => exact .pure
  | cons name names ih =>
    cases results with
    | nil => exact .pure
    | cons result results =>
      refine .ifRecord rfl ?_
      refine (declareVariable_blames name _ none).behind fun v? =>
        (ih results).behind fun rest? => ?_
      split <;> exact .pure

theorem declareInitialized_blames (declared : Option Ty) (name : Ident) (value? : Option Node) :
    LowerBlames (declareInitialized s declared operator line name value?) [] := by
  unfold declareInitialized
  cases value? with
  | none =>
    cases declared with
    | none => exact .pure
    | some ty => exact (declareVariable_blames name ty none).behind fun _ => .pure
  | some value =>
    dsimp only
    split
    · exact (LowerBlames.record rfl).behind fun _ => .pure
    · refine (LowerBlames.report (assignTo_quiet _ _).blames).behind fun value? => ?_
      refine (declareVariable_blames name _ none).behind fun v? => ?_
      split <;> exact .pure

theorem declarePairs_blames (declared : Option Ty) (names : List Ident)
    (values : List (Option Node)) :
    LowerBlames (declarePairs s declared operator line names values) [] := by
  induction names generalizing values with
  | nil => exact .pure
  | cons name names ih =>
    cases values with
    | nil => exact .pure
    | cons value? values =>
      exact (declareInitialized_blames declared name value?).behind fun _ =>
        (ih values).andThen fun _ => .pure

/-! ### Expressions -/

theorem lowerExpr_blames (e : Expr) : (lowerExpr t s e).Blames e.literals :=
  .of_rejects lowerExpr_rejects

theorem lowerValues_blames (es : List Expr) : (lowerValues t s es).Blames (Expr.allLiterals es) :=
  .of_rejects lowerValues_rejects

theorem lowerValue_blames (e : Expr) : (lowerValue t s e).Blames e.literals :=
  (lowerExpr_blames e).andThen fun _ => .continueWith asValue_quiet

theorem lowerCondition_blames (e : Expr) (construct : String) :
    (lowerCondition t s e construct line).Blames e.literals :=
  (lowerExpr_blames e).andThen fun _ => .continueWith asCondition_quiet

theorem checkExprs_blames (es : List Expr) : (checkExprs t s es).Blames (Expr.allLiterals es) := by
  induction es with
  | nil => exact Quiet.pure.blames
  | cons e es ih => exact (lowerExpr_blames e).bind fun _ => ih

theorem lowerTarget_quiet (target : Target) : Quiet (lowerTarget t s target) := by
  cases target with
  | name id =>
    exact .bind (lowerVariable_quiet id) fun _ => .continueWith fun _ => .ite .pure (.reject rfl)
  | index array index =>
    exact .bind (lowerIndex_quiet array index) fun _ => .continueWith fun _ =>
      .ite .pure (.reject rfl)

theorem lowerTargets_quiet (targets : List Target) : Quiet (lowerTargets t s targets) := by
  induction targets with
  | nil => exact .pure
  | cons target targets ih =>
    exact .bind (lowerTarget_quiet target) fun _ => .bind ih fun _ => .pure

theorem lowerResultCall_blames (callee : Ident) (args : List Expr) (targets : Nat) :
    (lowerResultCall t s callee args targets line).Blames (Expr.allLiterals args) := by
  refine (lowerValues_blames args).andThen fun args => .bind (lowerCall_quiet _ _) fun _ => ?_
  exact .continueWith fun _ => .continueWith fun _ => .ite .pure (.reject rfl)

/-- A call whose results are assigned is the only value. -/
theorem allLiterals_of_resultCall? {targets : Nat} {values : List Expr} {callee : Ident}
    {args : List Expr} (h : resultCall? t targets values = some (callee, args)) :
    Expr.allLiterals values = Expr.allLiterals args := by
  obtain ⟨_, rfl⟩ := (resultCall?_eq_some h).1
  exact List.append_nil _

/-! ### Declarations -/

theorem lowerDeclaration_blames (names : List Ident) (declared : Option Ty) (values : List Expr) :
    LowerBlames (lowerDeclaration s names declared values operator line)
      (Expr.allLiterals values) := by
  unfold lowerDeclaration
  refine .get fun t => ?_
  split
  · rename_i callee args call
    rw [allLiterals_of_resultCall? call]
    refine (LowerBlames.report (lowerResultCall_blames callee args _)).andThen fun result => ?_
    split
    · exact .pure
    · refine (declareResults_blames _ _ _).behind fun targets => ?_
      split <;> exact .pure
  · split
    · exact (LowerBlames.report (lowerValues_blames values)).andThen fun _ =>
        declarePairs_blames _ _ _
    · refine (LowerBlames.report (checkExprs_blames values)).andThen fun _ => ?_
      exact (LowerBlames.record rfl).behind fun _ => .pure

theorem resolveType_quiet (name : Ident) : Quiet (resolveType name) := by
  unfold resolveType
  split
  · exact .pure
  · exact .reject rfl

theorem lowerArraySpec_blames (spec : VarSpec) (length : Expr) (element : Ident) :
    LowerBlames (lowerArraySpec s spec length element line) (Expr.allLiterals spec.values) := by
  unfold lowerArraySpec
  refine (LowerBlames.report (resolveType_quiet element).blames).behind fun element? => ?_
  refine .ifRecord rfl ?_
  split
  · rename_i value others values
    rw [values]
    refine .get fun t => (LowerBlames.report (lowerValue_blames value)).bind fun _ => ?_
    exact (LowerBlames.record rfl).behind fun _ => .pure
  · rename_i values
    rw [values]
    split
    · exact declareNames_blames _ _ _
    · exact .pure

theorem lowerVarSpec_blames (spec : VarSpec) :
    LowerBlames (lowerVarSpec s spec) (Expr.allLiterals spec.values) := by
  unfold lowerVarSpec
  split
  · exact lowerArraySpec_blames _ _ _
  · refine (LowerBlames.report (resolveType_quiet _).blames).behind fun ty? => ?_
    split
    · split
      · rename_i none
        rw [List.isEmpty_iff.1 none]
        exact declareNames_blames _ _ _
      · exact lowerDeclaration_blames _ _ _
    · refine .get fun t => ?_
      exact (LowerBlames.report (checkExprs_blames _)).andThen fun _ => .pure
  · exact lowerDeclaration_blames _ _ _

theorem lowerVarDecl_blames (decl : VarDecl) : LowerBlames (lowerVarDecl s decl) decl.literals := by
  unfold lowerVarDecl VarDecl.literals
  induction decl.specs with
  | nil => exact .pure
  | cons spec specs ih => exact (lowerVarSpec_blames spec).bind fun _ => ih.andThen fun _ => .pure

/-! ### Statements -/

theorem assignPairs_blames (targets : List (Option Node)) (values : List Expr) :
    (assignPairs t s line targets values).Blames (Expr.allLiterals values) := by
  induction values generalizing targets with
  | nil => cases targets <;> exact Quiet.pure.blames
  | cons value values ih =>
    cases targets with
    | nil => exact Quiet.pure.blames
    | cons target? targets =>
      have assign (value? : Option Node) :
        Quiet (continueWith target? fun target => continueWith value? fun value => do
          let value? ← assignTo target.ty value "=" line
          return value?.map fun value => Node.statement .assign [target, value]) :=
        .continueWith fun _ => .continueWith fun _ => .bind (assignTo_quiet _ _) fun _ => .pure
      refine (lowerValue_blames value).bind fun value? => (assign value?).andBlames fun node? => ?_
      exact (ih targets).andThen fun _ => .pure

theorem matchResults_quiet (targets : List (Option Node)) (results : List Ty) :
    Quiet (matchResults line targets results) := by
  induction targets generalizing results with
  | nil => exact .pure
  | cons target? targets ih =>
    cases results with
    | nil => exact .pure
    | cons result results =>
      exact .continueWith fun _ => .ite (.bind (ih results) fun _ => .pure) (.reject rfl)

theorem matchReturns_quiet (values : List (Option Node)) (results : List Ty) :
    Quiet (matchReturns line values results) := by
  induction values generalizing results with
  | nil => exact .pure
  | cons value? values ih =>
    cases results with
    | nil => exact .pure
    | cons result results =>
      exact .bind (.continueWith fun _ => assignTo_quiet _ _) fun _ =>
        .bind (ih results) fun _ => .pure

theorem lowerAssignment_blames (targets : List Target) (values : List Expr) :
    (lowerAssignment t s targets values line).Blames (Expr.allLiterals values) := by
  refine (lowerTargets_quiet targets).andBlames fun targets' => ?_
  split
  · rename_i callee args call
    rw [allLiterals_of_resultCall? call]
    refine (lowerResultCall_blames callee args _).andThen fun result => ?_
    split
    · exact .pure
    · refine .bind (matchResults_quiet _ _) fun list => ?_
      split <;> exact .pure
  · split
    · exact assignPairs_blames _ _
    · exact (checkExprs_blames values).andThen fun _ => rfl

theorem lowerWrite_blames (args : List Expr) :
    (lowerWrite t s args line).Blames (Expr.allLiterals args) := by
  unfold lowerWrite
  split
  · rename_i arg
    rw [Expr.allLiterals, Expr.allLiterals, List.append_nil]
    exact (lowerValue_blames arg).andThen fun _ => .continueWith fun _ => .ite .pure (.reject rfl)
  · exact (Quiet.reject rfl).blames

theorem lowerRead_blames (args : List Expr) :
    (lowerRead t s args line).Blames (Expr.allLiterals args) := by
  unfold lowerRead
  split
  · rename_i arg
    rw [Expr.allLiterals, Expr.allLiterals, List.append_nil]
    split
    · exact (Quiet.bind (lowerTarget_quiet _) fun _ => .continueWith fun _ => .pure).blames
    · exact (lowerExpr_blames arg).andThen fun _ => .reject rfl
  · exact (Quiet.reject rfl).blames

theorem lowerCallStmt_blames (callee : Ident) (args : List Expr) :
    (lowerCallStmt t s callee args line).Blames (Expr.allLiterals args) := by
  unfold lowerCallStmt
  dsimp only
  split
  · exact lowerWrite_blames args
  · split
    · exact lowerRead_blames args
    · exact (lowerValues_blames args).andThen fun _ => lowerCall_quiet _ _

theorem lowerReturn_blames (values : List Expr) :
    (lowerReturn t s values line).Blames (Expr.allLiterals values) := by
  unfold lowerReturn
  split
  · exact Quiet.pure.blames
  · refine .continueWith fun f => (lowerValues_blames values).andThen fun values' =>
      .ite ?_ (.reject rfl)
    exact .bind (matchReturns_quiet _ _) fun _ => .pure

mutual

theorem lowerStmt_blames : ∀ stmt : Stmt, LowerBlames (lowerStmt s stmt) stmt.literals
  | .var decl => lowerVarDecl_blames decl
  | .define _ values _ => lowerDeclaration_blames _ _ values
  | .assign targets values _ => .get fun _ => .report (lowerAssignment_blames targets values)
  | .cond stmt => (lowerIf_blames stmt).andThen fun _ => .pure
  | .loop condition body _ => .get fun _ =>
    (LowerBlames.report (lowerCondition_blames condition _)).bind fun _ =>
      (lowerBlock_blames body).andThen fun _ => .pure
  | .ret values _ =>
    .get fun _ => (LowerBlames.report (lowerReturn_blames values)).andThen fun _ => .pure
  | .call callee args _ =>
    .get fun _ => (LowerBlames.report (lowerCallStmt_blames callee args)).andThen fun _ => .pure
  | .block body => (lowerBlock_blames body).andThen fun _ => .pure

theorem lowerBlock_blames : ∀ block : Block, LowerBlames (lowerBlock s block) block.literals
  | .mk statements _ _ => (lowerStmts_blames statements).andThen fun _ => .pure

theorem lowerStmts_blames :
    ∀ stmts : List Stmt, LowerBlames (lowerStmts s stmts) (Stmt.allLiterals stmts)
  | [] => .pure
  | stmt :: stmts =>
    (lowerStmt_blames stmt).bind fun _ => (lowerStmts_blames stmts).andThen fun _ => .pure

theorem lowerIf_blames : ∀ stmt : IfStmt, LowerBlames (lowerIf s stmt) stmt.literals
  | .mk condition body otherwise _ => .get fun _ =>
    (LowerBlames.report (lowerCondition_blames condition _)).bind fun _ =>
      (lowerBlock_blames body).bind fun _ => (lowerElse_blames otherwise).andThen fun _ => .pure

theorem lowerElse_blames : ∀ branch : ElseBranch, LowerBlames (lowerElse s branch) branch.literals
  | .absent => .pure
  | .block body => (lowerBlock_blames body).andThen fun _ => .pure
  | .elseIf stmt => (lowerIf_blames stmt).andThen fun _ => .pure

end

/-! ### Programs -/

theorem lowerParams_quiet (groups : List ParamGroup) : Quiet (lowerParams groups) := by
  induction groups with
  | nil => exact .pure
  | cons group groups ih => exact .bind (resolveType_quiet _) fun _ => .bind ih fun _ => .pure

theorem lowerResults_quiet (results : List Ident) : Quiet (lowerResults results) := by
  induction results with
  | nil => exact .pure
  | cons result results ih => exact .bind (resolveType_quiet _) fun _ => .bind ih fun _ => .pure

theorem declareParams_blames (params : List (Ident × Ty)) :
    LowerBlames (declareParams s params) [] := by
  induction params with
  | nil => exact .pure
  | cons param params ih => exact (declareVariable_blames _ _ _).behind fun _ => ih

theorem declareFunctions_blames (funcs : List FuncDecl) :
    LowerBlames (declareFunctions funcs) [] := by
  have one (func : FuncDecl) : LowerBlames (declareFunction func) [] := by
    unfold declareFunction
    refine (LowerBlames.report (lowerParams_quiet _).blames).behind fun params? => ?_
    refine (LowerBlames.report (lowerResults_quiet _).blames).behind fun returns? => ?_
    split
    · refine .get fun t => ?_
      split
      · rename_i refused
        obtain ⟨_, _, _, _, rfl⟩ := FuncTable.declare_eq_error refused
        exact (LowerBlames.record rfl).behind fun _ => .pure
      · exact .set ((declareParams_blames _).behind fun _ => .pure)
    · exact .pure
  induction funcs with
  | nil => exact .pure
  | cons func funcs ih => exact (one func).behind fun _ => ih.behind fun _ => .pure

theorem lowerFunctions_blames (funcs : List FuncDecl) (indices : List (Option Nat)) :
    LowerBlames (lowerFunctions funcs indices) (funcs.flatMap fun func => func.body.literals) := by
  induction funcs generalizing indices with
  | nil => exact .pure
  | cons func funcs ih =>
    cases indices with
    | nil => exact .pure
    | cons index? indices =>
      cases index? with
      | none => exact (LowerBlames.pure (a := ())).bind fun _ => ih indices
      | some index =>
        have own : LowerBlames (lowerFunction func index) func.body.literals :=
          (lowerBlock_blames func.body).andThen fun _ => .pure
        exact own.bind fun _ => (ih indices).andThen fun _ => .pure

theorem lowerGlobals_blames (decls : List VarDecl) :
    LowerBlames (lowerGlobals decls) (decls.flatMap VarDecl.literals) := by
  induction decls with
  | nil => exact .pure
  | cons decl decls ih => exact (lowerVarDecl_blames decl).bind fun _ => ih.andThen fun _ => .pure

theorem checkMain_quiet (t : Tables) (file : File) : Quiet (checkMain t file) := by
  unfold checkMain
  split
  · rfl
  · split
    · exact .pure
    · split
      · exact .pure
      · rfl

theorem lowerProgram_blames (file : File) : LowerBlames (lowerProgram file) file.literals := by
  refine (lowerGlobals_blames _).bind fun globals =>
    (declareFunctions_blames _).behind fun indices => .get fun t => ?_
  refine (LowerBlames.report (checkMain_quiet t file).blames).behind fun _ => ?_
  exact (lowerFunctions_blames _ _).andThen fun _ => .pure

end Analysis

/-- Both checks of a literal agree. Let a source text be read as a file.

When a literal of the file is typed with its own sign, it is reported exactly if it is the magnitude
of the least integer without a minus; each other integer has its exact value, and each decimal a
finite number, with their signs. Of an expression of the file, the literals that are too large are
reported, in order. The analysis of the file reports no other literals, and none of them twice. -/
theorem literal_checks_agree {source : String} {file : File} (h : File.parse source = .ok file) :
    (∀ l ∈ file.literals, ∀ t s line,
      l.Checked (Analysis.lowerExpr t s (.operand l.sign (.literal l.literal) line))) ∧
    (∀ e : Expr, e.literals ⊆ file.literals → ∀ t s,
      (Analysis.lowerExpr t s e).invalidLiterals = tooLarge e.literals) ∧
    List.Sublist ((Analysis.lowerProgram file).run {}).invalidLiterals
      (tooLarge file.literals) := by
  have legal := File.legal_of_mem_literals h
  refine ⟨fun l mem => Analysis.checked_of_legal (legal l mem), fun e inside t s => ?_, ?_⟩
  · exact Analysis.lowerExpr_rejects fun l mem => legal l (inside mem)
  · exact Analysis.lowerProgram_blames file {} legal

/-- Integers of the same magnitude with a minus, without a sign, with a plus and with a minus in
front of parentheses, an integer with leading zeros, and decimals. -/
def magnitudesSource : String :=
  "func main() \x7b\nvar a, b int = -2147483648, 002147483648\n" ++
    "a = +2147483648 - 000000000000000000000002147483647\n" ++
    "b = -(2147483648)\nvar x, y float = -.5e1, 1e-50\n\x7d\n"

/-- Three of them are too large. -/
theorem magnitudesSource_checks_agree :
    ∃ file, File.parse magnitudesSource = .ok file ∧ file.literals.length = 7 ∧
    tooLarge file.literals = [("002147483648", 2), ("2147483648", 3), ("2147483648", 4)] ∧
    (∀ l ∈ file.literals, ∀ t s line,
      l.Checked (Analysis.lowerExpr t s (.operand l.sign (.literal l.literal) line))) ∧
    (∀ e : Expr, e.literals ⊆ file.literals → ∀ t s,
      (Analysis.lowerExpr t s e).invalidLiterals = tooLarge e.literals) ∧
    List.Sublist ((Analysis.lowerProgram file).run {}).invalidLiterals
      (tooLarge file.literals) := by
  have literals : (File.parse magnitudesSource).toOption.map
      (fun f => (f.literals.length, tooLarge f.literals)) =
        some (7, [("002147483648", 2), ("2147483648", 3), ("2147483648", 4)]) := by decide +kernel
  cases parsed : File.parse magnitudesSource with
  | error e =>
    rw [parsed] at literals
    cases literals
  | ok file =>
    rw [parsed] at literals
    obtain ⟨count, large⟩ := Prod.mk.inj (Option.some.inj literals)
    exact ⟨file, rfl, count, large, literal_checks_agree parsed⟩

end MiniGo
