import MiniGo.Proofs.Represented.Expr
import MiniGo.Proofs.Slots.Order

/-!
# Statements without errors have their nodes

If the analysis of a declaration or a statement leaves no error, its nodes are those that its source
text asks for, no more and no less, in the same order.

* `Tables.HasScope`: the scope of a statement is one of the tables.
* `lowerVarDecl_become`: the nodes of a variable declaration.
* `lowerStmt_become`, `lowerBlock_becomes`: the nodes of statements and blocks in a function.

Each step is followed under the assumption that it records no error (`Clean`), so that none of its
exits without a node can be taken.
-/

namespace MiniGo

/-- The tables have a table for a scope. -/
def Tables.HasScope (t : Tables) (s : Scope) : Prop := (t.table? s).isSome = true

theorem Tables.HasScope.mono {t t' : Tables} {s : Scope} (h : t.HasScope s) (le : t.Extends t') :
    t'.HasScope s := by
  unfold HasScope at h ⊢
  cases s with
  | globals => rfl
  | function i =>
    simp only [Tables.table?, Option.isSome_map] at h ⊢
    obtain ⟨f, entry⟩ := Option.isSome_iff_exists.1 h
    obtain ⟨f', entry', -⟩ := le.functions entry
    rw [entry']
    rfl

/-- The scopes of functions are those of the functions that are declared. -/
theorem Tables.hasScope_function {t : Tables} {i : Nat} (declared : i < t.functions.size) :
    t.HasScope (.function i) := by
  simp only [HasScope, table?, Option.isSome_map, FuncTable.get?]
  rw [List.getElem?_eq_getElem declared]
  rfl

namespace Analysis

open Report

variable {t : Tables} {s : Scope} {operator : String} {line : Nat}

/-! ### Declarations -/

/-- A variable that is declared without an error has its entry. -/
theorem declareVariable_declared {name : Ident} {ty : Ty} {array? : Option ArrayShape}
    (scope : t.HasScope s) :
    Clean Tables.Adds t (declareVariable s name ty array?)
      fun t' v? => ∃ v, v? = some v ∧ ∀ ty, name.Declared t' s (.leaf (.varDecl v) ty) := by
  refine .newVariable scope fun {vars vars'} own declared => ?_
  refine ⟨⟨Tables.extends_setTable own declared, ?_⟩, ⟨vars.size, s⟩, rfl, fun ty => ?_⟩
  · cases s with
    | globals => rfl
    | function i => simp [Tables.setTable, FuncTable.setVars, FuncTable.size]
  · exact ⟨rfl, _, rfl, rfl, _, Tables.var?_setTable own declared, rfl⟩

theorem declareNames_declared {ty : Ty} {array? : Option ArrayShape} (names : List Ident)
    (scope : t.HasScope s) :
    Clean Tables.Adds t (declareNames s ty array? names)
      fun t' nodes => List.Forall₂ (Ident.Declared t' s) names nodes := by
  induction names generalizing t with
  | nil => exact .pure .nil
  | cons name names ih =>
    refine (declareVariable_declared scope).bind fun t' v? adds declared => ?_
    obtain ⟨v, rfl, declared⟩ := declared
    refine (ih (scope.mono adds.toExtends)).bind fun t'' nodes adds' each => .pure ?_
    exact .cons ((declared ty).mono adds'.toExtends) each

/-- Names for the results of a call. -/
theorem declareResults_declared {declared : Option Ty} (names : List Ident) (results : List Ty)
    (scope : t.HasScope s) (same : results.length = names.length) :
    Clean Tables.Adds t (declareResults s declared operator line names results)
      fun t' targets? => ∃ targets, targets? = some targets ∧
        List.Forall₂ (Ident.Declared t' s) names targets := by
  induction names generalizing t results with
  | nil => exact .pure ⟨[], rfl, .nil⟩
  | cons name names ih =>
    cases results with
    | nil => simp at same
    | cons result results =>
      refine .newResult fun _ => (declareVariable_declared scope).bind fun t' v? adds declared => ?_
      obtain ⟨v, rfl, declared⟩ := declared
      refine (ih results (scope.mono adds.toExtends) (by simpa using same)).bind
        fun t'' rest? adds' each => ?_
      obtain ⟨rest, rfl, each⟩ := each
      exact .pure ⟨_, rfl, .cons ((declared _).mono adds'.toExtends) each⟩

theorem assignTo_becomes {target : Ty} {n n' : Node} {e : Expr} (h : e.Becomes t s n)
    (assigned : (assignTo target n operator line).value = some n') : e.Becomes t s n' := by
  obtain ⟨-, rfl⟩ := value_assignTo.1 assigned
  split
  · exact h.widen
  · exact h

theorem declareInitialized_become {declared : Option Ty} {name : Ident} {e : Expr} {n : Node}
    (scope : t.HasScope s) (value : e.Becomes t s n) :
    Clean Tables.Adds t (declareInitialized s declared operator line name (some n))
      fun t' nodes => ∃ l r, nodes = [.statement .assign [l, r]] ∧ name.Declared t' s l ∧
        e.Becomes t' s r := by
  refine .initialized fun {m} _ assigned =>
    (declareVariable_declared scope).imp fun t' v? adds declared => ?_
  obtain ⟨v, rfl, declared⟩ := declared
  exact ⟨v, rfl, _, _, rfl, declared _, (assignTo_becomes value assigned).mono adds.toExtends⟩

/-- One assignment for each pair of a name and a value, if all values have their nodes. -/
theorem declarePairs_become {declared : Option Ty} (names : List Ident) {values : List Expr}
    {nodes : List Node} (scope : t.HasScope s) (same : names.length = values.length)
    (become : List.Forall₂ (Expr.Becomes t s) values nodes) :
    Clean Tables.Adds t (declarePairs s declared operator line names (nodes.map some))
      fun t' assignments => List.Forall₂
        (fun pair n => ∃ l r, n = .statement .assign [l, r] ∧ pair.1.Declared t' s l ∧
          pair.2.Becomes t' s r)
        (names.zip values) assignments := by
  induction names generalizing t values nodes with
  | nil => exact .pure .nil
  | cons name names ih =>
    cases become with
    | nil => simp at same
    | cons first rest =>
      refine (declareInitialized_become scope first).bind fun t' nodes adds assigned => ?_
      obtain ⟨l, r, rfl, declared, value⟩ := assigned
      have rest := rest.imp fun e n => Expr.Becomes.mono adds.toExtends
      refine (ih (scope.mono adds.toExtends) (by simpa using same) rest).bind
        fun t'' nodes' adds' each => .pure ?_
      exact .cons ⟨l, r, rfl, declared.mono adds'.toExtends, value.mono adds'.toExtends⟩ each

/-- A declaration of names with initial values. -/
theorem lowerDeclaration_become {names : List Ident} {declared : Option Ty} {values : List Expr}
    (scope : t.HasScope s) :
    Clean Tables.Adds t (lowerDeclaration s names declared values operator line)
      fun t' nodes => AssignmentsBecome t' s (Ident.Declared t' s) names values nodes := by
  refine .declaration (fun {callee args line' call returns} single several lowered => ?_)
    fun {nodes} same each => ?_
  · subst single
    obtain ⟨called, -, count⟩ := value_lowerResultCall.1 lowered
    refine (declareResults_declared names returns scope count).imp fun t' targets? adds each => ?_
    obtain ⟨targets, rfl, each⟩ := each
    exact ⟨targets, rfl,
      .results several each (Primary.Becomes.mono adds.toExtends (lowerCall_becomes called))⟩
  · have become := each.imp fun e n => lowerValue_becomes
    exact (declarePairs_become names scope same become).imp fun t' nodes _ each => .pairs same each

theorem lowerVarSpec_become {spec : VarSpec} (scope : t.HasScope s) :
    Clean Tables.Adds t (lowerVarSpec s spec) fun t' nodes => spec.Become t' s nodes := by
  refine .varSpec (fun _ none _ _ _ => ?_) (fun _ none _ => ?_) (fun _ values _ => ?_) fun _ => ?_
  · exact (declareNames_declared spec.names scope).imp fun t' nodes _ each => .declared none each
  · exact (declareNames_declared spec.names scope).imp fun t' nodes _ each => .declared none each
  · exact (lowerDeclaration_become scope).imp fun t' nodes _ become => .assigned values become
  · refine (lowerDeclaration_become scope).imp fun t' nodes _ become => ?_
    by_cases none : spec.values = []
    · -- Without a type and without values there is no name either.
      rw [none] at become
      cases become with
      | pairs same each =>
        obtain names := List.length_eq_zero_iff.1 same
        rw [names] at each
        obtain rfl := List.forall₂_nil_left_iff.1 each
        exact .declared none (names ▸ .nil)
    · exact .assigned none become

theorem lowerVarSpecs_become (specs : List VarSpec) (scope : t.HasScope s) :
    Clean Tables.Adds t (lowerVarSpecs s specs)
      fun t' nodes => Become (VarSpec.Become t' s) specs nodes := by
  induction specs generalizing t with
  | nil => exact .pure rfl
  | cons spec specs ih =>
    refine (lowerVarSpec_become scope).bind fun t' first adds become => ?_
    refine (ih (scope.mono adds.toExtends)).bind fun t'' rest adds' becomeRest => .pure ?_
    exact ⟨first, rest, rfl, become.mono adds'.toExtends, becomeRest⟩

/-- The nodes of a variable declaration. -/
theorem lowerVarDecl_become (decl : VarDecl) (scope : t.HasScope s) :
    Clean Tables.Adds t (lowerVarDecl s decl) fun t' nodes => decl.Become t' s nodes :=
  lowerVarSpecs_become decl.specs scope

/-! ### Assignments -/

theorem lowerAssignment_become {targets : List Target} {values : List Expr}
    (noErrors : (lowerAssignment t s targets values line).errors = []) :
    AssignmentsBecome t s (Target.Becomes t s) targets values
      (lowerAssignment t s targets values line).value := by
  rcases lowerAssignment_of_noErrors noErrors with
    ⟨callee, args, line', call, returns, places, rfl, several, lowered, each, node⟩ | ⟨same, each⟩
  · rw [node]
    have called := (value_lowerResultCall.1 lowered).1
    exact .results several (each.imp fun _ _ => lowerTarget_becomes) (lowerCall_becomes called)
  · refine .pairs same (each.imp ?_)
    rintro ⟨target, e⟩ n ⟨place, value, value', isTarget, lowered, assigned, rfl⟩
    exact ⟨place, value', rfl, lowerTarget_becomes isTarget,
      assignTo_becomes (lowerValue_becomes lowered) assigned⟩

/-! ### Calls, input and output -/

/-- A function that is not found is not there. -/
theorem not_functionNamed_of_find? {name : String} (h : t.functions.find? name = none) :
    ∀ i, ¬ t.FunctionNamed i name := by
  rintro i ⟨f, entry, same⟩
  rw [FuncTable.find?, List.findIdx?_eq_none_iff] at h
  simpa [same] using h f (List.mem_of_getElem? entry)

theorem lowerCallStmt_becomes {callee : Ident} {args : List Expr} {n : Node}
    (h : (lowerCallStmt t s callee args line).value = some n) : CallBecomes t s callee args n := by
  rcases lowerCallStmt_eq_some h with ⟨free, name, output⟩ | ⟨free, name, input⟩ | call
  · obtain ⟨arg, value, rfl, lowered, -, rfl⟩ := value_lowerWrite.1 output
    exact .write (not_functionNamed_of_find? free) name (lowerValue_becomes lowered)
  · obtain ⟨arg, target, place, rfl, isTarget, lowered, rfl⟩ := value_lowerRead.1 input
    exact .read (not_functionNamed_of_find? free) name isTarget (lowerTarget_becomes lowered)
  · exact .call (lowerCall_becomes call)

/-! ### Return -/

theorem lowerReturn_becomes {i : Nat} {values : List Expr} {n : Node}
    (h : (lowerReturn t (.function i) values line).value = some n) :
    ∃ children, n = .statement .ret children ∧ Expr.AllBecome t (.function i) values children := by
  obtain ⟨i, f, children, ⟨⟩, -, count, rfl, each⟩ := lowerReturn_eq_some h
  refine ⟨children, rfl, Expr.allBecome_of_forall₂ (forall₂_of_zip_left count.symm (each.imp ?_))⟩
  rintro ⟨e, ty⟩ m ⟨n, lowered, assigned⟩
  exact assignTo_becomes (lowerValue_becomes lowered) assigned

/-! ### Statements -/

mutual

/-- The nodes of a statement of a function. -/
theorem lowerStmt_become {i : Nat} :
    ∀ (stmt : Stmt) {t : Tables}, t.HasScope (.function i) →
    Clean Tables.Adds t (lowerStmt (.function i) stmt) fun t' nodes =>
      stmt.Become t' (.function i) nodes
  | .var decl, t, scope => lowerVarDecl_become decl scope
  | .define names values line, t, scope => lowerDeclaration_become scope
  | .assign targets values line, t, scope =>
    .get fun noErrors => .lift (lowerAssignment_become (errors_run_lift.symm.trans noErrors))
  | .cond stmt, t, scope => by
    refine (lowerIf_becomes stmt scope).bind fun t' n? adds becomes => .pure ?_
    obtain ⟨n, rfl, becomes⟩ := becomes
    exact ⟨n, rfl, becomes⟩
  | .loop condition body line, t, scope => by
    refine .get (.report fun noErrors => ?_)
    obtain ⟨node, lowered⟩ :=
      Option.isSome_iff_exists.1 ((lowerCondition_exact condition "for").2 noErrors)
    refine (lowerBlock_becomes body scope).bind fun t' block adds becomes => .pure ?_
    rw [lowered]
    exact ⟨block, node, rfl, becomes, (lowerCondition_becomes lowered).mono adds.toExtends⟩
  | .ret values line, t, scope => by
    refine .get (.report fun noErrors => .pure ?_)
    obtain ⟨n, lowered⟩ := Option.isSome_iff_exists.1 (lowerReturn_explained values scope noErrors)
    obtain ⟨children, rfl, become⟩ := lowerReturn_becomes lowered
    rw [lowered]
    exact ⟨children, rfl, become⟩
  | .call callee args line, t, scope => by
    refine .get (.report fun noErrors => .pure ?_)
    obtain ⟨n, lowered⟩ := Option.isSome_iff_exists.1 (lowerCallStmt_explained callee args noErrors)
    rw [lowered]
    exact ⟨n, rfl, lowerCallStmt_becomes lowered⟩
  | .block body, t, scope => by
    refine (lowerBlock_becomes body scope).bind fun t' node adds becomes => .pure ?_
    exact ⟨node, rfl, becomes⟩

/-- The node of a block of a function. -/
theorem lowerBlock_becomes {i : Nat} :
    ∀ (block : Block) {t : Tables}, t.HasScope (.function i) →
    Clean Tables.Adds t (lowerBlock (.function i) block) fun t' node =>
      block.Becomes t' (.function i) node
  | .mk statements _ _, _, scope =>
    (lowerStmts_become statements scope).bind fun _ nodes _ become => .pure ⟨nodes, rfl, become⟩

theorem lowerStmts_become {i : Nat} :
    ∀ (stmts : List Stmt) {t : Tables}, t.HasScope (.function i) →
    Clean Tables.Adds t (lowerStmts (.function i) stmts) fun t' nodes =>
      Stmt.AllBecome t' (.function i) stmts nodes
  | [], _, _ => .pure rfl
  | stmt :: stmts, _, scope => by
    refine (lowerStmt_become stmt scope).bind fun t' first adds become => ?_
    refine (lowerStmts_become stmts (scope.mono adds.toExtends)).bind
      fun t'' rest adds' becomeRest => .pure ?_
    exact ⟨first, rest, rfl, Stmt.Become.mono adds' become, becomeRest⟩

theorem lowerIf_becomes {i : Nat} : ∀ (stmt : IfStmt) {t : Tables}, t.HasScope (.function i) →
    Clean Tables.Adds t (lowerIf (.function i) stmt)
      fun t' n? => ∃ n, n? = some n ∧ stmt.Becomes t' (.function i) n
  | .mk condition body otherwise line, t, scope => by
    refine .get (.report fun noErrors => ?_)
    obtain ⟨node, lowered⟩ :=
      Option.isSome_iff_exists.1 ((lowerCondition_exact condition "if").2 noErrors)
    refine (lowerBlock_becomes body scope).bind fun t' block adds becomes => ?_
    refine (lowerElse_become otherwise (scope.mono adds.toExtends)).bind
      fun t'' others? adds' become => .pure ?_
    obtain ⟨others, rfl, become⟩ := become
    have condition := ((lowerCondition_becomes lowered).mono adds.toExtends).mono adds'.toExtends
    rw [lowered]
    exact ⟨_, rfl, block, others, node, rfl, Block.Becomes.mono adds' becomes, become, condition⟩

theorem lowerElse_become {i : Nat} :
    ∀ (branch : ElseBranch) {t : Tables}, t.HasScope (.function i) →
    Clean Tables.Adds t (lowerElse (.function i) branch)
      fun t' nodes? => ∃ nodes, nodes? = some nodes ∧ branch.Become t' (.function i) nodes
  | .absent, t, scope => .pure ⟨[], rfl, rfl⟩
  | .block body, t, scope => by
    refine (lowerBlock_becomes body scope).bind fun t' node adds becomes => .pure ?_
    exact ⟨[node], rfl, node, rfl, becomes⟩
  | .elseIf stmt, t, scope => by
    refine (lowerIf_becomes stmt scope).bind fun t' n? adds becomes => .pure ?_
    obtain ⟨n, rfl, becomes⟩ := becomes
    exact ⟨[n], rfl, n, rfl, becomes⟩

end

end Analysis

end MiniGo
