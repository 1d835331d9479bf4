import MiniGo.Proofs.Scopes.Mentions

/-!
# Names resolve to the declarations in force

Variables are declared while the body of a function is analysed, and each name is looked up in the
tables as they are at that moment. What is found is the variable that the source text means: a
declaration is in force behind its specification, and nowhere else.

* `Resolves`: a run without errors that declares names, and whose nodes refer to what is mentioned.
* `lowerVarDecl_resolves`, `lowerStmt_resolves`, `lowerBlock_resolves`: declarations, statements and
  blocks.
* `FuncDecl.Resolved`: all names in a function refer to the variables in force.
* `analyze_resolves`: this holds of all functions of a program.
-/

namespace MiniGo

variable {outer inForce all new new' : List String} {ms ms' : List Mention} {s : Scope} {t : Tables}

/-- A new name is in force from its declaration on, in the next slot. -/
theorem Mention.RefersTo.declared {name : String} (fresh : name ∉ inForce) (rest : List String) :
    Mention.RefersTo outer (inForce ++ name :: rest) s ⟨name, inForce ++ name :: rest⟩
      ⟨inForce.length, s⟩ := by
  have slot : (inForce ++ name :: rest).idxOf name = inForce.length := by
    rw [List.idxOf_append_of_notMem fresh, List.idxOf_cons_self, Nat.add_zero]
  have known : Mention.RefersTo outer (inForce ++ name :: rest) s ⟨name, inForce ++ name :: rest⟩
      ⟨(inForce ++ name :: rest).idxOf name, s⟩ := .own (by simp)
  rwa [slot] at known

/-- Declaring a variable puts its name behind those in force. -/
theorem Tables.InForce.setTable {vars vars' : VarTable} {x : Variable}
    (h : t.InForce outer vars.names s) (own : t.table? s = some vars)
    (declared : vars.declare x = .ok vars') :
    (t.setTable vars' s).InForce outer (vars.names ++ [x.name]) s where
  outer := by
    rw [← h.outer]
    cases s <;> rfl
  own := by
    refine ⟨vars', by rw [table?_setTable own, if_pos rfl], ?_⟩
    rw [VarTable.names, (VarTable.declare_eq_ok_iff.1 declared).2, List.map_append]
    rfl

theorem Tables.InForce.hasScope (h : t.InForce outer inForce s) : t.HasScope s := by
  obtain ⟨vars, own, -⟩ := h.own
  rw [HasScope, own]
  rfl

/-- The names in force are in the tables of the scope and around it. -/
theorem Tables.InForce.congr {t' : Tables} (h : t.InForce outer inForce s)
    (globals : t'.table? .globals = t.table? .globals) (own : t'.table? s = t.table? s) :
    t'.InForce outer inForce s where
  outer := by
    rw [← h.outer]
    cases s with
    | globals => rfl
    | function i => exact congrArg VarTable.names (Option.some.inj globals)
  own := by
    rw [own]
    exact h.own

/-- What a mention refers to is at the same position among more names. -/
theorem Mention.RefersTo.extend {m : Mention} {v : VarRef} (h : m.RefersTo outer m.inForce s v)
    (le : m.inForce <+: all) : m.RefersTo outer all s v := by
  cases h with
  | own declared =>
    rw [le.idxOf_eq_of_mem declared]
    exact .own declared
  | global free declared => exact .global free declared

theorem Refer.within {refs : List VarRef} (h : Refer outer s ms refs) (within : Within all ms) :
    List.Forall₂ (Mention.RefersTo outer all s) ms refs := by
  induction h with
  | nil => exact .nil
  | cons first _ ih =>
    obtain ⟨inForce, rest⟩ := List.forall_mem_cons.1 within
    exact .cons (first.extend inForce) (ih rest)

namespace Analysis

open Report

/-- A run without errors that declares names in a scope, and whose nodes refer to what is
mentioned. -/
def Resolves (outer inForce : List String) (s : Scope) (names : List String) (ms : List Mention)
    (t : Tables) (x : Lower (List Node)) : Prop :=
  Clean (Tables.DifferIn s) t x fun t' nodes =>
    t'.InForce outer (inForce ++ names) s ∧ Refer outer s ms (Node.referencesAll nodes)

theorem Resolves.nil (known : t.InForce outer inForce s) :
    Resolves outer inForce s [] [] t (return []) :=
  .pure ⟨by rwa [List.append_nil], .nil⟩

/-- Behind the first nodes, the new that were declared on the way are in force, too. -/
theorem Resolves.append {x y : Lower (List Node)} (hx : Resolves outer inForce s new ms t x)
    (hy : ∀ t', t'.InForce outer (inForce ++ new) s →
      Resolves outer (inForce ++ new) s new' ms' t' y) :
    Resolves outer inForce s (new ++ new') (ms ++ ms') t
      (do let nodes ← x; return nodes ++ (← y)) := by
  refine hx.bind fun t' ns _ first => (hy t' first.1).bind fun t'' ns' _ second => .pure ?_
  rw [List.append_assoc] at second
  rw [Node.referencesAll_append]
  exact ⟨second.1, first.2.append second.2⟩

/-- Nodes that come without declarations. -/
theorem Resolves.pure {nodes : List Node} (known : t.InForce outer inForce s)
    (refer : Refer outer s ms (Node.referencesAll nodes)) :
    Resolves outer inForce s [] ms t (return nodes) :=
  Clean.pure ⟨by rwa [List.append_nil], refer⟩

variable {operator : String} {line : Nat}

/-! ### Declarations -/

/-- A variable that is declared without an error has a new name and takes the next slot. -/
theorem declareVariable_resolves {name : Ident} {ty : Ty} {array? : Option ArrayShape}
    (known : t.InForce outer inForce s) :
    Clean (Tables.DifferIn s) t (declareVariable s name ty array?) fun t' v? =>
      t'.InForce outer (inForce ++ [name.name]) s ∧ name.name ∉ inForce ∧
      v? = some ⟨inForce.length, s⟩ := by
  refine .newVariable known.hasScope fun {vars vars'} own declared => ?_
  obtain ⟨vars, own', rfl⟩ := known.own
  obtain rfl := Option.some.inj (own.symm.trans own')
  refine ⟨Tables.differIn_setTable own, known.setTable own declared, fun mem => ?_, ?_⟩
  · obtain ⟨w, entry, same⟩ := List.mem_map.1 mem
    exact (VarTable.declare_eq_ok_iff.1 declared).1 w entry same
  · rw [VarTable.names, List.length_map]
    rfl

theorem declareNames_resolves {ty : Ty} {array? : Option ArrayShape} (names : List Ident)
    (known : t.InForce outer inForce s) (eq : all = inForce ++ names.map Ident.name) :
    Clean (Tables.DifferIn s) t (declareNames s ty array? names) fun t' nodes =>
      t'.InForce outer all s ∧
      Refer outer s (declaredMentions all names) (Node.referencesAll nodes) := by
  induction names generalizing t inForce with
  | nil =>
    rw [List.map_nil, List.append_nil] at eq
    exact .pure ⟨by rwa [eq], .nil⟩
  | cons name names ih =>
    refine (declareVariable_resolves known).bind fun t' v? _ declared => ?_
    obtain ⟨known', fresh, rfl⟩ := declared
    refine (ih known' (by simpa using eq)).bind fun t'' nodes _ rest =>
      .pure ⟨rest.1, .cons ?_ rest.2⟩
    rw [eq]
    exact .declared fresh _

/-- Names for the results of a call. -/
theorem declareResults_resolves {declared : Option Ty} (names : List Ident) (results : List Ty)
    (known : t.InForce outer inForce s) (eq : all = inForce ++ names.map Ident.name)
    (same : results.length = names.length) :
    Clean (Tables.DifferIn s) t
      (declareResults s declared operator line names results) fun t' targets? =>
      ∃ targets, targets? = some targets ∧ t'.InForce outer all s ∧
        Refer outer s (declaredMentions all names) (Node.referencesAll targets) := by
  induction names generalizing t inForce results with
  | nil =>
    rw [List.map_nil, List.append_nil] at eq
    exact .pure ⟨[], rfl, by rwa [eq], .nil⟩
  | cons name names ih =>
    cases results with
    | nil => simp at same
    | cons result results =>
      refine .newResult fun _ => (declareVariable_resolves known).bind fun t' v? _ declared => ?_
      obtain ⟨known', fresh, rfl⟩ := declared
      refine (ih results known' (by simpa using eq) (by simpa using same)).bind
        fun t'' rest? _ found => ?_
      obtain ⟨rest, rfl, known'', refer⟩ := found
      refine .pure ⟨_, rfl, known'', .cons ?_ refer⟩
      rw [eq]
      exact .declared fresh _

theorem assignTo_references {target : Ty} {n n' : Node}
    (h : (assignTo target n operator line).value = some n') :
    n'.references = n.references := by
  obtain ⟨-, rfl⟩ := value_assignTo.1 h
  split
  · exact n.references_widen
  · rfl

theorem declareInitialized_resolves {declared : Option Ty} {name : Ident} {n : Node}
    (known : t.InForce outer inForce s) :
    Clean (Tables.DifferIn s) t
      (declareInitialized s declared operator line name (some n)) fun t' nodes =>
      t'.InForce outer (inForce ++ [name.name]) s ∧ name.name ∉ inForce ∧
        Node.referencesAll nodes = ⟨inForce.length, s⟩ :: n.references := by
  refine .initialized fun {m} _ assigned =>
    (declareVariable_resolves known).imp fun t' v? _ declared => ?_
  obtain ⟨known', fresh, rfl⟩ := declared
  refine ⟨_, rfl, known', fresh, ?_⟩
  rw [← assignTo_references assigned]
  simp [Node.statement, Node.leaf, Node.references, NodeKind.variable?]

/-- Each name is declared behind the values, which were typed before. -/
theorem declarePairs_resolves {declared : Option Ty} (names : List Ident)
    {mentions : List (List Mention)} {nodes : List Node} (known : t.InForce outer inForce s)
    (eq : all = inForce ++ names.map Ident.name) (same : names.length = mentions.length)
    (each : List.Forall₂ (fun ms n => Refer outer s ms n.references) mentions nodes) :
    Clean (Tables.DifferIn s) t
      (declarePairs s declared operator line names (nodes.map some)) fun t' assignments =>
      t'.InForce outer all s ∧ Refer outer s
        (pairMentions ((declaredMentions all names).map ([·])) mentions)
          (Node.referencesAll assignments) := by
  induction names generalizing t inForce mentions nodes with
  | nil =>
    rw [List.map_nil, List.append_nil] at eq
    exact .pure ⟨by rwa [eq], .nil⟩
  | cons name names ih =>
    cases each with
    | nil => simp at same
    | cons first each =>
      refine (declareInitialized_resolves known).bind fun t' ns _ declared => ?_
      obtain ⟨known', fresh, refs⟩ := declared
      refine (ih known' (by simpa using eq) (by simpa using same) each).bind fun t'' ns' _ rest =>
        .pure ⟨rest.1, ?_⟩
      rw [Node.referencesAll_append, refs]
      refine .cons ?_ (first.append rest.2)
      rw [eq]
      exact .declared fresh _

theorem lowerResultCall_refers {callee : Ident} {args : List Expr} {targets : Nat} {call : Node}
    {returns : List Ty} (known : t.InForce outer inForce s)
    (h : (lowerResultCall t s callee args targets line).value = some (call, returns)) :
    Refer outer s (Expr.allMentions inForce args) call.references :=
  lowerCall_refers known (value_lowerResultCall.1 h).1

/-- Places and a call whose results they get, as one node. -/
theorem refer_resultAssignment {places : List (List Mention)} {targets : List Node} {callee : Ident}
    {args : List Expr} {call : Node} (several : places.length ≠ 1)
    (each : Refer outer s places.flatten (Node.referencesAll targets))
    (called : Refer outer s (Expr.allMentions inForce args) call.references) :
    Refer outer s (assignmentMentions places
      ([.operand none (.call callee args) line].map (Expr.mentions inForce)))
      (Node.referencesAll [resultAssignment targets call]) := by
  have mentions : assignmentMentions places
      ([.operand none (.call callee args) line].map (Expr.mentions inForce)) = places.flatten ++
        Expr.allMentions inForce args := by
    unfold assignmentMentions
    exact (if_neg several).trans (congrArg _ (List.append_nil _))
  have references : Node.referencesAll [resultAssignment targets call] =
      Node.referencesAll targets ++ call.references := by
    simp [resultAssignment, Node.statement, Node.references, NodeKind.variable?]
  rw [mentions, references]
  exact each.append called

theorem flatten_declaredMentions (names : List Ident) :
    ((declaredMentions all names).map ([·])).flatten = declaredMentions all names := by
  rw [← List.flatMap_def]
  exact List.flatMap_singleton' _

/-- A declaration of names with initial values. -/
theorem lowerDeclaration_resolves {names : List Ident} {declared : Option Ty} {values : List Expr}
    (known : t.InForce outer inForce s) :
    Resolves outer inForce s (names.map Ident.name) (declarationMentions inForce names values) t
      (lowerDeclaration s names declared values operator line) := by
  refine .declaration (fun {callee args line' call returns} single several lowered => ?_)
    fun {nodes} same each => ?_
  · subst single
    obtain ⟨-, -, count⟩ := value_lowerResultCall.1 lowered
    refine (declareResults_resolves names returns known rfl count).imp fun t' targets? _ found => ?_
    obtain ⟨targets, rfl, known', refer⟩ := found
    refine ⟨targets, rfl, known',
      refer_resultAssignment (by simpa [declaredMentions] using several) ?_
        (lowerResultCall_refers known lowered)⟩
    rwa [flatten_declaredMentions]
  · have mentions : declarationMentions inForce names values =
        pairMentions ((declaredMentions (inForce ++ names.map Ident.name) names).map ([·]))
          (values.map (Expr.mentions inForce)) := by
      rw [declarationMentions, assignmentMentions, if_pos (by simpa [declaredMentions] using same)]
    have refer :
        List.Forall₂ (fun e n => Refer outer s (e.mentions inForce) n.references) values nodes :=
      each.imp fun _ _ => lowerValue_refers known
    rw [mentions]
    exact declarePairs_resolves names known rfl (by simpa using same)
      (List.forall₂_map_left_iff.2 refer)

/-- Without values, all mentions are those of the declared names. -/
theorem declarationMentions_nil (names : List Ident) :
    declarationMentions inForce names [] =
      declaredMentions (inForce ++ names.map Ident.name) names := by
  rw [declarationMentions, assignmentMentions]
  split
  · rename_i none
    obtain rfl : names = [] := by simpa [declaredMentions] using none
    rfl
  · rw [flatten_declaredMentions]
    exact List.append_nil _

theorem lowerVarSpec_resolves {spec : VarSpec} (known : t.InForce outer inForce s) :
    Resolves outer inForce s spec.declares (spec.mentions inForce) t (lowerVarSpec s spec) := by
  obtain ⟨names, type?, values, line⟩ := spec
  refine .varSpec (fun {length element line' ty k} type none _ constant _ => ?_)
    (fun {name ty} type none _ => ?_) (fun {name ty} type _ _ => ?_) fun type => ?_
  · obtain rfl : type? = some (.array length element line') := type
    obtain rfl : values = [] := none
    have mentions : VarSpec.mentions inForce ⟨names, some (.array length element line'), [], line⟩ =
        declaredMentions (inForce ++ names.map Ident.name) names := by
      simp [VarSpec.mentions, TypeSpec.mentions, mentions_of_constantInt? constant,
        declarationMentions_nil]
    rw [mentions]
    exact declareNames_resolves names known rfl
  · obtain rfl : type? = some (.named name) := type
    obtain rfl : values = [] := none
    have mentions : VarSpec.mentions inForce ⟨names, some (.named name), [], line⟩ =
        declaredMentions (inForce ++ names.map Ident.name) names := declarationMentions_nil names
    rw [mentions]
    exact declareNames_resolves names known rfl
  · obtain rfl : type? = some (.named name) := type
    exact lowerDeclaration_resolves known
  · obtain rfl : type? = none := type
    exact lowerDeclaration_resolves known

theorem lowerVarSpecs_resolve (specs : List VarSpec) (known : t.InForce outer inForce s) :
    Resolves outer inForce s (specs.flatMap VarSpec.declares) (VarSpec.allMentions inForce specs) t
      (lowerVarSpecs s specs) := by
  induction specs generalizing t inForce with
  | nil => exact .nil known
  | cons spec specs ih => exact (lowerVarSpec_resolves known).append fun t' known' => ih known'

/-- The names in a variable declaration. -/
theorem lowerVarDecl_resolves (decl : VarDecl) (known : t.InForce outer inForce s) :
    Resolves outer inForce s decl.declares (VarSpec.allMentions inForce decl.specs) t
      (lowerVarDecl s decl) :=
  lowerVarSpecs_resolve decl.specs known

/-! ### Assignments -/

/-- Places that are related to nodes one by one refer to what all of them mention. -/
theorem refer_targets {targets : List Target} {nodes : List Node}
    (each : List.Forall₂ (fun target n =>
      Refer outer s (target.mentions inForce) n.references) targets nodes) :
    Refer outer s (targets.map (Target.mentions inForce)).flatten (Node.referencesAll nodes) := by
  induction each with
  | nil => exact .nil
  | cons first _ ih => exact first.append ih

/-- Assignments of values to targets, one by one, refer to what these mention. -/
theorem refer_pairs {targets : List Target} {values : List Expr} {nodes : List Node}
    (known : t.InForce outer inForce s) (same : targets.length = values.length)
    (each : List.Forall₂ (fun pair => Assigned t s line pair.1 pair.2) (targets.zip values) nodes) :
    Refer outer s (pairMentions (targets.map (Target.mentions inForce))
      (values.map (Expr.mentions inForce))) (Node.referencesAll nodes) := by
  induction targets generalizing values nodes with
  | nil =>
    obtain rfl := List.forall₂_nil_left_iff.1 each
    exact .nil
  | cons target targets ih =>
    cases values with
    | nil => simp at same
    | cons e es =>
      obtain ⟨_, nodes, ⟨place, value, value', isTarget, lowered, assigned, rfl⟩, rest, rfl⟩ :=
        List.forall₂_cons_left_iff.1 each
      have references : (Node.statement .assign [place, value']).references = place.references ++
          value.references := by
        rw [← assignTo_references assigned]
        simp [Node.statement, Node.references, NodeKind.variable?]
      rw [Node.referencesAll_cons, references]
      exact ((lowerTarget_refers known isTarget).append (lowerValue_refers known lowered)).append
        (ih (by simpa using same) rest)

theorem lowerAssignment_refers {targets : List Target} {values : List Expr}
    (known : t.InForce outer inForce s)
    (noErrors : (lowerAssignment t s targets values line).errors = []) :
    Refer outer s (assignmentMentions (targets.map (Target.mentions inForce))
      (values.map (Expr.mentions inForce)))
      (Node.referencesAll (lowerAssignment t s targets values line).value) := by
  rcases lowerAssignment_of_noErrors noErrors with
    ⟨callee, args, line', call, returns, places, rfl, several, lowered, each, node⟩ | ⟨same, each⟩
  · rw [node]
    have refer := refer_targets (each.imp fun _ _ => lowerTarget_refers known)
    exact refer_resultAssignment (by simpa using several) refer
      (lowerResultCall_refers known lowered)
  · rw [assignmentMentions, if_pos (by simpa using same)]
    exact refer_pairs known same each

/-! ### Calls and returns -/

/-- An argument that can be assigned to mentions what the target mentions. -/
theorem mentions_of_target? {arg : Expr} {target : Target} (h : arg.target? = some target) :
    arg.mentions inForce = target.mentions inForce := by
  unfold Expr.target? at h
  split at h
  · obtain rfl := Option.some.inj h
    rfl
  · obtain rfl := Option.some.inj h
    rfl
  · cases h

/-- A statement refers to what its parts refer to. -/
theorem references_statement {kind : NodeKind} (none : kind.variable? = none) (ns : List Node) :
    (Node.statement kind ns).references = Node.referencesAll ns := by
  rw [Node.references_eq, Node.statement, Node.kind_mk, none]
  rfl

theorem references_functionNode (i : Nat) (body : List Node) :
    (functionNode i body).references = Node.referencesAll body := by
  rw [functionNode, references_statement rfl, Node.referencesAll_cons, references_statement rfl,
    Node.referencesAll_nil, List.append_nil]

theorem lowerWrite_refers {args : List Expr} {n : Node} (known : t.InForce outer inForce s)
    (h : (lowerWrite t s args line).value = some n) :
    Refer outer s (Expr.allMentions inForce args) n.references := by
  obtain ⟨arg, value, rfl, lowered, -, rfl⟩ := value_lowerWrite.1 h
  rw [references_statement rfl]
  exact (lowerValue_refers known lowered).append .nil

theorem lowerRead_refers {args : List Expr} {n : Node} (known : t.InForce outer inForce s)
    (h : (lowerRead t s args line).value = some n) :
    Refer outer s (Expr.allMentions inForce args) n.references := by
  obtain ⟨arg, target, place, rfl, isTarget, lowered, rfl⟩ := value_lowerRead.1 h
  rw [references_statement rfl, Expr.allMentions, mentions_of_target? isTarget]
  exact (lowerTarget_refers known lowered).append .nil

theorem lowerCallStmt_refers {callee : Ident} {args : List Expr} {n : Node}
    (known : t.InForce outer inForce s) (h : (lowerCallStmt t s callee args line).value = some n) :
    Refer outer s (Expr.allMentions inForce args) n.references := by
  rcases lowerCallStmt_eq_some h with ⟨-, -, output⟩ | ⟨-, -, input⟩ | call
  · exact lowerWrite_refers known output
  · exact lowerRead_refers known input
  · exact lowerCall_refers known call

theorem lowerReturn_refers {values : List Expr} {n : Node} (known : t.InForce outer inForce s)
    (h : (lowerReturn t s values line).value = some n) :
    Refer outer s (Expr.allMentions inForce values) n.references := by
  obtain ⟨i, f, children, rfl, -, count, rfl, each⟩ := lowerReturn_eq_some h
  rw [references_statement rfl]
  refine .all (forall₂_of_zip_left count.symm (each.imp ?_))
  rintro ⟨e, ty⟩ m ⟨n, lowered, assigned⟩
  rw [assignTo_references assigned]
  exact lowerValue_refers known lowered

/-! ### Statements -/

/-- A run without errors that declares names in a scope, and whose node refers to what is
mentioned. -/
def NodeResolves (outer inForce : List String) (s : Scope) (names : List String) (ms : List Mention)
    (t : Tables) (x : Lower Node) : Prop :=
  Clean (Tables.DifferIn s) t x fun t' n => t'.InForce outer (inForce ++ names) s ∧
    Refer outer s ms n.references

theorem refer_singleton {n : Node} (h : Refer outer s ms n.references) :
    Refer outer s ms (Node.referencesAll [n]) := by
  rwa [Node.referencesAll_cons, Node.referencesAll_nil, List.append_nil]

mutual

/-- The names in a statement of a function. -/
theorem lowerStmt_resolves {i : Nat} :
    ∀ (stmt : Stmt) {t : Tables} {inForce : List String},
    t.InForce outer inForce (.function i) →
    Resolves outer inForce (.function i) stmt.declares (stmt.mentions inForce) t
      (lowerStmt (.function i) stmt)
  | .var decl, t, inForce, known => lowerVarDecl_resolves decl known
  | .define names values line, t, inForce, known => lowerDeclaration_resolves known
  | .assign targets values line, t, inForce, known =>
    .get fun noErrors => .lift ⟨by rwa [Stmt.declares, List.append_nil],
      lowerAssignment_refers known (errors_run_lift.symm.trans noErrors)⟩
  | .cond stmt, t, inForce, known => by
    refine (lowerIf_resolves stmt known).bind fun t' n? _ found => .pure ?_
    obtain ⟨n, rfl, known', refer⟩ := found
    exact ⟨known', refer_singleton refer⟩
  | .loop condition body line, t, inForce, known => by
    refine .get (.report fun noErrors => ?_)
    obtain ⟨node, lowered⟩ :=
      Option.isSome_iff_exists.1 ((lowerCondition_exact condition "for").2 noErrors)
    refine (lowerBlock_resolves body known).bind fun t' block _ found => .pure ⟨found.1, ?_⟩
    rw [lowered]
    refine refer_singleton ?_
    rw [references_statement rfl]
    exact found.2.append (refer_singleton (lowerCondition_refers known lowered))
  | .ret values line, t, inForce, known => by
    refine .get (.report fun noErrors => ?_)
    obtain ⟨n, lowered⟩ :=
      Option.isSome_iff_exists.1 (lowerReturn_explained values known.hasScope noErrors)
    rw [lowered]
    exact Resolves.pure known (refer_singleton (lowerReturn_refers known lowered))
  | .call callee args line, t, inForce, known => by
    refine .get (.report fun noErrors => ?_)
    obtain ⟨n, lowered⟩ := Option.isSome_iff_exists.1 (lowerCallStmt_explained callee args noErrors)
    rw [lowered]
    exact Resolves.pure known (refer_singleton (lowerCallStmt_refers known lowered))
  | .block body, t, inForce, known =>
    (lowerBlock_resolves body known).bind fun t' node _ found =>
      .pure ⟨found.1, refer_singleton found.2⟩

/-- The names in a block of a function. -/
theorem lowerBlock_resolves {i : Nat} : ∀ (block : Block) {t : Tables} {inForce : List String},
    t.InForce outer inForce (.function i) →
    NodeResolves outer inForce (.function i) block.declares (block.mentions inForce) t
      (lowerBlock (.function i) block)
  | .mk statements _ _, t, inForce, known =>
    (lowerStmts_resolve statements known).bind fun t' nodes _ found =>
      .pure ⟨found.1, by rw [references_statement rfl]; exact found.2⟩

theorem lowerStmts_resolve {i : Nat} : ∀ (stmts : List Stmt) {t : Tables} {inForce : List String},
    t.InForce outer inForce (.function i) →
    Resolves outer inForce (.function i) (Stmt.allDeclare stmts) (Stmt.allMentions inForce stmts) t
      (lowerStmts (.function i) stmts)
  | [], _, _, known => .nil known
  | stmt :: stmts, _, _, known =>
    (lowerStmt_resolves stmt known).append fun _ known' => lowerStmts_resolve stmts known'

theorem lowerIf_resolves {i : Nat} :
    ∀ (stmt : IfStmt) {t : Tables} {inForce : List String},
    t.InForce outer inForce (.function i) →
    Clean (Tables.DifferIn (.function i)) t (lowerIf (.function i) stmt) fun t' n? => ∃ n,
      n? = some n ∧ t'.InForce outer (inForce ++ stmt.declares) (.function i) ∧
      Refer outer (.function i) (stmt.mentions inForce) n.references
  | .mk condition body otherwise line, t, inForce, known => by
    refine .get (.report fun noErrors => ?_)
    obtain ⟨node, lowered⟩ :=
      Option.isSome_iff_exists.1 ((lowerCondition_exact condition "if").2 noErrors)
    refine (lowerBlock_resolves body known).bind fun t' block _ first => ?_
    refine (lowerElse_resolves otherwise first.1).bind fun t'' others? _ second => .pure ?_
    obtain ⟨others, rfl, known'', refer⟩ := second
    rw [lowered]
    refine ⟨_, rfl, by rwa [IfStmt.declares, ← List.append_assoc], ?_⟩
    rw [references_statement rfl, Node.referencesAll_cons, Node.referencesAll_append]
    exact first.2.append (refer.append (refer_singleton (lowerCondition_refers known lowered)))

theorem lowerElse_resolves {i : Nat} :
    ∀ (branch : ElseBranch) {t : Tables} {inForce : List String},
    t.InForce outer inForce (.function i) →
    Clean (Tables.DifferIn (.function i)) t (lowerElse (.function i) branch) fun t' nodes? =>
      ∃ nodes, nodes? = some nodes ∧ t'.InForce outer (inForce ++ branch.declares) (.function i) ∧
      Refer outer (.function i) (branch.mentions inForce) (Node.referencesAll nodes)
  | .absent, t, inForce, known =>
    .pure ⟨[], rfl, by rwa [ElseBranch.declares, List.append_nil], .nil⟩
  | .block body, t, inForce, known =>
    (lowerBlock_resolves body known).bind fun t' node _ found =>
      .pure ⟨[node], rfl, found.1, refer_singleton found.2⟩
  | .elseIf stmt, t, inForce, known => by
    refine (lowerIf_resolves stmt known).bind fun t' n? _ found => .pure ?_
    obtain ⟨n, rfl, known', refer⟩ := found
    exact ⟨[n], rfl, known', refer_singleton refer⟩

end

/-- The names in the body of a function, with those of the parameters in force. -/
theorem lowerFunction_resolves {func : FuncDecl} {i : Nat}
    (known : t.InForce outer func.parameters (.function i)) :
    NodeResolves outer func.parameters (.function i) func.body.declares func.mentions t
      (lowerFunction func i) :=
  (lowerBlock_resolves func.body known).bind fun t' body _ found =>
    .pure ⟨found.1, by rw [references_statement rfl]; exact refer_singleton found.2⟩

/-! ### Programs -/

/-- Declarations outside of functions put their names one behind the other. -/
theorem lowerGlobals_names (decls : List VarDecl) (known : t.InForce [] inForce .globals) :
    Clean (Tables.DifferIn .globals) t (lowerGlobals decls) fun t' _ =>
      t'.InForce [] (inForce ++ decls.flatMap VarDecl.declares) .globals := by
  induction decls generalizing t inForce with
  | nil => exact .pure (by rwa [List.flatMap_nil, List.append_nil])
  | cons decl decls ih =>
    refine (lowerVarDecl_resolves decl known).bind fun t' _ _ first =>
      (ih first.1).bind fun t'' _ _ rest => .pure ?_
    rwa [List.flatMap_cons, ← List.append_assoc]

/-- The global variables have the names that are declared outside of functions. -/
theorem names_of_lowerGlobals {decls : List VarDecl} {nodes : List Node}
    (h : (lowerGlobals decls).run {} = ⟨(nodes, t), []⟩) :
    t.globals.names = decls.flatMap VarDecl.declares := by
  have start : Tables.InForce [] [] .globals {} := ⟨rfl, _, rfl, rfl⟩
  obtain ⟨vars, same, names⟩ := ((lowerGlobals_names decls start).result h).own
  obtain rfl := Option.some.inj same
  exact names

/-- The bodies of functions that are declared one after the other. -/
theorem lowerFunctions_resolve {funcs : List FuncDecl} {k : Nat} (wf : t.WellFormed)
    (known : ∀ j func, funcs[j]? = some func →
      t.InForce outer func.parameters (.function (k + j))) :
    Clean Tables.Fills t (lowerFunctions funcs
      ((List.range' k funcs.length).map some)) fun t' nodes =>
      ∀ j func, funcs[j]? = some func → t'.InForce outer func.locals (.function (k + j)) ∧
        ∃ node, nodes[j]? = some node ∧
          Refer outer (.function (k + j)) func.mentions node.references := by
  refine (lowerFunctions_each wf).imp fun t' nodes _ found j func declared => ?_
  obtain ⟨-, -, each⟩ := found
  obtain ⟨node, u, u', atNode, run, fillsTo, before, fillsFrom, after⟩ := each j func declared
  have known' := (known j func declared).congr (congrArg some fillsTo.globals_eq) before
  obtain ⟨known'', refer⟩ := (lowerFunction_resolves known').result run
  exact ⟨known''.congr (congrArg some fillsFrom.globals_eq) after, node, atNode, refer⟩

end Analysis

/-- The entry of a function has the names of its parameters. -/
theorem FuncDecl.HasEntry.names {func : FuncDecl} {f : Function} (h : func.HasEntry f) :
    f.vars.names = func.parameters := by
  obtain ⟨known, -, -⟩ := h
  have each := Analysis.lowerParams_declared (congrArg Report.value known)
  rw [VarTable.names, parameters, declaredParams]
  refine List.forall₂_eq_eq_eq ▸ ?_
  exact List.forall₂_map_left_iff.2
    (List.forall₂_map_right_iff.2 (each.flip.imp fun _ _ param => param.name))

/-- Before the bodies of functions are analysed, the names of their parameters are in force. -/
theorem Tables.inForce_parameters {vars : VarTable} {funcs : List FuncDecl} {fs : List Function}
    {i : Nat} {func : FuncDecl} (entries : List.Forall₂ FuncDecl.HasEntry funcs fs)
    (declared : funcs[i]? = some func) :
    Tables.InForce vars.names func.parameters (.function i) ⟨vars, ⟨fs⟩⟩ := by
  obtain ⟨f, found, hasEntry⟩ := forall₂_getElem? entries declared
  exact ⟨rfl, f.vars, by simp [Tables.table?, FuncTable.get?, found], hasEntry.names⟩

/-- The names of the global variables of a file, in the order of their declarations. -/
def File.globalNames (file : File) : List String := file.varDecls.flatMap VarDecl.declares

/-- How the names in a function are resolved. Its variables have the names of its parameters, and
behind them those that its body declares, in order and without duplicates. The typed body has one
reference for each mention, in the same order, to what the mention refers to. -/
structure FuncDecl.Resolved (globals : List String) (i : Nat) (func : FuncDecl) (vars : VarTable)
    (body : List Node) :
    Prop where
  names : vars.names = func.locals
  distinct : func.locals.Nodup
  references : List.Forall₂ (Mention.RefersTo globals func.locals (.function i)) func.mentions
    (Node.referencesAll body)

/-- How the names of a file are resolved in a program: the global variables have the names that are
declared outside of functions, in order and without duplicates, and the functions of the tree are
those of the file, with all their names resolved. -/
structure Program.Resolves (p : Program) (file : File) : Prop where
  globals : p.tables.globals.names = file.globalNames
  distinct : file.globalNames.Nodup
  functions : ∃ (globals : List Node) (bodies : List (List Node)),
    p.root = .statement .program (globals ++ bodies.mapIdx functionNode) ∧ bodies.length =
    file.funcDecls.length ∧ ∀ i func, file.funcDecls[i]? = some func →
      ∃ f body, p.tables.functions.get? i = some f ∧ bodies[i]? = some body ∧
        func.Resolved file.globalNames i f.vars body

/-- In a program that is analysed without errors, each name in the body of a function refers to the
variable of the function with this name, if it is a parameter or is declared before, and else to the
global variable with this name. The slot of a variable is the position of its name in the order of
declarations. -/
theorem analyze_resolves {file : File} {p : Program} (h : analyze file = .ok p) :
    p.Resolves file := by
  obtain ⟨noErrors, rfl⟩ := analyze_eq_ok h
  have wellTyped := Analysis.lowerProgram_wellTyped noErrors
  obtain ⟨globals, bodies, t₀, t₁, t₂, phase₀, none, -, phase₁, declares, -, phase₂, fills, count,
    -, result⟩ :=
    Analysis.lowerProgram_runs noErrors
  have wf := wellTyped.tables
  rw [result] at wf ⊢
  obtain ⟨vars, ⟨functions⟩⟩ := t₀
  obtain rfl : functions = [] := List.eq_nil_of_length_eq_zero none
  have globalNames : vars.names = file.globalNames := Analysis.names_of_lowerGlobals phase₀
  obtain ⟨fs, entries, -, -, rfl⟩ := Analysis.declareFunctions_first_run_iff.1 phase₁
  -- When the bodies are typed, the names of all globals and of the own parameters are in force.
  have known₁ : ∀ i func, file.funcDecls[i]? = some func →
      Tables.InForce file.globalNames func.parameters (.function (0 + i)) ⟨vars, ⟨fs⟩⟩ := by
    intro i func declared
    rw [Nat.zero_add, ← globalNames]
    exact Tables.inForce_parameters entries declared
  have resolved :=
    (Analysis.lowerFunctions_resolve declares.sound.toWellFormed known₁).result phase₂
  have globalNames₂ : t₂.globals.names = file.globalNames := by rw [fills.globals_eq, globalNames]
  refine ⟨globalNames₂, ?_, globals, bodies, rfl, count, fun i func declared => ?_⟩
  · rw [← globalNames₂]
    exact wf.globals.distinct
  obtain ⟨known₂, node, atNode, refer⟩ := resolved i func declared
  rw [Nat.zero_add] at known₂ refer
  obtain ⟨body, atBody, rfl⟩ : ∃ body, bodies[i]? = some body ∧ functionNode i body = node := by
    simpa [List.getElem?_mapIdx] using atNode
  obtain ⟨own, table, names⟩ := known₂.own
  obtain ⟨f, entry, rfl⟩ := Option.map_eq_some_iff.1 table
  refine ⟨f, body, entry, atBody, names, ?_, ?_⟩
  · rw [← names]
    exact (wf.get? entry).vars.distinct
  · rw [Analysis.references_functionNode] at refer
    exact refer.within func.body.within

/-- A function whose variables have the names of global ones: one is declared from the other, one by
a call in a block inside a branch, with an argument and a condition that still mean the global
variable. -/
def shadowingSource : String :=
  "var x, y int = 1, 2\nfunc pair(a, b int) (int, int) \x7b\nreturn b, x\n\x7d\n" ++
    "func main() \x7b\ny, z := x, y\nif x < y \x7b\n\x7b\nx, w := pair(x, z)\ny = w\n\x7d\n\x7d\nwrite(x)\n\x7d\n"

theorem shadowingSource_resolves :
    ∃ file p, File.parse shadowingSource = .ok file ∧ analyze file = .ok p ∧
    p.root.children.getLast?.map Node.references =
      some [⟨0, .function 1⟩, ⟨0, .globals⟩, ⟨1, .function 1⟩, ⟨1, .globals⟩, ⟨2, .function 1⟩,
        ⟨3, .function 1⟩, ⟨0, .globals⟩, ⟨1, .function 1⟩, ⟨0, .function 1⟩, ⟨3, .function 1⟩,
          ⟨0, .globals⟩, ⟨0, .function 1⟩,
        ⟨2, .function 1⟩] ∧
    p.Resolves file := by
  have references :
    ((File.parse shadowingSource).toOption.bind fun file => (analyze file).toOption.bind fun p =>
      p.root.children.getLast?.map Node.references) =
      some [⟨0, .function 1⟩, ⟨0, .globals⟩, ⟨1, .function 1⟩, ⟨1, .globals⟩, ⟨2, .function 1⟩,
        ⟨3, .function 1⟩, ⟨0, .globals⟩, ⟨1, .function 1⟩, ⟨0, .function 1⟩, ⟨3, .function 1⟩,
        ⟨0, .globals⟩, ⟨0, .function 1⟩, ⟨2, .function 1⟩] := by
    decide +kernel
  simp only [Option.bind_eq_some_iff] at references
  obtain ⟨file, parses, p, analyzes, references⟩ := references
  have analyzed : analyze file = .ok p := eq_ok_of_toOption analyzes
  exact ⟨file, p, eq_ok_of_toOption parses, analyzed, references, analyze_resolves analyzed⟩

end MiniGo
