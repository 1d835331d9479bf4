import MiniGo.Proofs.Frames.Program
import MiniGo.Proofs.Represented.Program

/-!
# Names and what they refer to

Where names of variables and arrays occur in the body of a function, which names of the function are
in force at each of these places, and what a name refers to there. All of this is about the syntax
tree: a name of the function is in force behind the specification that declares it, and blocks,
branches and loops open no scope of their own.

* `Mention`, `Stmt.mentions`, `Block.mentions`: the occurrences of names, each with the names that
  are in force.
* `Stmt.declares`, `Block.declares`: the names that are declared, in order.
* `Mention.RefersTo`: the variable that a mention is about.
* `Node.references`: the variables that a typed tree refers to.
* `lowerExpr_refers`, `lowerTarget_refers`: the mentions in expressions and targets.
-/

namespace MiniGo

/-! ### Mentions -/

/-- An occurrence of the name of a variable or an array in the body of a function. The names in
force are those of the function that are declared before it, parameters first. -/
structure Mention where
  name : String
  inForce : List String
deriving DecidableEq, Repr

/-- What a mention in a scope refers to. If its name is in force, this is the variable of the scope
at the position of the name; else it is the global variable with the name. -/
inductive Mention.RefersTo (outer locals : List String) (s : Scope) (m : Mention) : VarRef → Prop
  | own (declared : m.name ∈ m.inForce) : RefersTo outer locals s m ⟨locals.idxOf m.name, s⟩
  | global (free : m.name ∉ m.inForce) (declared : m.name ∈ outer) :
      RefersTo outer locals s m ⟨outer.idxOf m.name, .globals⟩

mutual

/-- The mentions in an expression. -/
def Expr.mentions (inForce : List String) : Expr → List Mention
  | .binary _ _ left right => left.mentions inForce ++ right.mentions inForce
  | .operand _ primary _ => primary.mentions inForce
termination_by structural e => e

/-- The mentions in an operand. -/
def Primary.mentions (inForce : List String) : Primary → List Mention
  | .literal _ => []
  | .name id => [⟨id.name, inForce⟩]
  | .call _ args => Expr.allMentions inForce args
  | .index array position => ⟨array.name, inForce⟩ :: position.mentions inForce
  | .paren inner => inner.mentions inForce
termination_by structural primary => primary

/-- The mentions in expressions, one after the other. -/
def Expr.allMentions (inForce : List String) : List Expr → List Mention
  | [] => []
  | e :: es => e.mentions inForce ++ Expr.allMentions inForce es
termination_by structural es => es

end

/-- The mentions in an assignment target. -/
def Target.mentions (inForce : List String) : Target → List Mention
  | .name id => (Primary.name id).mentions inForce
  | .index array position => (Primary.index array position).mentions inForce

/-- The mentions in assignments of one value to each place: the place comes before its value. -/
def pairMentions (places values : List (List Mention)) : List Mention :=
  (places.zip values).flatMap fun pair => pair.1 ++ pair.2

/-- The mentions in an assignment to places. If there is not one value for each place, the value is
a call, and all places come before it. -/
def assignmentMentions (places values : List (List Mention)) : List Mention :=
  if places.length = values.length then pairMentions places values
    else places.flatten ++ values.flatten

/-- Names in their declaration, where all that is declared so far is in force. -/
def declaredMentions (inForce : List String) (names : List Ident) : List Mention :=
  names.map fun id => ⟨id.name, inForce⟩

/-- The mentions in a declaration. The names that it declares are in force behind it, but not in the
initial values. -/
def declarationMentions (inForce : List String) (names : List Ident) (values : List Expr) :
    List Mention :=
  assignmentMentions ((declaredMentions (inForce ++ names.map Ident.name) names).map ([·]))
    (values.map (Expr.mentions inForce))

/-- The mentions in a type as written. -/
def TypeSpec.mentions (inForce : List String) : TypeSpec → List Mention
  | .named _ => []
  | .array length _ _ => length.mentions inForce

/-- The names that a specification declares. -/
def VarSpec.declares (spec : VarSpec) : List String := spec.names.map Ident.name

/-- The mentions in a specification. -/
def VarSpec.mentions (inForce : List String) (spec : VarSpec) : List Mention :=
  spec.type?.toList.flatMap (TypeSpec.mentions inForce) ++
    declarationMentions inForce spec.names spec.values

/-- The names that a variable declaration declares. -/
def VarDecl.declares (decl : VarDecl) : List String := decl.specs.flatMap VarSpec.declares

/-- The mentions in specifications, each of which is behind those before it. -/
def VarSpec.allMentions (inForce : List String) : List VarSpec → List Mention
  | [] => []
  | spec :: specs => spec.mentions inForce ++ VarSpec.allMentions (inForce ++ spec.declares) specs

mutual

/-- The names that a statement declares, in order. -/
def Stmt.declares : Stmt → List String
  | .var decl => decl.declares
  | .define names _ _ => names.map Ident.name
  | .cond stmt => stmt.declares
  | .loop _ body _ => body.declares
  | .block body => body.declares
  | .assign .. | .ret .. | .call .. => []
termination_by structural stmt => stmt

/-- The names that a block declares, in order. -/
def Block.declares : Block → List String
  | .mk statements _ _ => Stmt.allDeclare statements
termination_by structural block => block

/-- The names that statements declare, in order. -/
def Stmt.allDeclare : List Stmt → List String
  | [] => []
  | stmt :: stmts => stmt.declares ++ Stmt.allDeclare stmts
termination_by structural stmts => stmts

/-- The names that a conditional statement declares, in order. -/
def IfStmt.declares : IfStmt → List String
  | .mk _ body otherwise _ => body.declares ++ otherwise.declares
termination_by structural stmt => stmt

/-- The names that an else branch declares, in order. -/
def ElseBranch.declares : ElseBranch → List String
  | .absent => []
  | .block body => body.declares
  | .elseIf stmt => stmt.declares
termination_by structural branch => branch

end

mutual

/-- The mentions in a statement, in the order of its nodes: a condition comes last, but what is
declared in the branches is not in force in it. -/
def Stmt.mentions (inForce : List String) : Stmt → List Mention
  | .var decl => VarSpec.allMentions inForce decl.specs
  | .define names values _ => declarationMentions inForce names values
  | .assign targets values _ =>
    assignmentMentions (targets.map (Target.mentions inForce)) (values.map (Expr.mentions inForce))
  | .cond stmt => stmt.mentions inForce
  | .loop condition body _ => body.mentions inForce ++ condition.mentions inForce
  | .ret values _ => Expr.allMentions inForce values
  | .call _ args _ => Expr.allMentions inForce args
  | .block body => body.mentions inForce
termination_by structural stmt => stmt

/-- The mentions in a block. -/
def Block.mentions (inForce : List String) : Block → List Mention
  | .mk statements _ _ => Stmt.allMentions inForce statements
termination_by structural block => block

/-- The mentions in statements, each of which is behind those before it. -/
def Stmt.allMentions (inForce : List String) : List Stmt → List Mention
  | [] => []
  | stmt :: stmts => stmt.mentions inForce ++ Stmt.allMentions (inForce ++ stmt.declares) stmts
termination_by structural stmts => stmts

/-- The mentions in a conditional statement. -/
def IfStmt.mentions (inForce : List String) : IfStmt → List Mention
  | .mk condition body otherwise _ =>
    body.mentions inForce ++
      (otherwise.mentions (inForce ++ body.declares) ++ condition.mentions inForce)
termination_by structural stmt => stmt

/-- The mentions in an else branch. -/
def ElseBranch.mentions (inForce : List String) : ElseBranch → List Mention
  | .absent => []
  | .block body => body.mentions inForce
  | .elseIf stmt => stmt.mentions inForce
termination_by structural branch => branch

end

namespace FuncDecl

/-- The names of the parameters of a function. -/
def parameters (func : FuncDecl) : List String := func.declaredParams.map fun param => param.1.name

/-- The names of all variables of a function: the parameters, and then what its body declares, in
order. -/
def locals (func : FuncDecl) : List String := func.parameters ++ func.body.declares

/-- The mentions in the body of a function. -/
def mentions (func : FuncDecl) : List Mention := func.body.mentions func.parameters

end FuncDecl

/-! ### The order of declarations -/

/-- At all mentions, the names in force are the first ones of a list. -/
def Within (all : List String) (ms : List Mention) : Prop := ∀ m ∈ ms, m.inForce <+: all

section Within

variable {all declared declared' inForce : List String} {ms ms' : List Mention}

theorem Within.mono (h : Within declared ms) (le : declared <+: all) : Within all ms :=
  fun m mem => (h m mem).trans le

theorem Within.append (h : Within all ms) (h' : Within all ms') : Within all (ms ++ ms') :=
  List.forall_mem_append.2 ⟨h, h'⟩

/-- Names that are declared behind each other. -/
theorem Within.andThen (h : Within (inForce ++ declared) ms)
    (h' : Within (inForce ++ declared ++ declared') ms') :
    Within (inForce ++ (declared ++ declared')) (ms ++ ms') := by
  rw [← List.append_assoc]
  exact (h.mono (List.prefix_append _ _)).append h'

mutual

theorem Expr.within : ∀ e : Expr, Within inForce (e.mentions inForce)
  | .binary _ _ left right => (Expr.within left).append (Expr.within right)
  | .operand _ primary _ => Primary.within primary

theorem Primary.within : ∀ primary : Primary, Within inForce (primary.mentions inForce)
  | .literal _ => List.forall_mem_nil _
  | .name _ => List.forall_mem_singleton.2 List.prefix_rfl
  | .call _ args => Expr.all_within args
  | .index _ position => List.forall_mem_cons.2 ⟨List.prefix_rfl, Expr.within position⟩
  | .paren inner => Expr.within inner

theorem Expr.all_within : ∀ es : List Expr, Within inForce (Expr.allMentions inForce es)
  | [] => List.forall_mem_nil _
  | e :: es => (Expr.within e).append (Expr.all_within es)

end

theorem Target.within (target : Target) : Within inForce (target.mentions inForce) := by
  cases target with
  | name id => exact Primary.within _
  | index array position => exact Primary.within _

theorem within_assignmentMentions {places values : List (List Mention)}
    (hplaces : ∀ ms ∈ places, Within all ms) (hvalues : ∀ ms ∈ values, Within all ms) :
    Within all (assignmentMentions places values) := by
  intro m mem
  unfold assignmentMentions pairMentions at mem
  split at mem
  · obtain ⟨⟨place, value⟩, pair, mem⟩ := List.mem_flatMap.1 mem
    obtain ⟨inPlaces, inValues⟩ := List.of_mem_zip pair
    rcases List.mem_append.1 mem with mem | mem
    · exact hplaces place inPlaces m mem
    · exact hvalues value inValues m mem
  · rcases List.mem_append.1 mem with mem | mem
    · obtain ⟨place, inPlaces, mem⟩ := List.mem_flatten.1 mem
      exact hplaces place inPlaces m mem
    · obtain ⟨value, inValues, mem⟩ := List.mem_flatten.1 mem
      exact hvalues value inValues m mem

theorem within_declarationMentions (names : List Ident) (values : List Expr) :
    Within (inForce ++ names.map Ident.name) (declarationMentions inForce names values) := by
  refine within_assignmentMentions ?_ ?_
  · simp [declaredMentions, Within]
  · exact List.forall_mem_map.2 fun e _ => e.within.mono (List.prefix_append _ _)

theorem VarSpec.within (spec : VarSpec) :
    Within (inForce ++ spec.declares) (spec.mentions inForce) := by
  refine Within.append ?_ (within_declarationMentions spec.names spec.values)
  intro m mem
  obtain ⟨type, -, mem⟩ := List.mem_flatMap.1 mem
  cases type with
  | named id => cases mem
  | array length element line => exact length.within.mono (List.prefix_append _ _) m mem

theorem VarSpec.all_within (specs : List VarSpec) :
    Within (inForce ++ specs.flatMap VarSpec.declares) (VarSpec.allMentions inForce specs) := by
  induction specs generalizing inForce with
  | nil => exact List.forall_mem_nil _
  | cons spec specs ih => exact spec.within.andThen ih

mutual

theorem Stmt.within : ∀ (stmt : Stmt) {inForce : List String},
    Within (inForce ++ stmt.declares) (stmt.mentions inForce)
  | .var decl, _ => VarSpec.all_within decl.specs
  | .define names values _, _ => within_declarationMentions names values
  | .assign targets values _, inForce => by
    rw [Stmt.declares, List.append_nil]
    exact within_assignmentMentions (List.forall_mem_map.2 fun target _ => target.within)
      (List.forall_mem_map.2 fun e _ => e.within)
  | .cond stmt, _ => IfStmt.within stmt
  | .loop condition body _, _ =>
    (Block.within body).append (condition.within.mono (List.prefix_append _ _))
  | .ret values _, _ => (Expr.all_within values).mono (List.prefix_append _ _)
  | .call _ args _, _ => (Expr.all_within args).mono (List.prefix_append _ _)
  | .block body, _ => Block.within body

/-- What is in force in a block are the first of the names that are declared in it and before it. -/
theorem Block.within : ∀ (block : Block) {inForce : List String},
    Within (inForce ++ block.declares) (block.mentions inForce)
  | .mk statements _ _, _ => Stmt.all_within statements

theorem Stmt.all_within : ∀ (stmts : List Stmt) {inForce : List String},
    Within (inForce ++ Stmt.allDeclare stmts) (Stmt.allMentions inForce stmts)
  | [], _ => List.forall_mem_nil _
  | stmt :: stmts, _ => (Stmt.within stmt).andThen (Stmt.all_within stmts)

theorem IfStmt.within : ∀ (stmt : IfStmt) {inForce : List String},
    Within (inForce ++ stmt.declares) (stmt.mentions inForce)
  | .mk condition body otherwise _, _ =>
    (Block.within body).andThen
      ((ElseBranch.within otherwise).append (condition.within.mono
        ((List.prefix_append _ _).trans (List.prefix_append _ _))))

theorem ElseBranch.within : ∀ (branch : ElseBranch) {inForce : List String},
    Within (inForce ++ branch.declares) (branch.mentions inForce)
  | .absent, _ => List.forall_mem_nil _
  | .block body, _ => Block.within body
  | .elseIf stmt, _ => IfStmt.within stmt

end

end Within

/-! ### Names in force -/

/-- The names of the variables of a table, by slot. -/
def VarTable.names (vars : VarTable) : List String := vars.entries.map Variable.name

theorem VarTable.idxOf_of_find? {vars : VarTable} {name : String} {slot : Nat}
    (h : vars.find? name = some slot) :
    name ∈ vars.names ∧ vars.names.idxOf name = slot := by
  have found : vars.names.findIdx? (· == name) = some slot := by rwa [names, List.findIdx?_map]
  obtain ⟨bound, position⟩ := List.findIdx?_eq_some_iff_findIdx_eq.1 found
  exact ⟨List.idxOf_lt_length_iff.1 (position.trans_lt bound), position⟩

theorem VarTable.not_mem_of_find? {vars : VarTable} {name : String} (h : vars.find? name = none) :
    name ∉ vars.names := by
  have missing : vars.names.idxOf? name = none := by rwa [List.idxOf?, names, List.findIdx?_map]
  exact List.idxOf?_eq_none_iff.1 missing

/-- The names of the variables around a scope. -/
def Tables.outer (t : Tables) : Scope → List String
  | .globals => []
  | .function _ => t.globals.names

/-- Tables in which the variables of a scope, and those around it, have given names, by slot. -/
structure Tables.InForce (outer inForce : List String) (s : Scope) (t : Tables) : Prop where
  outer : t.outer s = outer
  own : ∃ vars, t.table? s = some vars ∧ vars.names = inForce

variable {outer inForce : List String} {s : Scope} {t : Tables}

/-- A name is resolved to what it refers to when these names are in force. -/
theorem Tables.InForce.refersTo {name : String} {v : VarRef} (h : t.InForce outer inForce s)
    (resolved : t.resolve? name s = some v) :
    Mention.RefersTo outer inForce s ⟨name, inForce⟩ v := by
  obtain ⟨rfl, vars, table, rfl⟩ := h
  cases s with
  | globals =>
    obtain rfl := Option.some.inj table
    obtain ⟨slot, found, rfl⟩ := Option.map_eq_some_iff.1 resolved
    obtain ⟨declared, rfl⟩ := VarTable.idxOf_of_find? found
    exact .own declared
  | function i =>
    simp only [Tables.resolve?, table, Option.bind_some] at resolved
    split at resolved
    · rename_i slot found
      obtain rfl := Option.some.inj resolved
      obtain ⟨declared, rfl⟩ := VarTable.idxOf_of_find? found
      exact .own declared
    · rename_i missing
      obtain ⟨slot, found, rfl⟩ := Option.map_eq_some_iff.1 resolved
      obtain ⟨declared, rfl⟩ := VarTable.idxOf_of_find? found
      exact .global (VarTable.not_mem_of_find? missing) declared

/-! ### References -/

/-- The variable that a kind of node is about. -/
def NodeKind.variable? : NodeKind → Option VarRef
  | .varDecl v | .varUse v | .arrayUse v _ => some v
  | _ => none

mutual

/-- The variables that a tree refers to, in order. -/
def Node.references : Node → List VarRef
  | .mk kind _ children => kind.variable?.toList ++ referencesAll children

/-- The variables that trees refer to, in order. -/
def Node.referencesAll : List Node → List VarRef
  | [] => []
  | n :: ns => n.references ++ referencesAll ns

end

namespace Node

theorem references_eq (n : Node) :
    n.references = n.kind.variable?.toList ++ referencesAll n.children := by
  cases n
  rfl

@[simp] theorem referencesAll_nil : referencesAll [] = [] := rfl

@[simp] theorem referencesAll_cons (n : Node) (ns : List Node) :
    referencesAll (n :: ns) = n.references ++ referencesAll ns := rfl

@[simp] theorem referencesAll_append (ns ms : List Node) :
    referencesAll (ns ++ ms) = referencesAll ns ++ referencesAll ms := by
  induction ns with
  | nil => rfl
  | cons n ns ih =>
    rw [List.cons_append, referencesAll_cons, referencesAll_cons, ih, List.append_assoc]

@[simp] theorem references_widen (n : Node) : n.widen.references = n.references := by
  obtain ⟨kind, children⟩ := n.sameUpToType_widen
  rw [references_eq, references_eq, kind, children]

end Node

/-- References are those of mentions, one for each of them. -/
def Refer (outer : List String) (s : Scope) (ms : List Mention) (refs : List VarRef) : Prop :=
  List.Forall₂ (fun m v => m.RefersTo outer m.inForce s v) ms refs

theorem Refer.append {ms ms' : List Mention} {refs refs' : List VarRef} (h : Refer outer s ms refs)
    (h' : Refer outer s ms' refs') :
    Refer outer s (ms ++ ms') (refs ++ refs') := List.rel_append h h'

theorem Refer.singleton {m : Mention} {v : VarRef} (h : m.RefersTo outer m.inForce s v) :
    Refer outer s [m] [v] := .cons h .nil

/-- The nodes of several expressions, one after the other. -/
theorem Refer.all {es : List Expr} {nodes : List Node}
    (each : List.Forall₂ (fun e n => Refer outer s (e.mentions inForce) n.references) es nodes) :
    Refer outer s (Expr.allMentions inForce es) (Node.referencesAll nodes) := by
  induction each with
  | nil => exact .nil
  | cons first _ ih => exact first.append ih

namespace Analysis

open Report

variable {line : Nat} {n : Node}

/-! ### Expressions -/

mutual

/-- A constant mentions no names. -/
theorem mentions_of_constantInt? :
    ∀ {e : Expr} {k : Int}, constantInt? e = some k → e.mentions inForce = []
  | .operand sign primary line, _, h => by
    obtain ⟨k', constant, -⟩ := Option.map_eq_some_iff.1 h
    exact mentions_of_constantPrimary? constant

theorem mentions_of_constantPrimary? :
    ∀ {primary : Primary} {k : Int}, constantPrimary? primary = some k →
    primary.mentions inForce = []
  | .literal _, _, _ => rfl
  | .paren inner, _, h => mentions_of_constantInt? (e := inner) h

end

theorem lowerLiteral_references {lit : Literal} {negate : Bool}
    (h : (lowerLiteral lit negate).value = some n) :
    n.references = [] := by
  obtain ⟨children, kind⟩ := lowerLiteral_becomes h
  have none : n.kind.variable? = none := by
    split at kind
    · obtain ⟨_, -, isNumber⟩ := kind
      rw [isNumber]
      rfl
    · obtain ⟨_, -, isNumber⟩ := kind
      rw [isNumber]
      rfl
    · rw [kind]
      rfl
    · rw [kind]
      rfl
  rw [Node.references_eq, children, none]
  rfl

theorem lowerOperation_references {op : BinaryOp} {l r : Node}
    (h : (lowerOperation op line l r).value = some n) :
    n.references = l.references ++ r.references := by
  obtain ⟨ty, -, rfl⟩ := value_lowerOperation.1 h
  split <;> simp [Node.references, NodeKind.variable?]

theorem lowerSigned_references {sign : Sign} {m : Node}
    (h : (lowerSigned sign line m).value = some n) :
    n.references = m.references := by
  have zero (ty : Ty) : (zeroNode ty).references = [] := by
    unfold zeroNode
    split <;> rfl
  obtain ⟨-, -, rfl⟩ := value_lowerSigned.1 h
  cases sign with
  | plus => rfl
  | minus => simp [Node.references, NodeKind.variable?, zero]

theorem lowerVariable_refers {id : Ident} (names : t.InForce outer inForce s)
    (h : (lowerVariable t s id).value = some n) :
    Refer outer s [⟨id.name, inForce⟩] n.references := by
  obtain ⟨v, x, resolved, -, rfl⟩ := value_lowerVariable.1 h
  exact .singleton (names.refersTo resolved)

theorem lowerIndex_refers {array : Ident} {position : Expr} (names : t.InForce outer inForce s)
    (h : (lowerIndex t s array position).value = some n) :
    Refer outer s (⟨array.name, inForce⟩ :: position.mentions inForce) n.references := by
  obtain ⟨v, x, shape, k, resolved, -, -, constant, -, rfl⟩ := value_lowerIndex.1 h
  rw [mentions_of_constantInt? constant]
  exact .singleton (names.refersTo resolved)

mutual

/-- The node of an expression refers to what the names in the expression refer to. -/
theorem lowerExpr_refers (names : t.InForce outer inForce s) : ∀ {e : Expr} {n : Node},
    (lowerExpr t s e).value = some n → Refer outer s (e.mentions inForce) n.references
  | .binary op line left right, n, h => by
    obtain ⟨l, r, hl, hr, -, hn⟩ := value_lowerExpr_binary.1 h
    rw [lowerOperation_references hn]
    exact (lowerExpr_refers names hl).append (lowerExpr_refers names hr)
  | .operand sign primary line, n, h => by
    rcases lowerExpr_operand_eq_some h with ⟨lit, negated, literal⟩ | ⟨-, m, lowered, node⟩
    · obtain ⟨rfl, rfl⟩ := negatedLiteral?_eq_some negated
      rw [lowerLiteral_references literal]
      exact .nil
    · cases sign with
      | none => exact node ▸ lowerPrimary_refers names lowered
      | some sign =>
        rw [lowerSigned_references node]
        exact lowerPrimary_refers names lowered

theorem lowerPrimary_refers (names : t.InForce outer inForce s) :
    ∀ {line : Nat} {primary : Primary} {n : Node},
    (lowerPrimary t s line primary).value = some n →
      Refer outer s (primary.mentions inForce) n.references
  | line, .literal lit, n, h => by
    rw [lowerLiteral_references h]
    exact .nil
  | line, .name id, n, h => lowerVariable_refers names h
  | line, .call callee args, n, h => by
    obtain ⟨j, f, children, -, -, all, -, rfl⟩ := lowerCall_eq_some (value_lowerPrimary_call.1 h).1
    exact .all (forall₂_of_values (lowerValues_refer names args) all)
  | line, .index array position, n, h => lowerIndex_refers names h
  | line, .paren inner, n, h => lowerExpr_refers (e := inner) names h

theorem lowerValues_refer (names : t.InForce outer inForce s) : ∀ es : List Expr,
    List.Forall₂ (fun e n? => ∀ n, n? = some n → Refer outer s (e.mentions inForce) n.references) es
      (lowerValues t s es).value
  | [] => .nil
  | e :: es => by
    refine .cons (fun n found => ?_) (lowerValues_refer names es)
    simp only [value_continueWith, value_asValue] at found
    obtain ⟨_, found, rfl, -⟩ := found
    exact lowerExpr_refers names found

end

theorem lowerValue_refers {e : Expr} (names : t.InForce outer inForce s)
    (h : (lowerValue t s e).value = some n) : Refer outer s (e.mentions inForce) n.references :=
  lowerExpr_refers names (value_lowerValue.1 h).1

theorem lowerCondition_refers {e : Expr} {construct : String} (names : t.InForce outer inForce s)
    (h : (lowerCondition t s e construct line).value = some n) :
    Refer outer s (e.mentions inForce) n.references :=
  lowerExpr_refers names (value_lowerCondition.1 h).1

theorem lowerTarget_refers {target : Target} (names : t.InForce outer inForce s)
    (h : (lowerTarget t s target).value = some n) :
    Refer outer s (target.mentions inForce) n.references := by
  have lowered := (value_lowerTarget.1 h).1
  cases target with
  | name id => exact lowerVariable_refers names lowered
  | index array position => exact lowerIndex_refers names lowered

/-- A call with its arguments. -/
theorem lowerCall_refers {callee : Ident} {args : List Expr} (names : t.InForce outer inForce s)
    (h : (lowerCall t callee (lowerValues t s args).value line).value = some n) :
    Refer outer s (Expr.allMentions inForce args) n.references := by
  obtain ⟨j, f, children, -, -, all, -, rfl⟩ := lowerCall_eq_some h
  exact .all (forall₂_of_values (lowerValues_refer names args) all)

end Analysis

end MiniGo
