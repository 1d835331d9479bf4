import MiniGo.Proofs.WellTyped.Basic

/-!
# The nodes of a source tree

What a syntax tree becomes in a typed tree, said without the analysis: which node each expression
is, and which nodes each statement is, in the order of the source text. Types are left open here.

* `Expr.Becomes`, `Target.Becomes`: the node of an expression and of an assignment target.
* `AssignmentsBecome`: one assignment for each pair of a place and a value, or one for all results
  of a call.
* `VarDecl.Become`, `Stmt.Become`, `Block.Becomes`: the nodes of declarations, statements and
  blocks.
* `File.Becomes`: the node of a whole source file.

A node refers to variables and functions by their places in the tables, so a relation is about the
tables, too. It says that the entry at that place has the name that is written in the source text.
Entries stay in their places, so the relations survive more declarations.
-/

namespace MiniGo

/-! ### Expressions -/

/-- A variable in sight of a scope has a given name. -/
def Tables.VariableNamed (t : Tables) (s : Scope) (v : VarRef) (name : String) : Prop :=
  s.Sees v ∧ ∃ x, t.var? v = some x ∧ x.name = name

/-- The function at an index has a given name. -/
def Tables.FunctionNamed (t : Tables) (i : Nat) (name : String) : Prop :=
  ∃ f, t.functions.get? i = some f ∧ f.name = name

/-- The node of a literal has its value; `negate` says that a minus in front of it is taken into the
value. -/
def Literal.Becomes (lit : Literal) (negate : Bool) (n : Node) : Prop :=
  n.children = [] ∧
    match lit.kind with
    | .int => ∃ i, readInteger? lit.text = some i ∧ n.kind = .intVal (if negate then -i else i)
    | .float =>
      ∃ x, Binary32.readFinite? lit.text = some x ∧ n.kind = .floatVal (if negate then x.neg else x)
    | .string => n.kind = .strVal lit.text
    | .bool => n.kind = .boolVal (lit.text == "true")

/-- The node of a zero. -/
def Node.IsZero (n : Node) : Prop :=
  n.children = [] ∧ (n.kind = .intVal 0 ∨ n.kind = .floatVal .zero)

mutual

/-- The node of an expression. A minus in front of a number belongs to the number; else it subtracts
from zero. -/
def Expr.Becomes (t : Tables) (s : Scope) : Expr → Node → Prop
  | .binary op _ left right, n =>
    n.kind = .op op ∧ ∃ l r, n.children = [l, r] ∧ left.Becomes t s l ∧ right.Becomes t s r
  | .operand sign primary _, n =>
    match Analysis.negatedLiteral? sign primary with
    | some lit => lit.Becomes true n
    | none =>
      match sign with
      | none | some .plus => primary.Becomes t s n
      | some .minus =>
        n.kind = .op .sub ∧ ∃ zero m, n.children = [zero, m] ∧ zero.IsZero ∧ primary.Becomes t s m
termination_by structural e => e

/-- The node of an operand without its sign. -/
def Primary.Becomes (t : Tables) (s : Scope) : Primary → Node → Prop
  | .literal lit, n => lit.Becomes false n
  | .name id, n => n.children = [] ∧ ∃ v, n.kind = .varUse v ∧ t.VariableNamed s v id.name
  | .call callee args, n =>
    ∃ i, n.kind = .call i ∧ t.FunctionNamed i callee.name ∧ Expr.AllBecome t s args n.children
  | .index array index, n =>
    n.children = [] ∧
      ∃ (v : VarRef) (k : Nat), n.kind = .arrayUse v k ∧ t.VariableNamed s v array.name ∧
        Analysis.constantInt? index = some (k : Int)
  | .paren inner, n => inner.Becomes t s n
termination_by structural primary => primary

/-- The nodes of expressions, one for each of them. -/
def Expr.AllBecome (t : Tables) (s : Scope) : List Expr → List Node → Prop
  | [], nodes => nodes = []
  | e :: es, nodes => ∃ n ns, nodes = n :: ns ∧ e.Becomes t s n ∧ Expr.AllBecome t s es ns
termination_by structural es => es

end

/-! ### Assignments and declarations -/

/-- The node of an assignment target. -/
def Target.Becomes (t : Tables) (s : Scope) : Target → Node → Prop
  | .name id, n => (Primary.name id).Becomes t s n
  | .index array position, n => (Primary.index array position).Becomes t s n

/-- The node of a variable of a scope that is declared by a name. -/
def Ident.Declared (t : Tables) (s : Scope) (id : Ident) (n : Node) : Prop :=
  n.children = [] ∧ ∃ v, n.kind = .varDecl v ∧ v.scope = s ∧ ∃ x, t.var? v = some x ∧
    x.name = id.name

/-- The nodes of an assignment to places: one for each pair of a place and a value. If the numbers
differ, the value is a call, and there is one node that assigns its results to all places. -/
inductive AssignmentsBecome {α : Type} (t : Tables) (s : Scope) (place : α → Node → Prop)
    (places : List α) : List Expr → List Node → Prop
  | pairs {values : List Expr} {nodes : List Node} (same : places.length = values.length)
      (each : List.Forall₂
        (fun pair n => ∃ l r, n = .statement .assign [l, r] ∧ place pair.1 l ∧ pair.2.Becomes t s r)
        (places.zip values) nodes) :
      AssignmentsBecome t s place places values nodes
  | results {callee : Ident} {args : List Expr} {line : Nat} {targets : List Node} {call : Node}
      (several : places.length ≠ 1) (each : List.Forall₂ place places targets)
      (called : (Primary.call callee args).Becomes t s call) :
      AssignmentsBecome t s place places [.operand none (.call callee args) line]
        [.statement .assign [.statement .varList targets, call]]

/-- The nodes of a specification: one declaration for each name without an initial value. -/
inductive VarSpec.Become (t : Tables) (s : Scope) (spec : VarSpec) (nodes : List Node) : Prop
  | declared (none : spec.values = []) (each : List.Forall₂ (Ident.Declared t s) spec.names nodes)
  | assigned (some : spec.values ≠ [])
      (become : AssignmentsBecome t s (Ident.Declared t s) spec.names spec.values nodes)

/-- The nodes of each part of a list, one after the other. -/
def Become {α : Type} (part : α → List Node → Prop) : List α → List Node → Prop
  | [], nodes => nodes = []
  | a :: as, nodes => ∃ first rest, nodes = first ++ rest ∧ part a first ∧ Become part as rest

/-- The nodes of a variable declaration. -/
def VarDecl.Become (t : Tables) (s : Scope) (decl : VarDecl) (nodes : List Node) : Prop :=
  MiniGo.Become (VarSpec.Become t s) decl.specs nodes

/-! ### Statements -/

/-- The node of a call that is a statement. Where no function of the program has the name, it may be
input or output. -/
inductive CallBecomes (t : Tables) (s : Scope) (callee : Ident) : List Expr → Node → Prop
  | call {args : List Expr} {n : Node} (call : (Primary.call callee args).Becomes t s n) :
      CallBecomes t s callee args n
  | write {arg : Expr} {value : Node} (free : ∀ i, ¬ t.FunctionNamed i callee.name)
      (name : callee.name = "write") (argument : arg.Becomes t s value) :
      CallBecomes t s callee [arg] (.statement .write [value])
  | read {arg : Expr} {target : Target} {place : Node} (free : ∀ i, ¬ t.FunctionNamed i callee.name)
      (name : callee.name = "read") (isTarget : arg.target? = some target)
      (argument : target.Becomes t s place) :
      CallBecomes t s callee [arg] (.statement .read [place])

mutual

/-- The nodes of a statement: exactly one, except for declarations and assignments. -/
def Stmt.Become (t : Tables) (s : Scope) : Stmt → List Node → Prop
  | .var decl, nodes => decl.Become t s nodes
  | .define names values _, nodes => AssignmentsBecome t s (Ident.Declared t s) names values nodes
  | .assign targets values _, nodes =>
    AssignmentsBecome t s (Target.Becomes t s) targets values nodes
  | .cond stmt, nodes => ∃ n, nodes = [n] ∧ stmt.Becomes t s n
  | .loop condition body _, nodes =>
    ∃ b c, nodes = [.statement .repeat_ [b, c]] ∧ body.Becomes t s b ∧ condition.Becomes t s c
  | .ret values _, nodes =>
    ∃ children, nodes = [.statement .ret children] ∧ Expr.AllBecome t s values children
  | .call callee args _, nodes => ∃ n, nodes = [n] ∧ CallBecomes t s callee args n
  | .block body, nodes => ∃ n, nodes = [n] ∧ body.Becomes t s n
termination_by structural stmt => stmt

/-- The node of a block. -/
def Block.Becomes (t : Tables) (s : Scope) : Block → Node → Prop
  | .mk statements _ _, n =>
    ∃ nodes, n = .statement .block nodes ∧ Stmt.AllBecome t s statements nodes
termination_by structural block => block

/-- The nodes of statements, one statement after the other. -/
def Stmt.AllBecome (t : Tables) (s : Scope) : List Stmt → List Node → Prop
  | [], nodes => nodes = []
  | stmt :: stmts, nodes =>
    ∃ first rest, nodes = first ++ rest ∧ stmt.Become t s first ∧ Stmt.AllBecome t s stmts rest
termination_by structural stmts => stmts

/-- The node of a conditional statement: body, else part, condition. -/
def IfStmt.Becomes (t : Tables) (s : Scope) : IfStmt → Node → Prop
  | .mk condition body otherwise _, n =>
    ∃ b others c, n = .statement .cond (b :: (others ++ [c])) ∧ body.Becomes t s b ∧
      otherwise.Become t s others ∧ condition.Becomes t s c
termination_by structural stmt => stmt

/-- The nodes of an else branch: none if it is absent, else one. -/
def ElseBranch.Become (t : Tables) (s : Scope) : ElseBranch → List Node → Prop
  | .absent, nodes => nodes = []
  | .block body, nodes => ∃ n, nodes = [n] ∧ body.Becomes t s n
  | .elseIf stmt, nodes => ∃ n, nodes = [n] ∧ stmt.Becomes t s n
termination_by structural branch => branch

end

/-! ### Source files -/

/-- The node of a function: it has the name of the declaration, and its body stands in its scope. -/
def FuncDecl.Becomes (t : Tables) (i : Nat) (decl : FuncDecl) (n : Node) : Prop :=
  ∃ body, n = .statement (.function i) [body] ∧ t.FunctionNamed i decl.name.name ∧
    decl.body.Becomes t (.function i) body

/-- The node of a source file: the nodes of all variable declarations, and then those of all
functions, both in the order of the source text. -/
def File.Becomes (t : Tables) (file : File) (n : Node) : Prop :=
  ∃ globals functions, n = .statement .program (globals ++ functions) ∧
    Become (VarDecl.Become t .globals) file.varDecls globals ∧ functions.length =
    file.funcDecls.length ∧ ∀ (i : Nat) (decl : FuncDecl) (node : Node), file.funcDecls[i]? =
      some decl → functions[i]? = some node → decl.Becomes t i node

/-! ### More declarations -/

/-- The same tables with more variables. -/
structure Tables.Adds (t t' : Tables) : Prop extends Tables.Extends t t' where
  size : t'.functions.size = t.functions.size

instance : IsPreorder Tables Tables.Adds where
  refl t := ⟨.refl t, rfl⟩
  trans _ _ _ h k := ⟨h.toExtends.trans k.toExtends, k.size.trans h.size⟩

section Mono

variable {t t' : Tables} {s : Scope}

theorem Tables.VariableNamed.mono {v : VarRef} {name : String} (h : t.VariableNamed s v name)
    (le : t.Extends t') :
    t'.VariableNamed s v name := by
  obtain ⟨sees, x, entry, rfl⟩ := h
  exact ⟨sees, x, le.var? entry, rfl⟩

theorem Tables.FunctionNamed.mono {i : Nat} {name : String} (h : t.FunctionNamed i name)
    (le : t.Extends t') :
    t'.FunctionNamed i name := by
  obtain ⟨f, entry, rfl⟩ := h
  obtain ⟨f', entry', ext⟩ := le.functions entry
  exact ⟨f', entry', ext.name⟩

/-- A function that is there after more variables were declared was there before. -/
theorem Tables.Adds.functionNamed {i : Nat} {name : String} (adds : t.Adds t')
    (h : t'.FunctionNamed i name) :
    t.FunctionNamed i name := by
  obtain ⟨f', entry', rfl⟩ := h
  obtain ⟨bound, -⟩ := List.getElem?_eq_some_iff.1 entry'
  have bound : i < t.functions.entries.length := lt_of_lt_of_eq bound adds.size
  obtain ⟨g, entry, ext⟩ := adds.functions (List.getElem?_eq_getElem bound)
  obtain rfl : g = f' := Option.some.inj (entry.symm.trans entry')
  exact ⟨_, List.getElem?_eq_getElem bound, ext.name.symm⟩

mutual

theorem Expr.Becomes.mono (le : t.Extends t') :
    ∀ {e : Expr} {n : Node}, e.Becomes t s n → e.Becomes t' s n
  | .binary op line left right, n, h => by
    obtain ⟨kind, l, r, children, hl, hr⟩ := h
    exact ⟨kind, l, r, children, Expr.Becomes.mono le hl, Expr.Becomes.mono le hr⟩
  | .operand sign primary line, n, h => by
    unfold Expr.Becomes at h ⊢
    split at h
    · exact h
    · split at h
      · exact Primary.Becomes.mono le h
      · exact Primary.Becomes.mono le h
      · obtain ⟨kind, zero, m, children, isZero, hm⟩ := h
        exact ⟨kind, zero, m, children, isZero, Primary.Becomes.mono le hm⟩

theorem Primary.Becomes.mono (le : t.Extends t') :
    ∀ {primary : Primary} {n : Node}, primary.Becomes t s n → primary.Becomes t' s n
  | .literal lit, n, h => h
  | .name id, n, h => by
    obtain ⟨children, v, kind, named⟩ := h
    exact ⟨children, v, kind, named.mono le⟩
  | .call callee args, n, h => by
    obtain ⟨i, kind, named, hargs⟩ := h
    exact ⟨i, kind, named.mono le, Expr.AllBecome.mono le hargs⟩
  | .index array index, n, h => by
    obtain ⟨children, v, k, kind, named, constant⟩ := h
    exact ⟨children, v, k, kind, named.mono le, constant⟩
  | .paren inner, n, h => Expr.Becomes.mono (e := inner) le h

theorem Expr.AllBecome.mono (le : t.Extends t') :
    ∀ {es : List Expr} {ns : List Node}, Expr.AllBecome t s es ns → Expr.AllBecome t' s es ns
  | [], ns, h => h
  | e :: es, ns, h => by
    obtain ⟨n, ms, rfl, hn, hms⟩ := h
    exact ⟨n, ms, rfl, Expr.Becomes.mono le hn, Expr.AllBecome.mono le hms⟩

end

theorem Target.Becomes.mono {target : Target} {n : Node} (h : target.Becomes t s n)
    (le : t.Extends t') :
    target.Becomes t' s n := by
  cases target with
  | name id => exact Primary.Becomes.mono le h
  | index array position => exact Primary.Becomes.mono le h

theorem Ident.Declared.mono {id : Ident} {n : Node} (h : id.Declared t s n) (le : t.Extends t') :
    id.Declared t' s n := by
  obtain ⟨children, v, kind, own, x, entry, name⟩ := h
  exact ⟨children, v, kind, own, x, le.var? entry, name⟩

theorem AssignmentsBecome.mono {α : Type} {place place' : α → Node → Prop} {places : List α}
    {values : List Expr} {nodes : List Node} (h : AssignmentsBecome t s place places values nodes)
    (le : t.Extends t') (le' : ∀ a n, place a n → place' a n) :
    AssignmentsBecome t' s place' places values nodes := by
  cases h with
  | pairs same each =>
    refine .pairs same (each.imp ?_)
    rintro pair n ⟨l, r, rfl, hl, hr⟩
    exact ⟨l, r, rfl, le' _ _ hl, hr.mono le⟩
  | results several each called =>
    exact .results several (each.imp le') (Primary.Becomes.mono le called)

theorem VarSpec.Become.mono {spec : VarSpec} {nodes : List Node} (h : spec.Become t s nodes)
    (le : t.Extends t') :
    spec.Become t' s nodes := by
  cases h with
  | declared none each => exact .declared none (each.imp fun _ _ declared => declared.mono le)
  | assigned some become =>
    exact .assigned some (become.mono le fun _ _ declared => declared.mono le)

theorem Become.imp {α : Type} {part part' : α → List Node → Prop}
    (le : ∀ a ns, part a ns → part' a ns) {as : List α} {nodes : List Node}
    (h : Become part as nodes) : Become part' as nodes := by
  induction as generalizing nodes with
  | nil => exact h
  | cons a as ih =>
    obtain ⟨first, rest, rfl, hfirst, hrest⟩ := h
    exact ⟨first, rest, rfl, le _ _ hfirst, ih hrest⟩

theorem VarDecl.Become.mono {decl : VarDecl} {nodes : List Node} (h : decl.Become t s nodes)
    (le : t.Extends t') :
    decl.Become t' s nodes :=
  MiniGo.Become.imp (fun _ _ spec => spec.mono le) h

theorem CallBecomes.mono {callee : Ident} {args : List Expr} {n : Node}
    (h : CallBecomes t s callee args n) (adds : t.Adds t') : CallBecomes t' s callee args n := by
  have free' {name : String} (free : ∀ i, ¬ t.FunctionNamed i name) :
      ∀ i, ¬ t'.FunctionNamed i name :=
    fun i named => free i (adds.functionNamed named)
  cases h with
  | call call => exact .call (Primary.Becomes.mono adds.toExtends call)
  | write free name argument => exact .write (free' free) name (argument.mono adds.toExtends)
  | read free name isTarget argument =>
    exact .read (free' free) name isTarget (argument.mono adds.toExtends)

mutual

theorem Stmt.Become.mono (adds : t.Adds t') :
    ∀ {stmt : Stmt} {nodes : List Node}, stmt.Become t s nodes → stmt.Become t' s nodes
  | .var decl, nodes, h => VarDecl.Become.mono h adds.toExtends
  | .define names values line, nodes, h =>
    AssignmentsBecome.mono h adds.toExtends fun _ _ declared => declared.mono adds.toExtends
  | .assign targets values line, nodes, h =>
    AssignmentsBecome.mono h adds.toExtends fun _ _ target => target.mono adds.toExtends
  | .cond stmt, nodes, h => by
    obtain ⟨n, rfl, hn⟩ := h
    exact ⟨n, rfl, IfStmt.Becomes.mono adds hn⟩
  | .loop condition body line, nodes, h => by
    obtain ⟨b, c, rfl, hb, hc⟩ := h
    exact ⟨b, c, rfl, Block.Becomes.mono adds hb, hc.mono adds.toExtends⟩
  | .ret values line, nodes, h => by
    obtain ⟨children, rfl, hchildren⟩ := h
    exact ⟨children, rfl, hchildren.mono adds.toExtends⟩
  | .call callee args line, nodes, h => by
    obtain ⟨n, rfl, hn⟩ := h
    exact ⟨n, rfl, hn.mono adds⟩
  | .block body, nodes, h => by
    obtain ⟨n, rfl, hn⟩ := h
    exact ⟨n, rfl, Block.Becomes.mono adds hn⟩

theorem Block.Becomes.mono (adds : t.Adds t') :
    ∀ {body : Block} {n : Node}, body.Becomes t s n → body.Becomes t' s n
  | .mk statements line endLine, n, h => by
    obtain ⟨nodes, rfl, hnodes⟩ := h
    exact ⟨nodes, rfl, Stmt.AllBecome.mono adds hnodes⟩

theorem Stmt.AllBecome.mono (adds : t.Adds t') :
    ∀ {stmts : List Stmt} {nodes : List Node}, Stmt.AllBecome t s stmts nodes →
      Stmt.AllBecome t' s stmts nodes
  | [], nodes, h => h
  | stmt :: stmts, nodes, h => by
    obtain ⟨first, rest, rfl, hfirst, hrest⟩ := h
    exact ⟨first, rest, rfl, Stmt.Become.mono adds hfirst, Stmt.AllBecome.mono adds hrest⟩

theorem IfStmt.Becomes.mono (adds : t.Adds t') :
    ∀ {stmt : IfStmt} {n : Node}, stmt.Becomes t s n → stmt.Becomes t' s n
  | .mk condition body otherwise line, n, h => by
    obtain ⟨b, others, c, rfl, hb, hothers, hc⟩ := h
    exact ⟨b, others, c, rfl, Block.Becomes.mono adds hb, ElseBranch.Become.mono adds hothers,
      hc.mono adds.toExtends⟩

theorem ElseBranch.Become.mono (adds : t.Adds t') :
    ∀ {branch : ElseBranch} {nodes : List Node}, branch.Become t s nodes → branch.Become t' s nodes
  | .absent, nodes, h => h
  | .block body, nodes, h => by
    obtain ⟨n, rfl, hn⟩ := h
    exact ⟨n, rfl, Block.Becomes.mono adds hn⟩
  | .elseIf stmt, nodes, h => by
    obtain ⟨n, rfl, hn⟩ := h
    exact ⟨n, rfl, IfStmt.Becomes.mono adds hn⟩

end

end Mono

/-! ### Other types -/

/-- Two nodes that differ in their types only. -/
def Node.SameUpToType (n n' : Node) : Prop := n'.kind = n.kind ∧ n'.children = n.children

theorem Node.sameUpToType_widen (n : Node) : n.SameUpToType n.widen := by
  obtain ⟨kind, ty, children⟩ := n
  by_cases widens : ty = .int ∧ kind.isReference = false <;>
    simp [Node.SameUpToType, Node.widen, widens]

section Retype

variable {t : Tables} {s : Scope} {n n' : Node}

theorem Literal.Becomes.retype {lit : Literal} {negate : Bool} (h : lit.Becomes negate n)
    (same : n.SameUpToType n') :
    lit.Becomes negate n' := by
  unfold Literal.Becomes at h ⊢
  rwa [same.1, same.2]

mutual

/-- The type of a node does not matter for the expression that it is the node of. -/
theorem Expr.Becomes.retype (same : n.SameUpToType n') :
    ∀ {e : Expr}, e.Becomes t s n → e.Becomes t s n'
  | .binary op line left right, h => by
    unfold Expr.Becomes at h ⊢
    rwa [same.1, same.2]
  | .operand sign primary line, h => by
    unfold Expr.Becomes at h ⊢
    split at h
    · exact h.retype same
    · split at h
      · exact Primary.Becomes.retype same h
      · exact Primary.Becomes.retype same h
      · rwa [same.1, same.2]

theorem Primary.Becomes.retype (same : n.SameUpToType n') :
    ∀ {primary : Primary}, primary.Becomes t s n → primary.Becomes t s n'
  | .literal lit, h => Literal.Becomes.retype h same
  | .name id, h => by
    unfold Primary.Becomes at h ⊢
    rwa [same.1, same.2]
  | .call callee args, h => by
    unfold Primary.Becomes at h ⊢
    rwa [same.1, same.2]
  | .index array index, h => by
    unfold Primary.Becomes at h ⊢
    rwa [same.1, same.2]
  | .paren inner, h => Expr.Becomes.retype (e := inner) same h

end

theorem Expr.Becomes.widen {e : Expr} (h : e.Becomes t s n) : e.Becomes t s n.widen :=
  h.retype n.sameUpToType_widen

end Retype

end MiniGo
