import Mathlib.Data.List.ReduceOption
import MiniGo.Proofs.Represented.Program
import MiniGo.Proofs.Rounding
import MiniGo.Proofs.Syntax.Leaves

/-!
# Constants and literals

The constants of a tree stand for the literals of the source text, each for one of its own and in
the same order: a condition, which is the last part of its node, comes before the other parts. What
a string literal has between its quotes is taken over as it is, with nothing added, removed or
replaced on the way.

* `Node.texts`, `Node.constants`: the texts of the string nodes of a tree, and its constants in
  order.
* `StandFor`: constants in a tree and leaves of the source text.
* `StandFor.strings`, `StandFor.isFinite`: what this says about strings, and about floats.
* `analyze_standFor`: the constants of a program stand for literals of its file.

Literals in an index or in the length of an array have no nodes. A minus in front of an operand that
is no number is a difference, and the zero in it stands for no literal.
-/

namespace MiniGo

/-! ### Texts -/

/-- The text of a string node. -/
def NodeKind.text? : NodeKind → Option String
  | .strVal text => some text
  | _ => none

mutual

/-- The texts of the string nodes of a tree, in order. -/
def Node.texts : Node → List String
  | .mk kind _ children => kind.text?.toList ++ textsAll children

/-- The texts of the string nodes of trees, in order. -/
def Node.textsAll : List Node → List String
  | [] => []
  | n :: ns => n.texts ++ textsAll ns

end

/-- The text of a leaf that is a string literal. -/
def Leaf.string? (l : Leaf) : Option String :=
  if l.kind = .literal .string then some l.text else none

/-- The texts of the string literals among leaves, in order. -/
def stringsOf (leaves : List Leaf) : List String := leaves.filterMap Leaf.string?

/-- The text of a token that is a string literal. -/
def Token.string? : Token → Option String
  | .string text => some text
  | _ => none

/-! ### Constants -/

/-- Whether a node of a kind is a constant. -/
def NodeKind.isConstant : NodeKind → Bool
  | .intVal _ | .floatVal _ | .strVal _ | .boolVal _ => true
  | _ => false

/-- The parts of a node in the order of the source text, where a condition comes first. -/
def NodeKind.conditionFirst {α : Type} : NodeKind → List α → List α
  | .cond, parts | .repeat_, parts => parts.getLast?.toList ++ parts.dropLast
  | _, parts => parts

mutual

/-- The constants of a tree, in the order of the source text. -/
def Node.constants : Node → List NodeKind
  | .mk kind _ children =>
    (if kind.isConstant then [kind] else []) ++
      (kind.conditionFirst (constantsEach children)).flatten

/-- The constants of trees, for each tree. -/
def Node.constantsEach : List Node → List (List NodeKind)
  | [] => []
  | n :: ns => n.constants :: constantsEach ns

end

namespace Node

@[simp] theorem constants_mk (kind : NodeKind) (ty : Ty) (children : List Node) :
    (mk kind ty children).constants =
      (if kind.isConstant then [kind] else []) ++
        (kind.conditionFirst (constantsEach children)).flatten := rfl

@[simp] theorem constantsEach_eq (ns : List Node) : constantsEach ns = ns.map constants := by
  induction ns with
  | nil => rfl
  | cons n ns ih => rw [constantsEach, ih, List.map_cons]

/-- The constants of a node that is no constant and no condition are those of its children. -/
theorem constants_eq {n : Node} (kind : n.kind.isConstant = false)
    (order : n.kind.conditionFirst (n.children.map constants) = n.children.map constants) :
    n.constants = n.children.flatMap constants := by
  obtain ⟨kind', ty, children⟩ := n
  simp only [kind_mk, children_mk] at kind order
  rw [constants_mk, kind, constantsEach_eq, order, List.flatMap]
  rfl

/-- A node without children that is no constant has none. -/
theorem constants_eq_nil {n : Node} (children : n.children = [])
    (kind : n.kind.isConstant = false) :
    n.constants = [] := by
  have order : n.kind.conditionFirst (n.children.map constants) = n.children.map constants := by
    rw [children]
    cases n.kind <;> rfl
  rw [constants_eq kind order, children, List.flatMap_nil]

theorem mem_conditionFirst {α : Type} {kind : NodeKind} {parts : List α} {a : α} :
    a ∈ kind.conditionFirst parts ↔ a ∈ parts := by
  have lastFirst : a ∈ parts.getLast?.toList ++ parts.dropLast ↔ a ∈ parts := by
    rcases parts.eq_nil_or_concat with rfl | ⟨front, last, rfl⟩
    · rfl
    · simp [or_comm]
  unfold NodeKind.conditionFirst
  split
  · exact lastFirst
  · exact lastFirst
  · rfl

/-- The constants of the children of a node are among its own. -/
theorem mem_constants_of_child {kind : NodeKind} {ty : Ty} {children : List Node} {n : Node}
    {k : NodeKind} (child : n ∈ children) (mem : k ∈ n.constants) :
    k ∈ (mk kind ty children).constants := by
  rw [constants_mk, constantsEach_eq]
  refine List.mem_append_right _ (List.mem_flatten.2 ⟨n.constants, ?_, mem⟩)
  exact mem_conditionFirst.2 (List.mem_map_of_mem child)

end Node

/-! ### Constants and leaves -/

/-- Constants stand for literals among leaves, each for one of its own and in the same order. A zero
may also stand for no literal. -/
inductive StandFor : List NodeKind → List Leaf → Prop
  | nil : StandFor [] []
  | skip {kinds : List NodeKind} {l : Leaf} {leaves : List Leaf} (others : StandFor kinds leaves) :
      StandFor kinds (l :: leaves)
  | zero {kind : NodeKind} {kinds : List NodeKind} {leaves : List Leaf}
      (isZero : kind = .intVal 0 ∨ kind = .floatVal .zero) (others : StandFor kinds leaves) :
      StandFor (kind :: kinds) leaves
  | literal {lit : Literal} {negate : Bool} {n : Node} {kinds : List NodeKind} {leaves : List Leaf}
      (becomes : lit.Becomes negate n) (others : StandFor kinds leaves) :
      StandFor (n.kind :: kinds) (lit.leaf :: leaves)

namespace StandFor

variable {kinds kinds' : List NodeKind} {leaves leaves' : List Leaf}

theorem none : ∀ leaves : List Leaf, StandFor [] leaves
  | [] => .nil
  | _ :: leaves => .skip (none leaves)

theorem append (h : StandFor kinds leaves) (h' : StandFor kinds' leaves') :
    StandFor (kinds ++ kinds') (leaves ++ leaves') := by
  induction h with
  | nil => exact h'
  | skip _ ih => exact .skip ih
  | zero isZero _ ih => exact .zero isZero ih
  | literal becomes _ ih => exact .literal becomes ih

/-- Leaves in front of others. -/
theorem behind (front : List Leaf) (h : StandFor kinds leaves) : StandFor kinds (front ++ leaves) :=
  (none front).append h

/-- Leaves behind others. -/
theorem before (h : StandFor kinds leaves) (rest : List Leaf) :
    StandFor kinds (leaves ++ rest) := by
  simpa using h.append (none rest)

/-- The string nodes have the texts of string literals, in order. -/
theorem strings (h : StandFor kinds leaves) :
    (kinds.filterMap NodeKind.text?).Sublist (stringsOf leaves) := by
  induction h with
  | nil => exact .refl _
  | @skip kinds l leaves _ ih =>
    rw [stringsOf, List.filterMap_cons]
    split
    · exact ih
    · exact .cons _ ih
  | zero isZero _ ih =>
    rcases isZero with rfl | rfl
    · exact ih
    · exact ih
  | @literal lit negate n kinds leaves becomes _ ih =>
    -- A string literal is taken over as it is, and no other literal has a text.
    have own : n.kind.text? = lit.leaf.string? := by
      obtain ⟨kind, text, line⟩ := lit
      obtain ⟨-, becomes⟩ := becomes
      cases kind with
      | string | bool => rw [becomes]; rfl
      | int | float =>
        obtain ⟨_, -, becomes⟩ := becomes
        rw [becomes]
        rfl
    rw [stringsOf, List.filterMap_cons, List.filterMap_cons, own]
    split
    · exact ih
    · exact ih.cons_cons _

/-- The float nodes are finite. -/
theorem isFinite (h : StandFor kinds leaves) : ∀ x, .floatVal x ∈ kinds → x.isFinite = true := by
  induction h with
  | nil => simp
  | skip _ ih => exact ih
  | zero isZero _ ih =>
    intro x mem
    rcases List.mem_cons.1 mem with rfl | mem
    · rcases isZero with zero | zero
      · cases zero
      · obtain rfl := NodeKind.floatVal.inj zero
        rfl
    · exact ih x mem
  | @literal lit negate n kinds leaves becomes _ ih =>
    intro x mem
    rcases List.mem_cons.1 mem with own | mem
    · obtain ⟨kind, text, line⟩ := lit
      obtain ⟨-, becomes⟩ := becomes
      rw [← own] at becomes
      cases kind with
      | string | bool => cases becomes
      | int =>
        obtain ⟨_, -, becomes⟩ := becomes
        cases becomes
      | float =>
        -- A sign does not change the magnitude, and a text is only read as a finite number.
        obtain ⟨y, read, becomes⟩ := becomes
        obtain rfl := NodeKind.floatVal.inj becomes
        have finite : y.isFinite = true := (Option.filter_eq_some_iff.1 read).2
        split
        · have magnitude : y.magnitude < Binary32.infinityBits := of_decide_eq_true finite
          exact (Binary32.isFinite_ofMagnitude magnitude.le).2 magnitude
        · exact finite
    · exact ih x mem

end StandFor

/-! ### Expressions -/

section

variable {t : Tables} {s : Scope}

/-- The node of a literal is a constant. -/
theorem Literal.Becomes.standFor {lit : Literal} {negate : Bool} {n : Node}
    (h : lit.Becomes negate n) :
    StandFor n.constants [lit.leaf] := by
  have constant : n.kind.isConstant = true := by
    obtain ⟨kind, text, line⟩ := lit
    obtain ⟨-, h⟩ := h
    cases kind with
    | string | bool => rw [h]; rfl
    | int | float =>
      obtain ⟨_, -, h⟩ := h
      rw [h]
      rfl
  have own : n.constants = [n.kind] := by
    obtain ⟨kind, ty, children⟩ := n
    obtain ⟨rfl, -⟩ := h
    have order : kind.conditionFirst ([] : List (List NodeKind)) = [] := by cases kind <;> rfl
    simp [show kind.isConstant = true from constant, order]
  rw [own]
  exact .literal h .nil

theorem Node.IsZero.standFor {n : Node} (h : n.IsZero) : StandFor n.constants [] := by
  obtain ⟨kind, ty, children⟩ := n
  obtain ⟨rfl, rfl | rfl⟩ := h
  · exact .zero (.inl rfl) .nil
  · exact .zero (.inr rfl) .nil

theorem eq_literal_of_negatedLiteral? {sign : Option Sign} {primary : Primary} {lit : Literal}
    (h : Analysis.negatedLiteral? sign primary = some lit) : primary = .literal lit := by
  unfold Analysis.negatedLiteral? at h
  split at h
  · split at h <;> cases h <;> rfl
  · cases h

mutual

/-- The constants in the node of an expression stand for its literals. -/
theorem Expr.Becomes.standFor :
    ∀ {e : Expr} {n : Node}, e.Becomes t s n → StandFor n.constants e.leaves
  | .binary op line left right, .mk kind ty children, h => by
    obtain ⟨rfl, l, r, rfl, hl, hr⟩ := h
    have both :=
      (Expr.Becomes.standFor hl).append
        (.skip (l := ⟨.operator, op.text, line⟩) (Expr.Becomes.standFor hr))
    simpa [NodeKind.isConstant, NodeKind.conditionFirst, Expr.leaves] using both
  | .operand sign primary line, n, h => by
    unfold Expr.Becomes at h
    rw [Expr.leaves]
    refine .behind _ ?_
    split at h
    · rename_i lit negated
      obtain rfl := eq_literal_of_negatedLiteral? negated
      exact Literal.Becomes.standFor h
    · split at h
      · exact Primary.Becomes.standFor h
      · exact Primary.Becomes.standFor h
      · obtain ⟨kind, ty, children⟩ := n
        obtain ⟨rfl, zero, m, rfl, isZero, hm⟩ := h
        have both := isZero.standFor.append (Primary.Becomes.standFor hm)
        simpa [NodeKind.isConstant, NodeKind.conditionFirst] using both

theorem Primary.Becomes.standFor :
    ∀ {primary : Primary} {n : Node}, primary.Becomes t s n → StandFor n.constants primary.leaves
  | .literal lit, n, h => Literal.Becomes.standFor h
  | .name id, n, h => by
    obtain ⟨children, v, kind, -⟩ := h
    rw [Node.constants_eq_nil children (by rw [kind]; rfl)]
    exact .none _
  | .call callee args, .mk kind ty children, h => by
    obtain ⟨i, rfl, -, hargs⟩ := h
    have arguments := Expr.AllBecome.standFor hargs
    simpa [NodeKind.isConstant, NodeKind.conditionFirst, Primary.leaves] using StandFor.skip
      (l := callee.leaf) arguments
  | .index array index, n, h => by
    obtain ⟨children, v, k, kind, -⟩ := h
    rw [Node.constants_eq_nil children (by rw [kind]; rfl)]
    exact .none _
  | .paren inner, n, h => Expr.Becomes.standFor (e := inner) h

theorem Expr.AllBecome.standFor : ∀ {es : List Expr} {ns : List Node},
    Expr.AllBecome t s es ns → StandFor (ns.map Node.constants).flatten (Expr.leavesAll es)
  | [], ns, h => by
    obtain rfl := h
    exact .nil
  | e :: es, ns, h => by
    obtain ⟨n, ms, rfl, hn, hms⟩ := h
    exact (Expr.Becomes.standFor hn).append (Expr.AllBecome.standFor hms)

end

/-- A target has no constants. -/
theorem Target.Becomes.constants {target : Target} {n : Node} (h : target.Becomes t s n) :
    n.constants = [] := by
  cases target with
  | name id =>
    obtain ⟨children, v, kind, -⟩ := h
    exact Node.constants_eq_nil children (by rw [kind]; rfl)
  | index array position =>
    obtain ⟨children, v, k, kind, -⟩ := h
    exact Node.constants_eq_nil children (by rw [kind]; rfl)

/-- A declared name has no constants. -/
theorem Ident.Declared.constants {id : Ident} {n : Node} (h : id.Declared t s n) :
    n.constants = [] := by
  obtain ⟨children, v, kind, -⟩ := h
  exact Node.constants_eq_nil children (by rw [kind]; rfl)

/-! ### Statements -/

/-- Nodes without constants have none together. -/
theorem flatten_constants_eq_nil {α : Type} {place : α → Node → Prop}
    (none : ∀ a n, place a n → n.constants = []) {as : List α} {ns : List Node}
    (h : List.Forall₂ place as ns) : (ns.map Node.constants).flatten = [] := by
  induction h with
  | nil => rfl
  | cons first _ ih => rw [List.map_cons, List.flatten_cons, none _ _ first, ih, List.nil_append]

/-- An assignment has the constants of its values. -/
theorem AssignmentsBecome.standFor {α : Type} {place : α → Node → Prop}
    (none : ∀ a n, place a n → n.constants = []) {places : List α} {values : List Expr}
    {nodes : List Node} (h : AssignmentsBecome t s place places values nodes) :
    StandFor (nodes.map Node.constants).flatten (Expr.leavesAll values) := by
  cases h with
  | pairs same each =>
    induction places generalizing values nodes with
    | nil =>
      cases each
      exact .none _
    | cons place places ih =>
      cases values with
      | nil => cases same
      | cons value values =>
        obtain _ | ⟨⟨l, r, rfl, hl, hr⟩, others⟩ := each
        have both := hr.standFor.append (ih (Nat.succ.inj same) others)
        simpa [Node.statement, NodeKind.isConstant, NodeKind.conditionFirst, none _ _ hl,
          Expr.leavesAll] using both
  | @results callee args line targets call several each called =>
    have value := Primary.Becomes.standFor called
    have targets := flatten_constants_eq_nil none each
    simpa [Node.statement, NodeKind.isConstant, NodeKind.conditionFirst, targets, Expr.leavesAll,
      Expr.leaves, signLeaves] using value

/-- The constants of parts stand for the literals of the parts. -/
theorem Become.standFor {α : Type} {part : α → List Node → Prop} {leaves : α → List Leaf}
    (standFor : ∀ a ns, part a ns → StandFor (ns.map Node.constants).flatten (leaves a))
    {as : List α} {nodes : List Node} (h : Become part as nodes) :
    StandFor (nodes.map Node.constants).flatten (as.flatMap leaves) := by
  induction as generalizing nodes with
  | nil =>
    obtain rfl := h
    exact .nil
  | cons a as ih =>
    obtain ⟨first, rest, rfl, hfirst, hrest⟩ := h
    simpa using (standFor _ _ hfirst).append (ih hrest)

theorem VarSpec.Become.standFor {spec : VarSpec} {nodes : List Node} (h : spec.Become t s nodes) :
    StandFor (nodes.map Node.constants).flatten spec.leaves := by
  refine .behind _ (.behind _ ?_)
  cases h with
  | declared _ each =>
    rw [flatten_constants_eq_nil (fun _ _ declared => declared.constants) each]
    exact .none _
  | assigned _ become => exact become.standFor fun _ _ declared => declared.constants

theorem VarDecl.Become.standFor {decl : VarDecl} {nodes : List Node} (h : decl.Become t s nodes) :
    StandFor (nodes.map Node.constants).flatten decl.leaves :=
  MiniGo.Become.standFor (fun _ _ spec => spec.standFor) h

theorem CallBecomes.standFor {callee : Ident} {args : List Expr} {n : Node}
    (h : CallBecomes t s callee args n) :
    StandFor n.constants (callee.leaf :: Expr.leavesAll args) := by
  cases h with
  | call call => exact Primary.Becomes.standFor call
  | write _ _ argument =>
    have value := StandFor.skip (l := callee.leaf) argument.standFor
    simpa [Node.statement, NodeKind.isConstant, NodeKind.conditionFirst, Expr.leavesAll] using value
  | read _ _ _ argument =>
    simpa [Node.statement, NodeKind.isConstant, NodeKind.conditionFirst,
      argument.constants] using StandFor.none _

mutual

theorem Stmt.Become.standFor : ∀ {stmt : Stmt} {nodes : List Node}, stmt.Become t s nodes →
    StandFor (nodes.map Node.constants).flatten stmt.leaves
  | .var decl, nodes, h => VarDecl.Become.standFor h
  | .define names values line, nodes, h =>
    .behind _ (AssignmentsBecome.standFor (fun _ _ declared => declared.constants) h)
  | .assign targets values line, nodes, h =>
    .behind _ (AssignmentsBecome.standFor (fun _ _ target => target.constants) h)
  | .cond stmt, nodes, h => by
    obtain ⟨n, rfl, hn⟩ := h
    simpa [Stmt.leaves] using IfStmt.Becomes.standFor hn
  | .loop condition body line, nodes, h => by
    obtain ⟨b, c, rfl, hb, hc⟩ := h
    have both := hc.standFor.append (Block.Becomes.standFor hb)
    simpa [Node.statement, NodeKind.isConstant, NodeKind.conditionFirst, Stmt.leaves] using both
  | .ret values line, nodes, h => by
    obtain ⟨children, rfl, hchildren⟩ := h
    simpa [Node.statement, NodeKind.isConstant, NodeKind.conditionFirst,
      Stmt.leaves] using hchildren.standFor
  | .call callee args line, nodes, h => by
    obtain ⟨n, rfl, hn⟩ := h
    simpa [Stmt.leaves] using hn.standFor
  | .block body, nodes, h => by
    obtain ⟨n, rfl, hn⟩ := h
    simpa [Stmt.leaves] using Block.Becomes.standFor hn

theorem Block.Becomes.standFor :
    ∀ {body : Block} {n : Node}, body.Becomes t s n → StandFor n.constants body.leaves
  | .mk statements line endLine, n, h => by
    obtain ⟨nodes, rfl, hnodes⟩ := h
    simpa [Node.statement, NodeKind.isConstant, NodeKind.conditionFirst,
      Block.leaves] using Stmt.AllBecome.standFor hnodes

theorem Stmt.AllBecome.standFor :
    ∀ {stmts : List Stmt} {nodes : List Node}, Stmt.AllBecome t s stmts nodes →
    StandFor (nodes.map Node.constants).flatten (Stmt.leavesAll stmts)
  | [], nodes, h => by
    obtain rfl := h
    exact .nil
  | stmt :: stmts, nodes, h => by
    obtain ⟨first, rest, rfl, hfirst, hrest⟩ := h
    simpa [Stmt.leavesAll] using (Stmt.Become.standFor hfirst).append
      (Stmt.AllBecome.standFor hrest)

theorem IfStmt.Becomes.standFor :
    ∀ {stmt : IfStmt} {n : Node}, stmt.Becomes t s n → StandFor n.constants stmt.leaves
  | .mk condition body otherwise line, n, h => by
    obtain ⟨b, others, c, rfl, hb, hothers, hc⟩ := h
    have branches := (Block.Becomes.standFor hb).append (ElseBranch.Become.standFor hothers)
    have order :
        NodeKind.cond.conditionFirst (b.constants :: (others.map Node.constants ++ [c.constants])) =
          c.constants :: b.constants :: others.map Node.constants := by
      rw [NodeKind.conditionFirst, ← List.cons_append, List.getLast?_concat, List.dropLast_concat]
      rfl
    simpa [Node.statement, NodeKind.isConstant, order, IfStmt.leaves]
      using hc.standFor.append branches

theorem ElseBranch.Become.standFor :
    ∀ {branch : ElseBranch} {nodes : List Node}, branch.Become t s nodes →
    StandFor (nodes.map Node.constants).flatten branch.leaves
  | .absent, nodes, h => by
    obtain rfl := h
    exact .nil
  | .block body, nodes, h => by
    obtain ⟨n, rfl, hn⟩ := h
    simpa [ElseBranch.leaves] using Block.Becomes.standFor hn
  | .elseIf stmt, nodes, h => by
    obtain ⟨n, rfl, hn⟩ := h
    simpa [ElseBranch.leaves] using IfStmt.Becomes.standFor hn

end

/-! ### Source files -/

theorem FuncDecl.Becomes.standFor {i : Nat} {decl : FuncDecl} {n : Node} (h : decl.Becomes t i n) :
    StandFor n.constants decl.leaves := by
  obtain ⟨body, rfl, -, become⟩ := h
  have inDecl : StandFor body.constants decl.leaves :=
    .skip (.behind _ (.behind _ (Block.Becomes.standFor become)))
  simpa [Node.statement, NodeKind.isConstant, NodeKind.conditionFirst] using inDecl

/-- The leaves of a file in the order of its nodes: those of its variable declarations, and then
those of its functions. -/
def File.declaredLeaves (file : File) : List Leaf :=
  file.varDecls.flatMap VarDecl.leaves ++ file.funcDecls.flatMap FuncDecl.leaves

/-- The constants of a program stand for the literals of its file. -/
theorem File.Becomes.standFor {file : File} {n : Node} (h : file.Becomes t n) :
    StandFor n.constants file.declaredLeaves := by
  obtain ⟨globals, functions, rfl, become, count, each⟩ := h
  have bodies :
      List.Forall₂ (fun decl node => StandFor (Node.constants node) (FuncDecl.leaves decl))
        file.funcDecls functions := by
    refine List.forall₂_iff_get.2 ⟨count.symm, fun i bound bound' => ?_⟩
    exact (each i _ _ (List.getElem?_eq_getElem bound) (List.getElem?_eq_getElem bound')).standFor
  have declared : StandFor (globals.map Node.constants).flatten
      (file.varDecls.flatMap VarDecl.leaves) :=
    MiniGo.Become.standFor (fun _ _ decl => VarDecl.Become.standFor decl) become
  have all : StandFor (functions.map Node.constants).flatten
      (file.funcDecls.flatMap FuncDecl.leaves) := by
    clear each become declared count
    generalize file.funcDecls = decls at bodies
    induction bodies with
    | nil => exact .nil
    | cons first _ ih => exact first.append ih
  simpa [Node.statement, NodeKind.isConstant, NodeKind.conditionFirst,
    File.declaredLeaves] using declared.append all

end

/-- The order of the declarations does not matter to what leaves there are. -/
theorem File.declaredLeaves_perm (file : File) :
    file.declaredLeaves.Perm (file.decls.flatMap Decl.leaves) := by
  obtain ⟨package?, decls⟩ := file
  simp only [declaredLeaves, varDecls, funcDecls]
  induction decls with
  | nil => exact .refl _
  | cons decl decls ih =>
    cases decl with
    | var decl => simpa [Decl.leaves] using ih.append_left decl.leaves
    | func decl =>
      refine .trans ?_ (ih.append_left decl.leaves)
      simpa [Decl.leaves] using List.perm_append_comm_assoc _ _ _

/-- The string literals of a file are the string tokens outside of its import clauses. -/
theorem File.stringsOf_leaves {source : String} {file : File} (h : File.parse source = .ok file) :
    ∃ tokens, tokenize source = .ok tokens ∧ stringsOf file.leaves =
      (outsideImports SpannedToken.token .outside tokens).filterMap fun t => t.token.string? := by
  obtain ⟨tokens, tokenized, leaves⟩ := File.exists_tokens_of_parse h
  refine ⟨tokens, tokenized, ?_⟩
  have same (t : SpannedToken) : (t.leaf? source).bind Leaf.string? = t.token.string? := by
    obtain ⟨token, span⟩ := t
    cases token with
    | keyword k => cases k <;> rfl
    | _ => rfl
  rw [← leaves, File.leaves_start, stringsOf, List.filterMap_filterMap, funext same]

/-- Each string literal of a declaration is a token of its own. -/
theorem File.stringsOf_declared {file : File} {tokens : List SpannedToken}
    (strings : stringsOf file.leaves =
      (outsideImports SpannedToken.token .outside tokens).filterMap fun t => t.token.string?) :
    (stringsOf file.declaredLeaves).Subperm (tokens.filterMap fun t => t.token.string?) := by
  have sameStrings :
      (stringsOf file.declaredLeaves).Perm (stringsOf (file.decls.flatMap Decl.leaves)) :=
    file.declaredLeaves_perm.filterMap _
  have inFile : (stringsOf (file.decls.flatMap Decl.leaves)).Sublist (stringsOf file.leaves) :=
    (List.sublist_append_right _ _).filterMap _
  have inTokens : (stringsOf file.leaves).Sublist (tokens.filterMap fun t => t.token.string?) := by
    rw [strings]
    exact (outsideImports_sublist _ _ _).filterMap _
  exact sameStrings.subperm.trans (inFile.trans inTokens).subperm

/-- The constants of a program stand for the literals of its file. -/
theorem analyze_standFor {file : File} {p : Program} (analyzed : analyze file = .ok p) :
    StandFor p.root.constants file.declaredLeaves := (analyze_becomes analyzed).standFor

end MiniGo
