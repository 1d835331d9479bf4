import MiniGo.Grammar

/-!
# The leaves of a syntax tree are tokens of the source text

A syntax tree keeps the names, the literals, the signs and the operators of its source text, each
with its text and its line. Read from left to right they are the tokens of these classes, in the
order of the text. Only the paths in import clauses are left out.

* `File.leaves`: the leaves of a syntax tree, from left to right.
* `outsideImports`, `SpannedToken.leaf?`: the tokens outside of import clauses, and those that are
  leaves.
* `Reply.Yields`: the leaves of what a parser gives are the leaves that it has read.
* `File.leaves_of_parse`: the leaves of a file are those of its tokens.

Each parser reads leaves off the front of what is left, so that "what was read before, then the
leaves of the value, then what is left" is the same list of leaves all along. The proofs carry this
one equation through the parsers.
-/

namespace MiniGo

/-! ### Leaves -/

/-- What a leaf of a syntax tree is. -/
inductive LeafKind where
  | name
  | literal (kind : LiteralKind)
  | operator
deriving DecidableEq, Repr

/-- A leaf of a syntax tree, with its text and its line. A sign is an operator. -/
structure Leaf where
  kind : LeafKind
  text : String
  line : Nat
deriving DecidableEq, Repr

/-- The leaf of a name. -/
def Ident.leaf (id : Ident) : Leaf := ⟨.name, id.name, id.line⟩

/-- The leaf of a literal. -/
def Literal.leaf (lit : Literal) : Leaf := ⟨.literal lit.kind, lit.text, lit.line⟩

/-- The leaf of a sign, if there is one. -/
def signLeaves (sign : Option Sign) (line : Nat) : List Leaf :=
  sign.toList.map fun sign => ⟨.operator, sign.text, line⟩

mutual

/-- The leaves of an expression. The line of an operand with a sign is that of the sign. -/
def Expr.leaves : Expr → List Leaf
  | .binary op line left right => left.leaves ++ ⟨.operator, op.text, line⟩ :: right.leaves
  | .operand sign primary line => signLeaves sign line ++ primary.leaves
termination_by structural e => e

/-- The leaves of an operand without its sign. -/
def Primary.leaves : Primary → List Leaf
  | .literal lit => [lit.leaf]
  | .name id => [id.leaf]
  | .call callee args => callee.leaf :: Expr.leavesAll args
  | .index array index => array.leaf :: index.leaves
  | .paren inner => inner.leaves
termination_by structural primary => primary

/-- The leaves of expressions, in order. -/
def Expr.leavesAll : List Expr → List Leaf
  | [] => []
  | e :: es => e.leaves ++ Expr.leavesAll es
termination_by structural es => es

end

/-- The leaves of an assignment target. -/
def Target.leaves : Target → List Leaf
  | .name id => [id.leaf]
  | .index array position => array.leaf :: position.leaves

/-- The leaves of a type. -/
def TypeSpec.leaves : TypeSpec → List Leaf
  | .named id => [id.leaf]
  | .array length element _ => length.leaves ++ [element.leaf]

/-- The leaves of a specification: names, type, values. -/
def VarSpec.leaves (spec : VarSpec) : List Leaf :=
  spec.names.map Ident.leaf ++
    (spec.type?.toList.flatMap TypeSpec.leaves ++ Expr.leavesAll spec.values)

/-- The leaves of a variable declaration. -/
def VarDecl.leaves (decl : VarDecl) : List Leaf := decl.specs.flatMap VarSpec.leaves

mutual

/-- The leaves of a statement. -/
def Stmt.leaves : Stmt → List Leaf
  | .var decl => decl.leaves
  | .define names values _ => names.map Ident.leaf ++ Expr.leavesAll values
  | .assign targets values _ => targets.flatMap Target.leaves ++ Expr.leavesAll values
  | .cond stmt => stmt.leaves
  | .loop condition body _ => condition.leaves ++ body.leaves
  | .ret values _ => Expr.leavesAll values
  | .call callee args _ => callee.leaf :: Expr.leavesAll args
  | .block body => body.leaves
termination_by structural stmt => stmt

/-- The leaves of a block. -/
def Block.leaves : Block → List Leaf
  | .mk statements _ _ => Stmt.leavesAll statements
termination_by structural block => block

/-- The leaves of statements, in order. -/
def Stmt.leavesAll : List Stmt → List Leaf
  | [] => []
  | stmt :: stmts => stmt.leaves ++ Stmt.leavesAll stmts
termination_by structural stmts => stmts

/-- The leaves of a conditional statement. -/
def IfStmt.leaves : IfStmt → List Leaf
  | .mk condition body otherwise _ => condition.leaves ++ (body.leaves ++ otherwise.leaves)
termination_by structural stmt => stmt

/-- The leaves of an else branch. -/
def ElseBranch.leaves : ElseBranch → List Leaf
  | .absent => []
  | .block body => body.leaves
  | .elseIf stmt => stmt.leaves
termination_by structural branch => branch

end

/-- The leaves of parameters that share a type. -/
def ParamGroup.leaves (group : ParamGroup) : List Leaf :=
  group.names.map Ident.leaf ++ [group.type.leaf]

/-- The leaves of a function declaration: name, parameters, results, body. -/
def FuncDecl.leaves (decl : FuncDecl) : List Leaf :=
  decl.name.leaf ::
    (decl.params.flatMap ParamGroup.leaves ++ (decl.results.map Ident.leaf ++ decl.body.leaves))

/-- The leaves of a declaration outside of functions. -/
def Decl.leaves : Decl → List Leaf
  | .var decl => decl.leaves
  | .func decl => decl.leaves

/-- The leaves of a source file, from left to right. -/
def File.leaves (file : File) : List Leaf :=
  file.package?.toList.map Ident.leaf ++ file.decls.flatMap Decl.leaves

theorem File.mem_leaves_of_varDecl {file : File} {decl : VarDecl} {l : Leaf}
    (declared : decl ∈ file.varDecls) (mem : l ∈ decl.leaves) : l ∈ file.leaves := by
  obtain ⟨d, listed, isVar⟩ := List.mem_filterMap.1 declared
  cases d with
  | func => cases isVar
  | var =>
    cases isVar
    exact List.mem_append_right _ (List.mem_flatMap.2 ⟨_, listed, mem⟩)

theorem File.mem_leaves_of_funcDecl {file : File} {decl : FuncDecl} {l : Leaf}
    (declared : decl ∈ file.funcDecls) (mem : l ∈ decl.leaves) : l ∈ file.leaves := by
  obtain ⟨d, listed, isFunc⟩ := List.mem_filterMap.1 declared
  cases d with
  | var => cases isFunc
  | func =>
    cases isFunc
    exact List.mem_append_right _ (List.mem_flatMap.2 ⟨_, listed, mem⟩)

/-! ### Tokens that are leaves -/

/-- The kind and the text of a token that is a leaf: a name, a literal or an operator. -/
def Token.leaf? : Token → Option (LeafKind × String)
  | .ident name => some (.name, name)
  | .integer text => some (.literal .int, text)
  | .decimal text => some (.literal .float, text)
  | .string text => some (.literal .string, text)
  | .keyword .true_ => some (.literal .bool, Keyword.text .true_)
  | .keyword .false_ => some (.literal .bool, Keyword.text .false_)
  | .op o => some (.operator, o.text)
  | .keyword _ | .punct _ | .newline => none

/-- The leaf that a token on a line is. -/
def leafOn (line : Nat) (t : Token) : Option Leaf :=
  t.leaf?.map fun (kind, text) => ⟨kind, text, line⟩

/-- The leaf that a token of a source text is, if any, on the line on which its span begins. -/
def SpannedToken.leaf? (source : String) (t : SpannedToken) : Option Leaf :=
  leafOn (lineAt (lineStarts source) t.span.start) t.token

/-- Where a token stands: outside of import clauses, right after the keyword of one, or in the
parentheses of one. -/
inductive ImportPart where
  | outside
  | clause
  | group
deriving DecidableEq, Repr

/-- The tokens outside of import clauses. A clause is its keyword with the token after it; if that
is an opening parenthesis, the clause goes on up to the closing one. -/
def outsideImports {α : Type} (token : α → Token) : ImportPart → List α → List α
  | _, [] => []
  | .outside, x :: xs =>
    if token x = .keyword .import_ then outsideImports token .clause xs
    else x :: outsideImports token .outside xs
  | .clause, x :: xs =>
    if token x = .punct .leftParen then outsideImports token .group xs
    else outsideImports token .outside xs
  | .group, x :: xs =>
    if token x = .punct .rightParen then outsideImports token .outside xs
    else outsideImports token .group xs

theorem outsideImports_sublist {α : Type} (token : α → Token) (part : ImportPart) (xs : List α) :
    (outsideImports token part xs).Sublist xs := by
  induction xs generalizing part with
  | nil => cases part <;> exact .refl _
  | cons y ys ih =>
    cases part <;> simp only [outsideImports] <;> split
    case outside.isFalse => exact (ih _).cons_cons _
    all_goals exact (ih _).cons _

theorem outsideImports_map {α β : Type} (token : β → Token) (f : α → β) (part : ImportPart)
    (xs : List α) :
    outsideImports token part (xs.map f) = (outsideImports (token ∘ f) part xs).map f := by
  induction xs generalizing part with
  | nil => cases part <;> rfl
  | cons x xs ih =>
    cases part <;> simp only [List.map_cons, outsideImports, Function.comp_apply] <;>
      split <;> simp [ih]

/-! ### Places and replies -/

/-- The leaves among the tokens that follow, where the first of them stands in a given part of
an import clause. -/
def Cursor.leavesFrom (part : ImportPart) (c : Cursor) : List Leaf :=
  (outsideImports Lexeme.token part c.rest).filterMap fun x => leafOn x.line x.token

/-- The leaves among the tokens that follow. -/
def Cursor.leaves (c : Cursor) : List Leaf := c.leavesFrom .outside

/-- The next token stands in front of all others. -/
theorem Cursor.rest_of_view {c after : Cursor} {x : Lexeme} {le : after.size + 1 = c.size}
    (view : c.view = .next x after le) : c.rest = x :: after.rest := by
  unfold Cursor.view at view
  split at view
  · cases view
  · rename_i y rest eq
    cases view
    exact eq

/-- Looking at the next token reads its leaf. -/
theorem Cursor.leaves_of_view {c after : Cursor} {x : Lexeme} {le : after.size + 1 = c.size}
    (view : c.view = .next x after le) (plain : x.token ≠ .keyword .import_) :
    c.leaves = (leafOn x.line x.token).toList ++ after.leaves := by
  rw [Cursor.leaves, Cursor.leavesFrom, rest_of_view view, outsideImports, if_neg plain,
    List.filterMap_cons]
  cases leafOn x.line x.token <;> rfl

namespace Reply

variable {α β : Type} {m n j k : Nat}

/-- What is true of a success and of the place after it. -/
def Ensures (post : α → Cursor → Prop) : Reply n k α → Prop
  | ok value after _ => post value after
  | error _ _ _ => True

theorem Ensures.andThen {post : α → Cursor → Prop} {post' : β → Cursor → Prop} {r : Reply m k α}
    {f : (value : α) → (after : Cursor) → after.size + k ≤ m → Reply n j β} {h : m ≤ n}
    (first : r.Ensures post)
    (second : ∀ value after le, post value after → (f value after le).Ensures post') :
    (r.andThen f h).Ensures post' := by
  cases r with
  | ok value after le => exact second value after le first
  | error => trivial

theorem Ensures.mono {post post' : α → Cursor → Prop} {r : Reply m k α} (first : r.Ensures post)
    (h : ∀ value after, post value after → post' value after) : r.Ensures post' := by
  cases r with
  | ok value after => exact h value after first
  | error => trivial

theorem Ensures.relax {post : α → Cursor → Prop} {r : Reply m k α} {h : m ≤ n} {h' : m + j ≤ n + k}
    (first : r.Ensures post) : (r.relax h h').Ensures post := by
  cases r with
  | ok => exact first
  | error => trivial

/-- All leaves are those of the value of a success and those that are left behind it. -/
def Yields (all : List Leaf) (leaves : α → List Leaf) (r : Reply n k α) : Prop :=
  r.Ensures fun value after => all = leaves value ++ after.leaves

/-- No leaf is read. -/
def Silent (all : List Leaf) (r : Reply n k α) : Prop := r.Yields all fun _ => []

variable {all before : List Leaf} {c : Cursor} {leaves : α → List Leaf} {leaves' : β → List Leaf}
  {r : Reply m k α} {f : (value : α) → (after : Cursor) → after.size + k ≤ m →
    Reply n j β} {h : m ≤ n}

theorem Yields.ok {value : α} {after : Cursor} {le : after.size + k ≤ n}
    (h : all = leaves value ++ after.leaves) :
    (ok value after le : Reply n k α).Yields all leaves := h

theorem Yields.andThen (first : r.Yields all leaves)
    (second : ∀ value after le, all = leaves value ++ after.leaves →
      (f value after le).Yields all leaves') :
    (r.andThen f h).Yields all leaves' :=
  Ensures.andThen first second

/-- Reading on behind the leaves that were read `before`. -/
theorem Yields.next (first : r.Yields c.leaves leaves) (read : all = before ++ c.leaves)
    (second : ∀ value after le, all = (before ++ leaves value) ++ after.leaves →
      (f value after le).Yields all leaves') :
    (r.andThen f h).Yields all leaves' := by
  refine Ensures.andThen first fun value after le found => second value after le ?_
  rw [read, found, List.append_assoc]

theorem Silent.andThen (first : r.Silent all)
    (second : ∀ value after le, all = [] ++ after.leaves → (f value after le).Yields all leaves') :
    (r.andThen f h).Yields all leaves' :=
  Ensures.andThen first second

/-- Reading on behind tokens that are no leaves. -/
theorem Silent.next (first : r.Silent c.leaves) (read : all = before ++ c.leaves)
    (second : ∀ value after le, all = before ++ after.leaves →
      (f value after le).Yields all leaves') :
    (r.andThen f h).Yields all leaves' := by
  refine Ensures.andThen first fun value after le found => second value after le ?_
  rw [read, found, List.nil_append]

/-- The last parser: the leaves that were read before it belong to its value, too. -/
theorem Yields.last {all' : α → List Leaf} (last : r.Yields c.leaves leaves)
    (read : all = before ++ c.leaves) (parts : ∀ value, all' value = before ++ leaves value) :
    r.Yields all all' := by
  refine Ensures.mono last fun value after found => ?_
  rw [read, found, parts, List.append_assoc]

theorem Yields.relax {h : m ≤ n} {h' : m + j ≤ n + k} (first : r.Yields all leaves) :
    (r.relax h h').Yields all leaves :=
  Ensures.relax first

end Reply

namespace Cursor

variable (c : Cursor)

theorem expect_silent {t : Token} (message : String) (plain : t.leaf? = none)
    (inside : t ≠ .keyword .import_) :
    (c.expect t message).Silent c.leaves := by
  unfold Cursor.expect
  split
  · rename_i x after _ view
    split
    · rename_i found
      have read := leaves_of_view view (found ▸ inside)
      rw [found, leafOn, plain] at read
      exact read
    · trivial
  · trivial

theorem expectIdent_yields (what : String) :
    (c.expectIdent what).Yields c.leaves fun id => [id.leaf] := by
  unfold Cursor.expectIdent
  split
  · rename_i view
    exact leaves_of_view view (by simp)
  · trivial

/-- Separators are no leaves, also between the paths of an import clause. -/
theorem skipWhile_leavesFrom {p : Token → Bool}
    (separators : ∀ t, p t = true → t = .newline ∨ t = .punct .semicolon) {part : ImportPart}
    (inside : part ≠ .clause) (c : Cursor) :
    (c.skipWhile p).Ensures fun _ after => c.leavesFrom part = after.leavesFrom part := by
  fun_induction Cursor.skipWhile p c with
  | case1 c x after _ view found ih =>
    refine Reply.Ensures.relax (ih.mono fun _ _ rest => ?_)
    rw [← rest, leavesFrom, leavesFrom, rest_of_view view]
    rcases separators _ found with eq | eq <;> cases part <;>
      simp_all [outsideImports, leafOn, Token.leaf?]
  | case2 => rfl
  | case3 => rfl

theorem skipNewlines_silent : c.skipNewlines.Silent c.leaves :=
  skipWhile_leavesFrom (by simp) (by simp) c

theorem skipSeparators_leavesFrom (part : ImportPart) (inside : part ≠ .clause) :
    c.skipSeparators.Ensures fun _ after => c.leavesFrom part = after.leavesFrom part :=
  skipWhile_leavesFrom (by simp) inside c

theorem skipSeparators_silent : c.skipSeparators.Silent c.leaves :=
  c.skipSeparators_leavesFrom .outside (by simp)

theorem expectTerminator_silent : c.expectTerminator.Silent c.leaves := by
  unfold Cursor.expectTerminator
  split
  · rfl
  · rename_i x after _ view
    split
    · rfl
    · rfl
    · rename_i eq
      have read := leaves_of_view view (by simp [eq])
      rw [eq] at read
      exact read
    · rename_i eq
      have read := leaves_of_view view (by simp [eq])
      rw [eq] at read
      exact read
    · trivial

end Cursor

/-! ### Expressions -/

open Reply

theorem Sign.parse?_yields (c : Cursor) :
    (Sign.parse? c).Yields c.leaves fun sign => signLeaves sign c.line := by
  unfold Sign.parse?
  have line {x : Lexeme} {after : Cursor} {le : after.size + 1 = c.size}
      (view : c.view = .next x after le) : c.line = x.line := by
    rw [Cursor.line, Cursor.rest_of_view view]
    rfl
  split
  · rename_i view
    have read := Cursor.leaves_of_view view (by simp)
    rw [Yields, Ensures, line view]
    exact read
  · rename_i view
    have read := Cursor.leaves_of_view view (by simp)
    rw [Yields, Ensures, line view]
    exact read
  · rfl

mutual

theorem Expr.parseBinary_yields (min : Nat) (c : Cursor) :
    (Expr.parseBinary min c).Yields c.leaves Expr.leaves := by
  rw [Expr.parseBinary]
  refine (Expr.parseUnary_yields c).andThen fun left c1 _ read => ?_
  rw [read]
  exact (Expr.parseOperators_yields min left c1).relax
termination_by 4 * c.size + 2
decreasing_by all_goals omega

theorem Expr.parseOperators_yields (min : Nat) (left : Expr) (c : Cursor) :
    (Expr.parseOperators min left c).Yields (left.leaves ++ c.leaves) Expr.leaves := by
  rw [Expr.parseOperators]
  split
  · rename_i op _ line c1 _ view
    split
    · rfl
    · have read : left.leaves ++ c.leaves = (left.leaves ++ [⟨.operator, op.text, line⟩]) ++
          c1.leaves := by
        rw [Cursor.leaves_of_view view (by simp), List.append_assoc]
        rfl
      refine c1.skipNewlines_silent.next read fun _ c2 _ read => ?_
      refine (Expr.parseBinary_yields _ c2).next read fun right c3 _ read => ?_
      -- The operation is the left operand of the operators that follow.
      have operation : left.leaves ++ c.leaves = (Expr.binary op line left right).leaves ++
          c3.leaves := by
        simpa [Expr.leaves] using read
      rw [operation]
      exact (Expr.parseOperators_yields min _ c3).relax
  · rfl
termination_by 4 * c.size
decreasing_by all_goals omega

theorem Expr.parseUnary_yields (c : Cursor) : (Expr.parseUnary c).Yields c.leaves Expr.leaves := by
  rw [Expr.parseUnary]
  refine (Sign.parse?_yields c).andThen fun sign c1 _ read => ?_
  refine (Primary.parse_yields c1).next read fun primary c2 _ read => ?_
  exact .ok (by simpa [Expr.leaves] using read)
termination_by 4 * c.size + 1
decreasing_by all_goals omega

theorem Primary.parse_yields (c : Cursor) : (Primary.parse c).Yields c.leaves Primary.leaves := by
  rw [Primary.parse]
  split
  · trivial
  · rename_i x c1 _ view
    -- What has been read so far gives the first leaves; each further step adds its own.
    have read {t : Token} (eq : x.token = t) (plain : t ≠ .keyword .import_) :
        c.leaves = (leafOn x.line t).toList ++ c1.leaves := by
      subst eq
      exact Cursor.leaves_of_view view plain
    split
    · rename_i eq
      exact read eq (by simp)
    · rename_i eq
      exact read eq (by simp)
    · rename_i eq
      exact read eq (by simp)
    · rename_i eq
      exact read eq (by simp)
    · rename_i eq
      exact read eq (by simp)
    · rename_i name eq
      have read : c.leaves = [Ident.leaf ⟨name, x.line⟩] ++ c1.leaves := read eq (by simp)
      split
      · rename_i c2 _ view
        rw [Cursor.leaves_of_view view (by simp)] at read
        refine (Expr.parseArguments_yields c2).next read fun args c3 _ read => ?_
        exact .ok read
      · rename_i c2 _ view
        rw [Cursor.leaves_of_view view (by simp)] at read
        refine c2.skipNewlines_silent.next read fun _ c3 _ read => ?_
        refine (Expr.parseBinary_yields 1 c3).next read fun index c4 _ read => ?_
        refine c4.skipNewlines_silent.next read fun _ c5 _ read => ?_
        refine (c5.expect_silent _ rfl (by simp)).next read fun _ c6 _ read => ?_
        exact .ok read
      · exact .ok read
    · rename_i eq
      have read : c.leaves = [] ++ c1.leaves := read eq (by simp)
      refine c1.skipNewlines_silent.next read fun _ c2 _ read => ?_
      refine (Expr.parseBinary_yields 1 c2).next read fun inner c3 _ read => ?_
      refine c3.skipNewlines_silent.next read fun _ c4 _ read => ?_
      refine (c4.expect_silent _ rfl (by simp)).next read fun _ c5 _ read => ?_
      exact .ok read
    · trivial
termination_by 4 * c.size
decreasing_by all_goals omega

theorem Expr.parseArguments_yields (c : Cursor) :
    (Expr.parseArguments c).Yields c.leaves Expr.leavesAll := by
  rw [Expr.parseArguments]
  refine c.skipNewlines_silent.andThen fun _ c1 _ read => ?_
  split
  · rename_i view
    rw [Cursor.leaves_of_view view (by simp)] at read
    exact .ok read
  · exact ((Expr.parseArgumentList_yields c1).last read fun _ => rfl).relax
termination_by 4 * c.size + 4
decreasing_by all_goals omega

theorem Expr.parseArgumentList_yields (c : Cursor) :
    (Expr.parseArgumentList c).Yields c.leaves Expr.leavesAll := by
  rw [Expr.parseArgumentList]
  refine (Expr.parseBinary_yields 1 c).andThen fun arg c1 _ read => ?_
  refine c1.skipNewlines_silent.next read fun _ c2 _ read => ?_
  split
  · rename_i c3 _ view
    rw [Cursor.leaves_of_view view (by simp)] at read
    refine c3.skipNewlines_silent.next read fun _ c4 _ read => ?_
    refine (Expr.parseArgumentList_yields c4).next read fun args c5 _ read => ?_
    exact .ok read
  · refine (c2.expect_silent _ rfl (by simp)).next read fun _ c3 _ read => ?_
    exact .ok (by simpa [Expr.leavesAll] using read)
termination_by 4 * c.size + 3
decreasing_by all_goals omega

end

theorem Expr.parseMore_yields (c : Cursor) : (Expr.parseMore c).Yields c.leaves Expr.leavesAll := by
  rw [Expr.parseMore]
  split
  · rename_i c1 _ view
    have read : c.leaves = [] ++ c1.leaves := Cursor.leaves_of_view view (by simp)
    refine c1.skipNewlines_silent.next read fun _ c2 _ read => ?_
    refine (Expr.parseBinary_yields 1 c2).next read fun e c3 _ read => ?_
    refine (Expr.parseMore_yields c3).next read fun es c4 _ read => ?_
    exact .ok read
  · exact .ok rfl
termination_by c.size
decreasing_by all_goals omega

theorem Expr.parseList_yields (c : Cursor) : (Expr.parseList c).Yields c.leaves Expr.leavesAll := by
  refine (Expr.parseBinary_yields 1 c).andThen fun e c1 _ read => ?_
  refine (Expr.parseMore_yields c1).next read fun es c2 _ read => ?_
  exact .ok read

/-! ### Declarations -/

theorem Ident.parseMore_yields (what : String) (c : Cursor) :
    (Ident.parseMore what c).Yields c.leaves fun ids => ids.map Ident.leaf := by
  rw [Ident.parseMore]
  split
  · rename_i c1 _ view
    have read : c.leaves = [] ++ c1.leaves := Cursor.leaves_of_view view (by simp)
    refine (c1.expectIdent_yields what).next read fun id c2 _ read => ?_
    refine (Ident.parseMore_yields what c2).next read fun ids c3 _ read => ?_
    exact .ok read
  · exact .ok rfl
termination_by c.size
decreasing_by all_goals omega

theorem Ident.parseList_yields (what : String) (c : Cursor) :
    (Ident.parseList what c).Yields c.leaves fun ids => ids.map Ident.leaf := by
  refine (c.expectIdent_yields what).andThen fun id c1 _ read => ?_
  refine (Ident.parseMore_yields what c1).next read fun ids c2 _ read => ?_
  exact .ok read

theorem TypeSpec.parseName_yields (c : Cursor) :
    (TypeSpec.parseName c).Yields c.leaves fun id => [id.leaf] := by
  unfold TypeSpec.parseName
  split
  · exact c.expectIdent_yields _
  · trivial

theorem TypeSpec.parse_yields (c : Cursor) :
    (TypeSpec.parse c).Yields c.leaves TypeSpec.leaves := by
  unfold TypeSpec.parse
  split
  · rename_i c1 _ view
    have read : c.leaves = [] ++ c1.leaves := Cursor.leaves_of_view view (by simp)
    refine (Expr.parseBinary_yields 1 c1).next read fun length c2 _ read => ?_
    refine (c2.expect_silent _ rfl (by simp)).next read fun _ c3 _ read => ?_
    refine (TypeSpec.parseName_yields c3).next read fun element c4 _ read => ?_
    exact .ok read
  · refine (TypeSpec.parseName_yields c).andThen fun id c1 _ read => ?_
    exact .ok read

theorem TypeSpec.parseNames_yields (c : Cursor) :
    (TypeSpec.parseNames c).Yields c.leaves fun ids => ids.map Ident.leaf := by
  rw [TypeSpec.parseNames]
  refine (TypeSpec.parseName_yields c).andThen fun id c1 _ read => ?_
  split
  · rename_i c2 _ view
    rw [Cursor.leaves_of_view view (by simp)] at read
    refine (TypeSpec.parseNames_yields c2).next read fun ids c3 _ read => ?_
    exact .ok read
  · exact .ok read
termination_by c.size
decreasing_by all_goals omega

theorem TypeSpec.parseResults_yields (c : Cursor) :
    (TypeSpec.parseResults c).Yields c.leaves fun ids => ids.map Ident.leaf := by
  unfold TypeSpec.parseResults
  split
  · rename_i c1 _ view
    have read : c.leaves = [] ++ c1.leaves := Cursor.leaves_of_view view (by simp)
    split
    · rename_i view
      rw [Cursor.leaves_of_view view (by simp)] at read
      exact .ok read
    · refine (TypeSpec.parseNames_yields c1).next read fun ids c2 _ read => ?_
      refine (c2.expect_silent _ rfl (by simp)).next read fun _ c3 _ read => ?_
      exact .ok read
  · refine (TypeSpec.parseName_yields c).andThen fun id c1 _ read => ?_
    exact .ok read
  · exact .ok rfl

theorem VarSpec.parseType?_yields (c : Cursor) :
    (VarSpec.parseType? c).Yields c.leaves fun type? => type?.toList.flatMap TypeSpec.leaves := by
  unfold VarSpec.parseType?
  split
  · exact .ok rfl
  · refine (TypeSpec.parse_yields c).andThen fun type c1 _ read => ?_
    exact .ok (by simpa using read)

theorem VarSpec.parseValues_yields (c : Cursor) :
    (VarSpec.parseValues c).Yields c.leaves Expr.leavesAll := by
  unfold VarSpec.parseValues
  split
  · rename_i c1 _ view
    have read : c.leaves = [] ++ c1.leaves := Cursor.leaves_of_view view (by simp)
    refine c1.skipNewlines_silent.next read fun _ c2 _ read => ?_
    exact ((Expr.parseList_yields c2).last read fun _ => rfl).relax
  · exact .ok rfl

theorem VarSpec.parse_yields (c : Cursor) : (VarSpec.parse c).Yields c.leaves VarSpec.leaves := by
  refine (Ident.parseList_yields _ c).andThen fun names c1 _ read => ?_
  refine (VarSpec.parseType?_yields c1).next read fun type? c2 _ read => ?_
  refine (VarSpec.parseValues_yields c2).next read fun values c3 _ read => ?_
  exact .ok (by simpa [VarSpec.leaves] using read)

theorem VarSpec.parseGroup_yields (c : Cursor) :
    (VarSpec.parseGroup c).Yields c.leaves fun specs => specs.flatMap VarSpec.leaves := by
  rw [VarSpec.parseGroup]
  split
  · exact .ok rfl
  · exact .ok rfl
  · refine (VarSpec.parse_yields c).andThen fun spec c1 _ read => ?_
    refine c1.expectTerminator_silent.next read fun _ c2 _ read => ?_
    refine c2.skipSeparators_silent.next read fun _ c3 _ read => ?_
    refine (VarSpec.parseGroup_yields c3).next read fun specs c4 _ read => ?_
    exact .ok read
termination_by c.size
decreasing_by all_goals omega

theorem VarDecl.parse_yields (c : Cursor) : (VarDecl.parse c).Yields c.leaves VarDecl.leaves := by
  unfold VarDecl.parse
  refine (c.expect_silent _ rfl (by simp)).andThen fun _ c1 _ read => ?_
  split
  · rename_i c2 _ view
    rw [Cursor.leaves_of_view view (by simp)] at read
    refine c2.skipSeparators_silent.next read fun _ c3 _ read => ?_
    refine (VarSpec.parseGroup_yields c3).next read fun specs c4 _ read => ?_
    refine (c4.expect_silent _ rfl (by simp)).next read fun _ c5 _ read => ?_
    exact .ok read
  · refine (VarSpec.parse_yields c1).next read fun spec c2 _ read => ?_
    exact .ok (by simpa [VarDecl.leaves] using read)

theorem ParamGroup.parse_yields (c : Cursor) :
    (ParamGroup.parse c).Yields c.leaves ParamGroup.leaves := by
  refine (Ident.parseList_yields _ c).andThen fun names c1 _ read => ?_
  refine (TypeSpec.parseName_yields c1).next read fun type c2 _ read => ?_
  exact .ok read

theorem ParamGroup.parseGroups_yields (c : Cursor) :
    (ParamGroup.parseGroups c).Yields c.leaves fun groups => groups.flatMap ParamGroup.leaves := by
  rw [ParamGroup.parseGroups]
  split
  · exact .ok rfl
  · refine (ParamGroup.parse_yields c).andThen fun group c1 _ read => ?_
    refine c1.skipNewlines_silent.next read fun _ c2 _ read => ?_
    split
    · rename_i c3 _ view
      rw [Cursor.leaves_of_view view (by simp)] at read
      refine c3.skipNewlines_silent.next read fun _ c4 _ read => ?_
      refine (ParamGroup.parseGroups_yields c4).next read fun groups c5 _ read => ?_
      exact .ok read
    · exact .ok (by simpa using read)
termination_by c.size
decreasing_by all_goals omega

theorem ParamGroup.parseList_yields (c : Cursor) :
    (ParamGroup.parseList c).Yields c.leaves fun groups => groups.flatMap ParamGroup.leaves := by
  refine c.skipNewlines_silent.andThen fun _ c1 _ read => ?_
  exact ((ParamGroup.parseGroups_yields c1).last read fun _ => rfl).relax

/-! ### Statements -/

/-- Expressions that are read as something else have its leaves. -/
theorem Expr.leavesAll_of_mapM {α : Type} {f : Expr → Option α} {leaves : α → List Leaf}
    (same : ∀ e a, f e = some a → e.leaves = leaves a) {es : List Expr} {as : List α}
    (h : es.mapM f = some as) :
    Expr.leavesAll es = as.flatMap leaves := by
  induction es generalizing as with
  | nil =>
    cases h
    rfl
  | cons e es ih =>
    simp only [List.mapM_cons, Option.bind_eq_bind, Option.bind_eq_some_iff, Option.pure_def,
      Option.some.injEq] at h
    obtain ⟨a, found, rest, others, rfl⟩ := h
    rw [Expr.leavesAll, List.flatMap_cons, same e a found, ih others]

theorem Expr.leaves_of_name {e : Expr} {id : Ident} (h : e.name? = some id) :
    e.leaves = [id.leaf] := by
  unfold Expr.name? at h
  split at h
  · cases h
    rfl
  · cases h

theorem Expr.leaves_of_target {e : Expr} {target : Target} (h : e.target? = some target) :
    e.leaves = target.leaves := by
  unfold Expr.target? at h
  split at h
  · cases h
    rfl
  · cases h
    rfl
  · cases h

/-- An expression that is read as a call has the leaves of the call. -/
theorem Expr.leaves_of_call {e : Expr} {callee : Ident} {args : List Expr}
    (h : e.call? = some (callee, args)) :
    e.leaves = callee.leaf :: Expr.leavesAll args := by
  unfold Expr.call? at h
  split at h
  · cases h
    rfl
  · cases h

theorem Stmt.parseValues_yields (c : Cursor) :
    (Stmt.parseValues c).Yields c.leaves Expr.leavesAll := by
  refine c.skipNewlines_silent.andThen fun _ c1 _ read => ?_
  exact ((Expr.parseList_yields c1).last read fun _ => rfl).relax

theorem Stmt.parseSimple_yields (c : Cursor) :
    (Stmt.parseSimple c).Yields c.leaves Stmt.leaves := by
  unfold Stmt.parseSimple
  refine (Expr.parseList_yields c).andThen fun left c1 _ read => ?_
  split
  · rename_i c2 _ view
    rw [Cursor.leaves_of_view view (by simp)] at read
    split
    · rename_i names eq
      rw [Expr.leavesAll_of_mapM (fun _ _ => Expr.leaves_of_name) eq, ← List.map_eq_flatMap] at read
      refine (Stmt.parseValues_yields c2).next read fun values c3 _ read => ?_
      exact .ok read
    · trivial
  · rename_i c2 _ view
    rw [Cursor.leaves_of_view view (by simp)] at read
    split
    · rename_i targets eq
      rw [Expr.leavesAll_of_mapM (fun _ _ => Expr.leaves_of_target) eq] at read
      refine (Stmt.parseValues_yields c2).next read fun values c3 _ read => ?_
      exact .ok read
    · trivial
  · split
    · rename_i e
      split
      · rename_i callee args eq
        refine .ok ?_
        rw [read, Expr.leavesAll, Expr.leavesAll, Expr.leaves_of_call eq, Stmt.leaves,
          List.append_nil]
      · trivial
    · trivial

theorem Stmt.parseReturn_yields (c : Cursor) :
    (Stmt.parseReturn c).Yields c.leaves Stmt.leaves := by
  unfold Stmt.parseReturn
  refine (c.expect_silent _ rfl (by simp)).andThen fun _ c1 _ read => ?_
  split
  · exact .ok read
  · refine (Expr.parseList_yields c1).next read fun values c2 _ read => ?_
    exact .ok read

mutual

theorem Stmt.parse_yields (c : Cursor) : (Stmt.parse c).Yields c.leaves Stmt.leaves := by
  rw [Stmt.parse]
  split
  · refine (VarDecl.parse_yields c).andThen fun decl c1 _ read => ?_
    exact .ok read
  · refine (IfStmt.parse_yields c).andThen fun stmt c1 _ read => ?_
    exact .ok read
  · exact Stmt.parseLoop_yields c
  · exact Stmt.parseReturn_yields c
  · refine (Block.parse_yields c).andThen fun body c1 _ read => ?_
    exact .ok read
  · exact Stmt.parseSimple_yields c
termination_by 3 * c.size + 1
decreasing_by all_goals omega

theorem Block.parse_yields (c : Cursor) : (Block.parse c).Yields c.leaves Block.leaves := by
  rw [Block.parse]
  refine (c.expect_silent _ rfl (by simp)).andThen fun _ c1 _ read => ?_
  refine c1.skipSeparators_silent.next read fun _ c2 _ read => ?_
  refine (Block.parseStatements_yields c2).next read fun statements c3 _ read => ?_
  refine (c3.expect_silent _ rfl (by simp)).next read fun _ c4 _ read => ?_
  exact .ok read
termination_by 3 * c.size
decreasing_by all_goals omega

theorem Block.parseStatements_yields (c : Cursor) :
    (Block.parseStatements c).Yields c.leaves Stmt.leavesAll := by
  rw [Block.parseStatements]
  split
  · exact .ok rfl
  · exact .ok rfl
  · refine (Stmt.parse_yields c).andThen fun stmt c1 _ read => ?_
    refine c1.expectTerminator_silent.next read fun _ c2 _ read => ?_
    refine c2.skipSeparators_silent.next read fun _ c3 _ read => ?_
    refine (Block.parseStatements_yields c3).next read fun stmts c4 _ read => ?_
    exact .ok read
termination_by 3 * c.size + 2
decreasing_by all_goals omega

theorem IfStmt.parse_yields (c : Cursor) : (IfStmt.parse c).Yields c.leaves IfStmt.leaves := by
  rw [IfStmt.parse]
  refine (c.expect_silent _ rfl (by simp)).andThen fun _ c1 _ read => ?_
  refine (Expr.parseBinary_yields 1 c1).next read fun condition c2 _ read => ?_
  refine (Block.parse_yields c2).next read fun body c3 _ read => ?_
  refine (ElseBranch.parse_yields c3).next read fun otherwise c4 _ read => ?_
  exact .ok (by simpa [IfStmt.leaves] using read)
termination_by 3 * c.size
decreasing_by all_goals omega

theorem ElseBranch.parse_yields (c : Cursor) :
    (ElseBranch.parse c).Yields c.leaves ElseBranch.leaves := by
  rw [ElseBranch.parse]
  split
  · rename_i c1 _ view
    have read : c.leaves = [] ++ c1.leaves := Cursor.leaves_of_view view (by simp)
    split
    · refine (IfStmt.parse_yields c1).next read fun stmt c2 _ read => ?_
      exact .ok read
    · refine (Block.parse_yields c1).next read fun body c2 _ read => ?_
      exact .ok read
    · trivial
  · exact .ok rfl
termination_by 3 * c.size
decreasing_by all_goals omega

theorem Stmt.parseLoop_yields (c : Cursor) : (Stmt.parseLoop c).Yields c.leaves Stmt.leaves := by
  rw [Stmt.parseLoop]
  refine (c.expect_silent _ rfl (by simp)).andThen fun _ c1 _ read => ?_
  refine (Expr.parseBinary_yields 1 c1).next read fun condition c2 _ read => ?_
  refine (Block.parse_yields c2).next read fun body c3 _ read => ?_
  exact .ok read
termination_by 3 * c.size
decreasing_by all_goals omega

end

/-! ### Files -/

theorem FuncDecl.parse_yields (c : Cursor) :
    (FuncDecl.parse c).Yields c.leaves FuncDecl.leaves := by
  refine (c.expect_silent _ rfl (by simp)).andThen fun _ c1 _ read => ?_
  refine (c1.expectIdent_yields _).next read fun name c2 _ read => ?_
  refine (c2.expect_silent _ rfl (by simp)).next read fun _ c3 _ read => ?_
  refine (ParamGroup.parseList_yields c3).next read fun params c4 _ read => ?_
  refine (c4.expect_silent _ rfl (by simp)).next read fun _ c5 _ read => ?_
  refine (TypeSpec.parseResults_yields c5).next read fun results c6 _ read => ?_
  refine (Block.parse_yields c6).next read fun body c7 _ read => ?_
  exact .ok (by simpa [FuncDecl.leaves] using read)

theorem Decl.parse_yields (c : Cursor) : (Decl.parse c).Yields c.leaves Decl.leaves := by
  unfold Decl.parse
  split
  · refine (VarDecl.parse_yields c).andThen fun decl c1 _ read => ?_
    exact .ok read
  · refine (FuncDecl.parse_yields c).andThen fun decl c1 _ read => ?_
    exact .ok read
  · trivial
  · trivial

namespace File

/-- The paths in the parentheses of an import clause. -/
theorem skipPaths_leavesFrom (c : Cursor) :
    (skipPaths c).Ensures fun _ after => c.leavesFrom .group = after.leavesFrom .group := by
  rw [skipPaths]
  split
  · rename_i c1 _ view
    have read : c.leavesFrom .group = c1.leavesFrom .group := by
      rw [Cursor.leavesFrom, Cursor.rest_of_view view]
      rfl
    rw [read]
    refine (c1.skipSeparators_leavesFrom .group (by simp)).andThen fun _ c2 _ read => ?_
    rw [read]
    exact (skipPaths_leavesFrom c2).relax
  · rfl
termination_by c.size
decreasing_by all_goals omega

/-- The part of an import clause after its keyword. -/
theorem skipPathSpec_leavesFrom (c : Cursor) :
    (skipPathSpec c).Ensures fun _ after => c.leavesFrom .clause = after.leaves := by
  unfold skipPathSpec
  split
  · rename_i c1 _ view
    have read : c.leavesFrom .clause = c1.leavesFrom .group := by
      rw [Cursor.leavesFrom, Cursor.rest_of_view view]
      rfl
    rw [read]
    refine (c1.skipSeparators_leavesFrom .group (by simp)).andThen fun _ c2 _ read => ?_
    rw [read]
    refine (skipPaths_leavesFrom c2).andThen fun _ c3 _ read => ?_
    rw [read]
    refine Ensures.relax ?_
    unfold Cursor.expect
    split
    · rename_i view
      split
      · rename_i eq
        show c3.leavesFrom .group = _
        rw [Cursor.leavesFrom, Cursor.rest_of_view view, outsideImports, if_pos eq]
        rfl
      · trivial
    · trivial
  · unfold Cursor.expectString
    split
    · rename_i view
      show c.leavesFrom .clause = _
      rw [Cursor.leavesFrom, Cursor.rest_of_view view]
      rfl
    · trivial
    · trivial

theorem skipImports_silent (c : Cursor) : (skipImports c).Silent c.leaves := by
  rw [skipImports]
  split
  · rename_i c1 _ view
    have read : c.leaves = c1.leavesFrom .clause := by
      rw [Cursor.leaves, Cursor.leavesFrom, Cursor.rest_of_view view]
      rfl
    rw [read]
    refine (skipPathSpec_leavesFrom c1).andThen fun _ c2 _ read => ?_
    rw [read]
    refine c2.expectTerminator_silent.andThen fun _ c3 _ read => ?_
    refine c3.skipSeparators_silent.next read fun _ c4 _ read => ?_
    exact ((skipImports_silent c4).last read fun _ => rfl).relax
  · exact .ok rfl
termination_by c.size
decreasing_by all_goals omega

theorem parsePackage?_yields (c : Cursor) :
    (parsePackage? c).Yields c.leaves fun name? => name?.toList.map Ident.leaf := by
  unfold parsePackage?
  split
  · rename_i c1 _ view
    have read : c.leaves = [] ++ c1.leaves := Cursor.leaves_of_view view (by simp)
    refine (c1.expectIdent_yields _).next read fun name c2 _ read => ?_
    refine c2.expectTerminator_silent.next read fun _ c3 _ read => ?_
    exact .ok read
  · exact .ok rfl

/-- Declarations are read up to the end, so that no leaf is left. -/
theorem leaves_of_parseDecls (c : Cursor) :
    (parseDecls c).Ensures fun decls _ => c.leaves = decls.flatMap Decl.leaves := by
  rw [parseDecls]
  refine Ensures.andThen c.skipSeparators_silent fun _ c1 _ read => ?_
  rw [read, List.nil_append]
  split
  · rename_i atEnd
    have rest : c1.rest = [] := by simpa [Cursor.token?] using atEnd
    show c1.leaves = []
    rw [Cursor.leaves, Cursor.leavesFrom, rest]
    rfl
  · refine Ensures.andThen (Decl.parse_yields c1) fun decl c2 _ read => ?_
    refine Ensures.andThen c2.expectTerminator_silent fun _ c3 _ read' => ?_
    refine (leaves_of_parseDecls c3).andThen fun decls c4 _ read'' => ?_
    show c1.leaves = _
    rw [read, read', read'']
    rfl
termination_by c.size
decreasing_by all_goals omega

theorem leaves_of_parseTokens (c : Cursor) :
    (parseTokens c).Ensures fun file _ => c.leaves = file.leaves := by
  refine Ensures.andThen c.skipSeparators_silent fun _ c1 _ read₁ => ?_
  refine Ensures.andThen (parsePackage?_yields c1) fun package? c2 _ read₂ => ?_
  refine Ensures.andThen c2.skipSeparators_silent fun _ c3 _ read₃ => ?_
  refine Ensures.andThen (skipImports_silent c3) fun _ c4 _ read₄ => ?_
  refine (leaves_of_parseDecls c4).andThen fun decls c5 _ read₅ => ?_
  show c.leaves = _
  rw [read₁, read₂, read₃, read₄, read₅]
  rfl

/-- The leaves at the start of a token stream are those of the tokens outside of import clauses. -/
theorem leaves_start (source : String) (tokens : List SpannedToken) :
    (Cursor.start source tokens).leaves =
      (outsideImports SpannedToken.token .outside tokens).filterMap
        (SpannedToken.leaf? source) := by
  rw [Cursor.leaves, Cursor.leavesFrom, Cursor.start, outsideImports_map, List.filterMap_map]
  rfl

/-- The leaves of a file are those at the start of its tokens. -/
theorem exists_tokens_of_parse {source : String} {file : File} (h : File.parse source = .ok file) :
    ∃ tokens, tokenize source = .ok tokens ∧ (Cursor.start source tokens).leaves = file.leaves := by
  unfold File.parse at h
  cases tokenized : tokenize source with
  | error e =>
    rw [tokenized] at h
    cases h
  | ok tokens =>
    refine ⟨tokens, rfl, ?_⟩
    rw [tokenized] at h
    have read := leaves_of_parseTokens (Cursor.start source tokens)
    change (parseTokens (Cursor.start source tokens)).result = .ok file at h
    cases reply : parseTokens (Cursor.start source tokens) with
    | error e at_ =>
      rw [reply] at h
      cases h
    | ok value after =>
      rw [reply] at h read
      cases h
      exact read

/-- Each leaf of a file is a token of the source text. -/
theorem exists_token_of_mem_leaves {source : String} {file : File}
    (h : File.parse source = .ok file) :
    ∃ tokens, tokenize source = .ok tokens ∧
      ∀ l ∈ file.leaves, ∃ t ∈ tokens, t.token.leaf? = some (l.kind, l.text) := by
  obtain ⟨tokens, tokenized, leaves⟩ := exists_tokens_of_parse h
  refine ⟨tokens, tokenized, fun l mem => ?_⟩
  rw [← leaves, leaves_start] at mem
  obtain ⟨t, outside, isLeaf⟩ := List.mem_filterMap.1 mem
  obtain ⟨_, token, rfl⟩ := Option.map_eq_some_iff.1 isLeaf
  exact ⟨t, (outsideImports_sublist _ _ _).subset outside, token⟩

/-- Reading a source text loses, adds, moves and misplaces nothing: the leaves of the tree, each
with its text and its line, are the names, literals and operators among the tokens outside of import
clauses, in the same order. -/
theorem leaves_of_parse {source : String} {file : File} (h : File.parse source = .ok file) :
    ∃ tokens, tokenize source = .ok tokens ∧
      file.leaves = (outsideImports SpannedToken.token .outside tokens).filterMap
        (SpannedToken.leaf? source) := by
  obtain ⟨tokens, tokenized, leaves⟩ := exists_tokens_of_parse h
  exact ⟨tokens, tokenized, leaves.symm.trans (leaves_start source tokens)⟩

/-- A file with a group of imports, signs, a line break after an operator, and a chain of
conditional statements. -/
def importingSource : String :=
  "package p\nimport (\n\"a\"; \"b\"\n)\nvar x [2]int\nfunc f(a, b int) (int, string) \x7b\n" ++
    "if -a < 3 *\nb && true \x7b\nreturn +x[1],\n\"s\"\n\x7d else if f(a) == 0.5 \x7b\nx[0] = -(a)\n\x7d\n\x7d\n"

theorem importingSource_leaves :
    ∃ file, File.parse importingSource = .ok file ∧ file.leaves.length = 30 ∧
    ∃ tokens, tokenize importingSource = .ok tokens ∧
      file.leaves =
        (outsideImports SpannedToken.token .outside tokens).filterMap
          (SpannedToken.leaf? importingSource) := by
  have count : (File.parse importingSource).toOption.map (·.leaves.length) = some 30 := by
    decide +kernel
  cases parsed : File.parse importingSource with
  | error e =>
    rw [parsed] at count
    cases count
  | ok file =>
    rw [parsed] at count
    exact ⟨file, rfl, Option.some.inj count, leaves_of_parse parsed⟩

end File

end MiniGo
