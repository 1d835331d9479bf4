import MiniGo.Grammar

/-!
# Syntax trees as token streams

A syntax tree is written as tokens in the way of the grammar. A newline follows each statement and
each declaration, `else` stands on the line of the closing brace before it, specifications are put
in parentheses unless there is exactly one, and so are results unless there is at most one. After an
opening brace, and after the opening parenthesis of a group of specifications, there are as many
line breaks as one likes.

* `File.unlined`: a tree without its line numbers.
* `File.isShaped`: the lists that must not be empty are not, a specification has a type or values,
  and operators are nested as they bind.
* `File.tokens`: the tokens of a tree.
* `Expr.tokens_head`, `Block.tokens_head` and others: the first token of a part of a tree.
-/

namespace MiniGo

/-! ### Trees without lines -/

/-- A name without its line. -/
def Ident.unlined (id : Ident) : Ident := ⟨id.name, 0⟩

/-- A literal without its line. -/
def Literal.unlined (lit : Literal) : Literal := ⟨lit.kind, lit.text, 0⟩

mutual

/-- An expression without its lines. -/
def Expr.unlined : Expr → Expr
  | .binary op _ left right => .binary op 0 left.unlined right.unlined
  | .operand sign primary _ => .operand sign primary.unlined 0
termination_by structural e => e

/-- An operand without its lines. -/
def Primary.unlined : Primary → Primary
  | .literal lit => .literal lit.unlined
  | .name id => .name id.unlined
  | .call callee args => .call callee.unlined (Expr.unlinedAll args)
  | .index array index => .index array.unlined index.unlined
  | .paren inner => .paren inner.unlined
termination_by structural primary => primary

/-- Expressions without their lines. -/
def Expr.unlinedAll : List Expr → List Expr
  | [] => []
  | e :: es => e.unlined :: Expr.unlinedAll es
termination_by structural es => es

end

@[simp] theorem Expr.unlinedAll_eq_map (es : List Expr) :
    Expr.unlinedAll es = es.map Expr.unlined := by
  induction es with
  | nil => rfl
  | cons e es ih => rw [Expr.unlinedAll, ih, List.map_cons]

/-- A target without its lines. -/
def Target.unlined : Target → Target
  | .name id => .name id.unlined
  | .index array position => .index array.unlined position.unlined

/-- A type without its lines. -/
def TypeSpec.unlined : TypeSpec → TypeSpec
  | .named id => .named id.unlined
  | .array length element _ => .array length.unlined element.unlined 0

/-- A specification without its lines. -/
def VarSpec.unlined (spec : VarSpec) : VarSpec :=
  ⟨spec.names.map Ident.unlined, spec.type?.map TypeSpec.unlined, spec.values.map Expr.unlined, 0⟩

/-- A variable declaration without its lines. -/
def VarDecl.unlined (decl : VarDecl) : VarDecl := ⟨decl.specs.map VarSpec.unlined, 0⟩

mutual

/-- A statement without its lines. -/
def Stmt.unlined : Stmt → Stmt
  | .var decl => .var decl.unlined
  | .define names values _ => .define (names.map Ident.unlined) (values.map Expr.unlined) 0
  | .assign targets values _ => .assign (targets.map Target.unlined) (values.map Expr.unlined) 0
  | .cond stmt => .cond stmt.unlined
  | .loop condition body _ => .loop condition.unlined body.unlined 0
  | .ret values _ => .ret (values.map Expr.unlined) 0
  | .call callee args _ => .call callee.unlined (args.map Expr.unlined) 0
  | .block body => .block body.unlined
termination_by structural stmt => stmt

/-- A block without its lines. -/
def Block.unlined : Block → Block
  | .mk statements _ _ => .mk (Stmt.unlinedAll statements) 0 0
termination_by structural block => block

/-- Statements without their lines. -/
def Stmt.unlinedAll : List Stmt → List Stmt
  | [] => []
  | stmt :: stmts => stmt.unlined :: Stmt.unlinedAll stmts
termination_by structural stmts => stmts

/-- A conditional statement without its lines. -/
def IfStmt.unlined : IfStmt → IfStmt
  | .mk condition body otherwise _ => .mk condition.unlined body.unlined otherwise.unlined 0
termination_by structural stmt => stmt

/-- An else branch without its lines. -/
def ElseBranch.unlined : ElseBranch → ElseBranch
  | .absent => .absent
  | .block body => .block body.unlined
  | .elseIf stmt => .elseIf stmt.unlined
termination_by structural branch => branch

end

/-- Parameters without their lines. -/
def ParamGroup.unlined (group : ParamGroup) : ParamGroup :=
  ⟨group.names.map Ident.unlined, group.type.unlined⟩

/-- A function declaration without its lines. -/
def FuncDecl.unlined (decl : FuncDecl) : FuncDecl :=
  ⟨decl.name.unlined, decl.params.map ParamGroup.unlined, decl.results.map Ident.unlined,
    decl.body.unlined, 0⟩

/-- A declaration without its lines. -/
def Decl.unlined : Decl → Decl
  | .var decl => .var decl.unlined
  | .func decl => .func decl.unlined

/-- A source file without its lines. -/
def File.unlined (file : File) : File :=
  ⟨file.package?.map Ident.unlined, file.decls.map Decl.unlined⟩

/-! ### Shapes that the grammar has -/

/-- How tightly an expression binds: as its operator, and an operand more tightly than any. -/
def Expr.precedence : Expr → Nat
  | .binary op _ _ _ => op.precedence
  | .operand _ _ _ => 6

/-- The text of a truth value is one of two. -/
def Literal.isShaped (lit : Literal) : Bool :=
  lit.kind != .bool || lit.text == Keyword.text .true_ || lit.text == Keyword.text .false_

mutual

/-- A left operand binds at least as tightly as the operator after it, a right operand more
tightly. -/
def Expr.isShaped : Expr → Bool
  | .binary op _ left right =>
    decide (op.precedence ≤ left.precedence) && decide (op.precedence < right.precedence) &&
      (left.isShaped && right.isShaped)
  | .operand _ primary _ => primary.isShaped
termination_by structural e => e

/-- The shape of an operand. -/
def Primary.isShaped : Primary → Bool
  | .literal lit => lit.isShaped
  | .name _ => true
  | .call _ args => Expr.areShaped args
  | .index _ index => index.isShaped
  | .paren inner => inner.isShaped
termination_by structural primary => primary

/-- The shapes of expressions. -/
def Expr.areShaped : List Expr → Bool
  | [] => true
  | e :: es => e.isShaped && Expr.areShaped es
termination_by structural es => es

end

/-- The shape of a target. -/
def Target.isShaped : Target → Bool
  | .name _ => true
  | .index _ position => position.isShaped

/-- The shape of a type. -/
def TypeSpec.isShaped : TypeSpec → Bool
  | .named _ => true
  | .array length _ _ => length.isShaped

/-- A specification has a name, and a type or values. -/
def VarSpec.isShaped (spec : VarSpec) : Bool :=
  !spec.names.isEmpty && (spec.type?.isSome || !spec.values.isEmpty) && spec.type?.all
    TypeSpec.isShaped && Expr.areShaped spec.values

/-- The shape of a variable declaration. -/
def VarDecl.isShaped (decl : VarDecl) : Bool := decl.specs.all VarSpec.isShaped

mutual

/-- Short declarations and assignments have something on both sides. -/
def Stmt.isShaped : Stmt → Bool
  | .var decl => decl.isShaped
  | .define names values _ => !names.isEmpty && !values.isEmpty && Expr.areShaped values
  | .assign targets values _ =>
    !targets.isEmpty && !values.isEmpty && targets.all Target.isShaped && Expr.areShaped values
  | .cond stmt => stmt.isShaped
  | .loop condition body _ => condition.isShaped && body.isShaped
  | .ret values _ => Expr.areShaped values
  | .call _ args _ => Expr.areShaped args
  | .block body => body.isShaped
termination_by structural stmt => stmt

/-- The shape of a block. -/
def Block.isShaped : Block → Bool
  | .mk statements _ _ => Stmt.areShaped statements
termination_by structural block => block

/-- The shapes of statements. -/
def Stmt.areShaped : List Stmt → Bool
  | [] => true
  | stmt :: stmts => stmt.isShaped && Stmt.areShaped stmts
termination_by structural stmts => stmts

/-- The shape of a conditional statement. -/
def IfStmt.isShaped : IfStmt → Bool
  | .mk condition body otherwise _ => condition.isShaped && body.isShaped && otherwise.isShaped
termination_by structural stmt => stmt

/-- The shape of an else branch. -/
def ElseBranch.isShaped : ElseBranch → Bool
  | .absent => true
  | .block body => body.isShaped
  | .elseIf stmt => stmt.isShaped
termination_by structural branch => branch

end

/-- A function has parameters in groups that have names. -/
def FuncDecl.isShaped (decl : FuncDecl) : Bool :=
  decl.params.all (!·.names.isEmpty) && decl.body.isShaped

/-- The shape of a declaration. -/
def Decl.isShaped : Decl → Bool
  | .var decl => decl.isShaped
  | .func decl => decl.isShaped

/-- The shape of a source file. -/
def File.isShaped (file : File) : Bool := file.decls.all Decl.isShaped

/-! ### Tokens of a tree -/

/-- Parts of a token stream with commas between them. -/
def commaSeparated : List (List Token) → List Token
  | [] => []
  | part :: parts => part ++ parts.flatMap (.punct .comma :: ·)

/-- The token of a name. -/
def Ident.token (id : Ident) : Token := .ident id.name

/-- Names with commas between them. -/
def Ident.listTokens (ids : List Ident) : List Token := commaSeparated (ids.map ([·.token]))

/-- The token of a literal. -/
def Literal.token (lit : Literal) : Token :=
  match lit.kind with
  | .int => .integer lit.text
  | .float => .decimal lit.text
  | .string => .string lit.text
  | .bool => .keyword (if lit.text = Keyword.text .true_ then .true_ else .false_)

/-- The token of a sign. -/
def Sign.token : Sign → Token
  | .plus => .op .add
  | .minus => .op .sub

mutual

/-- The tokens of an expression. -/
def Expr.tokens : Expr → List Token
  | .binary op _ left right => left.tokens ++ .op op :: right.tokens
  | .operand sign primary _ => sign.toList.map Sign.token ++ primary.tokens
termination_by structural e => e

/-- The tokens of an operand without its sign. -/
def Primary.tokens : Primary → List Token
  | .literal lit => [lit.token]
  | .name id => [id.token]
  | .call callee args =>
    callee.token :: .punct .leftParen :: (commaSeparated (Expr.parts args) ++ [.punct .rightParen])
  | .index array index =>
    array.token :: .punct .leftBracket :: (index.tokens ++ [.punct .rightBracket])
  | .paren inner => .punct .leftParen :: (inner.tokens ++ [.punct .rightParen])
termination_by structural primary => primary

/-- The tokens of each of several expressions. -/
def Expr.parts : List Expr → List (List Token)
  | [] => []
  | e :: es => e.tokens :: Expr.parts es
termination_by structural es => es

end

/-- Expressions with commas between them. -/
def Expr.listTokens (es : List Expr) : List Token := commaSeparated (Expr.parts es)

/-- A name as an expression. -/
def Ident.expr (id : Ident) : Expr := .operand none (.name id) id.line

/-- A target as an expression. -/
def Target.expr : Target → Expr
  | .name id => id.expr
  | .index array position => .operand none (.index array position) array.line

/-- The tokens of a type. -/
def TypeSpec.tokens : TypeSpec → List Token
  | .named id => [id.token]
  | .array length element _ =>
    .punct .leftBracket :: (length.tokens ++ [.punct .rightBracket, element.token])

/-- The initial values of a specification, if there are any, behind an assignment mark. -/
def VarSpec.valueTokens : List Expr → List Token
  | [] => []
  | e :: es => .punct .assign :: Expr.listTokens (e :: es)

/-- The tokens of a specification: names, type, values. -/
def VarSpec.tokens (spec : VarSpec) : List Token :=
  Ident.listTokens spec.names ++
    (spec.type?.toList.flatMap TypeSpec.tokens ++ VarSpec.valueTokens spec.values)

/-- Line breaks. -/
def lineBreaks (breaks : Nat) : List Token := List.replicate breaks .newline

/-- The tokens of a variable declaration. -/
def VarDecl.tokens (breaks : Nat) (decl : VarDecl) : List Token :=
  .keyword .var ::
    match decl.specs with
    | [spec] => spec.tokens
    | specs =>
      .punct .leftParen ::
        (lineBreaks breaks ++ (specs.flatMap (·.tokens ++ [.newline]) ++ [.punct .rightParen]))

mutual

/-- The tokens of a statement. -/
def Stmt.tokens (breaks : Nat) : Stmt → List Token
  | .var decl => decl.tokens breaks
  | .define names values _ => Ident.listTokens names ++ .punct .define :: Expr.listTokens values
  | .assign targets values _ =>
    Expr.listTokens (targets.map Target.expr) ++ .punct .assign :: Expr.listTokens values
  | .cond stmt => stmt.tokens breaks
  | .loop condition body _ => .keyword .for_ :: (condition.tokens ++ body.tokens breaks)
  | .ret values _ => .keyword .return_ :: Expr.listTokens values
  | .call callee args line => Expr.tokens (.operand none (.call callee args) line)
  | .block body => body.tokens breaks
termination_by structural stmt => stmt

/-- The tokens of a block. -/
def Block.tokens (breaks : Nat) : Block → List Token
  | .mk statements _ _ =>
    .punct .leftBrace ::
      (lineBreaks breaks ++ (Stmt.linesTokens breaks statements ++ [.punct .rightBrace]))
termination_by structural block => block

/-- The tokens of statements, each with a newline after it. -/
def Stmt.linesTokens (breaks : Nat) : List Stmt → List Token
  | [] => []
  | stmt :: stmts => stmt.tokens breaks ++ .newline :: Stmt.linesTokens breaks stmts
termination_by structural stmts => stmts

/-- The tokens of a conditional statement. -/
def IfStmt.tokens (breaks : Nat) : IfStmt → List Token
  | .mk condition body otherwise _ =>
    .keyword .if_ :: (condition.tokens ++ (body.tokens breaks ++ otherwise.tokens breaks))
termination_by structural stmt => stmt

/-- The tokens of an else branch, on the line of the brace before it. -/
def ElseBranch.tokens (breaks : Nat) : ElseBranch → List Token
  | .absent => []
  | .block body => .keyword .else_ :: body.tokens breaks
  | .elseIf stmt => .keyword .else_ :: stmt.tokens breaks
termination_by structural branch => branch

end

/-- The tokens of parameters that share a type. -/
def ParamGroup.tokens (group : ParamGroup) : List Token :=
  Ident.listTokens group.names ++ [group.type.token]

/-- The tokens of result types. -/
def resultTokens : List Ident → List Token
  | [] => []
  | [id] => [id.token]
  | ids => .punct .leftParen :: (Ident.listTokens ids ++ [.punct .rightParen])

/-- The tokens of a function declaration. -/
def FuncDecl.tokens (breaks : Nat) (decl : FuncDecl) : List Token :=
  .keyword .func :: decl.name.token :: .punct .leftParen ::
    (commaSeparated (decl.params.map ParamGroup.tokens) ++
      .punct .rightParen :: (resultTokens decl.results ++ decl.body.tokens breaks))

/-- The tokens of a declaration. -/
def Decl.tokens (breaks : Nat) : Decl → List Token
  | .var decl => decl.tokens breaks
  | .func decl => decl.tokens breaks

/-- The tokens of a source file. -/
def File.tokens (breaks : Nat) (file : File) : List Token :=
  file.package?.toList.flatMap (fun id => [.keyword .package, id.token, .newline]) ++
    file.decls.flatMap (·.tokens breaks ++ [.newline])

/-! ### First tokens -/

/-- Whether an operand can begin with a token. -/
def Token.startsPrimary : Token → Bool
  | .integer _ | .decimal _ | .string _ | .ident _ | .keyword .true_ | .keyword .false_
  | .punct .leftParen => true
  | _ => false

/-- Whether an expression can begin with a token: a sign or the first token of an operand. -/
def Token.startsExpr (t : Token) : Bool := t == .op .add || t == .op .sub || t.startsPrimary

/-- Whether a statement can begin with a token. -/
def Token.startsStmt : Token → Bool
  | .ident _ | .keyword .var | .keyword .if_ | .keyword .for_ | .keyword .return_
  | .punct .leftBrace => true
  | _ => false

theorem Primary.tokens_head (primary : Primary) :
    ∃ t ts, primary.tokens = t :: ts ∧ t.startsPrimary = true := by
  cases primary with
  | literal lit =>
    refine ⟨lit.token, [], rfl, ?_⟩
    unfold Literal.token
    split
    · rfl
    · rfl
    · rfl
    · split <;> rfl
  | name id => exact ⟨_, _, rfl, rfl⟩
  | call callee args => exact ⟨_, _, rfl, rfl⟩
  | index array index => exact ⟨_, _, rfl, rfl⟩
  | paren inner => exact ⟨_, _, rfl, rfl⟩

theorem Expr.tokens_head (e : Expr) : ∃ t ts, e.tokens = t :: ts ∧ t.startsExpr = true := by
  match e with
  | .binary op line left right =>
    obtain ⟨t, ts, eq, starts⟩ := left.tokens_head
    exact ⟨t, ts ++ .op op :: right.tokens, by rw [Expr.tokens, eq, List.cons_append], starts⟩
  | .operand none primary line =>
    obtain ⟨t, ts, eq, starts⟩ := primary.tokens_head
    exact ⟨t, ts, eq, by rw [Token.startsExpr, starts, Bool.or_true]⟩
  | .operand (some sign) primary line =>
    exact ⟨sign.token, primary.tokens, rfl, by cases sign <;> rfl⟩

/-- The first token of names, of which there are some. -/
theorem Ident.listTokens_head {ids : List Ident} (nonempty : ids ≠ []) :
    ∃ name ts, Ident.listTokens ids = .ident name :: ts := by
  cases ids with
  | nil => exact absurd rfl nonempty
  | cons id ids => exact ⟨_, _, rfl⟩

theorem Target.tokens_head (target : Target) :
    ∃ name ts, target.expr.tokens = .ident name :: ts := by
  cases target <;> exact ⟨_, _, rfl⟩

theorem Block.tokens_head (breaks : Nat) (body : Block) :
    ∃ ts, body.tokens breaks = .punct .leftBrace :: ts := by
  cases body
  exact ⟨_, rfl⟩

theorem IfStmt.tokens_head (breaks : Nat) (stmt : IfStmt) :
    ∃ ts, stmt.tokens breaks = .keyword .if_ :: ts := by
  cases stmt
  exact ⟨_, rfl⟩

end MiniGo
