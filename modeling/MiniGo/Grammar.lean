import MiniGo.Diagnostic.SyntaxError
import MiniGo.Token.Lexer
import MiniGo.Tree.Stmt

/-!
# Reading syntax trees

A `Cursor` is a place in a token stream. A parser takes a cursor and gives a `Reply n k α`: a
success that leaves at least `k` of `n` tokens behind, or an error together with the place where it
was met. Because a reply bounds what is left, a parser that calls itself on what is left of its
input terminates.

* `Cursor`, `Cursor.view`: a place in the stream, and the next token there.
* `Reply`, `Reply.andThen`: the answer of a parser, and reading on after a success.
* `Cursor.expect`, `Cursor.skipNewlines` and others: the smallest parsers.
* `Expr.parse`, `VarDecl.parse`, `Stmt.parse`, `Decl.parse`: expressions, declarations and
  statements.
* `File.parse`: the syntax tree of a source text.
-/

namespace MiniGo

/-! ## Places and replies -/

/-- A token with its span and the line on which it begins. -/
structure Lexeme where
  token : Token
  span : Span
  line : Nat
deriving DecidableEq, Repr

/-- A place in a token stream: the tokens that follow, and the span and line of the token before
them. -/
structure Cursor where
  lastSpan : Span
  lastLine : Nat
  rest : List Lexeme
deriving DecidableEq, Repr

namespace Cursor

/-- The number of tokens that follow. -/
def size (c : Cursor) : Nat := c.rest.length

/-- The start of the token stream of a source text. -/
def start (source : String) (tokens : List SpannedToken) : Cursor :=
  let starts := lineStarts source
  { lastSpan := ⟨0, 0⟩
    lastLine := 1
    rest := tokens.map fun t => ⟨t.token, t.span, lineAt starts t.span.start⟩ }

/-- The next token. -/
def token? (c : Cursor) : Option Token := c.rest.head?.map (·.token)

/-- The span of the next token, or of the last one at the end. -/
def span (c : Cursor) : Span := (c.rest.head?.map (·.span)).getD c.lastSpan

/-- The line of the next token, or of the last one at the end. -/
def line (c : Cursor) : Nat := (c.rest.head?.map (·.line)).getD c.lastLine

/-- The next token as shown in messages. -/
def found (c : Cursor) : String := (c.token?.map Token.display).getD "end of file"

/-- The next token among `n` that follow, with the place after it. -/
inductive View (n : Nat) where
  | done
  | next (x : Lexeme) (after : Cursor) (size_after : after.size + 1 = n)

/-- Looks at the next token. -/
def view (c : Cursor) : View c.size :=
  match h : c.rest with
  | [] => .done
  | x :: rest => .next x ⟨x.span, x.line, rest⟩ (by simp [size, h])

end Cursor

/-- The answer of a parser with `n` tokens before it: a value with the place after it, at least `k`
tokens further on, or an error with the place where it was met. -/
inductive Reply (n k : Nat) (α : Type) where
  | ok (value : α) (after : Cursor) (size_after : after.size + k ≤ n := by omega)
  | error (e : SyntaxError) (at_ : Cursor) (size_at : at_.size ≤ n := by omega)

namespace Reply

variable {α β : Type} {m n j k : Nat}

/-- Reads on after a success. -/
def andThen (r : Reply m k α)
    (f : (value : α) → (after : Cursor) → after.size + k ≤ m → Reply n j β)
    (h : m ≤ n := by omega) : Reply n j β :=
  match r with
  | ok value after size_after => f value after size_after
  | error e at_ size_at => .error e at_ (Nat.le_trans size_at h)

/-- The same reply, as that of a parser with more tokens before it. -/
def relax (r : Reply m k α) (h : m ≤ n := by omega) (h' : m + j ≤ n + k := by omega) :
    Reply n j α :=
  match r with
  | ok value after _ => .ok value after
  | error e at_ _ => .error e at_

/-- The value or the error of a reply. -/
def result : Reply n k α → Except SyntaxError α
  | ok value _ _ => .ok value
  | error e _ _ => .error e

/-- The place where a reply ends. -/
def stop : Reply n k α → Cursor
  | ok _ after _ => after
  | error _ at_ _ => at_

end Reply

namespace Cursor

/-- An error at the next token. -/
def fail {α : Type} {n k : Nat} (c : Cursor) (code : ErrorCode) (message : String)
    (h : c.size ≤ n := by omega) : Reply n k α :=
  .error { code, message, span := c.span } c h

/-- Reads a given token that carries no text. -/
def expect (t : Token) (message : String) (c : Cursor) : Reply c.size 1 Unit :=
  match c.view with
  | .next x after _ =>
    if x.token = t then .ok () after
    else c.fail .unexpectedToken (message ++ ", found " ++ c.found)
  | .done => c.fail .unexpectedEndOfFile (message ++ ", found " ++ c.found)

/-- Reads a string. -/
def expectString (message : String) (c : Cursor) : Reply c.size 1 String :=
  match c.view with
  | .next ⟨.string text, _, _⟩ after _ => .ok text after
  | .next _ _ _ => c.fail .unexpectedToken (message ++ ", found " ++ c.found)
  | .done => c.fail .unexpectedEndOfFile (message ++ ", found " ++ c.found)

/-- Reads a name, which the error message calls `what`. -/
def expectIdent (what : String) (c : Cursor) : Reply c.size 1 Ident :=
  match c.view with
  | .next ⟨.ident name, _, line⟩ after _ => .ok ⟨name, line⟩ after
  | _ => c.fail .expectedIdentifier ("Expected " ++ what)

/-- Reads as many tokens as satisfy a test. -/
def skipWhile (p : Token → Bool) (c : Cursor) : Reply c.size 0 Unit :=
  match c.view with
  | .next x after _ =>
    if p x.token then (skipWhile p after).relax else .ok () c
  | .done => .ok () c
termination_by c.size

/-- Reads newlines. -/
def skipNewlines (c : Cursor) : Reply c.size 0 Unit :=
  c.skipWhile (· == .newline)

/-- Reads what stands between statements and declarations: newlines and semicolons. -/
def skipSeparators (c : Cursor) : Reply c.size 0 Unit :=
  c.skipWhile fun t => t == .newline || t == .punct .semicolon

/-- Whether a statement can end here. -/
def atTerminator (c : Cursor) : Bool :=
  match c.token? with
  | none | some .newline | some (.punct .semicolon) | some (.punct .rightBrace)
  | some (.punct .rightParen) => true
  | some _ => false

/-- Reads the end of a statement. A closing brace or parenthesis ends it too, and is left in
place. -/
def expectTerminator (c : Cursor) : Reply c.size 0 Unit :=
  match c.view with
  | .done => .ok () c
  | .next x after _ =>
    match x.token with
    | .punct .rightBrace | .punct .rightParen => .ok () c
    | .newline | .punct .semicolon => .ok () after
    | t => c.fail .expectedNewline ("Expected end of statement, found " ++ t.display)

end Cursor

/-!
## Expressions

Binary expressions are read by climbing precedences: `Expr.parseBinary min` reads an operand and
then operators that bind at least as tightly as `min`, each with a right operand whose operators
bind more tightly. Newlines may follow an operator, a comma or an opening bracket.
-/

/-- Reads the sign of an operand, if there is one. -/
def Sign.parse? (c : Cursor) : Reply c.size 0 (Option Sign) :=
  match c.view with
  | .next ⟨.op .sub, _, _⟩ after _ => .ok (some .minus) after
  | .next ⟨.op .add, _, _⟩ after _ => .ok (some .plus) after
  | _ => .ok none c

mutual

/-- Reads an expression whose operators bind at least as tightly as `min`. -/
def Expr.parseBinary (min : Nat) (c : Cursor) : Reply c.size 1 Expr :=
  (Expr.parseUnary c).andThen fun left c1 _ =>
  (Expr.parseOperators min left c1).relax
termination_by 4 * c.size + 2

/-- Reads the operators that follow a left operand, with their right operands. -/
def Expr.parseOperators (min : Nat) (left : Expr) (c : Cursor) : Reply c.size 0 Expr :=
  match c.view with
  | .next ⟨.op op, _, line⟩ c1 _ =>
    if op.precedence < min then .ok left c
    else
      c1.skipNewlines.andThen fun _ c2 _ =>
      (Expr.parseBinary (op.precedence + 1) c2).andThen fun right c3 _ =>
      (Expr.parseOperators min (.binary op line left right) c3).relax
  | _ => .ok left c
termination_by 4 * c.size

/-- Reads an operand with an optional sign. -/
def Expr.parseUnary (c : Cursor) : Reply c.size 1 Expr :=
  (Sign.parse? c).andThen fun sign c1 _ =>
  (Primary.parse c1).andThen fun primary c2 _ =>
  .ok (.operand sign primary c.line) c2
termination_by 4 * c.size + 1

/-- Reads an operand without a sign. -/
def Primary.parse (c : Cursor) : Reply c.size 1 Primary :=
  match c.view with
  | .done => c.fail .unexpectedEndOfFile "Expected expression, found end of file"
  | .next x c1 _ =>
    match x.token with
    | .integer text => .ok (.literal ⟨.int, text, x.line⟩) c1
    | .decimal text => .ok (.literal ⟨.float, text, x.line⟩) c1
    | .string text => .ok (.literal ⟨.string, text, x.line⟩) c1
    | .keyword .true_ => .ok (.literal ⟨.bool, "true", x.line⟩) c1
    | .keyword .false_ => .ok (.literal ⟨.bool, "false", x.line⟩) c1
    | .ident name =>
      match c1.view with
      | .next ⟨.punct .leftParen, _, _⟩ c2 _ =>
        (Expr.parseArguments c2).andThen fun args c3 _ =>
        .ok (.call ⟨name, x.line⟩ args) c3
      | .next ⟨.punct .leftBracket, _, _⟩ c2 _ =>
        c2.skipNewlines.andThen fun _ c3 _ =>
        (Expr.parseBinary 1 c3).andThen fun index c4 _ =>
        c4.skipNewlines.andThen fun _ c5 _ =>
        (c5.expect (.punct .rightBracket) "Expected ']' after index").andThen fun _ c6 _ =>
        .ok (.index ⟨name, x.line⟩ index) c6
      | _ => .ok (.name ⟨name, x.line⟩) c1
    | .punct .leftParen =>
      c1.skipNewlines.andThen fun _ c2 _ =>
      (Expr.parseBinary 1 c2).andThen fun inner c3 _ =>
      c3.skipNewlines.andThen fun _ c4 _ =>
      (c4.expect (.punct .rightParen) "Expected ')' after expression").andThen fun _ c5 _ =>
      .ok (.paren inner) c5
    | t => c.fail .expectedExpression ("Expected expression, found " ++ t.display)
termination_by 4 * c.size

/-- Reads the arguments of a call after the opening parenthesis. -/
def Expr.parseArguments (c : Cursor) : Reply c.size 1 (List Expr) :=
  c.skipNewlines.andThen fun _ c1 _ =>
  match c1.view with
  | .next ⟨.punct .rightParen, _, _⟩ c2 _ => .ok [] c2
  | _ => (Expr.parseArgumentList c1).relax
termination_by 4 * c.size + 4

/-- Reads one or more arguments and the closing parenthesis. -/
def Expr.parseArgumentList (c : Cursor) : Reply c.size 1 (List Expr) :=
  (Expr.parseBinary 1 c).andThen fun arg c1 _ =>
  c1.skipNewlines.andThen fun _ c2 _ =>
  match c2.view with
  | .next ⟨.punct .comma, _, _⟩ c3 _ =>
    c3.skipNewlines.andThen fun _ c4 _ =>
    (Expr.parseArgumentList c4).andThen fun args c5 _ =>
    .ok (arg :: args) c5
  | _ =>
    (c2.expect (.punct .rightParen) "Expected ')' after arguments").andThen fun _ c3 _ =>
    .ok [arg] c3
termination_by 4 * c.size + 3

end

namespace Expr

/-- Reads an expression. -/
def parse (c : Cursor) : Reply c.size 1 Expr := parseBinary 1 c

/-- Reads a comma and an expression, as often as there is a comma. -/
def parseMore (c : Cursor) : Reply c.size 0 (List Expr) :=
  match c.view with
  | .next ⟨.punct .comma, _, _⟩ c1 _ =>
    c1.skipNewlines.andThen fun _ c2 _ =>
    (parse c2).andThen fun e c3 _ =>
    (parseMore c3).andThen fun es c4 _ =>
    .ok (e :: es) c4
  | _ => .ok [] c
termination_by c.size

/-- Reads one or more expressions with commas between them. -/
def parseList (c : Cursor) : Reply c.size 1 (List Expr) :=
  (parse c).andThen fun e c1 _ =>
  (parseMore c1).andThen fun es c2 _ =>
  .ok (e :: es) c2

end Expr

/-! ## Types, variable declarations and function signatures -/

/-! ### Names -/

/-- Reads a comma and a name, as often as there is a comma. -/
def Ident.parseMore (what : String) (c : Cursor) : Reply c.size 0 (List Ident) :=
  match c.view with
  | .next ⟨.punct .comma, _, _⟩ c1 _ =>
    (c1.expectIdent what).andThen fun id c2 _ =>
    (Ident.parseMore what c2).andThen fun ids c3 _ =>
    .ok (id :: ids) c3
  | _ => .ok [] c
termination_by c.size

/-- Reads one or more names with commas between them. -/
def Ident.parseList (what : String) (c : Cursor) : Reply c.size 1 (List Ident) :=
  (c.expectIdent what).andThen fun id c1 _ =>
  (Ident.parseMore what c1).andThen fun ids c2 _ =>
  .ok (id :: ids) c2

/-! ### Types -/

/-- Reads the name of a type. -/
def TypeSpec.parseName (c : Cursor) : Reply c.size 1 Ident :=
  match c.token? with
  | some (.ident _) => c.expectIdent "type name"
  | _ => c.fail .expectedType ("Expected type, found " ++ c.found)

/-- Reads a type. -/
def TypeSpec.parse (c : Cursor) : Reply c.size 1 TypeSpec :=
  match c.view with
  | .next ⟨.punct .leftBracket, _, line⟩ c1 _ =>
    (Expr.parse c1).andThen fun length c2 _ =>
    (c2.expect (.punct .rightBracket) "Expected ']' after array length").andThen fun _ c3 _ =>
    (TypeSpec.parseName c3).andThen fun element c4 _ =>
    .ok (.array length element line) c4
  | _ =>
    (TypeSpec.parseName c).andThen fun id c1 _ =>
    .ok (.named id) c1

/-- Reads one or more type names with commas between them. -/
def TypeSpec.parseNames (c : Cursor) : Reply c.size 1 (List Ident) :=
  (TypeSpec.parseName c).andThen fun id c1 _ =>
  match c1.view with
  | .next ⟨.punct .comma, _, _⟩ c2 _ =>
    (TypeSpec.parseNames c2).andThen fun ids c3 _ =>
    .ok (id :: ids) c3
  | _ => .ok [id] c1
termination_by c.size

/-- Reads the result types of a function: none, one, or a list in parentheses. -/
def TypeSpec.parseResults (c : Cursor) : Reply c.size 0 (List Ident) :=
  match c.view with
  | .next ⟨.punct .leftParen, _, _⟩ c1 _ =>
    match c1.view with
    | .next ⟨.punct .rightParen, _, _⟩ c2 _ => .ok [] c2
    | _ =>
      (TypeSpec.parseNames c1).andThen fun ids c2 _ =>
      (c2.expect (.punct .rightParen) "Expected ')' after result types").andThen fun _ c3 _ =>
      .ok ids c3
  | .next ⟨.ident _, _, _⟩ _ _ =>
    (TypeSpec.parseName c).andThen fun id c1 _ =>
    .ok [id] c1
  | _ => .ok [] c

/-! ### Variables -/

/-- Reads the type of a specification, which is left out in front of an assignment mark. -/
def VarSpec.parseType? (c : Cursor) : Reply c.size 0 (Option TypeSpec) :=
  match c.token? with
  | some (.punct .assign) => .ok none c
  | _ => (TypeSpec.parse c).andThen fun type c1 _ => .ok (some type) c1

/-- Reads the initial values of a specification, if there is an assignment mark. -/
def VarSpec.parseValues (c : Cursor) : Reply c.size 0 (List Expr) :=
  match c.view with
  | .next ⟨.punct .assign, _, _⟩ c1 _ =>
    c1.skipNewlines.andThen fun _ c2 _ => (Expr.parseList c2).relax
  | _ => .ok [] c

/-- Reads names with a type, initial values, or both. -/
def VarSpec.parse (c : Cursor) : Reply c.size 1 VarSpec :=
  (Ident.parseList "variable name" c).andThen fun names c1 _ =>
  (VarSpec.parseType? c1).andThen fun type? c2 _ =>
  (VarSpec.parseValues c2).andThen fun values c3 _ =>
  .ok { names, type?, values, line := c.line } c3

/-- Reads the specifications of a group up to its closing parenthesis. -/
def VarSpec.parseGroup (c : Cursor) : Reply c.size 0 (List VarSpec) :=
  match c.token? with
  | none | some (.punct .rightParen) => .ok [] c
  | _ =>
    (VarSpec.parse c).andThen fun spec c1 _ =>
    c1.expectTerminator.andThen fun _ c2 _ =>
    c2.skipSeparators.andThen fun _ c3 _ =>
    (VarSpec.parseGroup c3).andThen fun specs c4 _ =>
    .ok (spec :: specs) c4
termination_by c.size

/-- Reads a variable declaration. -/
def VarDecl.parse (c : Cursor) : Reply c.size 1 VarDecl :=
  (c.expect (.keyword .var) "Expected 'var'").andThen fun _ c1 _ =>
  match c1.view with
  | .next ⟨.punct .leftParen, _, _⟩ c2 _ =>
    c2.skipSeparators.andThen fun _ c3 _ =>
    (VarSpec.parseGroup c3).andThen fun specs c4 _ =>
    (c4.expect (.punct .rightParen) "Expected ')' to close var group").andThen fun _ c5 _ =>
    .ok ⟨specs, c.line⟩ c5
  | _ =>
    (VarSpec.parse c1).andThen fun spec c2 _ =>
    .ok ⟨[spec], c.line⟩ c2

/-! ### Parameters -/

/-- Reads parameters that share a type. -/
def ParamGroup.parse (c : Cursor) : Reply c.size 1 ParamGroup :=
  (Ident.parseList "parameter name" c).andThen fun names c1 _ =>
  (TypeSpec.parseName c1).andThen fun type c2 _ =>
  .ok ⟨names, type⟩ c2

/-- Reads groups of parameters with commas between them, up to the closing parenthesis. -/
def ParamGroup.parseGroups (c : Cursor) : Reply c.size 0 (List ParamGroup) :=
  match c.token? with
  | some (.punct .rightParen) => .ok [] c
  | _ =>
    (ParamGroup.parse c).andThen fun group c1 _ =>
    c1.skipNewlines.andThen fun _ c2 _ =>
    match c2.view with
    | .next ⟨.punct .comma, _, _⟩ c3 _ =>
      c3.skipNewlines.andThen fun _ c4 _ =>
      (ParamGroup.parseGroups c4).andThen fun groups c5 _ =>
      .ok (group :: groups) c5
    | _ => .ok [group] c2
termination_by c.size

/-- Reads the parameters of a function signature. -/
def ParamGroup.parseList (c : Cursor) : Reply c.size 0 (List ParamGroup) :=
  c.skipNewlines.andThen fun _ c1 _ => (ParamGroup.parseGroups c1).relax

/-!
## Statements and blocks

A statement begins with a keyword or a brace, or is a simple statement: a short declaration, an
assignment or a call, told apart by what follows the first list of expressions.
-/

/-- Reads the values of a short declaration or an assignment. -/
def Stmt.parseValues (c : Cursor) : Reply c.size 1 (List Expr) :=
  c.skipNewlines.andThen fun _ c1 _ => (Expr.parseList c1).relax

/-- Reads a short declaration, an assignment or a call. -/
def Stmt.parseSimple (c : Cursor) : Reply c.size 1 Stmt :=
  (Expr.parseList c).andThen fun left c1 _ =>
  match c1.view with
  | .next ⟨.punct .define, _, _⟩ c2 _ =>
    match left.mapM Expr.name? with
    | some names =>
      (Stmt.parseValues c2).andThen fun values c3 _ =>
      .ok (.define names values c.line) c3
    | none =>
      c2.fail .invalidAssignmentTarget "Only names can be declared with ':='"
  | .next ⟨.punct .assign, _, _⟩ c2 _ =>
    match left.mapM Expr.target? with
    | some targets =>
      (Stmt.parseValues c2).andThen fun values c3 _ =>
      .ok (.assign targets values c.line) c3
    | none =>
      c2.fail .invalidAssignmentTarget "Only variables and array elements can be assigned to"
  | _ =>
    match left with
    | [e] =>
      match e.call? with
      | some (callee, args) => .ok (.call callee args c.line) c1
      | none =>
        .error
          { code := .invalidExpressionStatement
            message := "Expression is not a statement"
            span := c.span
            hint := some "only calls, assignments and declarations can stand alone" } c1
    | _ =>
      c1.fail .unexpectedToken "Expected '=' or ':=' after expression list"

/-- Reads a return statement. -/
def Stmt.parseReturn (c : Cursor) : Reply c.size 1 Stmt :=
  (c.expect (.keyword .return_) "Expected 'return'").andThen fun _ c1 _ =>
  if c1.atTerminator then .ok (.ret [] c.line) c1
  else
    (Expr.parseList c1).andThen fun values c2 _ =>
    .ok (.ret values c.line) c2

mutual

/-- Reads a statement. -/
def Stmt.parse (c : Cursor) : Reply c.size 1 Stmt :=
  match c.token? with
  | some (.keyword .var) => (VarDecl.parse c).andThen fun decl c1 _ => .ok (.var decl) c1
  | some (.keyword .if_) => (IfStmt.parse c).andThen fun stmt c1 _ => .ok (.cond stmt) c1
  | some (.keyword .for_) => Stmt.parseLoop c
  | some (.keyword .return_) => Stmt.parseReturn c
  | some (.punct .leftBrace) => (Block.parse c).andThen fun body c1 _ => .ok (.block body) c1
  | _ => Stmt.parseSimple c
termination_by 3 * c.size + 1

/-- Reads a block of statements. -/
def Block.parse (c : Cursor) : Reply c.size 1 Block :=
  (c.expect (.punct .leftBrace) "Expected '\x7b'").andThen fun _ c1 _ =>
  c1.skipSeparators.andThen fun _ c2 _ =>
  (Block.parseStatements c2).andThen fun statements c3 _ =>
  (c3.expect (.punct .rightBrace) "Expected '\x7d' to close block").andThen fun _ c4 _ =>
  .ok (.mk statements c.line c3.line) c4
termination_by 3 * c.size

/-- Reads statements up to a closing brace or the end. -/
def Block.parseStatements (c : Cursor) : Reply c.size 0 (List Stmt) :=
  match c.token? with
  | none | some (.punct .rightBrace) => .ok [] c
  | _ =>
    (Stmt.parse c).andThen fun stmt c1 _ =>
    c1.expectTerminator.andThen fun _ c2 _ =>
    c2.skipSeparators.andThen fun _ c3 _ =>
    (Block.parseStatements c3).andThen fun stmts c4 _ =>
    .ok (stmt :: stmts) c4
termination_by 3 * c.size + 2

/-- Reads a conditional statement with all its branches. -/
def IfStmt.parse (c : Cursor) : Reply c.size 1 IfStmt :=
  (c.expect (.keyword .if_) "Expected 'if'").andThen fun _ c1 _ =>
  (Expr.parse c1).andThen fun condition c2 _ =>
  (Block.parse c2).andThen fun body c3 _ =>
  (ElseBranch.parse c3).andThen fun otherwise c4 _ =>
  .ok (.mk condition body otherwise c.line) c4
termination_by 3 * c.size

/-- Reads the else branch of a conditional statement, if there is one. -/
def ElseBranch.parse (c : Cursor) : Reply c.size 0 ElseBranch :=
  match c.view with
  | .next ⟨.keyword .else_, _, _⟩ c1 _ =>
    match c1.token? with
    | some (.keyword .if_) => (IfStmt.parse c1).andThen fun stmt c2 _ => .ok (.elseIf stmt) c2
    | some (.punct .leftBrace) => (Block.parse c1).andThen fun body c2 _ => .ok (.block body) c2
    | _ =>
      c1.fail .unexpectedToken "Expected 'if' or '\x7b' after 'else'"
  | _ => .ok .absent c
termination_by 3 * c.size

/-- Reads a loop. -/
def Stmt.parseLoop (c : Cursor) : Reply c.size 1 Stmt :=
  (c.expect (.keyword .for_) "Expected 'for'").andThen fun _ c1 _ =>
  (Expr.parse c1).andThen fun condition c2 _ =>
  (Block.parse c2).andThen fun body c3 _ =>
  .ok (.loop condition body c.line) c3
termination_by 3 * c.size

end

/-!
## Source files

A file is an optional package name, import clauses, which are skipped, and declarations.
-/

/-- Reads a function declaration. -/
def FuncDecl.parse (c : Cursor) : Reply c.size 1 FuncDecl :=
  (c.expect (.keyword .func) "Expected 'func'").andThen fun _ c1 _ =>
  (c1.expectIdent "function name").andThen fun name c2 _ =>
  (c2.expect (.punct .leftParen) "Expected '(' after function name").andThen fun _ c3 _ =>
  (ParamGroup.parseList c3).andThen fun params c4 _ =>
  (c4.expect (.punct .rightParen) "Expected ')' after parameters").andThen fun _ c5 _ =>
  (TypeSpec.parseResults c5).andThen fun results c6 _ =>
  (Block.parse c6).andThen fun body c7 _ =>
  .ok { name, params, results, body, line := c.line } c7

/-- Reads a declaration outside of functions. -/
def Decl.parse (c : Cursor) : Reply c.size 1 Decl :=
  match c.token? with
  | some (.keyword .var) => (VarDecl.parse c).andThen fun decl c1 _ => .ok (.var decl) c1
  | some (.keyword .func) => (FuncDecl.parse c).andThen fun decl c1 _ => .ok (.func decl) c1
  | some t =>
    c.fail .expectedStatement ("Expected 'var' or 'func' at top level, found " ++ t.display)
  | none => c.fail .unexpectedEndOfFile "Unexpected end of file"

namespace File

/-- Reads the paths of a group of imports. -/
def skipPaths (c : Cursor) : Reply c.size 0 Unit :=
  match c.view with
  | .next ⟨.string _, _, _⟩ c1 _ =>
    c1.skipSeparators.andThen fun _ c2 _ => (skipPaths c2).relax
  | _ => .ok () c
termination_by c.size

/-- Reads one path, or a group of paths in parentheses. -/
def skipPathSpec (c : Cursor) : Reply c.size 1 Unit :=
  match c.view with
  | .next ⟨.punct .leftParen, _, _⟩ c1 _ =>
    c1.skipSeparators.andThen fun _ c2 _ =>
    (skipPaths c2).andThen fun _ c3 _ =>
    (c3.expect (.punct .rightParen) "Expected ')' after imports").relax
  | _ =>
    (c.expectString "Expected import path").andThen fun _ c1 _ => .ok () c1

/-- Reads import clauses. -/
def skipImports (c : Cursor) : Reply c.size 0 Unit :=
  match c.view with
  | .next ⟨.keyword .import_, _, _⟩ c1 _ =>
    (skipPathSpec c1).andThen fun _ c2 _ =>
    c2.expectTerminator.andThen fun _ c3 _ =>
    c3.skipSeparators.andThen fun _ c4 _ =>
    (skipImports c4).relax
  | _ => .ok () c
termination_by c.size

/-- Reads the package name, if the file states one. -/
def parsePackage? (c : Cursor) : Reply c.size 0 (Option Ident) :=
  match c.view with
  | .next ⟨.keyword .package, _, _⟩ c1 _ =>
    (c1.expectIdent "package name").andThen fun name c2 _ =>
    c2.expectTerminator.andThen fun _ c3 _ =>
    .ok (some name) c3
  | _ => .ok none c

/-- Reads declarations up to the end. -/
def parseDecls (c : Cursor) : Reply c.size 0 (List Decl) :=
  c.skipSeparators.andThen fun _ c1 _ =>
  match c1.token? with
  | none => .ok [] c1
  | some _ =>
    (Decl.parse c1).andThen fun decl c2 _ =>
    c2.expectTerminator.andThen fun _ c3 _ =>
    (parseDecls c3).andThen fun decls c4 _ =>
    .ok (decl :: decls) c4
termination_by c.size

/-- Reads a source file from its tokens. -/
def parseTokens (c : Cursor) : Reply c.size 0 File :=
  c.skipSeparators.andThen fun _ c1 _ =>
  (parsePackage? c1).andThen fun package? c2 _ =>
  c2.skipSeparators.andThen fun _ c3 _ =>
  (skipImports c3).andThen fun _ c4 _ =>
  (parseDecls c4).andThen fun decls c5 _ =>
  .ok { package?, decls } c5

/-- The syntax tree of a source text. -/
def parse (source : String) : Except SyntaxError File :=
  (tokenize source).bind fun tokens => (parseTokens (Cursor.start source tokens)).result

end File

end MiniGo
