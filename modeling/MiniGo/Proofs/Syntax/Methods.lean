import MiniGo.Grammar

/-!
# The parser without bounds

The parsers of a `Cursor` say in their types how many tokens they leave behind, and it is only this
that makes them terminate. Here they are methods that share a place in the token stream. A method
moves the place on and ends with a value or with an error. It calls other methods and itself with no
bound on what is left of the stream, and a loop takes one turn after the other as long as its turns
say so. What a call does is left open in the text of a method. It is settled by how deep calls may
be nested, and a run that needs a deeper call has no result. So a method that ends does so at some
depth, and one that runs forever has no result at any depth.

* `Reading.Method`, `Reading.Loop`: the methods of the parser, and its loops.
* `Reading`, `Reading.call`: the text of a method, and a call.
* `Reading.advance`, `Reading.expect`, `Reading.binary`, `Reading.varSpec`, `Reading.statement`,
  `Reading.file` and others: the methods.
* `Reading.Method.body`, `Reading.Method.within`: the text of each method, and its run with calls of
  a given depth.
-/

namespace MiniGo

/-! ### Methods and loops -/

namespace Reading

/-- The loops of the parser, each with what it is begun with. -/
inductive Loop where
  | skip (p : Token → Bool)
  | operators (min : Nat) (left : Expr)
  | arguments
  | values
  | names (what : String)
  | types
  | specs
  | params
  | statements
  | paths
  | imports
  | decls

/-- What a loop goes on with behind a turn. -/
abbrev Loop.Item : Loop → Type
  | skip _ | paths | imports => Unit
  | operators _ _ | arguments | values => Expr
  | names _ | types => Ident
  | specs => VarSpec
  | params => ParamGroup
  | statements => Stmt
  | decls => Decl

abbrev Loop.Result : Loop → Type
  | skip _ | paths | imports => Unit
  | operators _ _ => Expr
  | arguments | values => List Expr
  | names _ | types => List Ident
  | specs => List VarSpec
  | params => List ParamGroup
  | statements => List Stmt
  | decls => List Decl

/-- The methods of the parser that read on, each with what it is called with. -/
inductive Method where
  | loop (l : Loop)
  | advance
  | take? (t : Token)
  | expect (t : Token) (message : String)
  | expectString (message : String)
  | expectIdent (what : String)
  | skipNewlines
  | skipSeparators
  | expectTerminator
  | expression
  | binary (min : Nat)
  | unary
  | primary
  | arguments
  | expressionList
  | typeName
  | type
  | resultTypes
  | varSpec
  | varDecl
  | paramGroups
  | simple
  | returnStmt
  | statement
  | block
  | ifStmt
  | forStmt
  | funcDecl
  | decl
  | skipImports
  | file

abbrev Method.Result : Method → Type
  | loop l => l.Result
  | advance | expect _ _ | skipNewlines | skipSeparators | expectTerminator | skipImports => Unit
  | take? _ => Bool
  | expectString _ => String
  | expectIdent _ | typeName => Ident
  | expression | binary _ | unary => Expr
  | primary => Primary
  | arguments | expressionList => List Expr
  | type => TypeSpec
  | resultTypes => List Ident
  | varSpec => VarSpec
  | varDecl => VarDecl
  | paramGroups => List ParamGroup
  | simple | returnStmt | statement | forStmt => Stmt
  | block => Block
  | ifStmt => IfStmt
  | funcDecl => FuncDecl
  | decl => Decl
  | file => File

/-- A run of the parser: it moves on in the token stream, and it may fail. There is none if calls
are nested too deep. -/
abbrev Run (α : Type) : Type := ExceptT SyntaxError (StateT Cursor Option) α

/-- What the calls of methods do. -/
abbrev Calls : Type := (m : Method) → Run m.Result

end Reading

/-- The text of a method, which depends on what the calls in it do. -/
abbrev Reading (α : Type) : Type := ReaderT Reading.Calls Reading.Run α

/-- What one turn of a loop says: the loop stops, with what is left for its result, or it goes on
with an item. -/
inductive Turn (α β : Type) where
  | stop (result : β)
  | again (item : α)

/-- The place behind the next token, or the same place at the end. -/
def Cursor.advanced (c : Cursor) : Cursor :=
  match c.rest with
  | [] => c
  | x :: rest => ⟨x.span, x.line, rest⟩

namespace Reading

variable {α β : Type}

def call (m : Method) : Reading m.Result := fun calls => calls m

/-- Begins a loop. -/
def Loop.begin (l : Loop) : Reading l.Result := call (.loop l)

/-! ### The smallest methods -/

/-- Looks at the next token. -/
def token? : Reading (Option Token) := return (← get).token?

/-- The line of the next token, or of the last one at the end. -/
def line : Reading Nat := return (← get).line

/-- The next token as shown in messages. -/
def found : Reading String := return (← get).found

/-- Fails with an error. -/
def raise (e : SyntaxError) : Reading α := throw e

/-- Fails at the next token. -/
def fail (code : ErrorCode) (message : String) : Reading α := do
  raise { code, message, span := (← get).span }

/-- Reads the next token, if there is one. -/
def advance : Reading Unit := modify Cursor.advanced

/-- Whether the next token is a given one. -/
def check (t : Token) : Reading Bool := return (← token?) = some t

/-- Reads the next token if it is a given one. -/
def take? (t : Token) : Reading Bool := do
  if ← check t then
    advance
    return true
  return false

/-- Reads a given token that carries no text. -/
def expect (t : Token) (message : String) : Reading Unit := do
  if ← take? t then return
  let found ← found
  match ← token? with
  | some _ => fail .unexpectedToken (message ++ ", found " ++ found)
  | none => fail .unexpectedEndOfFile (message ++ ", found " ++ found)

/-- Reads a string. -/
def expectString (message : String) : Reading String := do
  let found ← found
  match ← token? with
  | some (.string text) =>
    advance
    return text
  | some _ => fail .unexpectedToken (message ++ ", found " ++ found)
  | none => fail .unexpectedEndOfFile (message ++ ", found " ++ found)

/-- Reads a name. -/
def expectIdent (what : String) : Reading Ident := do
  let line ← line
  match ← token? with
  | some (.ident name) =>
    advance
    return ⟨name, line⟩
  | _ => fail .expectedIdentifier ("Expected " ++ what)

/-- One token that satisfies a test. -/
def skipTurn (p : Token → Bool) : Reading (Turn Unit Unit) := do
  match ← token? with
  | some t =>
    if p t then
      advance
      return .again ()
    return .stop ()
  | none => return .stop ()

def skipNewlines : Reading Unit := (Loop.skip (· == .newline)).begin

def skipSeparators : Reading Unit :=
  (Loop.skip fun t => t == .newline || t == .punct .semicolon).begin

/-- Reads the end of a statement, but leaves a closing brace or parenthesis in place. -/
def expectTerminator : Reading Unit := do
  match ← token? with
  | none | some (.punct .rightBrace) | some (.punct .rightParen) => return
  | some .newline | some (.punct .semicolon) => advance
  | some t => fail .expectedNewline ("Expected end of statement, found " ++ t.display)

/-! ### Expressions -/

/-- The sign of an operand, if there is one. -/
def sign? : Reading (Option Sign) := do
  if ← take? (.op .sub) then return some .minus
  if ← take? (.op .add) then return some .plus
  return none

/-- One operator with its right operand, behind a left operand. -/
def operatorTurn (min : Nat) (left : Expr) : Reading (Turn Expr Expr) := do
  match ← token? with
  | some (.op op) =>
    if op.precedence < min then return .stop left
    let line ← line
    advance
    skipNewlines
    let right : Expr ← call (.binary (op.precedence + 1))
    return .again (.binary op line left right)
  | _ => return .stop left

/-- The arguments of a call behind the opening parenthesis. -/
def arguments : Reading (List Expr) := do
  skipNewlines
  if ← check (.punct .rightParen) then
    expect (.punct .rightParen) "Expected ')' after arguments"
    return []
  Loop.arguments.begin

/-- An operand without a sign. -/
def primary : Reading Primary := do
  let line ← line
  match ← token? with
  | some (.integer text) => do advance; return .literal ⟨.int, text, line⟩
  | some (.decimal text) => do advance; return .literal ⟨.float, text, line⟩
  | some (.string text) => do advance; return .literal ⟨.string, text, line⟩
  | some (.keyword .true_) => do advance; return .literal ⟨.bool, "true", line⟩
  | some (.keyword .false_) => do advance; return .literal ⟨.bool, "false", line⟩
  | some (.ident name) =>
    advance
    if ← take? (.punct .leftParen) then
      let args ← arguments
      return .call ⟨name, line⟩ args
    if ← take? (.punct .leftBracket) then
      skipNewlines
      let index : Expr ← call .expression
      skipNewlines
      expect (.punct .rightBracket) "Expected ']' after index"
      return .index ⟨name, line⟩ index
    return .name ⟨name, line⟩
  | some (.punct .leftParen) =>
    advance
    skipNewlines
    let inner : Expr ← call .expression
    skipNewlines
    expect (.punct .rightParen) "Expected ')' after expression"
    return .paren inner
  | some t => fail .expectedExpression ("Expected expression, found " ++ t.display)
  | none => fail .unexpectedEndOfFile "Expected expression, found end of file"

/-- An operand with an optional sign. -/
def unary : Reading Expr := do
  let line ← line
  let sign ← sign?
  let primary ← primary
  return .operand sign primary line

/-- A binary operation whose operators bind at least as tightly as `min`. -/
def binary (min : Nat) : Reading Expr := do
  let left ← unary
  (Loop.operators min left).begin

def expression : Reading Expr := binary 1

/-- One argument. The loop goes on behind a comma, and it stops behind the closing parenthesis. -/
def argumentTurn : Reading (Turn Expr (List Expr)) := do
  let arg ← expression
  skipNewlines
  if ← take? (.punct .comma) then
    skipNewlines
    return .again arg
  expect (.punct .rightParen) "Expected ')' after arguments"
  return .stop [arg]

/-- One expression behind a comma. -/
def valueTurn : Reading (Turn Expr (List Expr)) := do
  if ← take? (.punct .comma) then
    skipNewlines
    let e ← expression
    return .again e
  return .stop []

/-- One or more expressions with commas between them. -/
def expressionList : Reading (List Expr) := do
  let e ← expression
  let es ← Loop.values.begin
  return e :: es

/-! ### Types, variable declarations and function signatures -/

/-- One name behind a comma. -/
def nameTurn (what : String) : Reading (Turn Ident (List Ident)) := do
  if ← take? (.punct .comma) then
    let id ← expectIdent what
    return .again id
  return .stop []

/-- One or more names with commas between them. -/
def names (what : String) : Reading (List Ident) := do
  let id ← expectIdent what
  let ids ← (Loop.names what).begin
  return id :: ids

def typeName : Reading Ident := do
  let found ← found
  match ← token? with
  | some (.ident _) => expectIdent "type name"
  | _ => fail .expectedType ("Expected type, found " ++ found)

def type : Reading TypeSpec := do
  let line ← line
  if ← take? (.punct .leftBracket) then
    let length ← expression
    expect (.punct .rightBracket) "Expected ']' after array length"
    let element ← typeName
    return .array length element line
  let id ← typeName
  return .named id

/-- One type name. The loop goes on behind a comma. -/
def typeTurn : Reading (Turn Ident (List Ident)) := do
  let id ← typeName
  if ← take? (.punct .comma) then return .again id
  return .stop [id]

/-- The result types of a function: none, one, or a list in parentheses. -/
def resultTypes : Reading (List Ident) := do
  if ← take? (.punct .leftParen) then
    if ← check (.punct .rightParen) then
      expect (.punct .rightParen) "Expected ')' after result types"
      return []
    let ids ← Loop.types.begin
    expect (.punct .rightParen) "Expected ')' after result types"
    return ids
  match ← token? with
  | some (.ident _) =>
    let id ← typeName
    return [id]
  | _ => return []

/-- The type of a specification, which is left out in front of an assignment mark. -/
def specType? : Reading (Option TypeSpec) := do
  if ← check (.punct .assign) then return none
  let type ← type
  return some type

/-- The initial values of a specification, if there is an assignment mark. -/
def specValues : Reading (List Expr) := do
  if ← take? (.punct .assign) then
    skipNewlines
    expressionList
  else return []

/-- Names with a type, initial values, or both. -/
def varSpec : Reading VarSpec := do
  let line ← line
  let names ← names "variable name"
  let type? ← specType?
  let values ← specValues
  return { names, type?, values, line }

/-- One specification of a group, up to the closing parenthesis. -/
def specTurn : Reading (Turn VarSpec (List VarSpec)) := do
  match ← token? with
  | none | some (.punct .rightParen) => return .stop []
  | some _ =>
    let spec ← varSpec
    expectTerminator
    skipSeparators
    return .again spec

def varDecl : Reading VarDecl := do
  let line ← line
  expect (.keyword .var) "Expected 'var'"
  if ← take? (.punct .leftParen) then
    skipSeparators
    let specs ← Loop.specs.begin
    expect (.punct .rightParen) "Expected ')' to close var group"
    return ⟨specs, line⟩
  let spec ← varSpec
  return ⟨[spec], line⟩

/-- Parameters that share a type. -/
def paramGroup : Reading ParamGroup := do
  let names ← names "parameter name"
  let type ← typeName
  return ⟨names, type⟩

/-- One group of parameters, up to the closing parenthesis. The loop goes on behind a comma. -/
def paramTurn : Reading (Turn ParamGroup (List ParamGroup)) := do
  if ← check (.punct .rightParen) then return .stop []
  let group ← paramGroup
  skipNewlines
  if ← take? (.punct .comma) then
    skipNewlines
    return .again group
  return .stop [group]

/-- The groups of parameters of a function signature. -/
def paramGroups : Reading (List ParamGroup) := do
  skipNewlines
  Loop.params.begin

/-! ### Statements and blocks -/

/-- What follows the first list of expressions of a statement that begins at `start`. -/
def simpleRest (start : Cursor) (left : List Expr) : Reading Stmt := do
  if ← take? (.punct .define) then
    match left.mapM Expr.name? with
    | some names =>
      skipNewlines
      let values ← expressionList
      return .define names values start.line
    | none => fail .invalidAssignmentTarget "Only names can be declared with ':='"
  else if ← take? (.punct .assign) then
    match left.mapM Expr.target? with
    | some targets =>
      skipNewlines
      let values ← expressionList
      return .assign targets values start.line
    | none => fail .invalidAssignmentTarget "Only variables and array elements can be assigned to"
  else
    match left with
    | [e] =>
      match e.call? with
      | some (callee, args) => return .call callee args start.line
      | none =>
        raise
          { code := .invalidExpressionStatement
            message := "Expression is not a statement"
            span := start.span
            hint := some "only calls, assignments and declarations can stand alone" }
    | _ => fail .unexpectedToken "Expected '=' or ':=' after expression list"

/-- A short declaration, an assignment or a call. -/
def simple : Reading Stmt := do
  let start ← get
  let left ← expressionList
  simpleRest start left

def returnStmt : Reading Stmt := do
  let line ← line
  expect (.keyword .return_) "Expected 'return'"
  if (← get).atTerminator then return .ret [] line
  let values ← expressionList
  return .ret values line

def block : Reading Block := do
  let line ← line
  expect (.punct .leftBrace) "Expected '\x7b'"
  skipSeparators
  let stmts ← Loop.statements.begin
  let endLine ← Reading.line
  expect (.punct .rightBrace) "Expected '\x7d' to close block"
  return .mk stmts line endLine

/-- The else branch of a conditional statement, if there is one. -/
def elseBranch : Reading ElseBranch := do
  if ← take? (.keyword .else_) then
    match ← token? with
    | some (.keyword .if_) => do let stmt : IfStmt ← call .ifStmt; return .elseIf stmt
    | some (.punct .leftBrace) => do let body ← block; return .block body
    | _ => fail .unexpectedToken "Expected 'if' or '\x7b' after 'else'"
  else return .absent

def ifStmt : Reading IfStmt := do
  let line ← line
  expect (.keyword .if_) "Expected 'if'"
  let condition ← expression
  let body ← block
  let otherwise ← elseBranch
  return .mk condition body otherwise line

def forStmt : Reading Stmt := do
  let line ← line
  expect (.keyword .for_) "Expected 'for'"
  let condition ← expression
  let body ← block
  return .loop condition body line

def statement : Reading Stmt := do
  match ← token? with
  | some (.keyword .var) => do let decl ← varDecl; return .var decl
  | some (.keyword .if_) => do let stmt ← ifStmt; return .cond stmt
  | some (.keyword .for_) => forStmt
  | some (.keyword .return_) => returnStmt
  | some (.punct .leftBrace) => do let body ← block; return .block body
  | _ => simple

/-- One statement of a block, up to the closing brace. -/
def statementTurn : Reading (Turn Stmt (List Stmt)) := do
  match ← token? with
  | none | some (.punct .rightBrace) => return .stop []
  | some _ =>
    let stmt ← statement
    expectTerminator
    skipSeparators
    return .again stmt

/-! ### Source files -/

def funcDecl : Reading FuncDecl := do
  let line ← line
  expect (.keyword .func) "Expected 'func'"
  let name ← expectIdent "function name"
  expect (.punct .leftParen) "Expected '(' after function name"
  let params ← paramGroups
  expect (.punct .rightParen) "Expected ')' after parameters"
  let results ← resultTypes
  let body ← block
  return { name, params, results, body, line }

/-- A declaration outside of functions. -/
def decl : Reading Decl := do
  match ← token? with
  | some (.keyword .var) => do let decl ← varDecl; return .var decl
  | some (.keyword .func) => do let decl ← funcDecl; return .func decl
  | some t => fail .expectedStatement ("Expected 'var' or 'func' at top level, found " ++ t.display)
  | none => fail .unexpectedEndOfFile "Unexpected end of file"

/-- One path of a group of imports. -/
def pathTurn : Reading (Turn Unit Unit) := do
  match ← token? with
  | some (.string _) =>
    advance
    skipSeparators
    return .again ()
  | _ => return .stop ()

/-- One path, or a group of paths in parentheses. -/
def importPaths : Reading Unit := do
  if ← take? (.punct .leftParen) then
    skipSeparators
    Loop.paths.begin
    expect (.punct .rightParen) "Expected ')' after imports"
  else
    let _ ← expectString "Expected import path"
    return

/-- One import clause. -/
def importTurn : Reading (Turn Unit Unit) := do
  if ← take? (.keyword .import_) then
    importPaths
    expectTerminator
    skipSeparators
    return .again ()
  return .stop ()

def skipImports : Reading Unit := Loop.imports.begin

/-- The package name, if the file states one. -/
def package? : Reading (Option Ident) := do
  if ← take? (.keyword .package) then
    let name ← expectIdent "package name"
    expectTerminator
    return some name
  return none

/-- One declaration, up to the end of the file. -/
def declTurn : Reading (Turn Decl (List Decl)) := do
  skipSeparators
  match ← token? with
  | none => return .stop []
  | some _ =>
    let decl ← decl
    expectTerminator
    return .again decl

def file : Reading File := do
  skipSeparators
  let package? ← package?
  skipSeparators
  skipImports
  let decls ← Loop.decls.begin
  return { package?, decls }

/-! ### Runs -/

/-- One turn of a loop. -/
def Loop.turn : (l : Loop) → Reading (Turn l.Item l.Result)
  | skip p => skipTurn p
  | operators min left => operatorTurn min left
  | arguments => argumentTurn
  | values => valueTurn
  | names what => nameTurn what
  | types => typeTurn
  | specs => specTurn
  | params => paramTurn
  | statements => statementTurn
  | paths => pathTurn
  | imports => importTurn
  | decls => declTurn

/-- The loop that goes on with an item. An operator makes the left operand of the next one. -/
def Loop.next : (l : Loop) → l.Item → Loop
  | operators min _, left => operators min left
  | l, _ => l

/-- The result of a loop from an item and the result of the loop that goes on with it. -/
def Loop.put : (l : Loop) → (item : l.Item) → (l.next item).Result → l.Result
  | skip _, _, result | operators _ _, _, result | paths, _, result | imports, _, result => result
  | arguments, item, result | values, item, result | names _, item, result | types, item, result =>
    item :: result
  | specs, item, result | params, item, result | statements, item, result | decls, item, result =>
    item :: result

/-- How a loop goes on behind a turn. -/
def Loop.proceed (l : Loop) : Turn l.Item l.Result → Reading l.Result
  | .stop result => return result
  | .again item => do
    let result ← (l.next item).begin
    return l.put item result

/-- A loop takes a turn, and goes on as the turn says. -/
def Loop.body (l : Loop) : Reading l.Result := do
  let turn ← l.turn
  l.proceed turn

/-- The text of each method. -/
def Method.body : (m : Method) → Reading m.Result
  | loop l => l.body
  | advance => Reading.advance
  | take? t => Reading.take? t
  | expect t message => Reading.expect t message
  | expectString message => Reading.expectString message
  | expectIdent what => Reading.expectIdent what
  | skipNewlines => Reading.skipNewlines
  | skipSeparators => Reading.skipSeparators
  | expectTerminator => Reading.expectTerminator
  | expression => Reading.expression
  | binary min => Reading.binary min
  | unary => Reading.unary
  | primary => Reading.primary
  | arguments => Reading.arguments
  | expressionList => Reading.expressionList
  | typeName => Reading.typeName
  | type => Reading.type
  | resultTypes => Reading.resultTypes
  | varSpec => Reading.varSpec
  | varDecl => Reading.varDecl
  | paramGroups => Reading.paramGroups
  | simple => Reading.simple
  | returnStmt => Reading.returnStmt
  | statement => Reading.statement
  | block => Reading.block
  | ifStmt => Reading.ifStmt
  | forStmt => Reading.forStmt
  | funcDecl => Reading.funcDecl
  | decl => Reading.decl
  | skipImports => Reading.skipImports
  | file => Reading.file

/-- The run of a method whose calls are nested less than `depth` deep, with itself as the first. -/
def Method.within : (depth : Nat) → Calls
  | 0, _ => fun _ => none
  | depth + 1, m => m.body (within depth)

end Reading

end MiniGo
