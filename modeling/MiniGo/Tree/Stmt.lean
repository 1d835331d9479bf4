import MiniGo.Tree.Expr

/-!
# Declarations and statements

The syntax tree of everything above expressions, up to a whole source file.
-/

namespace MiniGo

/-- A type as written: a name, or an array of a length and an element type. -/
inductive TypeSpec where
  | named (id : Ident)
  | array (length : Expr) (element : Ident) (line : Nat)

/-- Names declared together, with a type, initial values, or both. -/
structure VarSpec where
  names : List Ident
  type? : Option TypeSpec
  values : List Expr
  line : Nat

/-- A variable declaration: one specification or a group of them. -/
structure VarDecl where
  specs : List VarSpec
  line : Nat

mutual

/-- A statement. -/
inductive Stmt where
  | var (decl : VarDecl)
  | define (names : List Ident) (values : List Expr) (line : Nat)
  | assign (targets : List Target) (values : List Expr) (line : Nat)
  | cond (stmt : IfStmt)
  | loop (condition : Expr) (body : Block) (line : Nat)
  | ret (values : List Expr) (line : Nat)
  | call (callee : Ident) (args : List Expr) (line : Nat)
  | block (body : Block)

/-- Statements between braces, with the lines of the two braces. -/
inductive Block where
  | mk (statements : List Stmt) (line endLine : Nat)

/-- A conditional statement. -/
inductive IfStmt where
  | mk (condition : Expr) (body : Block) (otherwise : ElseBranch) (line : Nat)

/-- What follows the body of a conditional statement. -/
inductive ElseBranch where
  | absent
  | block (body : Block)
  | elseIf (stmt : IfStmt)

end

namespace Block

/-- The statements of a block. -/
def statements : Block → List Stmt
  | mk statements _ _ => statements

/-- The line of the opening brace. -/
def line : Block → Nat
  | mk _ line _ => line

/-- The line of the closing brace. -/
def endLine : Block → Nat
  | mk _ _ endLine => endLine

end Block

/-- Parameters that share a type. -/
structure ParamGroup where
  names : List Ident
  type : Ident

/-- A function declaration. -/
structure FuncDecl where
  name : Ident
  params : List ParamGroup
  results : List Ident
  body : Block
  line : Nat

/-- A declaration outside of functions. -/
inductive Decl where
  | var (decl : VarDecl)
  | func (decl : FuncDecl)

/-- The last line of a declaration that is known: the first line of a variable declaration, and the
line on which the body of a function ends. -/
def Decl.lastLine : Decl → Nat
  | .var decl => decl.line
  | .func decl => decl.body.endLine

/-- A source file: its package name, if it states one, and its declarations in order. -/
structure File where
  package? : Option Ident
  decls : List Decl

namespace File

/-- The variable declarations of a file, in order. -/
def varDecls (f : File) : List VarDecl :=
  f.decls.filterMap fun
    | .var decl => some decl
    | .func _ => none

/-- The function declarations of a file, in order. -/
def funcDecls (f : File) : List FuncDecl :=
  f.decls.filterMap fun
    | .func decl => some decl
    | .var _ => none

/-- The greatest last line of the declarations, or one if there is none. -/
def lastLine (f : File) : Nat :=
  ((f.decls.map Decl.lastLine).max?).getD 1

end File

end MiniGo
