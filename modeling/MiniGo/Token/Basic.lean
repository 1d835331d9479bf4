import MiniGo.Operator

/-!
# Tokens

The words of the language: literals and names with their text, keywords, binary operators,
punctuation and the newline, which ends a statement.
-/

namespace MiniGo

/-- A reserved word. -/
inductive Keyword where
  | package
  | import_
  | var
  | func
  | if_
  | else_
  | for_
  | return_
  | true_
  | false_
deriving DecidableEq, Repr

namespace Keyword

/-- How a keyword is written. -/
def text : Keyword → String
  | package => "package"
  | import_ => "import"
  | var => "var"
  | func => "func"
  | if_ => "if"
  | else_ => "else"
  | for_ => "for"
  | return_ => "return"
  | true_ => "true"
  | false_ => "false"

/-- The keyword with a given spelling. -/
def ofText? : String → Option Keyword
  | "package" => some package
  | "import" => some import_
  | "var" => some var
  | "func" => some func
  | "if" => some if_
  | "else" => some else_
  | "for" => some for_
  | "return" => some return_
  | "true" => some true_
  | "false" => some false_
  | _ => none

@[simp] theorem ofText?_text (k : Keyword) : ofText? k.text = some k := by
  cases k <;> rfl

end Keyword

/-- Punctuation: the two assignment marks, brackets and separators. -/
inductive Punct where
  | assign
  | define
  | leftParen
  | rightParen
  | leftBrace
  | rightBrace
  | leftBracket
  | rightBracket
  | comma
  | semicolon
deriving DecidableEq, Repr

/-- How punctuation is written. -/
def Punct.text : Punct → String
  | assign => "="
  | define => ":="
  | leftParen => "("
  | rightParen => ")"
  | leftBrace => "\x7b"
  | rightBrace => "\x7d"
  | leftBracket => "["
  | rightBracket => "]"
  | comma => ","
  | semicolon => ";"

/-- A token. The text of a literal or a name is kept as written, that of a string without its
quotes. -/
inductive Token where
  | integer (text : String)
  | decimal (text : String)
  | string (text : String)
  | ident (name : String)
  | keyword (k : Keyword)
  | op (o : BinaryOp)
  | punct (p : Punct)
  | newline
deriving DecidableEq, Repr

namespace Token

/-- The class of a token, or its quoted spelling if the class has only one. -/
def kindName : Token → String
  | integer _ => "integer"
  | decimal _ => "float"
  | string _ => "string"
  | ident _ => "identifier"
  | keyword k => "'" ++ k.text ++ "'"
  | op o => "'" ++ o.text ++ "'"
  | punct p => "'" ++ p.text ++ "'"
  | newline => "newline"

/-- A token as shown in messages. -/
def display : Token → String
  | integer text => text
  | decimal text => text
  | ident name => name
  | string text => "\"" ++ text ++ "\""
  | t => t.kindName

/-- The binary operator that a token stands for. -/
def binaryOp? : Token → Option BinaryOp
  | op o => some o
  | _ => none

end Token

end MiniGo
