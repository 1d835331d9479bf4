import MiniGo.Assembly.Descriptor
import MiniGo.Assembly.Label
import MiniGo.Binary32.Printing
import MiniGo.Operator

/-!
# Instructions and lines of assembly

The instructions of the stack machine that the generated code uses, and the lines of an assembly
file. Only `Line.text` decides how they are written.
-/

namespace MiniGo

/-! ### Parts of instructions -/

/-- The kind of a value in a local slot or on the stack. -/
inductive ValueKind where
  | int
  | float
  | ref
deriving DecidableEq, Repr

/-- The letter of a kind in instructions. -/
def ValueKind.letter : ValueKind → String
  | int => "i"
  | float => "f"
  | ref => "a"

/-- The kind of the values of a type. -/
def Ty.valueKind : Ty → ValueKind
  | bool | int => .int
  | float => .float
  | string | array | null | noType => .ref

/-- The kind of an array element. -/
inductive ElementKind where
  | byte
  | int
  | float
  | ref
deriving DecidableEq, Repr

/-- The letter of an element kind in instructions. -/
def ElementKind.letter : ElementKind → String
  | byte => "b"
  | int => "i"
  | float => "f"
  | ref => "a"

/-- The kind of array elements of a type. -/
def Ty.elementKind : Ty → ElementKind
  | bool => .byte
  | int => .int
  | float => .float
  | string | array | null | noType => .ref

/-- What a new array is made of. -/
inductive ArrayType where
  | boolean
  | int
  | float
  | string
deriving DecidableEq, Repr

namespace ArrayType

/-- The instruction that makes an array. -/
def opcode : ArrayType → String
  | boolean | int | float => "newarray"
  | string => "anewarray"

/-- The operand of that instruction. -/
def operand : ArrayType → String
  | boolean => "boolean"
  | int => "int"
  | float => "float"
  | string => Library.stringClass

end ArrayType

/-- What a new array with elements of a type is made of. -/
def Ty.arrayType : Ty → ArrayType
  | bool => .boolean
  | int => .int
  | float => .float
  | string | array | null | noType => .string

/-- An arithmetic operation. -/
inductive ArithOp where
  | add
  | sub
  | mul
  | div
  | rem
deriving DecidableEq, Repr

/-- The name of an operation in instructions. -/
def ArithOp.text : ArithOp → String
  | add => "add"
  | sub => "sub"
  | mul => "mul"
  | div => "div"
  | rem => "rem"

/-- The arithmetic operation of an operator. -/
def BinaryOp.arith? : BinaryOp → Option ArithOp
  | add => some .add
  | sub => some .sub
  | mul => some .mul
  | div => some .div
  | mod => some .rem
  | _ => none

/-- The condition of a jump. -/
inductive CondCode where
  | eq
  | ne
  | lt
  | ge
  | gt
  | le
deriving DecidableEq, Repr

namespace CondCode

/-- The name of a condition in instructions. -/
def text : CondCode → String
  | eq => "eq"
  | ne => "ne"
  | lt => "lt"
  | ge => "ge"
  | gt => "gt"
  | le => "le"

/-- The condition that holds exactly where another does not. -/
def negate : CondCode → CondCode
  | eq => ne
  | ne => eq
  | lt => ge
  | ge => lt
  | gt => le
  | le => gt

@[simp] theorem negate_negate (c : CondCode) : c.negate.negate = c := by
  cases c <;> rfl

end CondCode

/-- The condition of a comparison. -/
def BinaryOp.condCode? : BinaryOp → Option CondCode
  | eq => some .eq
  | ne => some .ne
  | lt => some .lt
  | ge => some .ge
  | gt => some .gt
  | le => some .le
  | _ => none

/-- A constant that is pushed from the constant pool. -/
inductive Constant where
  | int (value : Int)
  | float (value : Binary32)
  | string (text : String)
deriving DecidableEq, Repr

/-- How a constant is written. -/
def Constant.text : Constant → String
  | int value => toString value
  | float value => value.literal
  | string text => "\"" ++ text ++ "\""

/-! ### Instructions -/

/-- An instruction. -/
inductive Instr where
  | ldc (c : Constant)
  | intConst (value : Bool)
  | floatZero
  | nullConst
  | load (kind : ValueKind) (slot : Nat)
  | store (kind : ValueKind) (slot : Nat)
  | loadThis
  | elementLoad (kind : ElementKind)
  | elementStore (kind : ElementKind)
  | getStatic (f : FieldRef)
  | putStatic (f : FieldRef)
  | invokeStatic (m : MethodRef)
  | invokeVirtual (m : MethodRef)
  | invokeSpecial (m : MethodRef)
  | newObject (className : String)
  | newArray (type : ArrayType)
  | dup
  | arith (kind : ValueKind) (op : ArithOp)
  | intToFloat
  | floatCompare (greater : Bool)
  | ifCompare (code : CondCode) (l : Label)
  | ifZero (code : CondCode) (l : Label)
  | goto (l : Label)
  | ret
deriving DecidableEq, Repr

/-- How an instruction is written. -/
def Instr.text : Instr → String
  | ldc c => "ldc " ++ c.text
  | intConst value => if value then "iconst_1" else "iconst_0"
  | floatZero => "fconst_0"
  | nullConst => "aconst_null"
  | load kind slot => s!"{kind.letter}load {slot}"
  | store kind slot => s!"{kind.letter}store {slot}"
  | loadThis => "aload_0"
  | elementLoad kind => kind.letter ++ "aload"
  | elementStore kind => kind.letter ++ "astore"
  | getStatic f => "getstatic " ++ f.text
  | putStatic f => "putstatic " ++ f.text
  | invokeStatic m => "invokestatic " ++ m.text
  | invokeVirtual m => "invokevirtual " ++ m.text
  | invokeSpecial m => "invokespecial " ++ m.text
  | newObject className => "new " ++ className
  | newArray type => type.opcode ++ " " ++ type.operand
  | dup => "dup"
  | arith kind op => kind.letter ++ op.text
  | intToFloat => "i2f"
  | floatCompare greater => if greater then "fcmpg" else "fcmpl"
  | ifCompare code l => "if_icmp" ++ code.text ++ " " ++ l.text
  | ifZero code l => "if" ++ code.text ++ " " ++ l.text
  | goto l => "goto " ++ l.text
  | ret => "return"

/-! ### Lines -/

/-- The access of a method. -/
inductive Access where
  | instance_
  | initializer
  | static_
deriving DecidableEq, Repr

/-- How an access is written. -/
def Access.text : Access → String
  | instance_ => "public"
  | initializer => "static"
  | static_ => "public static"

/-- A line of an assembly file. -/
inductive Line where
  | classHeader (name : String)
  | superclass (name : String)
  | blank
  | field (name : FieldName) (descriptor : Descriptor)
  | method (access : Access) (signature : Signature)
  | endMethod
  | limitStack (n : Nat)
  | limitLocals (n : Nat)
  | label (l : Label)
  | instr (i : Instr)
deriving DecidableEq, Repr

namespace Line

/-- How a line is written, without its end. -/
def text : Line → String
  | classHeader name => ".class public " ++ name
  | superclass name => ".super " ++ name
  | blank => ""
  | field name descriptor => ".field public static " ++ name.text ++ " " ++ descriptor.text
  | method access signature => ".method " ++ access.text ++ " " ++ signature.text
  | endMethod => ".end method"
  | limitStack n => s!"\t.limit stack {n}"
  | limitLocals n => s!"\t.limit locals {n}"
  | label l => l.text ++ ":"
  | instr i => "\t" ++ i.text

/-- The text of lines. -/
def render (lines : List Line) : String :=
  String.join (lines.map fun line => line.text ++ "\n")

@[simp] theorem render_nil : render [] = "" := rfl

@[simp] theorem render_append (ls ms : List Line) :
    render (ls ++ ms) = render ls ++ render ms := by
  simp [render]

theorem render_cons (l : Line) (ls : List Line) :
    render (l :: ls) = l.text ++ "\n" ++ render ls := by
  rw [← List.singleton_append, render_append]
  simp [render]

end Line

end MiniGo
