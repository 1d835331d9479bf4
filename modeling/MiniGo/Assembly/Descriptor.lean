import MiniGo.Symbol.Table

/-!
# Descriptors and references

How the target machine names types, static fields and methods.

* `Descriptor`: the type of a field, a parameter or a result.
* `FieldRef`: a static field of a class. A result of a function is kept in a field of its own.
* `MethodRef`: a method of a class.
-/

namespace MiniGo

/-- The type of a field, a parameter or a result on the target machine. -/
inductive Descriptor where
  | boolean
  | int
  | float
  | void
  | object (className : String)
  | array (element : Descriptor)
deriving DecidableEq, Repr

namespace Descriptor

/-- How a descriptor is written. -/
def text : Descriptor → String
  | boolean => "Z"
  | int => "I"
  | float => "F"
  | void => "V"
  | object className => "L" ++ className ++ ";"
  | array element => "[" ++ element.text

/-- The descriptor of strings. -/
def string : Descriptor := object "java/lang/String"

end Descriptor

/-- The descriptor of a type. -/
def Ty.descriptor : Ty → Descriptor
  | bool => .boolean
  | int => .int
  | float => .float
  | string => .string
  | array | null => .object "java/lang/Object"
  | noType => .void

/-- The descriptor of a variable. -/
def Variable.descriptor (v : Variable) : Descriptor :=
  match v.array? with
  | some shape => .array shape.element.descriptor
  | none => v.ty.descriptor

/-! ### Fields -/

/-- The name of a static field: that of a global variable, or of a result of a function. -/
inductive FieldName where
  | named (name : String)
  | result (function : String) (index : Nat)
deriving DecidableEq, Repr

/-- How the name of a field is written. -/
def FieldName.text : FieldName → String
  | named name => name
  | result function index => s!"{function}$ret{index}"

/-- A static field of a class. -/
structure FieldRef where
  owner : String
  name : FieldName
  descriptor : Descriptor
deriving DecidableEq, Repr

/-- How a reference to a field is written. -/
def FieldRef.text (f : FieldRef) : String :=
  f.owner ++ "/" ++ f.name.text ++ " " ++ f.descriptor.text

/-! ### Methods -/

/-- The descriptor of a method. -/
structure MethodType where
  params : List Descriptor
  result : Descriptor
deriving DecidableEq, Repr

/-- How the descriptor of a method is written. -/
def MethodType.text (m : MethodType) : String :=
  "(" ++ String.join (m.params.map Descriptor.text) ++ ")" ++ m.result.text

/-- The name and the descriptor of a method. -/
structure Signature where
  name : String
  type : MethodType
deriving DecidableEq, Repr

/-- How a signature is written. -/
def Signature.text (s : Signature) : String := s.name ++ s.type.text

/-- A method of a class. -/
structure MethodRef where
  owner : String
  signature : Signature
deriving DecidableEq, Repr

/-- How a reference to a method is written. -/
def MethodRef.text (m : MethodRef) : String := m.owner ++ "/" ++ m.signature.text

/-- The descriptor of the method of a function: its results are returned in fields. -/
def methodType (params : List Ty) : MethodType := ⟨params.map Ty.descriptor, .void⟩

/-! ### The library of the machine -/

namespace Library

/-- The root of all classes. -/
def objectClass : String := "java/lang/Object"

/-- The class of strings. -/
def stringClass : String := "java/lang/String"

/-- The class that reads input. -/
def scannerClass : String := "java/util/Scanner"

/-- The standard output. -/
def standardOutput : FieldRef :=
  ⟨"java/lang/System", .named "out", .object "java/io/PrintStream"⟩

/-- The standard input. -/
def standardInput : FieldRef :=
  ⟨"java/lang/System", .named "in", .object "java/io/InputStream"⟩

/-- The constructor of a class with given parameters. -/
def constructor (className : String) (params : List Descriptor) : MethodRef :=
  ⟨className, "<init>", params, .void⟩

/-- Prints a value and ends the line. -/
def println (d : Descriptor) : MethodRef := ⟨"java/io/PrintStream", "println", [d], .void⟩

/-- Joins two strings. -/
def concat : MethodRef := ⟨stringClass, "concat", [.string], .string⟩

/-- Compares two strings: the result is negative, zero or positive. -/
def compareTo : MethodRef := ⟨stringClass, "compareTo", [.string], .int⟩

/-- Reads a value of a scalar type. -/
def scan? : Ty → Option MethodRef
  | .int => some ⟨scannerClass, "nextInt", [], .int⟩
  | .float => some ⟨scannerClass, "nextFloat", [], .float⟩
  | .bool => some ⟨scannerClass, "nextBoolean", [], .boolean⟩
  | .string => some ⟨scannerClass, "nextLine", [], .string⟩
  | .array | .null | .noType => none

end Library

end MiniGo
