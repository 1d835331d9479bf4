/-!
# Types

The types of values, and how two of them combine.

* `Ty.ofName?`: the type that a type name of the source language stands for.
* `Ty.unify`: the common type of two operands.
* `Ty.assignable`: whether a value may be stored into a variable.
-/

namespace MiniGo

/-- The type of a value, of an array variable, or of something that has no value. -/
inductive Ty where
  | bool
  | int
  | float
  | string
  | array
  | null
  | noType
deriving DecidableEq, Repr, Inhabited

namespace Ty

/-- The name of a type in messages and dumps. -/
def name : Ty → String
  | bool => "bool"
  | int => "int"
  | float => "float"
  | string => "string"
  | array => "array"
  | null => "null"
  | noType => "no_type"

/-- The type that a type name stands for. All sizes of integers and of floats are the same. -/
def ofName? : String → Option Ty
  | "bool" => some bool
  | "int" | "int8" | "int16" | "int32" | "int64" => some int
  | "float32" | "float64" => some float
  | "string" => some string
  | _ => none

/-- Whether a type has arithmetic. -/
def isNumeric : Ty → Bool
  | int | float => true
  | _ => false

/-- Whether two values of a type can be compared. -/
def isComparable : Ty → Bool
  | bool | int | float | string => true
  | _ => false

/-- Whether a value of a type can be stored in a variable, printed and read. -/
def isScalar (t : Ty) : Bool := t.isComparable

/-- The type in which two operands meet: their own if it is the same, and float for an int with a
float. -/
def unify (l r : Ty) : Option Ty :=
  if l = r then some l
  else if l.isNumeric && r.isNumeric then some float
  else none

/-- Whether a value of type `value` may be stored into a variable of type `target`. -/
def assignable (target value : Ty) : Bool :=
  target == value || (target == float && value == int)

end Ty

end MiniGo
