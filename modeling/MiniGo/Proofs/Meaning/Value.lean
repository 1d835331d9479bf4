import MiniGo.Assembly.Instr
import MiniGo.Binary32.Rounding

/-!
# Values

The values of the language and what can be done with them. Ints are words of 32 bits. What floats
and strings are, and how values are read, is left open.

* `Platform`: floats, strings and input, as the language and the machine have them in common.
* `Value`, `Value.convert`, `Value.arith`, `Value.order`: values of all types and the operations on
  them.
* `Cell`: what a variable holds.
-/

namespace MiniGo

/-- Floats, strings and input. A comparison of floats may be undefined, and a read may fail. -/
structure Platform where
  Float : Type
  Text : Type
  Input : Type
  floatConstant : Binary32 → Float
  floatOfInt : BitVec 32 → Float
  floatArith : ArithOp → Float → Float → Float
  floatOrder : Float → Float → Option Ordering
  textConstant : String → Text
  concat : Text → Text → Text
  compareTo : Text → Text → BitVec 32
  nextInt : Input → Option (BitVec 32 × Input)
  nextFloat : Input → Option (Float × Input)
  nextBool : Input → Option (Bool × Input)
  nextLine : Input → Option (Text × Input)

/-! ### Ints and comparisons -/

/-- Arithmetic on words wraps around, and a quotient is truncated. There is no division by zero. -/
def intArith (op : ArithOp) (i j : BitVec 32) : Option (BitVec 32) :=
  match op with
  | .add => some (i + j)
  | .sub => some (i - j)
  | .mul => some (i * j)
  | .div => if j = 0 then none else some (i.sdiv j)
  | .rem => if j = 0 then none else some (i.srem j)

/-- The order of words as signed numbers. -/
def intOrder (i j : BitVec 32) : Ordering := compare i.toInt j.toInt

/-- Whether a comparison is true of values in a given order. If the order is undefined, only `!=`
is. -/
def BinaryOp.holds : BinaryOp → Option Ordering → Bool
  | eq, o => o == some .eq
  | ne, o => o != some .eq
  | lt, o => o == some .lt
  | gt, o => o == some .gt
  | le, o => o == some .lt || o == some .eq
  | ge, o => o == some .gt || o == some .eq
  | _, _ => false

/-! ### Values -/

/-- A value. A string that was never assigned is null. -/
inductive Value (P : Platform) where
  | int (i : BitVec 32)
  | float (x : P.Float)
  | bool (b : Bool)
  | text (t : P.Text)
  | null

namespace Value

variable {P : Platform}

/-- The values of a type. -/
inductive HasTy : Value P → Ty → Prop
  | int {i : BitVec 32} : HasTy (.int i) .int
  | float {x : P.Float} : HasTy (.float x) .float
  | bool {b : Bool} : HasTy (.bool b) .bool
  | text {t : P.Text} : HasTy (.text t) .string
  | null : HasTy .null .string

/-- What memory holds before anything is stored there. -/
def initial : Ty → Value P
  | .int => .int 0
  | .float => .float (P.floatConstant .zero)
  | .bool => .bool false
  | .string | .array | .null | .noType => .null

/-- What a variable holds after its declaration. -/
def zero : Ty → Value P
  | .string => .text (P.textConstant "")
  | ty => initial ty

/-- An int literal. Where it has the type float, it is the float next to it. -/
def literal (i : Int) (ty : Ty) : Value P :=
  if ty = .float then .float (P.floatConstant (.ofInt i)) else .int (.ofInt 32 i)

/-- A value of type `value` where the type `wanted` is needed: an int becomes a float. -/
def convert (value wanted : Ty) (v : Value P) : Option (Value P) :=
  if value = .int ∧ wanted = .float then
    match v with
    | .int i => some (.float (P.floatOfInt i))
    | _ => none
  else some v

/-- An arithmetic operation in a type. -/
def arith (op : ArithOp) : Ty → Value P → Value P → Option (Value P)
  | .int, .int i, .int j => (intArith op i j).map .int
  | .float, .float x, .float y => some (.float (P.floatArith op x y))
  | .string, .text s, .text t => if op = .add then some (.text (P.concat s t)) else none
  | _, _, _ => none

/-- The order of two values of a type, which may be undefined for floats. -/
def order : Ty → Value P → Value P → Option (Option Ordering)
  | .int, .int i, .int j => some (some (intOrder i j))
  | .bool, .bool a, .bool b => some (some (compare a.toNat b.toNat))
  | .float, .float x, .float y => some (P.floatOrder x y)
  | .string, .text s, .text t => some (some (intOrder (P.compareTo s t) 0))
  | _, _, _ => none

/-- Reads a value of a type. -/
def read (ty : Ty) (input : P.Input) : Option (Value P × P.Input) :=
  match ty with
  | .int => (P.nextInt input).map fun (i, input) => (.int i, input)
  | .float => (P.nextFloat input).map fun (x, input) => (.float x, input)
  | .bool => (P.nextBool input).map fun (b, input) => (.bool b, input)
  | .string => (P.nextLine input).map fun (t, input) => (.text t, input)
  | .array | .null | .noType => none

/-- The truth value that a value is. -/
def truth? : Value P → Option Bool
  | .bool b => some b
  | _ => none

/-- The values that can be printed. -/
def isPrintable : Value P → Bool
  | .null => false
  | _ => true

end Value

/-! ### Cells -/

/-- Arrays have at most `2 ^ 31 - 1` elements. -/
def arrayLimit : Nat := Nat.pow 2 31

/-- What a variable holds: nothing before its first assignment, then a value or the elements of an
array. -/
inductive Cell (P : Platform) where
  | empty
  | scalar (v : Value P)
  | array (vs : List (Value P))

namespace Cell

variable {P : Platform}

/-- The value in a cell. -/
def value? : Cell P → Option (Value P)
  | scalar v => some v
  | _ => none

/-- An element of the array in a cell. -/
def element? (k : Nat) : Cell P → Option (Value P)
  | array vs => vs[k]?
  | _ => none

/-- Replaces an element of the array in a cell. -/
def setElement? (k : Nat) (v : Value P) : Cell P → Option (Cell P)
  | array vs => if k < vs.length then some (.array (vs.set k v)) else none
  | _ => none

/-- The cell of a variable after its declaration. -/
def declared? (x : Variable) : Option (Cell P) :=
  match x.array? with
  | some shape =>
    if shape.length < arrayLimit then
      some (.array (.replicate shape.length (.initial shape.element)))
    else none
  | none => some (.scalar (.zero x.ty))

/-- The cell of a global variable before the program starts. -/
def initial (x : Variable) : Cell P :=
  match x.array? with
  | some _ => .empty
  | none => .scalar (.initial x.ty)

end Cell

end MiniGo
