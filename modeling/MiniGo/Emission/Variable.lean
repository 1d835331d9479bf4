import MiniGo.Emission.Basic

/-!
# Code for variables and array elements

A global variable is a static field, and a variable of a function is a local slot.
-/

namespace MiniGo.Emission

/-- Pushes the value of a variable, or the reference of an array. -/
def emitLoad (ctx : Context) (v : VarRef) : Emit Unit :=
  match v.scope with
  | .globals => do .instr (.getStatic (← ctx.globalField v))
  | .function _ => do
    .instr (.load (← ctx.lookupVariable v).ty.valueKind (ctx.frame.slot v.slot))

/-- Pops a value into a variable. -/
def emitStore (ctx : Context) (v : VarRef) : Emit Unit :=
  match v.scope with
  | .globals => do .instr (.putStatic (← ctx.globalField v))
  | .function _ => do
    .instr (.store (← ctx.lookupVariable v).ty.valueKind (ctx.frame.slot v.slot))

/-- Pushes the reference of an array and an offset. -/
def emitElementAddress (ctx : Context) (v : VarRef) (offset : Nat) : Emit Unit := do
  emitLoad ctx v
  .instr (.ldc (.int offset))

/-- Replaces the address of an element by the element. -/
def emitElementLoad (element : Ty) : Emit Unit := .instr (.elementLoad element.elementKind)

/-- Pops a value into the element whose address is below it. -/
def emitElementStore (element : Ty) : Emit Unit := .instr (.elementStore element.elementKind)

/-- Makes a float of an int on the stack, if one is wanted. -/
def emitConvert (value wanted : Ty) : Emit Unit :=
  if value = .int ∧ wanted = .float then .instr .intToFloat else pure ()

/-- Pushes the zero value of a type. -/
def emitZero : Ty → Emit Unit
  | .int | .bool => .instr (.intConst false)
  | .float => .instr .floatZero
  | .string => .instr (.ldc (.string ""))
  | .array | .null | .noType => .instr .nullConst

/-- Gives a declared variable its zero value, or a new array. -/
def emitDefault (ctx : Context) (v : VarRef) : Emit Unit := do
  let entry ← ctx.lookupVariable v
  match entry.array? with
  | some shape =>
    .instr (.ldc (.int shape.length))
    .instr (.newArray shape.element.arrayType)
  | none => emitZero entry.ty
  emitStore ctx v

end MiniGo.Emission
