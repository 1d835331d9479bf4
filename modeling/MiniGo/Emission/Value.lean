import MiniGo.Emission.Variable

/-!
# Code for values

The code of an expression pushes its value. The results of a call are read from the fields of the
callee.
-/

namespace MiniGo.Emission

/-- The code of a call around the code of its arguments, which is given for the types of the
parameters. -/
def emitCallWith (ctx : Context) (index : Nat) (arguments : List Ty → Emit Unit) : Emit Unit := do
  let f ← ctx.lookupFunction index
  if f.isEntryPoint then .instr .nullConst
  arguments f.params
  .instr (.invokeStatic ⟨ctx.options.className, f.signature⟩)

/-- The constant of an int node, which is a float where the node was widened. -/
def intConstant (value : Int) (ty : Ty) : Constant :=
  if ty = .float then .float (.ofInt value) else .int value

mutual

/-- Pushes the value of a node. -/
def emitValue (ctx : Context) : Node → Emit Unit
  | .mk kind ty children =>
    match kind with
    | .intVal value => .instr (.ldc (intConstant value ty))
    | .floatVal value => .instr (.ldc (.float value))
    | .boolVal value => .instr (.intConst value)
    | .strVal text => .instr (.ldc (.string text))
    | .varUse v => emitLoad ctx v
    | .arrayUse v offset => do
      emitElementAddress ctx v offset
      emitElementLoad ty
    | .call index => do
      emitCallWith ctx index (emitArguments ctx children)
      .instr (.getStatic (← ctx.resultField index 0))
    | .op o =>
      if o.isArithmetic then emitArithmetic ctx kind ty children else .invalid kind .value
    | _ => .invalid kind .value
termination_by structural node => node

/-- Pushes the result of an arithmetic node with given children. -/
def emitArithmetic (ctx : Context) (kind : NodeKind) (ty : Ty) : List Node → Emit Unit
  | [left, right] =>
    if ty = .string then
      if kind = .op .add then do
        emitValue ctx left
        emitValue ctx right
        .instr (.invokeVirtual Library.concat)
      else .invalid kind .stringOperator
    else do
      emitValue ctx left
      emitConvert left.ty ty
      emitValue ctx right
      emitConvert right.ty ty
      match kind with
      | .op o =>
        match o.arith? with
        | some op => .instr (.arith ty.valueKind op)
        | none => .invalid kind .arithmetic
      | _ => .invalid kind .arithmetic
  | _ => .invalid kind .binaryOperator
termination_by structural nodes => nodes

/-- Pushes arguments, each converted to the type of its parameter. -/
def emitArguments (ctx : Context) : List Node → List Ty → Emit Unit
  | arg :: args, param :: params => do
    emitValue ctx arg
    emitConvert arg.ty param
    emitArguments ctx args params
  | _, _ => pure ()
termination_by structural nodes => nodes

end

/-- Pushes the value of a node, converted to a type. -/
def emitValueAs (ctx : Context) (node : Node) (wanted : Ty) : Emit Unit := do
  emitValue ctx node
  emitConvert node.ty wanted

/-- Calls a function. -/
def emitCall (ctx : Context) (index : Nat) (args : List Node) : Emit Unit :=
  emitCallWith ctx index (emitArguments ctx args)

end MiniGo.Emission
