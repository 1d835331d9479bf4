import MiniGo.Emission.Value

/-!
# Code for conditions

A condition leaves no value: its code jumps to a label in one case and falls through in the other.
The right operand of a logical operator is skipped if the left one decides.
-/

namespace MiniGo.Emission

/-- When a condition jumps, and to which label. -/
structure Jump where
  onTrue : Bool
  target : Label
deriving DecidableEq, Repr

/-- Compares two values of a type and jumps. An undefined float makes every comparison but `!=`
false, since it counts as greater for `<` and `<=`, and as less for the others. -/
def emitCompare (kind : NodeKind) (op : BinaryOp) (ty : Ty) (code : CondCode) (target : Label) :
    Emit Unit :=
  match ty with
  | .int | .bool => .instr (.ifCompare code target)
  | .float => do
    .instr (.floatCompare (op == .lt || op == .le))
    .instr (.ifZero code target)
  | .string => do
    .instr (.invokeVirtual Library.compareTo)
    .instr (.ifZero code target)
  | .array | .null | .noType => .invalid kind .comparison

/-- The operator of a node that is one, with the condition of its comparison. -/
def comparison? : NodeKind → Option (BinaryOp × CondCode)
  | .op o => o.condCode?.map (o, ·)
  | _ => none

/-- The code of a comparison with given operands. -/
def emitComparison (ctx : Context) (jump : Jump) (kind : NodeKind) (ty : Ty)
    (children : List Node) : Emit Unit :=
  match children with
  | [left, right] =>
    match comparison? kind with
    | some (op, code) => do
      emitValueAs ctx left ty
      emitValueAs ctx right ty
      emitCompare kind op ty (if jump.onTrue then code else code.negate) jump.target
    | none => .invalid kind .comparison
  | _ => .invalid kind .comparison

/-- Jumps on the truth value on the stack. -/
def emitTest (jump : Jump) : Emit Unit :=
  .instr (.ifZero (if jump.onTrue then .ne else .eq) jump.target)

mutual

/-- The code of a condition. -/
def emitCondition (ctx : Context) (jump : Jump) : Node → Emit Unit
  | .mk kind ty children =>
    match kind with
    | .op o =>
      if o.isComparison then emitComparison ctx jump kind ty children
      else if o.isLogical then emitLogical ctx jump kind children
      else .invalid kind .condition
    | .boolVal _ | .varUse _ | .arrayUse _ _ | .call _ =>
      if ty = .bool then do
        emitValue ctx (.mk kind ty children)
        emitTest jump
      else .invalid kind .condition
    | _ => .invalid kind .condition
termination_by structural node => node

/-- The code of a logical operator with given operands. If the left operand can decide for the jump,
both operands jump; else the left one can decide against it, and then jumps behind the right one. -/
def emitLogical (ctx : Context) (jump : Jump) (kind : NodeKind) : List Node → Emit Unit
  | [left, right] =>
    if kind = .op .and ∨ kind = .op .or then
      if (kind == .op .or) == jump.onTrue then do
        emitCondition ctx jump left
        emitCondition ctx jump right
      else do
        let join ← Emit.fresh LabelCounters.nextJoin
        emitCondition ctx ⟨!jump.onTrue, join⟩ left
        emitCondition ctx jump right
        .label join
    else .invalid kind .logicalOperator
  | _ => .invalid kind .logicalOperator
termination_by structural nodes => nodes

end

end MiniGo.Emission
