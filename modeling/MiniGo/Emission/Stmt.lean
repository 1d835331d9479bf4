import MiniGo.Emission.Condition

/-!
# Code for statements

The code of a statement leaves the stack as it was.
-/

namespace MiniGo.Emission

/-! ### Assignments -/

/-- Stores a result of a call into a target. -/
def emitResultTarget (ctx : Context) (function : Nat) (returns : List Ty) (i : Nat)
    (target : Node) : Emit Unit := do
  let result := returns[i]?.getD .noType
  let field ← ctx.resultField function i
  match target.kind with
  | .varDecl v | .varUse v =>
    .instr (.getStatic field)
    emitConvert result target.ty
    emitStore ctx v
  | .arrayUse v offset =>
    emitElementAddress ctx v offset
    .instr (.getStatic field)
    emitConvert result target.ty
    emitElementStore target.ty
  | kind => .invalid kind .assignmentTarget

/-- Stores the results of a call from the `i`-th on into targets. -/
def emitResultTargetsFrom (ctx : Context) (function : Nat) (returns : List Ty) :
    Nat → List Node → Emit Unit
  | _, [] => pure ()
  | i, target :: targets => do
    emitResultTarget ctx function returns i target
    emitResultTargetsFrom ctx function returns (i + 1) targets

/-- Stores the results of a call into targets. -/
def emitResultTargets (ctx : Context) (function : Nat) (targets : List Node) : Emit Unit := do
  let f ← ctx.lookupFunction function
  emitResultTargetsFrom ctx function f.returns 0 targets

/-- The code of an assignment with a given target and value. -/
def emitAssign (ctx : Context) (kind : NodeKind) (children : List Node) : Emit Unit :=
  match children with
  | [target, value] =>
    match target.kind with
    | .varDecl v | .varUse v => do
      emitValueAs ctx value target.ty
      emitStore ctx v
    | .arrayUse v offset => do
      emitElementAddress ctx v offset
      emitValueAs ctx value target.ty
      emitElementStore target.ty
    | .varList =>
      match value.kind with
      | .call function => do
        emitCall ctx function value.children
        emitResultTargets ctx function target.children
      | valueKind => .invalid valueKind .resultAssignment
    | targetKind => .invalid targetKind .assignmentTarget
  | _ => .invalid kind .assignment

/-! ### Input and output -/

/-- The code of an output statement. -/
def emitWrite (ctx : Context) (kind : NodeKind) (children : List Node) : Emit Unit :=
  match children with
  | [value] => do
    .instr (.getStatic Library.standardOutput)
    emitValue ctx value
    .instr (.invokeVirtual (Library.println value.ty.descriptor))
  | _ => .invalid kind .write

/-- Pushes a value of a type that is read from the input. -/
def emitScan (ty : Ty) : Emit Unit := do
  let method ← .require (.invalidNode .read .scalarRead) (Library.scan? ty)
  .instr (.newObject Library.scannerClass)
  .instr .dup
  .instr (.getStatic Library.standardInput)
  .instr (.invokeSpecial
    (Library.constructor Library.scannerClass [Library.standardInput.descriptor]))
  .instr (.invokeVirtual method)

/-- The code of an input statement. -/
def emitRead (ctx : Context) (kind : NodeKind) (children : List Node) : Emit Unit :=
  match children with
  | [target] =>
    match target.kind with
    | .varUse v => do
      emitScan target.ty
      emitStore ctx v
    | .arrayUse v offset => do
      emitElementAddress ctx v offset
      emitScan target.ty
      emitElementStore target.ty
    | targetKind => .invalid targetKind .readTarget
  | _ => .invalid kind .readTarget

/-! ### Return -/

/-- Pops results into their fields, from the `n`-th down to the first. -/
def emitResultStores (ctx : Context) (function : Nat) : Nat → Emit Unit
  | 0 => pure ()
  | n + 1 => do
    .instr (.putStatic (← ctx.resultField function n))
    emitResultStores ctx function n

/-- The code of a return statement. All values are computed before the first is stored, since a call
in one of them may store results of the same function. -/
def emitReturn (ctx : Context) (kind : NodeKind) (values : List Node) : Emit Unit :=
  match ctx.frame.function? with
  | none => .invalid kind .initializer
  | some function => do
    let f ← ctx.lookupFunction function
    emitArguments ctx values f.returns
    emitResultStores ctx function values.length
    .instr .ret

/-! ### Statements -/

mutual

/-- The code of a statement. In an else branch, `exit?` is the label behind the whole chain, which a
conditional statement there continues. -/
def emitBranch (ctx : Context) (exit? : Option Label) : Node → Emit Unit
  | .mk kind _ children =>
    match kind with
    | .assign => emitAssign ctx kind children
    | .varDecl v => emitDefault ctx v
    | .block => emitStmts ctx children
    | .cond => emitIf ctx kind exit? children
    | .repeat_ => emitLoop ctx kind children
    | .call index => emitCall ctx index children
    | .ret => emitReturn ctx kind children
    | .read => emitRead ctx kind children
    | .write => emitWrite ctx kind children
    | _ => .invalid kind .statement
termination_by structural node => node

/-- The code of statements, in order. -/
def emitStmts (ctx : Context) : List Node → Emit Unit
  | [] => pure ()
  | node :: nodes => do
    emitBranch ctx none node
    emitStmts ctx nodes
termination_by structural nodes => nodes

/-- The code of the children of a node. -/
def emitBlock (ctx : Context) : Node → Emit Unit
  | .mk _ _ children => emitStmts ctx children
termination_by structural node => node

/-- The code of a conditional statement with given children. -/
def emitIf (ctx : Context) (kind : NodeKind) (exit? : Option Label) : List Node → Emit Unit
  | [body, condition] => do
    let labels ← Emit.fresh LabelCounters.nextCond
    let exit := exit?.getD labels.exit
    emitCondition ctx ⟨false, exit⟩ condition
    emitBlock ctx body
    if exit?.isNone then .label exit
  | [body, otherwise, condition] => do
    let labels ← Emit.fresh LabelCounters.nextCond
    let exit := exit?.getD labels.exit
    emitCondition ctx ⟨false, labels.elsePart⟩ condition
    emitBlock ctx body
    .instr (.goto exit)
    .label labels.elsePart
    emitBranch ctx (some exit) otherwise
    if exit?.isNone then .label exit
  | _ => .invalid kind .ifStatement
termination_by structural nodes => nodes

/-- The code of a loop with given children. -/
def emitLoop (ctx : Context) (kind : NodeKind) : List Node → Emit Unit
  | [body, condition] => do
    let labels ← Emit.fresh LabelCounters.nextLoop
    .label labels.top
    emitCondition ctx ⟨false, labels.exit⟩ condition
    emitBlock ctx body
    .instr (.goto labels.top)
    .label labels.exit
  | _ => .invalid kind .loop
termination_by structural nodes => nodes

end

/-- The code of a statement. -/
def emitStmt (ctx : Context) (node : Node) : Emit Unit := emitBranch ctx none node

end MiniGo.Emission
