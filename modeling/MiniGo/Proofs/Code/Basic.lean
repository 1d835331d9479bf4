import MiniGo.Emission.Class
import MiniGo.Proofs.WellTyped.Basic

/-!
# The code of a well-typed tree

For each kind of node, the code that belongs to it. The relations between nodes and code do not
speak about how code is emitted; that well-typed nodes get this code is shown elsewhere.

* `ValueCode`, `ArgumentsCode`: instructions that push a value, or values of given types.
* `ConditionCode`: lines that jump in one case and fall through in the other.
* `PlaceCode`: how a target is stored into, as instructions before and after its value.
* `StmtCode`, `StmtsCode`: lines that run a statement.

Labels are numbered along the way: a relation on lines has the counters before and after them.
-/

namespace MiniGo

/-! ### Single variables -/

/-- The lines of instructions. -/
abbrev asLines (instrs : List Instr) : List Line := instrs.map .instr

namespace Context

/-- The frame of a context is that of a scope: the initializer of the class for the globals, and the
method of its function for any other scope. -/
def StandsIn (ctx : Context) : Scope → Prop
  | .globals => ctx.frame = .initializer
  | .function i =>
    ∃ f, ctx.tables.functions.get? i = some f ∧ ctx.frame = .ofFunction i f.isEntryPoint

/-- The static field of a variable. -/
def fieldOf (ctx : Context) (x : Variable) : FieldRef :=
  ⟨ctx.options.className, .named x.name, x.descriptor⟩

/-- The static field of a result. -/
def resultOf (ctx : Context) (f : Function) (i : Nat) (ty : Ty) : FieldRef :=
  ⟨ctx.options.className, .result f.name i, ty.descriptor⟩

/-- The instruction that pushes a variable. -/
def loadInstr (ctx : Context) (v : VarRef) (x : Variable) : Instr :=
  match v.scope with
  | .globals => .getStatic (ctx.fieldOf x)
  | .function _ => .load x.ty.valueKind (ctx.frame.slot v.slot)

/-- The instruction that pops a variable. -/
def storeInstr (ctx : Context) (v : VarRef) (x : Variable) : Instr :=
  match v.scope with
  | .globals => .putStatic (ctx.fieldOf x)
  | .function _ => .store x.ty.valueKind (ctx.frame.slot v.slot)

/-- The instructions that push the address of an array element. -/
def addressCode (ctx : Context) (v : VarRef) (x : Variable) (k : Nat) : List Instr :=
  [ctx.loadInstr v x, .ldc (.int k)]

end Context

/-- The conversion of a value to a type. -/
def convertCode (value wanted : Ty) : List Instr :=
  if value = .int ∧ wanted = .float then [.intToFloat] else []

/-- The instruction that pushes the zero value of a type. -/
def zeroInstr : Ty → Instr
  | .int | .bool => .intConst false
  | .float => .floatZero
  | .string => .ldc (.string "")
  | .array | .null | .noType => .nullConst

/-- The instructions that push the zero value of a variable, or a new array. -/
def defaultCode (x : Variable) : List Instr :=
  match x.array? with
  | some shape => [.ldc (.int shape.length), .newArray shape.element.arrayType]
  | none => [zeroInstr x.ty]

/-- The instructions that push a value from the input. -/
def scanCode (method : MethodRef) : List Instr :=
  [.newObject Library.scannerClass, .dup, .getStatic Library.standardInput,
    .invokeSpecial (Library.constructor Library.scannerClass [Library.standardInput.descriptor]),
    .invokeVirtual method]

/-- The instructions of a call around those of its arguments. -/
def callCode (ctx : Context) (f : Function) (args : List Instr) : List Instr :=
  (if f.isEntryPoint then [.nullConst] else []) ++ args ++
    [.invokeStatic ⟨ctx.options.className, f.signature⟩]

/-! ### Values -/

mutual

/-- Instructions that push the value of a node. -/
inductive ValueCode (ctx : Context) (s : Scope) : Node → List Instr → Prop
  | int {i : Int} {ty : Ty} (fits : Analysis.fitsInt i = true) (number : ty.isNumeric = true) :
      ValueCode ctx s (.mk (.intVal i) ty []) [.ldc (Emission.intConstant i ty)]
  | float {x : Binary32} : ValueCode ctx s (.mk (.floatVal x) .float []) [.ldc (.float x)]
  | bool {b : Bool} : ValueCode ctx s (.mk (.boolVal b) .bool []) [.intConst b]
  | string {text : String} : ValueCode ctx s (.mk (.strVal text) .string []) [.ldc (.string text)]
  | name {v : VarRef} {x : Variable} (sees : s.Sees v) (entry : ctx.tables.var? v = some x)
      (scalar : x.ty.isScalar = true) :
      ValueCode ctx s (.mk (.varUse v) x.ty []) [ctx.loadInstr v x]
  | element {v : VarRef} {x : Variable} {shape : ArrayShape} {k : Nat} (sees : s.Sees v)
      (entry : ctx.tables.var? v = some x) (array : x.array? = some shape)
      (bound : k < shape.length) :
      ValueCode ctx s (.mk (.arrayUse v k) shape.element [])
        (ctx.addressCode v x k ++ [.elementLoad shape.element.elementKind])
  | arithmetic {o : BinaryOp} {op : ArithOp} {ty : Ty} {left right : Node} {l r : List Instr}
      (family : o.arith? = some op) (number : ty.isNumeric = true)
      (takesLeft : ty.Takes left.ty) (takesRight : ty.Takes right.ty)
      (leftCode : ValueCode ctx s left l) (rightCode : ValueCode ctx s right r) :
      ValueCode ctx s (.mk (.op o) ty [left, right])
        (l ++ convertCode left.ty ty ++ r ++ convertCode right.ty ty ++ [.arith ty.valueKind op])
  | concat {left right : Node} {l r : List Instr} (leftString : left.ty = .string)
      (rightString : right.ty = .string) (leftCode : ValueCode ctx s left l)
      (rightCode : ValueCode ctx s right r) :
      ValueCode ctx s (.mk (.op .add) .string [left, right])
        (l ++ r ++ [.invokeVirtual Library.concat])
  | call {i : Nat} {f : Function} {ty : Ty} {args : List Node} {code : List Instr}
      (callee : ctx.tables.functions.get? i = some f) (result : f.returns = [ty])
      (types : args.map Node.ty = f.params) (argsCode : ArgumentsCode ctx s args f.params code) :
      ValueCode ctx s (.mk (.call i) ty args)
        (callCode ctx f code ++ [.getStatic (ctx.resultOf f 0 ty)])

/-- Instructions that push the values of nodes, each converted to a type. -/
inductive ArgumentsCode (ctx : Context) (s : Scope) : List Node → List Ty → List Instr → Prop
  | nil : ArgumentsCode ctx s [] [] []
  | cons {arg : Node} {args : List Node} {ty : Ty} {tys : List Ty} {code rest : List Instr}
      (takes : ty.Takes arg.ty) (first : ValueCode ctx s arg code)
      (others : ArgumentsCode ctx s args tys rest) :
      ArgumentsCode ctx s (arg :: args) (ty :: tys) (code ++ convertCode arg.ty ty ++ rest)

end

/-! ### Conditions -/

/-- The instructions that compare two values of a type and jump. -/
def compareCode (o : BinaryOp) (ty : Ty) (code : CondCode) (target : Label) : List Instr :=
  match ty with
  | .float => [.floatCompare (o == .lt || o == .le), .ifZero code target]
  | .string => [.invokeVirtual Library.compareTo, .ifZero code target]
  | _ => [.ifCompare code target]

/-- The condition under which a comparison jumps. -/
def Emission.Jump.code (jump : Emission.Jump) (code : CondCode) : CondCode :=
  if jump.onTrue then code else code.negate

open Emission (Jump)

/-- Lines that jump if a condition is as the jump says, and fall through if not. -/
inductive ConditionCode (ctx : Context) (s : Scope) :
    Jump → LabelCounters → Node → List Line → LabelCounters → Prop
  | value {jump : Jump} {c : LabelCounters} {n : Node} {code : List Instr}
      (truth : n.ty = .bool) (valueCode : ValueCode ctx s n code) :
      ConditionCode ctx s jump c n
        (asLines (code ++ [.ifZero (if jump.onTrue then .ne else .eq) jump.target])) c
  | comparison {jump : Jump} {c : LabelCounters} {o : BinaryOp} {code : CondCode} {ty : Ty}
      {left right : Node} {l r : List Instr} (family : o.condCode? = some code)
      (comparable : ty.isComparable = true) (takesLeft : ty.Takes left.ty)
      (takesRight : ty.Takes right.ty) (leftCode : ValueCode ctx s left l)
      (rightCode : ValueCode ctx s right r) :
      ConditionCode ctx s jump c (.mk (.op o) ty [left, right])
        (asLines (l ++ convertCode left.ty ty ++ r ++ convertCode right.ty ty ++
          compareCode o ty (jump.code code) jump.target)) c
  | both {jump : Jump} {c c' c'' : LabelCounters} {o : BinaryOp} {left right : Node}
      {l r : List Line} (family : o = if jump.onTrue then .or else .and)
      (leftCode : ConditionCode ctx s jump c left l c')
      (rightCode : ConditionCode ctx s jump c' right r c'') :
      ConditionCode ctx s jump c (.mk (.op o) .bool [left, right]) (l ++ r) c''
  | skip {jump : Jump} {c c' c'' : LabelCounters} {o : BinaryOp} {left right : Node}
      {l r : List Line} (family : o = if jump.onTrue then .and else .or)
      (leftCode : ConditionCode ctx s ⟨!jump.onTrue, .join c.joins⟩ c.nextJoin.2 left l c')
      (rightCode : ConditionCode ctx s jump c' right r c'') :
      ConditionCode ctx s jump c (.mk (.op o) .bool [left, right])
        (l ++ r ++ [.label (.join c.joins)]) c''

/-! ### Places -/

/-- How a target is stored into: instructions before those of the value, and instructions after
them. -/
inductive PlaceCode (ctx : Context) (s : Scope) : Node → List Instr → List Instr → Prop
  | name {v : VarRef} {x : Variable} (sees : s.Sees v) (entry : ctx.tables.var? v = some x)
      (scalar : x.ty.isScalar = true) :
      PlaceCode ctx s (.mk (.varUse v) x.ty []) [] [ctx.storeInstr v x]
  | declared {v : VarRef} {x : Variable} (own : v.scope = s) (entry : ctx.tables.var? v = some x)
      (scalar : x.ty.isScalar = true) :
      PlaceCode ctx s (.mk (.varDecl v) x.ty []) [] [ctx.storeInstr v x]
  | element {v : VarRef} {x : Variable} {shape : ArrayShape} {k : Nat} (sees : s.Sees v)
      (entry : ctx.tables.var? v = some x) (array : x.array? = some shape)
      (bound : k < shape.length) :
      PlaceCode ctx s (.mk (.arrayUse v k) shape.element []) (ctx.addressCode v x k)
        [.elementStore shape.element.elementKind]

/-- Instructions that store the results of a function from the `i`-th on into targets. -/
inductive ResultsCode (ctx : Context) (s : Scope) (f : Function) :
    Nat → List Node → List Ty → List Instr → Prop
  | nil {i : Nat} : ResultsCode ctx s f i [] [] []
  | cons {i : Nat} {target : Node} {targets : List Node} {ty : Ty} {tys : List Ty}
      {before after rest : List Instr} (takes : target.ty.Takes ty)
      (result : f.returns[i]? = some ty) (place : PlaceCode ctx s target before after)
      (others : ResultsCode ctx s f (i + 1) targets tys rest) :
      ResultsCode ctx s f i (target :: targets) (ty :: tys)
        (before ++ [.getStatic (ctx.resultOf f i ty)] ++ convertCode ty target.ty ++ after ++ rest)

/-- The instructions that pop results into their fields, the last one first. -/
def resultStores (ctx : Context) (f : Function) (returns : List Ty) : List Instr :=
  (returns.mapIdx fun i ty => .putStatic (ctx.resultOf f i ty)).reverse

/-! ### Statements -/

mutual

/-- Lines that run a statement. In an else branch there is a label behind the whole chain, at which
a conditional statement there goes on. -/
inductive StmtCode (ctx : Context) (s : Scope) :
    Option Label → LabelCounters → Node → List Line → LabelCounters → Prop
  | declaration {exit? : Option Label} {c : LabelCounters} {v : VarRef} {x : Variable}
      (own : v.scope = s) (entry : ctx.tables.var? v = some x) :
      StmtCode ctx s exit? c (.mk (.varDecl v) x.ty [])
        (asLines (defaultCode x ++ [ctx.storeInstr v x])) c
  | assign {exit? : Option Label} {c : LabelCounters} {target value : Node}
      {before code after : List Instr} (takes : target.ty.Takes value.ty)
      (place : PlaceCode ctx s target before after) (valueCode : ValueCode ctx s value code) :
      StmtCode ctx s exit? c (.mk .assign .noType [target, value])
        (asLines (before ++ code ++ convertCode value.ty target.ty ++ after)) c
  | assignResults {exit? : Option Label} {c : LabelCounters} {i : Nat} {f : Function}
      {targets args : List Node} {code stores : List Instr}
      (callee : ctx.tables.functions.get? i = some f) (types : args.map Node.ty = f.params)
      (argsCode : ArgumentsCode ctx s args f.params code)
      (results : ResultsCode ctx s f 0 targets f.returns stores) :
      StmtCode ctx s exit? c
        (.mk .assign .noType [.mk .varList .noType targets, .mk (.call i) f.valueTy args])
        (asLines (callCode ctx f code ++ stores)) c
  | block {exit? : Option Label} {c c' : LabelCounters} {nodes : List Node} {lines : List Line}
      (body : StmtsCode ctx s c nodes lines c') :
      StmtCode ctx s exit? c (.mk .block .noType nodes) lines c'
  | cond {exit? : Option Label} {c c' c'' : LabelCounters} {body : List Node} {condition : Node}
      {jump lines : List Line}
      (conditionCode : ConditionCode ctx s ⟨false, exit?.getD (.endOf c.conds)⟩ c.nextCond.2
        condition jump c')
      (bodyCode : StmtsCode ctx s c' body lines c'') :
      StmtCode ctx s exit? c (.mk .cond .noType [.mk .block .noType body, condition])
        (jump ++ lines ++ if exit?.isNone then [.label (.endOf c.conds)] else []) c''
  | condElse {exit? : Option Label} {c c' c'' c''' : LabelCounters} {body : List Node}
      {otherwise condition : Node} {jump lines others : List Line}
      (conditionCode : ConditionCode ctx s ⟨false, .elseOf c.conds⟩ c.nextCond.2 condition jump c')
      (bodyCode : StmtsCode ctx s c' body lines c'')
      (otherwiseCode : StmtCode ctx s
        (some (exit?.getD (.endOf c.conds))) c'' otherwise others c''') :
      StmtCode ctx s exit? c (.mk .cond .noType [.mk .block .noType body, otherwise, condition])
        (jump ++ lines ++ [.instr (.goto (exit?.getD (.endOf c.conds))),
          .label (.elseOf c.conds)] ++
          others ++ if exit?.isNone then [.label (.endOf c.conds)] else []) c'''
  | loop {exit? : Option Label} {c c' c'' : LabelCounters} {body : List Node} {condition : Node}
      {jump lines : List Line}
      (conditionCode : ConditionCode ctx s ⟨false, .loopEnd c.loops⟩ c.nextLoop.2 condition jump c')
      (bodyCode : StmtsCode ctx s c' body lines c'') :
      StmtCode ctx s exit? c (.mk .repeat_ .noType [.mk .block .noType body, condition])
        ([.label (.loopTop c.loops)] ++ jump ++ lines ++
          [.instr (.goto (.loopTop c.loops)), .label (.loopEnd c.loops)]) c''
  | call {exit? : Option Label} {c : LabelCounters} {i : Nat} {f : Function} {args : List Node}
      {code : List Instr} (callee : ctx.tables.functions.get? i = some f)
      (types : args.map Node.ty = f.params)
      (argsCode : ArgumentsCode ctx s args f.params code) :
      StmtCode ctx s exit? c (.mk (.call i) f.valueTy args) (asLines (callCode ctx f code)) c
  | ret {exit? : Option Label} {c : LabelCounters} {i : Nat} {f : Function} {values : List Node}
      {code : List Instr} (own : s = .function i) (caller : ctx.tables.functions.get? i = some f)
      (valuesCode : ArgumentsCode ctx s values f.returns code) :
      StmtCode ctx s exit? c (.mk .ret .noType values)
        (asLines (code ++ resultStores ctx f f.returns ++ [.ret])) c
  | read {exit? : Option Label} {c : LabelCounters} {target : Node} {method : MethodRef}
      {before after : List Instr} (used : ∀ v, target.kind ≠ .varDecl v)
      (place : PlaceCode ctx s target before after)
      (scans : Library.scan? target.ty = some method) :
      StmtCode ctx s exit? c (.mk .read .noType [target])
        (asLines (before ++ scanCode method ++ after)) c
  | write {exit? : Option Label} {c : LabelCounters} {value : Node} {code : List Instr}
      (scalar : value.ty.isScalar = true) (valueCode : ValueCode ctx s value code) :
      StmtCode ctx s exit? c (.mk .write .noType [value])
        (asLines ([.getStatic Library.standardOutput] ++ code ++
          [.invokeVirtual (Library.println value.ty.descriptor)])) c

/-- Lines that run statements one after the other. -/
inductive StmtsCode (ctx : Context) (s : Scope) :
    LabelCounters → List Node → List Line → LabelCounters → Prop
  | nil {c : LabelCounters} : StmtsCode ctx s c [] [] c
  | cons {c c' c'' : LabelCounters} {node : Node} {nodes : List Node} {lines rest : List Line}
      (first : StmtCode ctx s none c node lines c') (others : StmtsCode ctx s c' nodes rest c'') :
      StmtsCode ctx s c (node :: nodes) (lines ++ rest) c''

end

end MiniGo
