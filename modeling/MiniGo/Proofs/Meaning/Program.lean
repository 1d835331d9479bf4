import Mathlib.Logic.Function.Basic
import MiniGo.Analyzer.Program
import MiniGo.Emission.Class
import MiniGo.Proofs.Meaning.Value

/-!
# The meaning of a program

A big-step semantics of typed trees. Variables are local to an activation of a function or shared by
all, and results are returned by value. Operands, arguments and statements go from left to right,
and each operand is converted to the type that its node has.

* `evalValue`, `evalArguments`, `evalCondition`: the values of nodes, given what calls do.
* `execStmt`, `execStmts`, `callFunction`: what statements and calls do. The fuel bounds how deep
  they go.
* `Program.run`: the global statements and then the entry point.

A result `none` means that the fuel is used up, or that the program is stuck: at a variable without
a value, at a null string in an operation, at a division by zero, at a failing read, at the
declaration of an array that is too long, or at the end of a function that has results but does not
return any.
-/

namespace MiniGo

/-- What all activations share. The output has the last value first. -/
structure World (P : Platform) where
  globals : Nat → Cell P
  input : P.Input
  output : List (Value P) := []

/-- What a call does: from arguments to results. -/
abbrev Call (P : Platform) := Nat → List (Value P) → World P → Option (List (Value P) × World P)

section

variable {P : Platform}

/-- The cell of a variable. -/
def World.cell (w : World P) (locals : Nat → Cell P) (v : VarRef) : Cell P :=
  match v.scope with
  | .globals => w.globals v.slot
  | .function _ => locals v.slot

/-! ### Values and conditions -/

mutual

/-- The value of a node. -/
def evalValue (t : Tables) (call : Call P) (locals : Nat → Cell P) :
    Node → World P → Option (Value P × World P)
  | .mk kind ty children, w =>
    match kind with
    | .intVal i => some (.literal i ty, w)
    | .floatVal x => some (.float (P.floatConstant x), w)
    | .boolVal b => some (.bool b, w)
    | .strVal text => some (.text (P.textConstant text), w)
    | .varUse v => (w.cell locals v).value?.map (·, w)
    | .arrayUse v k => ((w.cell locals v).element? k).map (·, w)
    | .op o => do
      let op ← o.arith?
      match ← evalArguments t call locals children [ty, ty] w with
      | ([l, r], w) => (Value.arith op ty l r).map (·, w)
      | _ => none
    | .call i => do
      let f ← t.functions.get? i
      let (args, w) ← evalArguments t call locals children f.params w
      match ← call i args w with
      | ([v], w) => some (v, w)
      | _ => none
    | _ => none
termination_by structural node => node

/-- The values of nodes, each converted to a type. -/
def evalArguments (t : Tables) (call : Call P) (locals : Nat → Cell P) :
    List Node → List Ty → World P → Option (List (Value P) × World P)
  | [], [], w => some ([], w)
  | node :: nodes, ty :: tys, w => do
    let (v, w) ← evalValue t call locals node w
    let v ← v.convert node.ty ty
    let (vs, w) ← evalArguments t call locals nodes tys w
    return (v :: vs, w)
  | _, _, _ => none
termination_by structural nodes => nodes

end

mutual

/-- The truth value of a condition. -/
def evalCondition (t : Tables) (call : Call P) (locals : Nat → Cell P) :
    Node → World P → Option (Bool × World P)
  | .mk kind ty children, w =>
    match kind with
    | .op o =>
      if o.isLogical then evalLogical t call locals (o == .or) children w
      else do
        match ← evalArguments t call locals children [ty, ty] w with
        | ([l, r], w) => (Value.order ty l r).map fun order => (o.holds order, w)
        | _ => none
    | _ => do
      let (v, w) ← evalValue t call locals (.mk kind ty children) w
      return (← v.truth?, w)
termination_by structural node => node

/-- The truth value of two conditions. The second one is left out if the first one decides. -/
def evalLogical (t : Tables) (call : Call P) (locals : Nat → Cell P) (decides : Bool) :
    List Node → World P → Option (Bool × World P)
  | [left, right], w => do
    let (b, w) ← evalCondition t call locals left w
    if b = decides then return (b, w) else evalCondition t call locals right w
  | _, _ => none
termination_by structural nodes => nodes

end

/-! ### Statements -/

/-- The variables that a statement can change. -/
structure Store (P : Platform) where
  locals : Nat → Cell P
  world : World P

/-- How a statement ends: the next one follows, or the function returns. -/
inductive Flow (P : Platform) where
  | next
  | returned (results : List (Value P))

namespace Store

/-- The cell of a variable. -/
def cell (σ : Store P) (v : VarRef) : Cell P := σ.world.cell σ.locals v

/-- Replaces the cell of a variable. -/
def setCell (σ : Store P) (v : VarRef) (c : Cell P) : Store P :=
  match v.scope with
  | .globals => { σ with world.globals := Function.update σ.world.globals v.slot c }
  | .function _ => { σ with locals := Function.update σ.locals v.slot c }

/-- Stores a value into a target. -/
def assign (σ : Store P) (target : Node) (value : Value P) : Option (Store P) :=
  match target.kind with
  | .varDecl v | .varUse v => some (σ.setCell v (.scalar value))
  | .arrayUse v k => ((σ.cell v).setElement? k value).map (σ.setCell v)
  | _ => none

/-- Stores results of given types into targets, each converted to the type of its target. -/
def assignResults (σ : Store P) : List Node → List Ty → List (Value P) → Option (Store P)
  | [], [], [] => some σ
  | target :: targets, ty :: tys, v :: vs => do
    let v ← v.convert ty target.ty
    let σ ← σ.assign target v
    assignResults σ targets tys vs
  | _, _, _ => none

end Store

end

/-- The statements of a program outside of its functions. -/
def Program.globalStatements (p : Program) : List Node :=
  p.root.children.filter (!Emission.isFunction ·)

/-- The body of a function of a program. -/
def Program.body? (p : Program) (i : Nat) : Option Node :=
  p.root.children.findSome? fun
    | .mk (.function j) _ [body] => if j = i then some body else none
    | _ => none

section

variable {P : Platform} (p : Program)

/-- The variables of a function at its start: the parameters are the first ones. -/
def Store.enter (args : List (Value P)) (w : World P) : Store P :=
  ⟨fun slot => (args[slot]?.map .scalar).getD .empty, w⟩

mutual

/-- Runs a statement of a function with results of given types. -/
def execStmt (returns : List Ty) : Nat → Node → Store P → Option (Flow P × Store P)
  | 0, _, _ => none
  | fuel + 1, .mk kind ty children, σ =>
    match kind, children with
    | .varDecl v, _ => do
      let x ← p.tables.var? v
      return (.next, σ.setCell v (← Cell.declared? x))
    | .assign, [target, value] =>
      match target.kind, value.kind with
      | .varList, .call i => do
        let f ← p.tables.functions.get? i
        let (args, w) ← evalArguments p.tables (callFunction fuel) σ.locals value.children
          f.params σ.world
        let (results, w) ← callFunction fuel i args w
        return (.next,
          ← Store.assignResults { σ with world := w } target.children f.returns results)
      | _, _ => do
        let (v, w) ← evalValue p.tables (callFunction fuel) σ.locals value σ.world
        let v ← v.convert value.ty target.ty
        return (.next, ← Store.assign { σ with world := w } target v)
    | .block, nodes => execStmts returns fuel nodes σ
    | .cond, [body, condition] => do
      let (b, w) ← evalCondition p.tables (callFunction fuel) σ.locals condition σ.world
      if b then execStmt returns fuel body { σ with world := w }
      else return (.next, { σ with world := w })
    | .cond, [body, otherwise, condition] => do
      let (b, w) ← evalCondition p.tables (callFunction fuel) σ.locals condition σ.world
      execStmt returns fuel (if b then body else otherwise) { σ with world := w }
    | .repeat_, [body, condition] => do
      let (b, w) ← evalCondition p.tables (callFunction fuel) σ.locals condition σ.world
      if b then
        match ← execStmt returns fuel body { σ with world := w } with
        | (.next, σ) => execStmt returns fuel (.mk .repeat_ ty [body, condition]) σ
        | (.returned results, σ) => return (.returned results, σ)
      else return (.next, { σ with world := w })
    | .call i, args => do
      let f ← p.tables.functions.get? i
      let (args, w) ← evalArguments p.tables (callFunction fuel) σ.locals args f.params σ.world
      let (_, w) ← callFunction fuel i args w
      return (.next, { σ with world := w })
    | .ret, values => do
      let (results, w) ← evalArguments p.tables (callFunction fuel) σ.locals values returns σ.world
      return (.returned results, { σ with world := w })
    | .read, [target] => do
      let (v, input) ← Value.read target.ty σ.world.input
      return (.next, ← Store.assign { σ with world.input := input } target v)
    | .write, [value] => do
      let (v, w) ← evalValue p.tables (callFunction fuel) σ.locals value σ.world
      if v.isPrintable then return (.next, { σ with world := { w with output := v :: w.output } })
      else none
    | _, _ => none
termination_by structural fuel => fuel

/-- Runs statements in order, up to a return. -/
def execStmts (returns : List Ty) : Nat → List Node → Store P → Option (Flow P × Store P)
  | 0, _, _ => none
  | _ + 1, [], σ => some (.next, σ)
  | fuel + 1, node :: nodes, σ => do
    match ← execStmt returns fuel node σ with
    | (.next, σ) => execStmts returns fuel nodes σ
    | (.returned results, σ) => return (.returned results, σ)
termination_by structural fuel => fuel

/-- Calls a function: its variables are new, and its results are given back by value. -/
def callFunction : Nat → Call P
  | 0, _, _, _ => none
  | fuel + 1, i, args, w => do
    let f ← p.tables.functions.get? i
    let body ← p.body? i
    match ← execStmt f.returns fuel body (.enter args w) with
    | (.returned results, σ) => return (results, σ.world)
    | (.next, σ) => if f.returns.isEmpty then return ([], σ.world) else none
termination_by structural fuel => fuel

end

/-- The world before a program starts. -/
def Program.start (input : P.Input) : World P where
  globals slot := ((p.tables.globals.get? slot).map Cell.initial).getD .empty
  input := input

/-- Runs a program: its global statements and then its entry point. -/
def Program.run (fuel : Nat) (input : P.Input) : Option (World P) := do
  let (_, σ) ← execStmts p [] fuel p.globalStatements ⟨fun _ => .empty, p.start input⟩
  let main ← p.tables.functions.entries.findIdx? Function.isEntryPoint
  let (_, w) ← callFunction p fuel main [] σ.world
  return w

end

end MiniGo
