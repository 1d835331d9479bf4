import MiniGo.Emission.Stmt

/-!
# Code for a program

A program becomes a class: a static field for each global variable and each result of a function, a
constructor, an initializer that runs the global statements, and a static method for each function.
-/

namespace MiniGo.Emission

/-- Writes lines, in order. -/
def emitLines : List Line → Emit Unit
  | [] => pure ()
  | line :: lines => do
    .line line
    emitLines lines

/-! ### Header and constructor -/

/-- The fields of the results of a function. -/
def resultFields (f : Function) : List Line :=
  f.returns.mapIdx fun i ty => .field (.result f.name i) ty.descriptor

/-- The fields of a class. -/
def fieldLines (t : Tables) : List Line :=
  t.globals.entries.map (fun v => .field (.named v.name) v.descriptor)
    ++ t.functions.entries.flatMap resultFields

/-- The lines before the first method. -/
def headerLines (ctx : Context) : List Line :=
  let fields := fieldLines ctx.tables
  [.classHeader ctx.options.className, .superclass Library.objectClass, .blank]
    ++ fields ++ (if fields.isEmpty then [] else [.blank])

/-- The header of a class with all fields. -/
def emitHeader (ctx : Context) : Emit Unit := emitLines (headerLines ctx)

/-- The lines of the constructor. -/
def constructorLines : List Line :=
  let init := Library.constructor Library.objectClass []
  [.method .instance_ init.signature, .instr .loadThis, .instr (.invokeSpecial init), .instr .ret,
    .endMethod]

/-- The constructor of a class. -/
def emitConstructor : Emit Unit := emitLines constructorLines

/-! ### Methods -/

/-- The lines at the start of a method. -/
def methodStart (ctx : Context) (access : Access) (signature : Signature) (locals : Nat) :
    List Line :=
  [.blank, .method access signature, .limitStack ctx.options.stackLimit, .limitLocals locals]

/-- Runs code generation with all labels free. -/
def withFreshLabels (x : Emit Unit) : Emit Unit := fun labels =>
  let inner := x {}
  ⟨inner.lines, labels, inner.result⟩

/-- The signature of the initializer of a class. -/
def initializerSignature : Signature := ⟨"<clinit>", [], .void⟩

/-- The initializer of a class, which runs the global statements. -/
def emitInitializer (ctx : Context) (statements : List Node) : Emit Unit :=
  withFreshLabels do
    emitLines (methodStart ctx .initializer initializerSignature 1)
    emitStmts { ctx with frame := .initializer } statements
    emitLines [.instr .ret, .endMethod]

/-- Whether a list of statements ends with a return statement. -/
def endsWithReturn (statements : List Node) : Bool :=
  match statements.getLast? with
  | some last => last.kind == .ret
  | none => false

/-- The number of local slots of a method; there is always one. -/
def localCount (frame : Frame) (f : Function) : Nat := max (frame.base + f.vars.size) 1

/-- The method of a function with a given body. A return statement is added unless the body ends
with one. -/
def emitMethodBody (ctx : Context) (index : Nat) (body : Node) : Emit Unit := do
  let f ← ctx.lookupFunction index
  let frame := Frame.ofFunction index f.isEntryPoint
  emitLines (methodStart ctx .static_ f.signature (localCount frame f))
  emitBlock { ctx with frame } body
  if !endsWithReturn body.children then .instr .ret
  .line .endMethod

/-- The method of a function node. -/
def emitMethod (ctx : Context) (node : Node) : Emit Unit :=
  match node.kind, node.children with
  | .function index, [body] => withFreshLabels (emitMethodBody ctx index body)
  | kind, _ => .invalid kind .function

/-- The methods of function nodes, in order. -/
def emitMethods (ctx : Context) : List Node → Emit Unit
  | [] => pure ()
  | node :: nodes => do
    emitMethod ctx node
    emitMethods ctx nodes

/-! ### Programs -/

/-- Whether a node is a function. -/
def isFunction (node : Node) : Bool :=
  match node.kind with
  | .function _ => true
  | _ => false

/-- The class of a program node. -/
def emitProgram (ctx : Context) (program : Node) : Emit Unit :=
  if program.kind = .program then do
    let functions := program.children.filter isFunction
    let globals := program.children.filter (!isFunction ·)
    emitHeader ctx
    emitConstructor
    if !globals.isEmpty then emitInitializer ctx globals
    emitMethods ctx functions
  else .invalid program.kind .program

end MiniGo.Emission
