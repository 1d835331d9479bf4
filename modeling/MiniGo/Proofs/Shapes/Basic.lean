import MiniGo.Proofs.ClassFile

/-!
# Shapes of the operand stack

A shape says of which kind each value on the operand stack is. A method is typed by an assignment of
shapes to its lines if each line finds the operands that it needs, and leaves what the next line
finds.

* `Instr.after`: the shape after an instruction, if it finds operands of exactly the kinds that it
  needs.
* `Method.TypedBy`: a method is typed by shapes, with nothing on the stack at labels, branches and
  returns.
* `flow`: the shape after lines. Following it from the empty stack gives the shapes of a whole
  method.
-/

namespace MiniGo

/-! ### Kinds -/

/-- The kind of a value on the operand stack. A truth value is an int. -/
inductive StackKind where
  | int
  | float
  | string
  | null
  | array (element : Descriptor)
  | object (className : String)
deriving DecidableEq, Repr

/-- What is on the operand stack, the top first. -/
abbrev Shape := List StackKind

namespace StackKind

/-- Which instructions load and store a value. -/
def valueKind : StackKind → ValueKind
  | int => .int
  | float => .float
  | string | null | array _ | object _ => .ref

end StackKind

namespace Descriptor

/-- The kind of a value that a descriptor stands for. -/
def kind? : Descriptor → Option StackKind
  | boolean | int => some .int
  | float => some .float
  | void => none
  | object className =>
    if className = Library.stringClass then some .string else some (.object className)
  | array element => some (.array element)

/-- Which instructions load and store an element of an array. -/
def elementKind? : Descriptor → Option ElementKind
  | boolean => some .byte
  | int => some .int
  | float => some .float
  | object _ | array _ => some .ref
  | void => none

/-- Whether a value of a kind may be passed where a descriptor stands. Null may be passed as any
reference. -/
def accepts (d : Descriptor) (k : StackKind) : Bool :=
  d.kind? == some k || (k == .null && (d.kind?.map StackKind.valueKind) == some .ref)

end Descriptor

/-- The descriptor of the elements of a new array. -/
def ArrayType.descriptor : ArrayType → Descriptor
  | boolean => .boolean
  | int => .int
  | float => .float
  | string => .string

/-! ### Instructions -/

/-- What an instruction can refer to: the class with its fields and methods, and the kinds of local
slots. -/
structure MethodEnv where
  cls : ClassFile
  locals : Nat → Option StackKind

namespace Library

/-- The methods of the library that are called on an object. -/
def virtualMethods : List MethodRef :=
  [.boolean, .int, .float, .string].map println ++ [concat, compareTo] ++
    [.int, .float, .bool, .string].filterMap scan?

/-- The constructors of the library. -/
def constructors : List MethodRef :=
  [constructor objectClass [], constructor scannerClass [standardInput.descriptor]]

/-- The fields of the library. -/
def fields : List FieldRef := [standardOutput, standardInput]

end Library

/-- Takes arguments from the stack, those of the last descriptor first. -/
def popArguments : List Descriptor → Shape → Option Shape
  | [], shape => some shape
  | d :: ds, k :: shape => if d.accepts k then popArguments ds shape else none
  | _ :: _, [] => none

/-- Takes the object that a method is called on. -/
def popReceiver (owner : String) : Shape → Option Shape
  | k :: shape => if (Descriptor.object owner).kind? = some k then some shape else none
  | [] => none

/-- Puts a result on the stack, unless there is none. -/
def pushResult (d : Descriptor) (shape : Shape) : Shape := d.kind?.toList ++ shape

namespace Instr

/-- The shape after an instruction, if it finds operands of exactly the kinds that it needs.
Branches and returns need a stack with nothing else on it. A constructor is called on an object of
its class, or as that of the superclass. -/
def after (env : MethodEnv) : Instr → Shape → Option Shape
  | ldc (.int _), shape => some (.int :: shape)
  | ldc (.float _), shape => some (.float :: shape)
  | ldc (.string _), shape => some (.string :: shape)
  | intConst _, shape => some (.int :: shape)
  | floatZero, shape => some (.float :: shape)
  | nullConst, shape => some (.null :: shape)
  | load kind slot, shape =>
    match env.locals slot with
    | some k => if k.valueKind = kind then some (k :: shape) else none
    | none => none
  | store kind slot, k :: shape =>
    if env.locals slot = some k ∧ k.valueKind = kind then some shape else none
  | loadThis, shape =>
    match env.locals 0 with
    | some (.object className) => some (.object className :: shape)
    | _ => none
  | elementLoad kind, .int :: .array d :: shape =>
    if d.elementKind? = some kind then d.kind?.map (· :: shape) else none
  | elementStore kind, k :: .int :: .array d :: shape =>
    if d.elementKind? = some kind ∧ d.kind? = some k then some shape else none
  | getStatic f, shape =>
    if f ∈ Library.fields ∨ env.cls.hasField f = true then some (pushResult f.descriptor shape)
      else none
  | putStatic f, k :: shape =>
    if env.cls.hasField f = true ∧ f.descriptor.kind? = some k then some shape else none
  | invokeStatic m, shape =>
    if (env.cls.method? m).isSome then
      (popArguments m.signature.type.params.reverse shape).map
        (pushResult m.signature.type.result)
    else none
  | invokeVirtual m, shape =>
    if m ∈ Library.virtualMethods then
      ((popArguments m.signature.type.params.reverse shape).bind (popReceiver m.owner)).map
        (pushResult m.signature.type.result)
    else none
  | invokeSpecial m, shape =>
    if m ∈ Library.constructors then
      (popArguments m.signature.type.params.reverse shape).bind fun
        | .object className :: shape =>
          if className = m.owner ∨ m.owner = Library.objectClass then some shape else none
        | _ => none
    else none
  | newObject className, shape => some (.object className :: shape)
  | newArray type, .int :: shape => some (.array type.descriptor :: shape)
  | dup, k :: shape => some (k :: k :: shape)
  | arith .int _, .int :: .int :: shape => some (.int :: shape)
  | arith .float _, .float :: .float :: shape => some (.float :: shape)
  | intToFloat, .int :: shape => some (.float :: shape)
  | floatCompare _, .float :: .float :: shape => some (.int :: shape)
  | ifCompare _ _, [.int, .int] => some []
  | ifZero _ _, [.int] => some []
  | goto _, [] => some []
  | ret, [] => some []
  | _, _ => none

/-- The label to which an instruction can branch. -/
def target? : Instr → Option Label
  | ifCompare _ l | ifZero _ l | goto l => some l
  | _ => none

end Instr

/-- The shape after a line. Nothing is on the stack at a label. -/
def Line.after (env : MethodEnv) : Line → Shape → Option Shape
  | .instr i, shape => i.after env shape
  | .label _, [] => some []
  | .limitStack _, shape => some shape
  | .limitLocals _, shape => some shape
  | _, _ => none

/-! ### Methods -/

/-- A method is typed by an assignment of shapes to its lines: it starts with an empty stack, each
line leaves what the next one finds, each branch goes to a label of the method, with an empty stack
on both ways, and the last line is a return. -/
structure Method.TypedBy (env : MethodEnv) (m : Method) (shape : Nat → Shape) : Prop where
  start : shape 0 = []
  line : ∀ {pc l}, m.code[pc]? = some l → l.after env (shape pc) = some (shape (pc + 1))
  branch : ∀ {pc i l}, m.code[pc]? = some (.instr i) → i.target? = some l →
    shape (pc + 1) = [] ∧ ∃ k, m.code[k]? = some (.label l) ∧ shape k = []
  last : m.code.getLast? = some (.instr .ret)

/-! ### Following the shape -/

/-- The shape after lines. -/
def flow (env : MethodEnv) : List Line → Shape → Option Shape
  | [], shape => some shape
  | l :: ls, shape => (l.after env shape).bind (flow env ls)

section Flow

variable {env : MethodEnv} {shape shape' shape'' : Shape} {ls ms : List Line} {is js : List Instr}

theorem flow_append : flow env (ls ++ ms) shape = (flow env ls shape).bind (flow env ms) := by
  induction ls generalizing shape with
  | nil => rfl
  | cons l ls ih =>
    simp only [List.cons_append, flow, Option.bind_assoc]
    congr 1
    funext shape
    exact ih

/-- Lines lead from one shape to another. -/
def Flows (env : MethodEnv) (ls : List Line) (shape shape' : Shape) : Prop :=
  flow env ls shape = some shape'

theorem Flows.nil : Flows env [] shape shape := rfl

theorem Flows.append (h : Flows env ls shape shape') (h' : Flows env ms shape' shape'') :
    Flows env (ls ++ ms) shape shape'' := by
  unfold Flows at *
  rw [flow_append, h, Option.bind_some, h']

theorem Flows.line {l : Line} (h : l.after env shape = some shape') :
    Flows env [l] shape shape' := by
  simp [Flows, flow, h]

theorem Flows.instr {i : Instr} (h : i.after env shape = some shape') :
    Flows env (asLines [i]) shape shape' := .line h

/-- Instructions one after the other. -/
theorem Flows.code (h : Flows env (asLines is) shape shape')
    (h' : Flows env (asLines js) shape' shape'') :
    Flows env (asLines (is ++ js)) shape shape'' := by
  rw [asLines, List.map_append]
  exact h.append h'

/-- What can be followed through lines can be followed through the first of them. -/
theorem flow_take (h : Flows env ls shape shape') (pc : Nat) :
    ∃ shape'', Flows env (ls.take pc) shape shape'' ∧ Flows env (ls.drop pc) shape'' shape' := by
  rw [Flows, ← List.take_append_drop pc ls, flow_append] at h
  exact Option.bind_eq_some_iff.1 h

/-- One more line. -/
theorem flow_take_succ {pc : Nat} {l : Line} (h : ls[pc]? = some l) :
    flow env (ls.take (pc + 1)) shape = (flow env (ls.take pc) shape).bind (l.after env) := by
  obtain ⟨bound, rfl⟩ := List.getElem?_eq_some_iff.1 h
  rw [List.take_succ_eq_append_getElem bound, flow_append]
  congr 1
  funext shape
  simp [flow]

/-- Nothing is left on the stack after a branch. -/
theorem Instr.after_of_target? {i : Instr} {l : Label} (target : i.target? = some l)
    (h : i.after env shape = some shape') : shape' = [] := by
  cases i with
  | ifCompare code l =>
    unfold Instr.after at h
    split at h <;> simp_all
  | ifZero code l =>
    unfold Instr.after at h
    split at h <;> simp_all
  | goto l =>
    unfold Instr.after at h
    split at h <;> simp_all
  | _ => cases target

theorem Line.eq_nil_of_label {l : Label} (h : (Line.label l).after env shape = some shape') :
    shape = [] := by
  cases shape with
  | nil => rfl
  | cons k shape => cases h

/-- If the shape can be followed through a method that ends with a return, and its branches go to
labels of its own, it is typed by the shapes on the way. -/
theorem Method.typedBy_of_flows {m : Method} (h : Flows env m.code [] [])
    (targets : ∀ i l, .instr i ∈ m.code → i.target? = some l → .label l ∈ m.code)
    (last : m.code.getLast? = some (.instr .ret)) :
    m.TypedBy env fun pc => (flow env (m.code.take pc) []).getD [] := by
  have line {pc : Nat} {l : Line} (hl : m.code[pc]? = some l) :
      l.after env ((flow env (m.code.take pc) []).getD []) =
        some ((flow env (m.code.take (pc + 1)) []).getD []) := by
    obtain ⟨before, flows, -⟩ := flow_take h pc
    obtain ⟨behind, flows', -⟩ := flow_take h (pc + 1)
    rw [Flows] at flows flows'
    rw [flow_take_succ hl, flows, Option.bind_some] at flows'
    rw [flow_take_succ hl, flows, Option.bind_some, flows', Option.getD_some, Option.getD_some,
      flows']
  refine ⟨rfl, line, ?_, last⟩
  intro pc i l hi target
  refine ⟨Instr.after_of_target? target (line hi), ?_⟩
  obtain ⟨k, hk⟩ := List.mem_iff_getElem?.1 (targets i l (List.mem_of_getElem? hi) target)
  exact ⟨k, hk, Line.eq_nil_of_label (line hk)⟩

end Flow

end MiniGo
