import Mathlib.Logic.Relation
import MiniGo.Proofs.ClassFile
import MiniGo.Proofs.Meaning.Value

/-!
# The machine

What the instructions of a class do. The machine has static fields and a heap of arrays, which all
methods share, and a stack of activations. An activation has its own operand stack and local slots.

* `Instr.effect`: what an instruction does that neither branches nor calls a method of the class.
* `step`, `Reaches`: single steps and runs. A label and the limits of a method are passed without
  effect.
* `ClassFile.Executes`: a run of the initializer, if there is one, and then of the entry point.

A machine that cannot go on has no next state. This happens wherever an instruction finds something
else than it needs: an operand of another kind, a field that is not declared, an index out of
bounds, null in place of an object, and zero as a divisor.
-/

namespace MiniGo

/-! ### Data and memory -/

/-- A datum on the operand stack, in a local slot, a field or an array. -/
inductive Datum (P : Platform) where
  | int (i : BitVec 32)
  | float (x : P.Float)
  | text (t : P.Text)
  | null
  | array (address : Nat)
  | object (className : String)

/-- Which instructions load and store a datum. -/
def Datum.kind {P : Platform} : Datum P → ValueKind
  | int _ => .int
  | float _ => .float
  | text _ | null | array _ | object _ => .ref

/-- How the machine represents a value. A truth value is zero or one. -/
def Value.datum {P : Platform} : Value P → Datum P
  | .int i => .int i
  | .float x => .float x
  | .bool b => .int (if b then 1 else 0)
  | .text t => .text t
  | .null => .null

/-- Which instructions load and store the elements of an array. -/
def ArrayType.elementKind : ArrayType → ElementKind
  | boolean => .byte
  | int => .int
  | float => .float
  | string => .ref

/-- The kind of a datum that is stored into an array. -/
def ElementKind.valueKind : ElementKind → ValueKind
  | byte | int => .int
  | float => .float
  | ref => .ref

/-- What a field holds before anything is stored there. -/
def Descriptor.initial {P : Platform} : Descriptor → Datum P
  | boolean | int => .int 0
  | float => .float (P.floatConstant .zero)
  | void | object _ | array _ => .null

/-- An array on the heap. -/
structure ArrayObject (P : Platform) where
  type : ArrayType
  elements : List (Datum P)

/-- What a field is found by: its name as it is written. -/
structure FieldKey where
  owner : String
  name : String
  descriptor : Descriptor
deriving DecidableEq

/-- The key of a field. -/
def FieldRef.key (f : FieldRef) : FieldKey := ⟨f.owner, f.name.text, f.descriptor⟩

/-- What all activations share. The output has the last value first. -/
structure Memory (P : Platform) where
  statics : FieldKey → Datum P
  heap : List (ArrayObject P)
  input : P.Input
  output : List (Value P)

/-- What a single instruction works on. -/
structure Work (P : Platform) where
  stack : List (Datum P)
  locals : Nat → Option (Datum P)
  memory : Memory P

section

variable {P : Platform}

/-! ### Instructions -/

namespace Memory

/-- Stores into a field. -/
def put (mem : Memory P) (f : FieldRef) (d : Datum P) : Memory P :=
  { mem with statics := Function.update mem.statics f.key d }

/-- Puts a new array on the heap. -/
def allocate (mem : Memory P) (object : ArrayObject P) : Memory P :=
  { mem with heap := mem.heap ++ [object] }

/-- Prints a value. -/
def print (mem : Memory P) (v : Value P) : Memory P := { mem with output := v :: mem.output }

end Memory

/-- The datum of a constant. -/
def Constant.datum : Constant → Datum P
  | .int i => .int (.ofInt 32 i)
  | .float x => .float (P.floatConstant x)
  | .string text => .text (P.textConstant text)

/-- The result of a comparison as a number. -/
def Ordering.word : Ordering → BitVec 32
  | .lt => -1
  | .eq => 0
  | .gt => 1

/-- Whether a condition holds for numbers in a given order. -/
def CondCode.holds : CondCode → Ordering → Bool
  | .eq, o => o == .eq
  | .ne, o => o != .eq
  | .lt, o => o == .lt
  | .ge, o => o != .lt
  | .gt, o => o == .gt
  | .le, o => o != .gt

/-- An operation on numbers. -/
def Datum.arith (kind : ValueKind) (op : ArithOp) : Datum P → Datum P → Option (Datum P)
  | .int i, .int j => if kind = .int then (intArith op i j).map .int else none
  | .float x, .float y => if kind = .float then some (.float (P.floatArith op x y)) else none
  | _, _ => none

/-- What is printed for a datum that is passed where a descriptor stands. -/
def Datum.printed? : Descriptor → Datum P → Option (Value P)
  | .boolean, .int i => some (.bool (i != 0))
  | .int, .int i => some (.int i)
  | .float, .float x => some (.float x)
  | .object _, .text t => some (.text t)
  | .object _, .null => some .null
  | _, _ => none

/-- A method of the library that is called on an object. -/
def libraryCall (m : MethodRef) (stack : List (Datum P)) (mem : Memory P) :
    Option (List (Datum P) × Memory P) :=
  if m = Library.concat then
    match stack with
    | .text t :: .text s :: rest => some (.text (P.concat s t) :: rest, mem)
    | _ => none
  else if m = Library.compareTo then
    match stack with
    | .text t :: .text s :: rest => some (.int (P.compareTo s t) :: rest, mem)
    | _ => none
  else
    match [Descriptor.boolean, .int, .float, .string].find? (m == Library.println ·), stack with
    | some d, x :: .object className :: rest =>
      if className = m.owner then (x.printed? d).map fun v => (rest, mem.print v) else none
    | some _, _ => none
    | none, .object className :: rest =>
      if className = m.owner then
        match [Ty.int, .float, .bool, .string].find? (Library.scan? · == some m) with
        | some ty =>
          (Value.read ty mem.input).map fun (v, input) => (v.datum :: rest, { mem with input })
        | none => none
      else none
    | none, _ => none

/-- A constructor of the library. -/
def libraryConstruct (m : MethodRef) : List (Datum P) → Option (List (Datum P))
  | .object stream :: .object className :: rest =>
    if m = Library.constructor Library.scannerClass [.object stream] ∧
      className = m.owner then some rest
    else none
  | .object _ :: rest => if m = Library.constructor Library.objectClass [] then some rest else none
  | _ => none

/-- The object that a field of the library holds. -/
def Library.object? (f : FieldRef) : Option String :=
  if f = Library.standardOutput then some "java/io/PrintStream"
  else if f = Library.standardInput then some "java/io/InputStream"
  else none

/-- A datum as an array of an element type keeps it: a truth value is kept in one bit. -/
def ArrayType.kept : ArrayType → Datum P → Datum P
  | .boolean, .int i => .int (i &&& 1)
  | _, d => d

/-- What an array holds before anything is stored there. -/
def ArrayType.initial : ArrayType → Datum P
  | .boolean | .int => .int 0
  | .float => .float (P.floatConstant .zero)
  | .string => .null

/-- What an instruction does that neither branches nor calls a method of the class. -/
def Instr.effect (cls : ClassFile) : Instr → Work P → Option (Work P)
  | ldc c, s => some { s with stack := c.datum :: s.stack }
  | intConst b, s => some { s with stack := .int (if b then 1 else 0) :: s.stack }
  | floatZero, s => some { s with stack := .float (P.floatConstant .zero) :: s.stack }
  | nullConst, s => some { s with stack := .null :: s.stack }
  | load kind slot, s => do
    let d ← s.locals slot
    if d.kind = kind then some { s with stack := d :: s.stack } else none
  | store kind slot, ⟨d :: stack, locals, mem⟩ =>
    if d.kind = kind then some ⟨stack, Function.update locals slot (some d), mem⟩ else none
  | loadThis, s => do
    let d ← s.locals 0
    if d.kind = .ref then some { s with stack := d :: s.stack } else none
  | elementLoad kind, ⟨.int i :: .array a :: stack, locals, mem⟩ => do
    let object ← mem.heap[a]?
    let d ← object.elements[i.toNat]?
    if object.type.elementKind = kind then some ⟨d :: stack, locals, mem⟩ else none
  | elementStore kind, ⟨d :: .int i :: .array a :: stack, locals, mem⟩ => do
    let object ← mem.heap[a]?
    if object.type.elementKind = kind ∧ d.kind = kind.valueKind ∧
      i.toNat < object.elements.length then
      let elements := object.elements.set i.toNat (object.type.kept d)
      some ⟨stack, locals, { mem with heap := mem.heap.set a { object with elements } }⟩
    else none
  | getStatic f, s =>
    match Library.object? f with
    | some className => some { s with stack := .object className :: s.stack }
    | none =>
      if cls.hasField f then some { s with stack := s.memory.statics f.key :: s.stack } else none
  | putStatic f, ⟨d :: stack, locals, mem⟩ =>
    if cls.hasField f then some ⟨stack, locals, mem.put f d⟩ else none
  | invokeVirtual m, s => do
    let (stack, mem) ← libraryCall m s.stack s.memory
    return ⟨stack, s.locals, mem⟩
  | invokeSpecial m, s => do
    let stack ← libraryConstruct m s.stack
    return { s with stack }
  | newObject className, s => some { s with stack := .object className :: s.stack }
  | newArray type, ⟨.int n :: stack, locals, mem⟩ =>
    if n.toNat < arrayLimit then
      some ⟨.array mem.heap.length :: stack, locals,
        mem.allocate ⟨type, .replicate n.toNat type.initial⟩⟩
    else none
  | dup, ⟨d :: stack, locals, mem⟩ => some ⟨d :: d :: stack, locals, mem⟩
  | arith kind op, ⟨r :: l :: stack, locals, mem⟩ => do
    let d ← Datum.arith kind op l r
    return ⟨d :: stack, locals, mem⟩
  | intToFloat, ⟨.int i :: stack, locals, mem⟩ =>
    some ⟨.float (P.floatOfInt i) :: stack, locals, mem⟩
  | floatCompare greater, ⟨.float y :: .float x :: stack, locals, mem⟩ =>
    let order := (P.floatOrder x y).getD (if greater then .gt else .lt)
    some ⟨.int (Ordering.word order) :: stack, locals, mem⟩
  | _, _ => none

/-! ### Activations -/

/-- A method that is being run. -/
structure Activation (P : Platform) where
  code : List Line
  pc : Nat
  stack : List (Datum P)
  locals : Nat → Option (Datum P)

namespace Activation

/-- Goes on with the next line. -/
def next (a : Activation P) : Activation P := { a with pc := a.pc + 1 }

/-- Whether a line is a label with a given text. -/
def isLabel (l : Label) : Line → Bool
  | .label l' => l'.text == l.text
  | _ => false

/-- Goes on at a label. -/
def jump (a : Activation P) (l : Label) : Option (Activation P) :=
  (a.code.findIdx? (isLabel l)).map fun pc => { a with pc }

/-- Goes on at a label or with the next line. -/
def branch (a : Activation P) (jumps : Bool) (l : Label) : Option (Activation P) :=
  if jumps then a.jump l else some a.next

end Activation

/-- A method at its start, with its arguments in the first slots. -/
def Method.activate (m : Method) (args : List (Datum P)) : Activation P :=
  ⟨m.code, 0, [], fun slot => args[slot]?⟩

/-- A state of the machine. The activation on top is the one that runs. -/
structure MachineState (P : Platform) where
  calls : List (Activation P)
  memory : Memory P

/-- An instruction in the activation on top. -/
def Instr.step (cls : ClassFile) (a : Activation P) (callers : List (Activation P)) (mem : Memory P)
    (i : Instr) : Option (MachineState P) :=
  match i, a.stack with
  | .goto l, _ => (a.jump l).map fun a => ⟨a :: callers, mem⟩
  | .ifZero code l, .int i :: stack =>
    ({ a with stack }.branch (code.holds (intOrder i 0)) l).map fun a => ⟨a :: callers, mem⟩
  | .ifCompare code l, .int j :: .int i :: stack =>
    ({ a with stack }.branch (code.holds (intOrder i j)) l).map fun a => ⟨a :: callers, mem⟩
  | .ret, _ => some ⟨callers, mem⟩
  | .invokeStatic m, stack => do
    let method ← cls.method? m
    let count := m.signature.type.params.length
    if count ≤ stack.length then
      let caller := { a.next with stack := stack.drop count }
      some ⟨method.activate (stack.take count).reverse :: caller :: callers, mem⟩
    else none
  | i, stack => do
    let s ← i.effect cls ⟨stack, a.locals, mem⟩
    return ⟨{ a.next with stack := s.stack, locals := s.locals } :: callers, s.memory⟩

/-- The next state. -/
def step (cls : ClassFile) (s : MachineState P) : Option (MachineState P) :=
  match s.calls with
  | [] => none
  | a :: callers =>
    match a.code[a.pc]? with
    | some (.instr i) => i.step cls a callers s.memory
    | some (.label _) | some (.limitStack _) | some (.limitLocals _) =>
      some ⟨a.next :: callers, s.memory⟩
    | _ => none

/-- A state is reached from another one in some number of steps. -/
def Reaches (cls : ClassFile) : MachineState P → MachineState P → Prop :=
  Relation.ReflTransGen fun s s' => step cls s = some s'

/-! ### Whole runs -/

/-- The memory before a class is initialized. -/
def Memory.start (input : P.Input) : Memory P where
  statics key := key.descriptor.initial
  heap := []
  input := input
  output := []

/-- A method runs to its end. -/
def Method.Completes (cls : ClassFile) (m : Method) (args : List (Datum P)) (mem mem' : Memory P) :
    Prop :=
  Reaches cls ⟨[m.activate args], mem⟩ ⟨[], mem'⟩

namespace ClassFile

/-- The initializer of a class. -/
def initializer? (cls : ClassFile) : Option Method :=
  cls.methods.find? fun m =>
    m.access == .initializer && m.signature == Emission.initializerSignature

/-- The initializer of a class runs to its end, if there is one. -/
def Initializes (cls : ClassFile) (mem mem' : Memory P) : Prop :=
  match cls.initializer? with
  | some m => m.Completes cls [] mem mem'
  | none => mem' = mem

/-- A class is executed: after its initializer, the entry point is run with an array of
arguments. -/
def Executes (cls : ClassFile) (arguments : List P.Text) (input : P.Input) (mem : Memory P) :
    Prop :=
  ∃ main initialized, cls.method? ⟨cls.name, mainName, [.array .string], .void⟩ = some main ∧
    cls.Initializes (.start input) initialized ∧
    main.Completes cls [.array initialized.heap.length]
      (initialized.allocate ⟨.string, arguments.map .text⟩) mem

end ClassFile

/-! ### Runs are determined -/

/-- Runs to states without a next one end in the same state. -/
theorem Reaches.unique {cls : ClassFile} {s s₁ s₂ : MachineState P} (h₁ : Reaches cls s s₁)
    (h₂ : Reaches cls s s₂) (end₁ : step cls s₁ = none) (end₂ : step cls s₂ = none) : s₁ = s₂ := by
  induction h₁ using Relation.ReflTransGen.head_induction_on with
  | refl =>
    rcases Relation.ReflTransGen.cases_head h₂ with rfl | ⟨s', first, -⟩
    · rfl
    · rw [end₁] at first
      cases first
  | head first _ ih =>
    rcases Relation.ReflTransGen.cases_head h₂ with rfl | ⟨s', first', rest⟩
    · rw [end₂] at first
      cases first
    · rw [first] at first'
      cases first'
      exact ih rest

theorem Method.Completes.unique {cls : ClassFile} {m : Method} {args : List (Datum P)}
    {mem mem₁ mem₂ : Memory P} (h₁ : m.Completes cls args mem mem₁)
    (h₂ : m.Completes cls args mem mem₂) :
    mem₁ = mem₂ := by
  have same := Reaches.unique h₁ h₂ rfl rfl
  injection same

/-- An execution ends in one memory only. -/
theorem ClassFile.Executes.unique {cls : ClassFile} {arguments : List P.Text} {input : P.Input}
    {mem₁ mem₂ : Memory P} (h₁ : cls.Executes arguments input mem₁)
    (h₂ : cls.Executes arguments input mem₂) : mem₁ = mem₂ := by
  obtain ⟨main, start₁, found, init₁, run₁⟩ := h₁
  obtain ⟨main', start₂, found', init₂, run₂⟩ := h₂
  rw [found] at found'
  cases found'
  have start : start₁ = start₂ := by
    unfold Initializes at init₁ init₂
    cases h : cls.initializer? with
    | some m =>
      rw [h] at init₁ init₂
      exact Method.Completes.unique init₁ init₂
    | none =>
      rw [h] at init₁ init₂
      exact init₁.trans init₂.symm
  subst start
  exact run₁.unique run₂

end

end MiniGo
