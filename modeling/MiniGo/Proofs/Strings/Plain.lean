import MiniGo.Proofs.Code.Program
import MiniGo.Proofs.Names.Functions
import MiniGo.Proofs.Names.Globals
import MiniGo.Proofs.Shapes.Basic

/-!
# Lines without line breaks

A line of assembly is put together from fixed text, numbers, and parts that come from elsewhere:
names of the program, the name of the class, labels and string constants. It has no line break if
these parts have none.

* `Plain`: a text without a line break.
* `Instr.names`, `Line.names`: the parts of an instruction and of a line that come from elsewhere.
* `Line.plain_text`: a line has no line break if these parts have none.
* `Library.plain_fields`, `Library.plain_virtualMethods`: nothing in the library has a line break in
  its name.
* `Context.Plain`: the names that code is generated with have no line breaks.
* `splitOn_render`: the lines of a text are those that were written.
-/

namespace MiniGo

/-! ### Texts -/

/-- A text without a line break. -/
def Plain (text : String) : Prop := '\n' ∉ text.toList

instance (text : String) : Decidable (Plain text) := inferInstanceAs (Decidable (¬ _))

section

variable {text text' : String}

@[simp] theorem plain_append : Plain (text ++ text') ↔ Plain text ∧ Plain text' := by simp [Plain]

@[simp] theorem plain_toString : Plain (toString text) ↔ Plain text := Iff.rfl

@[simp] theorem plain_ofList {cs : List Char} :
    Plain (String.ofList cs) ↔ '\n' ∉ cs := by simp [Plain]

@[simp] theorem plain_join {texts : List String} :
    Plain (String.join texts) ↔ ∀ text ∈ texts, Plain text := by
  simp [Plain]

-- Of low priority, so that only literals are looked into.
@[simp low] theorem plain_iff : Plain text ↔ '\n' ∉ text.toList := Iff.rfl

end

@[simp] theorem newline_notMem_toDigits (n : Nat) : '\n' ∉ Nat.toDigits 10 n := by
  intro mem
  cases Nat.isDigit_of_mem_toDigits (by decide) (by decide) mem

@[simp] theorem plain_natRepr (n : Nat) : Plain n.repr := by
  rw [Plain, Nat.toList_repr]
  exact newline_notMem_toDigits n

@[simp] theorem plain_intRepr (i : Int) : Plain i.repr := by
  rw [Int.repr_eq_if]
  split <;> simp

theorem NameText.plain_text {text : String} (h : NameText text) : Plain text := by
  intro mem
  cases h _ mem

/-! ### Numbers -/

theorem plain_pointedText (n places : Nat) : Plain (pointedText n places) := by
  unfold pointedText
  split <;> simp [decimalDigits]

namespace Binary32

theorem plain_textWith {finite : Nat → String} (h : ∀ m, Plain (finite m)) (x : Binary32) :
    Plain (x.textWith finite) := by
  have magnitude : Plain (if x.isFinite then finite x.magnitude else "inf") := by
    split
    · exact h _
    · simp
  unfold textWith
  split
  · simp
  · dsimp only
    split
    · exact plain_append.2 ⟨by simp, magnitude⟩
    · exact magnitude

theorem plain_literal (x : Binary32) : Plain x.literal := by
  refine plain_textWith (fun m => ?_) x
  split
  · simp
  · unfold Decimal.text
    split
    · exact plain_append.2 ⟨plain_pointedText _ _, by simp⟩
    · exact plain_pointedText _ _

end Binary32

/-! ### Lines -/

/-- The parts of an instruction that come from elsewhere. -/
def Instr.names : Instr → List String
  | ldc (.string text) => [text]
  | getStatic f | putStatic f => [f.text]
  | invokeStatic m | invokeVirtual m | invokeSpecial m => [m.text]
  | newObject className => [className]
  | ifCompare _ l | ifZero _ l | goto l => [l.text]
  | _ => []

/-- The parts of a line that come from elsewhere. -/
def Line.names : Line → List String
  | classHeader name | superclass name => [name]
  | field name descriptor => [name.text, descriptor.text]
  | method _ signature => [signature.text]
  | label l => [l.text]
  | instr i => i.names
  | _ => []

@[simp] theorem ValueKind.plain_letter (kind : ValueKind) : Plain kind.letter := by
  cases kind <;> simp [letter]

@[simp] theorem ElementKind.plain_letter (kind : ElementKind) : Plain kind.letter := by
  cases kind <;> simp [letter]

@[simp] theorem ArithOp.plain_text (op : ArithOp) : Plain op.text := by
  cases op <;> simp [text]

@[simp] theorem CondCode.plain_text (code : CondCode) : Plain code.text := by
  cases code <;> simp [text]

@[simp] theorem ArrayType.plain_opcode (type : ArrayType) : Plain type.opcode := by
  cases type <;> simp [opcode]

@[simp] theorem ArrayType.plain_operand (type : ArrayType) : Plain type.operand := by
  cases type <;> simp [operand, Library.stringClass]

/-- A numbered label has no line break. -/
theorem Label.plain_text {l : Label} (numbered : ∀ name, l ≠ .named name) : Plain l.text := by
  cases l with
  | named name => exact absurd rfl (numbered name)
  | _ => simp [text]

theorem Instr.plain_text {i : Instr} (h : ∀ name ∈ i.names, Plain name) : Plain i.text := by
  unfold text
  cases i with
  | ldc c =>
    cases c with
    | int => simp [Constant.text]
    | float x => simp [Constant.text, x.plain_literal]
    | string text => simpa [Constant.text, names] using h
  | intConst value => cases value <;> simp
  | floatCompare greater => cases greater <;> simp
  | getStatic | putStatic | invokeStatic | invokeVirtual | invokeSpecial | newObject | ifCompare
  | ifZero | goto =>
    simpa [names] using h
  | _ => simp

theorem Line.plain_text {l : Line} (h : ∀ name ∈ l.names, Plain name) : Plain l.text := by
  unfold text
  cases l with
  | instr i => exact plain_append.2 ⟨by simp, Instr.plain_text h⟩
  | method access signature =>
    have signature : Plain signature.text := by simpa [names] using h
    cases access <;> simpa [Access.text] using signature
  | classHeader | superclass | field | label => simpa [names] using h
  | _ => simp

/-! ### The library of the machine -/

namespace Library

theorem plain_fields : ∀ f ∈ fields, Plain f.text := by decide

theorem plain_virtualMethods : ∀ m ∈ virtualMethods, Plain m.text := by decide

theorem plain_constructors : ∀ m ∈ constructors, Plain m.text := by decide

end Library

/-! ### Names -/

@[simp] theorem Ty.plain_descriptor (ty : Ty) : Plain ty.descriptor.text := by
  cases ty <;> simp [descriptor, Descriptor.text, Descriptor.string]

@[simp] theorem Variable.plain_descriptor (x : Variable) : Plain x.descriptor.text := by
  unfold Variable.descriptor
  split <;> simp [Descriptor.text]

theorem plain_methodType (tys : List Ty) : Plain (methodType tys).text := by
  have params : Plain (String.join ((tys.map Ty.descriptor).map Descriptor.text)) := by
    refine plain_join.2 fun text mem => ?_
    rw [List.map_map] at mem
    obtain ⟨ty, -, rfl⟩ := List.mem_map.1 mem
    exact ty.plain_descriptor
  have result : Plain (methodType tys).result.text := by simp [methodType, Descriptor.text]
  exact plain_append.2 ⟨plain_append.2 ⟨plain_append.2 ⟨by simp, params⟩, by simp⟩, result⟩

theorem Function.plain_signature {f : Function} (h : Plain f.name) : Plain f.signature.text := by
  unfold signature
  split
  · simp [Signature.text, mainName, MethodType.text, Descriptor.text, Descriptor.string]
  · exact plain_append.2 ⟨h, plain_methodType _⟩

/-- The names that code is generated with have no line breaks. -/
structure Context.Plain (ctx : Context) : Prop where
  className : MiniGo.Plain ctx.options.className
  globals : ∀ x ∈ ctx.tables.globals.entries, MiniGo.Plain x.name
  functions : ∀ f ∈ ctx.tables.functions.entries, MiniGo.Plain f.name

/-- The names of a program have no line breaks. -/
theorem context_plain {source : String} {file : File} {p : Program}
    (parsed : File.parse source = .ok file) (analyzed : analyze file = .ok p) {options : Options}
    (className : Plain options.className) (frame : Frame) :
    (p.context options frame).Plain where
  className := className
  globals x mem := (globals_nameText parsed analyzed x mem).plain_text
  functions f mem := (functions_nameText parsed analyzed f mem).plain_text

/-! ### Texts of lines -/

/-- The lines of a text are those that were written. -/
theorem splitOn_render {lines : List Line} (plain : ∀ l ∈ lines, Plain l.text) :
    (Line.render lines).toList.splitOn '\n' = lines.map (·.text.toList) ++ [[]] := by
  induction lines with
  | nil => rfl
  | cons l lines ih =>
    obtain ⟨first, others⟩ := List.forall_mem_cons.1 plain
    have text : (Line.render (l :: lines)).toList = l.text.toList ++
        '\n' :: (Line.render lines).toList := by
      simp [Line.render]
    rw [text, List.splitOn_append_cons_self_of_not_mem first, ih others]
    rfl

end MiniGo
