import MiniGo.Proofs.Assembly.Reading
import MiniGo.Proofs.Strings.Plain

/-!
# What lines refer to

The lines of the class of a program refer to the fields and methods of that class, to a few names of
the library, and to numbered labels. From this alone it follows that they can be read back from
their texts, and that they have no line breaks.

* `Context.Owns`: the static fields of the class of a program.
* `Instr.Suits`, `Line.Suits`: what instructions and lines refer to.
* `Line.Suits.legible`, `Line.Suits.plain`: such lines are read back, and have no line breaks.
-/

namespace MiniGo

/-! ### References -/

/-- A static field of the class: that of a global variable or that of a result of a function. -/
def Context.Owns (ctx : Context) (f : FieldRef) : Prop :=
  (∃ x ∈ ctx.tables.globals.entries, f = ctx.fieldOf x) ∨
    ∃ g ∈ ctx.tables.functions.entries, ∃ i ty, f = ctx.resultOf g i ty

/-- An instruction refers to nothing but what the class of a program and the library have. -/
def Instr.Suits (ctx : Context) : Instr → Prop
  | ldc (.float x) => x.isFinite = true
  | getStatic f => f ∈ Library.fields ∨ ctx.Owns f
  | putStatic f => ctx.Owns f
  | invokeStatic m => ∃ g ∈ ctx.tables.functions.entries, m = ⟨ctx.options.className, g.signature⟩
  | invokeVirtual m => m ∈ Library.virtualMethods
  | invokeSpecial m => m ∈ Library.constructors
  | newObject className => className = Library.scannerClass
  | arith kind _ => kind ≠ .ref
  | ifCompare _ l | ifZero _ l | goto l => l.stem? ≠ none
  | _ => True

/-- A line refers to nothing but what the class of a program and the library have. -/
def Line.Suits (ctx : Context) : Line → Prop
  | classHeader name => name = ctx.options.className
  | superclass name => name = Library.objectClass
  | field name descriptor => ctx.Owns ⟨ctx.options.className, name, descriptor⟩
  | method _ signature =>
    signature = (Library.constructor Library.objectClass []).signature ∨
      signature = Emission.initializerSignature ∨
      ∃ g ∈ ctx.tables.functions.entries, signature = g.signature
  | label l => l.stem? ≠ none
  | instr i => i.Suits ctx
  | _ => True

/-! ### Legible names -/

/-- The names of a program have the characters of names only. -/
structure Context.Named (ctx : Context) : Prop where
  globals : ∀ x ∈ ctx.tables.globals.entries, NameText x.name
  functions : ∀ f ∈ ctx.tables.functions.entries, NameText f.name

/-- The names of a program that comes from a source text. -/
theorem context_named {source : String} {file : File} {p : Program}
    (parsed : File.parse source = .ok file) (analyzed : analyze file = .ok p) (options : Options)
    (frame : Frame) : (p.context options frame).Named where
  globals := globals_nameText parsed analyzed
  functions := functions_nameText parsed analyzed

theorem NameText.isReferable {name : String} (h : NameText name) : isReferable name = true := by
  refine List.all_eq_true.2 fun c mem => ?_
  have isName := h c mem
  -- None of the characters that end a name is one of a name.
  have ne {d : Char} (other : isNameRest d = false) : c ≠ d := by
    rintro rfl
    rw [isName] at other
    cases other
  simp [ne (d := ' ') rfl, ne (d := '/') rfl, ne (d := '(') rfl, ne (d := '$') rfl]

theorem Ty.isLegible_descriptor (ty : Ty) : ty.descriptor.isLegible = true := by cases ty <;> decide

theorem Variable.isLegible_descriptor (x : Variable) : x.descriptor.isLegible = true := by
  unfold descriptor
  split
  · exact Ty.isLegible_descriptor _
  · exact Ty.isLegible_descriptor _

theorem Function.isLegible_signature {f : Function} (named : NameText f.name) :
    f.signature.isLegible = true := by
  unfold signature
  split
  · decide
  · have params : (f.params.map Ty.descriptor).all Descriptor.isLegible = true := by
      simp [Ty.isLegible_descriptor]
    simp [Signature.isLegible, methodType, MethodType.isLegible, named.isReferable, params,
      Descriptor.isLegible]

namespace Context.Named

variable {ctx : Context}

theorem isLegible_of_owns (h : ctx.Named) {f : FieldRef} (own : ctx.Owns f) :
    f.isLegible = true := by
  rcases own with ⟨x, declared, rfl⟩ | ⟨g, declared, i, ty, rfl⟩
  · have named : isReferable (ctx.fieldOf x).name.base = true := (h.globals x declared).isReferable
    exact Bool.and_eq_true_iff.2 ⟨named, x.isLegible_descriptor⟩
  · have named : isReferable (ctx.resultOf g i ty).name.base = true :=
      (h.functions g declared).isReferable
    exact Bool.and_eq_true_iff.2 ⟨named, ty.isLegible_descriptor⟩

end Context.Named

namespace Library

theorem isLegible_fields : ∀ f ∈ fields, f.isLegible = true := by decide

theorem isLegible_virtualMethods : ∀ m ∈ virtualMethods, m.signature.isLegible = true := by decide

theorem isLegible_constructors : ∀ m ∈ constructors, m.signature.isLegible = true := by decide

end Library

/-- The string constant that an instruction pushes. -/
def Instr.string? : Instr → Option String
  | ldc (.string text) => some text
  | _ => none

/-- The string constant that a line pushes. -/
def Line.string? : Line → Option String
  | instr i => i.string?
  | _ => none

section

variable {ctx : Context}

theorem Instr.Suits.legible {i : Instr} (h : i.Suits ctx) (names : ctx.Named)
    (strings : ∀ s, i.string? = some s → (Token.string s).Legal) : i.Legible := by
  cases i with
  | ldc c =>
    cases c with
    | int => trivial
    | float => exact h
    | string text => exact strings text rfl
  | getStatic f =>
    rcases h with library | own
    · exact Library.isLegible_fields f library
    · exact names.isLegible_of_owns own
  | putStatic f => exact names.isLegible_of_owns h
  | invokeStatic m =>
    obtain ⟨g, declared, rfl⟩ := h
    exact Function.isLegible_signature (names.functions g declared)
  | invokeVirtual m => exact Library.isLegible_virtualMethods m h
  | invokeSpecial m => exact Library.isLegible_constructors m h
  | arith | ifCompare | ifZero | goto => exact h
  | _ => trivial

/-- A line that refers to what its class has can be read back. -/
theorem Line.Suits.legible {l : Line} (h : l.Suits ctx) (names : ctx.Named)
    (strings : ∀ s, l.string? = some s → (Token.string s).Legal) : l.Legible := by
  cases l with
  | field name descriptor => exact Bool.and_eq_true_iff.1 (names.isLegible_of_owns h)
  | method access signature =>
    show signature.isLegible = true
    rcases h with rfl | rfl | ⟨g, declared, rfl⟩
    · decide
    · decide
    · exact Function.isLegible_signature (names.functions g declared)
  | label l => exact h
  | instr i => exact Instr.Suits.legible h names strings
  | _ => trivial

/-! ### Lines without line breaks -/

theorem plain_of_owns {f : FieldRef} (own : ctx.Owns f) (names : ctx.Plain) : Plain f.text := by
  rcases own with ⟨x, declared, rfl⟩ | ⟨g, declared, i, ty, rfl⟩
  · have name := names.globals x declared
    simpa [Context.fieldOf, FieldRef.text, FieldName.text, names.className] using name
  · have name := names.functions g declared
    simpa [Context.resultOf, FieldRef.text, FieldName.text, names.className] using name

theorem Label.plain_of_stem? {l : Label} (numbered : l.stem? ≠ none) : Plain l.text :=
  plain_text fun name isName => numbered (by rw [isName]; rfl)

theorem Instr.Suits.plain {i : Instr} (h : i.Suits ctx) (names : ctx.Plain)
    (noString : i.string? = none) :
    Plain i.text := by
  refine Instr.plain_text fun name mem => ?_
  -- The names in an instruction are those of the class or of the library.
  cases i with
  | ldc c =>
    cases c with
    | string => cases noString
    | _ => simp [Instr.names] at mem
  | getStatic f =>
    obtain rfl := List.mem_singleton.1 mem
    rcases h with library | own
    · exact Library.plain_fields f library
    · exact plain_of_owns own names
  | putStatic f =>
    obtain rfl := List.mem_singleton.1 mem
    exact plain_of_owns h names
  | invokeStatic m =>
    obtain rfl := List.mem_singleton.1 mem
    obtain ⟨g, declared, rfl⟩ := h
    have signature := Function.plain_signature (names.functions g declared)
    simpa [MethodRef.text, names.className] using signature
  | invokeVirtual m =>
    obtain rfl := List.mem_singleton.1 mem
    exact Library.plain_virtualMethods m h
  | invokeSpecial m =>
    obtain rfl := List.mem_singleton.1 mem
    exact Library.plain_constructors m h
  | newObject className =>
    obtain rfl := List.mem_singleton.1 mem
    obtain rfl := h
    decide
  | ifCompare | ifZero | goto =>
    obtain rfl := List.mem_singleton.1 mem
    exact Label.plain_of_stem? h
  | _ => cases mem

/-- A line that refers to what its class has, and pushes no string, has no line break. -/
theorem Line.Suits.plain {l : Line} (h : l.Suits ctx) (names : ctx.Plain)
    (noString : l.string? = none) :
    Plain l.text := by
  cases l with
  | instr i => exact plain_append.2 ⟨by simp, Instr.Suits.plain h names noString⟩
  | classHeader name =>
    obtain rfl := h
    exact Line.plain_text (List.forall_mem_singleton.2 names.className)
  | superclass name =>
    obtain rfl := h
    decide
  | field name descriptor =>
    have whole := plain_of_owns h names
    refine Line.plain_text ?_
    simpa [FieldRef.text, names.className, Line.names] using whole
  | method access signature =>
    refine Line.plain_text (List.forall_mem_singleton.2 ?_)
    rcases h with rfl | rfl | ⟨g, declared, rfl⟩
    · decide
    · decide
    · exact Function.plain_signature (names.functions g declared)
  | label l => exact Line.plain_text (List.forall_mem_singleton.2 (Label.plain_of_stem? h))
  | _ => exact Line.plain_text (by simp [Line.names])

end

end MiniGo
