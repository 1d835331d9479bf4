import Mathlib.Data.List.Nodup
import MiniGo.Proofs.Code.Program

/-!
# Classes

What a machine sees of an assembly file: the name of the class, its fields and its methods. A method
is all that stands between its first line and the next end of a method.

* `ClassFile.ofLines`: the class of lines of assembly.
* `ClassCode.methodsOf_lines`: the methods of the class of a program.
-/

namespace MiniGo

/-- A method: its access, its signature, and the lines between its first and its last. -/
structure Method where
  access : Access
  signature : Signature
  code : List Line
deriving DecidableEq, Repr

/-- A class: its name, its fields as they are written, and its methods. -/
structure ClassFile where
  name : String
  fields : List (String × Descriptor)
  methods : List Method
deriving DecidableEq, Repr

namespace ClassFile

/-- The name in the header of a class. -/
def nameOf (lines : List Line) : String :=
  (lines.findSome? fun
    | .classHeader name => some name
    | _ => none).getD ""

/-- The fields among lines. -/
def fieldsOf (lines : List Line) : List (String × Descriptor) :=
  lines.filterMap fun
    | .field name descriptor => some (name.text, descriptor)
    | _ => none

/-- The methods among lines. -/
def methodsOf : List Line → List Method
  | [] => []
  | line :: rest =>
    match line with
    | .method access signature =>
      ⟨access, signature, rest.takeWhile (· ≠ .endMethod)⟩ :: methodsOf rest
    | _ => methodsOf rest

/-- The class of lines of assembly. -/
def ofLines (lines : List Line) : ClassFile := ⟨nameOf lines, fieldsOf lines, methodsOf lines⟩

/-- Whether a reference means a field of the class. -/
def hasField (cls : ClassFile) (f : FieldRef) : Bool :=
  f.owner == cls.name && cls.fields.contains (f.name.text, f.descriptor)

/-- The static method that a reference means. -/
def method? (cls : ClassFile) (m : MethodRef) : Option Method :=
  if m.owner = cls.name then
    cls.methods.find? fun method => method.access == .static_ && method.signature == m.signature
  else none

end ClassFile

/-! ### Lines of code -/

/-- Whether a line is an instruction or a label. -/
def Line.isCode : Line → Bool
  | .instr _ | .label _ => true
  | _ => false

section

variable {ctx : Context} {s : Scope}

theorem isCode_asLines (instrs : List Instr) : ∀ l ∈ asLines instrs, l.isCode = true := by
  intro l mem
  obtain ⟨i, -, rfl⟩ := List.mem_map.1 mem
  rfl

theorem ConditionCode.isCode {jump : Emission.Jump} {c c' : LabelCounters} {n : Node}
    {lines : List Line} (h : ConditionCode ctx s jump c n lines c') :
    ∀ l ∈ lines, l.isCode = true := by
  induction h with
  | value => exact isCode_asLines _
  | comparison => exact isCode_asLines _
  | both _ _ _ ihl ihr => exact List.forall_mem_append.2 ⟨ihl, ihr⟩
  | skip _ _ _ ihl ihr =>
    exact List.forall_mem_append.2 ⟨List.forall_mem_append.2 ⟨ihl, ihr⟩, by simp [Line.isCode]⟩

mutual

/-- The code of a statement has instructions and labels only. -/
theorem StmtCode.isCode {exit? : Option Label} {c c' : LabelCounters} {n : Node}
    {lines : List Line} :
    StmtCode ctx s exit? c n lines c' → ∀ l ∈ lines, l.isCode = true
  | .declaration .. => isCode_asLines _
  | .assign .. => isCode_asLines _
  | .assignResults .. => isCode_asLines _
  | .block body => body.isCode
  | .cond conditionCode bodyCode => by
    simp only [List.forall_mem_append]
    exact ⟨⟨conditionCode.isCode, bodyCode.isCode⟩, by cases exit? <;> simp [Line.isCode]⟩
  | .condElse conditionCode bodyCode otherwiseCode => by
    simp only [List.forall_mem_append]
    exact ⟨⟨⟨⟨conditionCode.isCode, bodyCode.isCode⟩, by simp [Line.isCode]⟩, otherwiseCode.isCode⟩,
      by cases exit? <;> simp [Line.isCode]⟩
  | .loop conditionCode bodyCode => by
    simp only [List.forall_mem_append]
    exact ⟨⟨⟨by simp [Line.isCode], conditionCode.isCode⟩, bodyCode.isCode⟩, by simp [Line.isCode]⟩
  | .call .. => isCode_asLines _
  | .ret .. => isCode_asLines _
  | .read .. => isCode_asLines _
  | .write .. => isCode_asLines _

/-- The code of statements has instructions and labels only. -/
theorem StmtsCode.isCode {c c' : LabelCounters} {nodes : List Node} {lines : List Line} :
    StmtsCode ctx s c nodes lines c' → ∀ l ∈ lines, l.isCode = true
  | .nil => by simp
  | .cons first others => List.forall_mem_append.2 ⟨first.isCode, others.isCode⟩

end

end

/-! ### Methods one after the other -/

namespace ClassFile

variable {options : Options} {lines rest body : List Line}

theorem methodsOf_cons {l : Line} (h : ∀ access signature, l ≠ .method access signature) :
    methodsOf (l :: rest) = methodsOf rest := by
  cases l with
  | method access signature => exact absurd rfl (h access signature)
  | _ => rfl

/-- Lines that start no method have no effect on the methods behind them. -/
theorem methodsOf_append (h : ∀ l ∈ lines, ∀ access signature, l ≠ .method access signature) :
    methodsOf (lines ++ rest) = methodsOf rest := by
  induction lines with
  | nil => rfl
  | cons l lines ih =>
    obtain ⟨first, others⟩ := List.forall_mem_cons.1 h
    rw [List.cons_append, methodsOf_cons first, ih others]

/-- The code of a method ends where the method does. -/
theorem takeWhile_code (code : ∀ l ∈ body, l ≠ .endMethod) :
    (body ++ .endMethod :: rest).takeWhile (· ≠ .endMethod) = body := by
  rw [List.takeWhile_append_of_pos (by simpa using code)]
  simp

/-- A block of lines is one method. -/
theorem methodsOf_methodBlock {access : Access} {signature : Signature} {locals : Nat}
    (code : ∀ l ∈ body, l.isCode = true) :
    methodsOf (methodBlock options access signature locals body ++ rest) =
      ⟨access, signature, [.limitStack options.stackLimit, .limitLocals locals] ++ body⟩ ::
        methodsOf rest := by
  -- Inside of the block nothing starts a method, and nothing ends it before the last line.
  have notStart :
      ∀ l ∈ [.limitStack options.stackLimit, .limitLocals locals] ++ body ++ [.endMethod],
      ∀ access signature, l ≠ .method access signature := by
    intro l mem access signature
    simp only [List.mem_append, List.mem_cons, List.not_mem_nil, or_false] at mem
    rcases mem with ((rfl | rfl) | mem) | rfl
    · simp
    · simp
    · rintro rfl
      cases code _ mem
    · simp
  have notEnd : ∀ l ∈ [.limitStack options.stackLimit, .limitLocals locals] ++ body, l ≠
      .endMethod := by
    intro l mem
    simp only [List.mem_append, List.mem_cons, List.not_mem_nil, or_false] at mem
    rcases mem with (rfl | rfl) | mem
    · simp
    · simp
    · rintro rfl
      cases code _ mem
  have whole : methodBlock options access signature locals body ++ rest =
      .blank :: .method access signature ::
        ([.limitStack options.stackLimit, .limitLocals locals] ++ body ++ .endMethod :: rest) := by
    simp [methodBlock]
  -- So the method is cut off at its end, and the methods behind it are those of the other lines.
  have behind := @methodsOf_append _ rest notStart
  rw [List.append_assoc, List.singleton_append] at behind
  rw [whole, methodsOf_cons (by simp), methodsOf, takeWhile_code notEnd, behind]

end ClassFile

/-! ### The class of a program -/

namespace MethodCode

/-- The method of the function at an index. -/
def method (options : Options) (i : Nat) (m : MethodCode) : Method where
  access := .static_
  signature := m.function.signature
  code := [.limitStack options.stackLimit,
    .limitLocals (Emission.localCount (.ofFunction i m.function.isEntryPoint) m.function)] ++
    (m.code ++ closingReturn m.body)

end MethodCode

namespace ClassCode

variable {p : Program} {options : Options}

/-- The constructor of the class. -/
def constructorMethod : Method where
  access := .instance_
  signature := (Library.constructor Library.objectClass []).signature
  code := [.instr .loadThis, .instr (.invokeSpecial (Library.constructor Library.objectClass [])),
    .instr .ret]

/-- The initializer of the class. -/
def initializerMethod (k : ClassCode p options) : Method where
  access := .initializer
  signature := Emission.initializerSignature
  code := [.limitStack options.stackLimit, .limitLocals 1] ++ (k.initializer ++ [.instr .ret])

theorem isCode_closingReturn (body : List Node) : ∀ l ∈ closingReturn body, l.isCode = true := by
  unfold closingReturn
  split <;> simp [Line.isCode]

theorem methodsOf_initializerLines (k : ClassCode p options) (rest : List Line) :
    ClassFile.methodsOf (k.initializerLines ++ rest) =
      (if k.globals = [] then [] else [k.initializerMethod]) ++ ClassFile.methodsOf rest := by
  unfold initializerLines
  split
  · rfl
  · obtain ⟨c, code⟩ := k.initializerCode
    rw [ClassFile.methodsOf_methodBlock
      (List.forall_mem_append.2 ⟨code.isCode, by simp [Line.isCode]⟩)]
    rfl

theorem methodsOf_methodLines {methods : List MethodCode} {j : Nat}
    (code : ∀ m ∈ methods, ∀ l ∈ m.code, l.isCode = true) :
    ClassFile.methodsOf (methods.mapIdx fun i => methodLines options (j + i)).flatten =
      methods.mapIdx fun i => MethodCode.method options (j + i) := by
  induction methods generalizing j with
  | nil => rfl
  | cons m methods ih =>
    obtain ⟨first, others⟩ := List.forall_mem_cons.1 code
    simp only [List.mapIdx_cons, Nat.add_zero, ← Nat.add_assoc, Nat.add_right_comm j _ 1,
      List.flatten_cons]
    rw [methodLines, ClassFile.methodsOf_methodBlock
      (List.forall_mem_append.2 ⟨first, isCode_closingReturn m.body⟩), ih others]
    rfl

theorem headerLines_ne_method (ctx : Context) :
    ∀ l ∈ Emission.headerLines ctx, ∀ access signature, l ≠ .method access signature := by
  intro l mem access signature
  rintro rfl
  simp only [Emission.headerLines, List.mem_append, List.mem_cons, List.not_mem_nil, or_false,
    reduceCtorEq, false_or] at mem
  rcases mem with mem | mem
  · simp [Emission.fieldLines, Emission.resultFields] at mem
  · split at mem <;> simp at mem

/-- The methods of the class: the constructor, the initializer if there is one, and one for each
function. -/
theorem methodsOf_lines (k : ClassCode p options) :
    ClassFile.methodsOf k.lines = constructorMethod ::
      ((if k.globals = [] then [] else [k.initializerMethod]) ++
        k.methods.mapIdx (MethodCode.method options)) := by
  have code : ∀ m ∈ k.methods, ∀ l ∈ m.code, l.isCode = true := by
    intro m mem
    obtain ⟨i, hi⟩ := List.mem_iff_getElem?.1 mem
    obtain ⟨c, code⟩ := k.methodCode hi
    exact code.isCode
  have methods := @methodsOf_methodLines options k.methods 0 code
  simp only [Nat.zero_add] at methods
  rw [lines, List.append_assoc, List.append_assoc, ClassFile.methodsOf_append
    (headerLines_ne_method _), ← methods, ← methodsOf_initializerLines]
  rfl

theorem nameOf_lines (k : ClassCode p options) : ClassFile.nameOf k.lines = options.className := rfl

/-- A field that the header declares is one of the class. -/
theorem mem_fieldsOf_lines (k : ClassCode p options) {name : FieldName} {d : Descriptor}
    (h : .field name d ∈ Emission.fieldLines p.tables) :
    (name.text, d) ∈ ClassFile.fieldsOf k.lines := by
  refine List.mem_filterMap.2 ⟨.field name d, ?_, rfl⟩
  simp only [lines, Emission.headerLines, List.mem_append]
  exact .inl (.inl (.inl (.inl (.inr h))))

theorem hasField (k : ClassCode p options) {f : FieldRef} (owner : f.owner = options.className)
    (h : .field f.name f.descriptor ∈ Emission.fieldLines p.tables) :
    (ClassFile.ofLines k.lines).hasField f = true := by
  have name : (ClassFile.ofLines k.lines).name = options.className := k.nameOf_lines
  have declared := k.mem_fieldsOf_lines h
  simp only [ClassFile.hasField, owner, name, beq_self_eq_true, Bool.true_and,
    List.contains_iff_mem]
  exact declared

theorem field_mem_fieldLines {x : Variable} (h : x ∈ p.tables.globals.entries) :
    .field (.named x.name) x.descriptor ∈ Emission.fieldLines p.tables :=
  List.mem_append_left _ (List.mem_map.2 ⟨x, h, rfl⟩)

theorem result_mem_fieldLines {f : Function} {i : Nat} {ty : Ty}
    (h : f ∈ p.tables.functions.entries) (result : f.returns[i]? = some ty) :
    .field (.result f.name i) ty.descriptor ∈ Emission.fieldLines p.tables := by
  refine List.mem_append_right _ (List.mem_flatMap.2 ⟨f, h, ?_⟩)
  obtain ⟨bound, rfl⟩ := List.getElem?_eq_some_iff.1 result
  exact List.mem_mapIdx.2 ⟨i, bound, rfl⟩

/-! ### Methods of functions -/

theorem function_of_method (k : ClassCode p options) {i : Nat} {m : MethodCode}
    (h : k.methods[i]? = some m) : p.tables.functions.get? i = some m.function := by
  rw [FuncTable.get?, ← k.functions, List.getElem?_map, h]
  rfl

theorem method_of_function (k : ClassCode p options) {i : Nat} {f : Function}
    (h : p.tables.functions.get? i = some f) : ∃ m, k.methods[i]? = some m ∧ m.function = f := by
  rw [FuncTable.get?, ← k.functions, List.getElem?_map, Option.map_eq_some_iff] at h
  exact h

/-- The method of a function is one of the class. -/
theorem method_mem (k : ClassCode p options) {i : Nat} {m : MethodCode}
    (h : k.methods[i]? = some m) :
    m.method options i ∈ ClassFile.methodsOf k.lines := by
  obtain ⟨bound, rfl⟩ := List.getElem?_eq_some_iff.1 h
  rw [k.methodsOf_lines]
  exact List.mem_cons_of_mem _ (List.mem_append_right _ (List.mem_mapIdx.2 ⟨i, bound, rfl⟩))

/-- The node of a function is a child of the root. -/
theorem functionNode_mem (k : ClassCode p options) {i : Nat} {m : MethodCode}
    (h : k.methods[i]? = some m) : functionNode i m.body ∈ p.root.children := by
  obtain ⟨bound, rfl⟩ := List.getElem?_eq_some_iff.1 h
  rw [k.root]
  exact List.mem_append_right _ (List.mem_mapIdx.2 ⟨i, by simpa using bound, by simp⟩)

/-- The body of a function is that of its node. -/
theorem body_eq (k : ClassCode p options) {i : Nat} {m : MethodCode} (h : k.methods[i]? = some m)
    {body : List Node} (node : functionNode i body ∈ p.root.children) : m.body = body := by
  have isFunction : functionNode i body ∈ p.root.children.filter Emission.isFunction :=
    List.mem_filter.2 ⟨node, rfl⟩
  rw [k.functions_eq] at isFunction
  obtain ⟨j, bound, same⟩ := List.mem_mapIdx.1 isFunction
  obtain ⟨rfl, body⟩ : j = i ∧ _ = body := by simpa [functionNode, Node.statement] using same
  obtain ⟨-, rfl⟩ := List.getElem?_eq_some_iff.1 h
  exact body

end ClassCode

/-- Entries of a list with different names are the same only if they stand at the same place. -/
theorem index_eq_of_nodup {α β : Type} {name : α → β} {xs : List α} (distinct : (xs.map name).Nodup)
    {i j : Nat} {x y : α} (hi : xs[i]? = some x) (hj : xs[j]? = some y) (same : name x = name y) :
    i = j := by
  have hi' : (xs.map name)[i]? = some (name x) := by rw [List.getElem?_map, hi]; rfl
  have hj' : (xs.map name)[j]? = some (name x) := by rw [List.getElem?_map, hj, same]; rfl
  obtain ⟨bound, atI⟩ := List.getElem?_eq_some_iff.1 hi'
  obtain ⟨bound', atJ⟩ := List.getElem?_eq_some_iff.1 hj'
  exact distinct.getElem_inj_iff.1 (atI.trans atJ.symm)

theorem Function.isEntryPoint_iff {f : Function} :
    f.isEntryPoint = true ↔ f.name = mainName ∧ f.params = [] := by
  simp [Function.isEntryPoint]

theorem Function.name_signature (f : Function) : f.signature.name = f.name := by
  unfold Function.signature
  split
  · rename_i entry
    exact (isEntryPoint_iff.1 entry).1.symm
  · rfl

namespace ClassCode

variable {p : Program} {options : Options}

/-- A reference to the method of a function means this method, since no two functions have the same
name. -/
theorem method?_eq (k : ClassCode p options) (wf : p.tables.WellFormed) {i : Nat} {m : MethodCode}
    (h : k.methods[i]? = some m) :
    (ClassFile.ofLines k.lines).method? ⟨options.className, m.function.signature⟩ =
      some (m.method options i) := by
  have name : (ClassFile.ofLines k.lines).name = options.className := k.nameOf_lines
  rw [ClassFile.method?, name, if_pos rfl, ClassFile.ofLines, k.methodsOf_lines,
    List.find?_cons_of_neg (by simp [constructorMethod]), List.find?_append]
  have others : (if k.globals = [] then [] else [k.initializerMethod]).find?
      (fun method => method.access == .static_ && method.signature == m.function.signature) =
        none := by
    split <;> simp [initializerMethod]
  obtain ⟨bound, here⟩ := List.getElem?_eq_some_iff.1 h
  rw [others, Option.none_or, List.find?_eq_some_iff_getElem]
  refine ⟨by simp [MethodCode.method], i, by simpa using bound, by simp [here], fun j lt => ?_⟩
  -- An earlier function has another name.
  have bound' : j < k.methods.length := Nat.lt_trans lt bound
  have earlier := k.function_of_method (List.getElem?_eq_getElem bound')
  have ne : k.methods[j].function.signature ≠ m.function.signature := by
    intro same
    have sameName := congrArg Signature.name same
    rw [Function.name_signature, Function.name_signature] at sameName
    exact Nat.ne_of_lt lt (index_eq_of_nodup wf.distinct earlier (k.function_of_method h) sameName)
  simp [MethodCode.method, ne]

end ClassCode

end MiniGo
