import MiniGo.Proofs.Assembly.Texts
import MiniGo.Proofs.Standing

/-!
# The class links

What a class refers to is there: each field and each method that is named in an instruction is
declared exactly once, under the same text, and a call passes what its method takes. That no two
declarations have the same text comes from the characters of names: a result is kept in a field with
a dollar sign in its name, and a signature goes on with a parenthesis after its name.

* `ClassFile.Links`: all references within a class can be resolved.
* `compile_links`: the class of a source text links, and has one method for each function of the
  text.
-/

namespace MiniGo

/-! ### Texts of names -/

theorem NameText.notMem {text : String} (h : NameText text) {c : Char}
    (other : isNameRest c = false) :
    c ∉ text.toList := by
  intro mem
  rw [h c mem] at other
  cases other

/-- A text splits in one way only at a character that does not stand before it. -/
theorem append_cons_inj {c : Char} {xs ys as bs : List Char} (hx : c ∉ xs) (hy : c ∉ ys)
    (h : xs ++ c :: as = ys ++ c :: bs) : xs = ys ∧ as = bs := by
  rcases List.append_eq_append_iff.1 h with ⟨more, rfl, rest⟩ | ⟨more, rfl, rest⟩
  · cases more with
    | nil => exact ⟨(List.append_nil xs).symm, (List.cons.inj rest).2⟩
    | cons d more =>
      obtain ⟨rfl, -⟩ := List.cons.inj rest
      simp at hy
  · cases more with
    | nil => exact ⟨List.append_nil ys, (List.cons.inj rest).2.symm⟩
    | cons d more =>
      obtain ⟨rfl, -⟩ := List.cons.inj rest
      simp at hx

namespace FieldName

/-- Fields are written differently if there is no dollar sign in the names of variables and
functions. -/
theorem text_injective {a b : FieldName} (ha : '$' ∉ a.base.toList) (hb : '$' ∉ b.base.toList)
    (h : a.text = b.text) : a = b := by
  have lists := congrArg String.toList h
  cases a with
  | named x =>
    cases b with
    | named y => rw [show x = y from h]
    | result g j =>
      rw [toList_result, text] at lists
      exact absurd (by rw [base, lists]; simp) ha
  | result f i =>
    cases b with
    | named y =>
      rw [toList_result, text] at lists
      exact absurd (by rw [base, ← lists]; simp) hb
    | result g j =>
      rw [toList_result, toList_result] at lists
      obtain ⟨functions, numbers⟩ := append_cons_inj ha hb lists
      rw [String.toList_inj] at functions numbers
      obtain rfl : f = g := functions
      obtain rfl : i = j := toString_injective (by simpa using numbers)
      rfl

end FieldName

/-- Signatures with the same text are those of one name, if there is no parenthesis in names. -/
theorem Signature.name_eq_of_text {a b : Signature} (ha : '(' ∉ a.name.toList)
    (hb : '(' ∉ b.name.toList) (h : a.text = b.text) : a.name = b.name := by
  have lists := congrArg String.toList h
  simp only [Signature.text, MethodType.text, String.toList_append, List.append_assoc] at lists
  exact String.toList_inj.1 (append_cons_inj ha hb lists).1

/-! ### Links -/

/-- The signature of the method at which the machine starts a program. -/
def entrySignature : Signature := ⟨mainName, [.array .string], .void⟩

/-- A call takes from the stack one value for each parameter of a method, of the kind of the
parameter and the last one on top. At the entry point it takes a null that is pushed right
before. -/
def Method.Passes (m callee : Method) (shape : Nat → Shape) (pc : Nat) : Prop :=
  if callee.signature = entrySignature then
    shape pc = .null :: shape (pc + 1) ∧ ∃ before, pc = before + 1 ∧ m.code[before]? =
      some (.instr .nullConst)
  else
    ∃ args : Shape, shape pc = args ++ shape (pc + 1) ∧
      args.reverse.map some = callee.signature.type.params.map Descriptor.kind?

namespace ClassFile

/-- A reference is written as that of a field which the class declares. -/
def Declares (cls : ClassFile) (f : FieldRef) : Prop :=
  (f.name.text, f.descriptor) ∈ cls.fields ∧
    f.text = cls.name ++ "/" ++ f.name.text ++ " " ++ f.descriptor.text

/-- The methods of a class are those of a program: the constructor, the initializer if there are
global statements, and one static method for each function, in the order of the table. -/
def HasMethodsOf (cls : ClassFile) (p : Program) : Prop :=
  cls.methods.map (fun m => (m.access, m.signature)) =
    (.instance_, (Library.constructor Library.objectClass []).signature) ::
      ((if p.root.children.filter (!Emission.isFunction ·) = [] then []
        else [(.initializer, Emission.initializerSignature)]) ++
        p.tables.functions.entries.map fun f => (.static_, f.signature))

/-- All references within a class can be resolved: no two fields have the same name, no two methods
have the same signature, each field that is read or written is declared or one of the library, and
each call names exactly one method and passes what this method takes. -/
structure Links (cls : ClassFile) : Prop where
  fields : (cls.fields.map Prod.fst).Nodup
  signatures : (cls.methods.map fun m => m.signature.text).Nodup
  reads : ∀ m ∈ cls.methods, ∀ f, .instr (.getStatic f) ∈ m.code → f ∈ Library.fields ∨
      cls.Declares f
  writes : ∀ m ∈ cls.methods, ∀ f, .instr (.putStatic f) ∈ m.code → cls.Declares f
  calls : ∀ m ∈ cls.methods, ∃ locals shape, m.TypedBy ⟨cls, locals⟩ shape ∧
    ∀ pc r, m.code[pc]? = some (.instr (.invokeStatic r)) →
      ∃ (i : Nat) (callee : Method), cls.methods[i]? = some callee ∧ callee.access = .static_ ∧
        m.Passes callee shape pc ∧ ∀ (j : Nat) (other : Method), cls.methods[j]? = some other →
          (r.text = cls.name ++ "/" ++ other.signature.text ↔ j = i)

end ClassFile

/-! ### Fields -/

section

variable {t : Tables}

/-- The names of the fields of a class. -/
def Tables.fieldNames (t : Tables) : List FieldName :=
  t.globals.entries.map (fun x => .named x.name) ++
    t.functions.entries.flatMap fun f => f.returns.mapIdx fun i _ => .result f.name i

theorem fieldNames_nodup (wf : t.WellFormed) : t.fieldNames.Nodup := by
  refine List.nodup_append.2 ⟨?_, List.nodup_flatMap.2 ⟨fun f _ => ?_, ?_⟩, ?_⟩
  · have distinct := wf.globals.distinct
    rw [List.Nodup, List.pairwise_map] at distinct ⊢
    exact distinct.imp fun ne same => ne (FieldName.named.inj same)
  · rw [List.Nodup, List.pairwise_iff_getElem]
    intro i j hi hj lt same
    rw [List.getElem_mapIdx, List.getElem_mapIdx] at same
    exact Nat.ne_of_lt lt (FieldName.result.inj same).2
  · have distinct := wf.distinct
    rw [List.Nodup, List.pairwise_map] at distinct
    refine distinct.imp fun ne => ?_
    rintro name mem mem'
    obtain ⟨i, _, rfl⟩ := List.mem_mapIdx.1 mem
    obtain ⟨j, _, same⟩ := List.mem_mapIdx.1 mem'
    exact ne (FieldName.result.inj same).1.symm
  · intro a mem b mem' same
    subst same
    obtain ⟨x, -, rfl⟩ := List.mem_map.1 mem
    obtain ⟨f, -, mem'⟩ := List.mem_flatMap.1 mem'
    obtain ⟨i, _, same⟩ := List.mem_mapIdx.1 mem'
    cases same

theorem base_of_mem_fieldNames {N : String → Prop} (globals : ∀ x ∈ t.globals.entries, N x.name)
    (functions : ∀ f ∈ t.functions.entries, N f.name) : ∀ name ∈ t.fieldNames, N name.base := by
  intro name mem
  rcases List.mem_append.1 mem with mem | mem
  · obtain ⟨x, found, rfl⟩ := List.mem_map.1 mem
    exact globals x found
  · obtain ⟨f, found, mem⟩ := List.mem_flatMap.1 mem
    obtain ⟨i, _, rfl⟩ := List.mem_mapIdx.1 mem
    exact functions f found

end

namespace ClassFile

variable {options : Options}

theorem fieldsOf_append (ls ms : List Line) : fieldsOf (ls ++ ms) = fieldsOf ls ++ fieldsOf ms :=
  List.filterMap_append

theorem fieldsOf_code {lines : List Line} (code : ∀ l ∈ lines, l.isCode = true) :
    fieldsOf lines = [] := by
  refine List.filterMap_eq_nil_iff.2 fun l mem => ?_
  have isCode := code l mem
  cases l with
  | instr => rfl
  | label => rfl
  | _ => cases isCode

theorem fieldsOf_methodBlock {access : Access} {signature : Signature} {locals : Nat}
    {body : List Line} (code : ∀ l ∈ body, l.isCode = true) :
    fieldsOf (methodBlock options access signature locals body) = [] := by
  rw [methodBlock, fieldsOf_append, fieldsOf_append, fieldsOf_code code]
  rfl

theorem fieldsOf_fieldLines (t : Tables) :
    (fieldsOf (Emission.fieldLines t)).map Prod.fst = t.fieldNames.map FieldName.text := by
  simp [fieldsOf, Emission.fieldLines, Emission.resultFields, Tables.fieldNames,
    List.mapIdx_eq_zipIdx_map, List.filterMap_flatMap, List.map_flatMap, Function.comp_def]

end ClassFile

namespace ClassCode

variable {p : Program} {options : Options}

/-- The fields of the class are those in its header. -/
theorem fieldsOf_lines (k : ClassCode p options) :
    ClassFile.fieldsOf k.lines = ClassFile.fieldsOf (Emission.fieldLines p.tables) := by
  have initializer : ClassFile.fieldsOf k.initializerLines = [] := by
    unfold initializerLines
    split
    · rfl
    · obtain ⟨c, code⟩ := k.initializerCode
      exact ClassFile.fieldsOf_methodBlock
        (List.forall_mem_append.2 ⟨code.isCode, by simp [Line.isCode]⟩)
  have methods : ClassFile.fieldsOf (k.methods.mapIdx (methodLines options)).flatten = [] := by
    rw [ClassFile.fieldsOf, List.filterMap_flatten, List.flatten_eq_nil_iff]
    intro fields mem
    obtain ⟨lines, method, rfl⟩ := List.mem_map.1 mem
    obtain ⟨i, bound, rfl⟩ := List.mem_mapIdx.1 method
    obtain ⟨c, code⟩ := k.methodCode (List.getElem?_eq_getElem bound)
    exact ClassFile.fieldsOf_methodBlock
      (List.forall_mem_append.2 ⟨code.isCode, isCode_closingReturn _⟩)
  have constructor : ClassFile.fieldsOf Emission.constructorLines = [] := rfl
  have blank (b : Bool) : ClassFile.fieldsOf (if b then [] else [.blank]) = [] := by
    cases b <;> rfl
  rw [lines, ClassFile.fieldsOf_append, ClassFile.fieldsOf_append, ClassFile.fieldsOf_append,
    initializer, methods, constructor, Emission.headerLines, ClassFile.fieldsOf_append,
    ClassFile.fieldsOf_append, blank]
  simp [ClassFile.fieldsOf]

/-- No two fields of the class have the same name. -/
theorem fields_nodup (k : ClassCode p options) (wf : p.tables.WellFormed)
    (globals : ∀ x ∈ p.tables.globals.entries, NameText x.name)
    (functions : ∀ f ∈ p.tables.functions.entries, NameText f.name) :
    ((ClassFile.fieldsOf k.lines).map Prod.fst).Nodup := by
  rw [k.fieldsOf_lines, ClassFile.fieldsOf_fieldLines, List.Nodup, List.pairwise_map]
  have named := base_of_mem_fieldNames globals functions
  refine (fieldNames_nodup wf).imp_of_mem fun ha hb ne same => ne ?_
  exact FieldName.text_injective (named _ ha).plain (named _ hb).plain same

/-! ### Methods -/

theorem hasMethodsOf (k : ClassCode p options) : (ClassFile.ofLines k.lines).HasMethodsOf p := by
  have methods : (k.methods.mapIdx (MethodCode.method options)).map
      (fun m => (m.access, m.signature)) = p.tables.functions.entries.map fun f =>
        (.static_, f.signature) := by
    rw [← k.functions]
    refine List.ext_getElem (by simp) fun i _ _ => ?_
    simp [MethodCode.method]
  rw [ClassFile.HasMethodsOf, ClassFile.ofLines, k.methodsOf_lines, k.statements_eq, List.map_cons,
    List.map_append, methods]
  split <;> rfl

theorem names_eq (k : ClassCode p options) :
    (ClassFile.methodsOf k.lines).map (fun m => m.signature.name) =
      "<init>" :: ((if p.root.children.filter (!Emission.isFunction ·) =
        [] then [] else ["<clinit>"]) ++ p.tables.functions.entries.map Function.name) := by
  have headers := congrArg (List.map fun header => header.2.name) k.hasMethodsOf
  rw [List.map_map] at headers
  refine headers.trans ?_
  rw [List.map_cons, List.map_append, List.map_map]
  congr 1
  congr 1
  · split <;> rfl
  · exact List.map_congr_left fun f _ => f.name_signature

/-- No two methods of the class have the same signature. -/
theorem signatures_nodup (k : ClassCode p options) (wf : p.tables.WellFormed)
    (functions : ∀ f ∈ p.tables.functions.entries, NameText f.name) :
    ((ClassFile.methodsOf k.lines).map fun m => m.signature.text).Nodup := by
  have special {c : Char} (other : isNameRest c = false) :
      ∀ name ∈ p.tables.functions.entries.map Function.name, c ∉ name.toList := by
    intro name mem
    obtain ⟨f, found, rfl⟩ := List.mem_map.1 mem
    exact (functions f found).notMem other
  -- The constructor and the initializer have names that no function can have.
  have distinct : ((ClassFile.methodsOf k.lines).map fun m => m.signature.name).Nodup := by
    have init : "<init>" ∉ p.tables.functions.entries.map Function.name :=
      fun mem => special (c := '<') rfl _ mem (by decide)
    have clinit : "<clinit>" ∉ p.tables.functions.entries.map Function.name :=
      fun mem => special (c := '<') rfl _ mem (by decide)
    rw [k.names_eq]
    split <;> simp [init, clinit, wf.distinct]
  have noParenthesis : ∀ m ∈ ClassFile.methodsOf k.lines, '(' ∉ m.signature.name.toList := by
    intro m mem
    have named := List.mem_map_of_mem (f := fun m => m.signature.name) mem
    rw [k.names_eq, List.mem_cons, List.mem_append] at named
    rcases named with name | named | named
    · rw [name]
      decide
    · split at named
      · simp at named
      · rw [List.mem_singleton.1 named]
        decide
    · exact special rfl _ named
  rw [List.Nodup, List.pairwise_map] at distinct ⊢
  exact distinct.imp_of_mem fun ha hb ne same =>
    ne (Signature.name_eq_of_text (noParenthesis _ ha) (noParenthesis _ hb) same)

end ClassCode

/-! ### References -/

section

variable {cls : ClassFile} {locals : Nat → Option StackKind} {m : Method} {shape : Nat → Shape}
  {f : FieldRef}

theorem ClassFile.declares_of_hasField (h : cls.hasField f = true) : cls.Declares f := by
  simp only [ClassFile.hasField, Bool.and_eq_true, beq_iff_eq, List.contains_iff_mem] at h
  refine ⟨h.2, ?_⟩
  rw [FieldRef.text, h.1]

theorem Method.TypedBy.reads (h : m.TypedBy ⟨cls, locals⟩ shape)
    (mem : .instr (.getStatic f) ∈ m.code) :
    f ∈ Library.fields ∨ cls.Declares f := by
  obtain ⟨pc, found⟩ := List.mem_iff_getElem?.1 mem
  have after := h.line found
  simp only [Line.after, Instr.after] at after
  split at after
  · rename_i known
    exact known.imp_right ClassFile.declares_of_hasField
  · cases after

theorem Method.TypedBy.writes (h : m.TypedBy ⟨cls, locals⟩ shape)
    (mem : .instr (.putStatic f) ∈ m.code) :
    cls.Declares f := by
  obtain ⟨pc, found⟩ := List.mem_iff_getElem?.1 mem
  have after := h.line found
  cases before : shape pc with
  | nil =>
    rw [before] at after
    cases after
  | cons kind rest =>
    simp only [before, Line.after, Instr.after] at after
    split at after
    · rename_i known
      exact ClassFile.declares_of_hasField known.1
    · cases after

/-- The shape at a line is what the lines before it leave. -/
theorem Method.TypedBy.flows (h : m.TypedBy ⟨cls, locals⟩ shape) {pc : Nat}
    (bound : pc ≤ m.code.length) :
    Flows ⟨cls, locals⟩ (m.code.take pc) [] (shape pc) := by
  induction pc with
  | zero => rw [h.start]; exact .nil
  | succ pc ih =>
    have found : m.code[pc]? = some m.code[pc] := List.getElem?_eq_getElem bound
    rw [Flows, flow_take_succ found, ih (Nat.le_of_lt bound)]
    exact h.line found

end

/-! ### Calls -/

/-- What a call of a function takes from the stack. -/
def Function.passed (f : Function) : Shape :=
  if f.isEntryPoint then [.null] else (f.params.map Ty.kind).reverse

namespace Function

variable {f : Function}

theorem signature_eq_entrySignature_iff : f.signature = entrySignature ↔ f.isEntryPoint = true := by
  constructor
  · intro same
    by_contra other
    rw [signature, if_neg other] at same
    have params : f.params.map Ty.descriptor = [.array .string] := congrArg (·.type.params) same
    obtain ⟨ty, -, array⟩ := List.mem_map.1 (params ▸ List.mem_singleton_self _)
    cases ty <;> cases array
  · intro main
    rw [signature, if_pos main]
    rfl

theorem result_signature (f : Function) : f.signature.type.result = .void := by
  unfold signature
  split <;> rfl

/-- The method of a function takes what a call of the function passes. -/
theorem popArguments_passed (wf : f.WellFormed) (shape : Shape) :
    popArguments f.signature.type.params.reverse (f.passed ++ shape) = some shape := by
  by_cases main : f.isEntryPoint = true
  · rw [signature_eq_entrySignature_iff.2 main, passed, if_pos main]
    rfl
  · rw [signature, if_neg main, passed, if_neg main]
    simp only [methodType, ← List.map_reverse]
    exact popArguments_map fun ty mem => wf.params ty (List.mem_reverse.1 mem)

theorem kinds_passed (wf : f.WellFormed) (other : ¬ f.isEntryPoint = true) :
    f.passed.reverse.map some = f.signature.type.params.map Descriptor.kind? := by
  rw [signature, if_neg other, passed, if_neg other, List.reverse_reverse]
  simp only [methodType, List.map_map]
  exact List.map_congr_left fun ty mem => (Ty.kind?_descriptor (wf.params ty mem)).symm

end Function

/-- The code before a call pushes what the call passes. -/
theorem passed_flows {env : MethodEnv} {ctx : Context} {s : Scope} {f : Function} {args : List Node}
    {code : List Instr} (knows : env.Knows ctx s) (wf : ctx.tables.WellFormed)
    (argsCode : ArgumentsCode ctx s args f.params code) (shape : Shape) :
    Flows env (asLines ((if f.isEntryPoint then [.nullConst] else []) ++ code)) shape
      (f.passed ++ shape) := by
  by_cases main : f.isEntryPoint = true
  · have params := (Function.isEntryPoint_iff.1 main).2
    rw [params] at argsCode
    rw [if_pos main, Function.passed, if_pos main]
    exact Flows.code (.instr rfl) (argsCode.flows knows wf _)
  · rw [if_neg main, Function.passed, if_neg main]
    exact argsCode.flows knows wf shape

namespace Role

/-- The kinds of slots are known to the code of the role. -/
theorem roleOf_scope {p : Program} {role : Role} (h : role.BelongsTo p) :
    ClassCode.RoleOf role.scope role p := by
  cases role with
  | constructor => trivial
  | initializer => trivial
  | function i f body => exact ⟨f, body, rfl, h.1⟩

end Role

namespace ClassCode

variable {p : Program} {options : Options}

/-- A call takes what was pushed for it. -/
theorem shape_call (k : ClassCode p options) (wf : p.tables.WellFormed) {role : Role}
    (belongs : role.BelongsTo p) {m : Method} {shape : Nat → Shape}
    (typed : m.TypedBy ⟨ClassFile.ofLines k.lines, role.locals options⟩ shape) {pc : Nat}
    {f : Function} {before : List Line} {args : List Node} {code : List Instr} (fwf : f.WellFormed)
    (found : m.code[pc]? = some (.instr (.invokeStatic ⟨options.className, f.signature⟩)))
    (argsCode : ArgumentsCode (p.context options role.frame) role.scope args f.params code)
    (given : m.code.take pc =
      before ++ asLines ((if f.isEntryPoint then [.nullConst] else []) ++ code)) :
    shape pc = f.passed ++ shape (pc + 1) := by
  obtain ⟨bound, -⟩ := List.getElem?_eq_some_iff.1 found
  have flows := typed.flows (Nat.le_of_lt bound)
  rw [given, Flows, flow_append, Option.bind_eq_some_iff] at flows
  obtain ⟨below, -, pushes⟩ := flows
  have pushed := passed_flows (k.knows wf role _ (Role.roleOf_scope belongs)) wf argsCode below
  have top : shape pc = f.passed ++ below := Option.some.inj (pushes.symm.trans pushed)
  have after := typed.line found
  simp only [Line.after, Instr.after] at after
  split at after
  · rw [top, Function.popArguments_passed fwf, f.result_signature, Option.map_some,
      Option.some.injEq] at after
    rw [top, ← after]
    rfl
  · cases after

/-- A call passes to the method of a function what it takes. -/
theorem passes_call (k : ClassCode p options) (wf : p.tables.WellFormed) {role : Role}
    (belongs : role.BelongsTo p) {m : Method} {shape : Nat → Shape}
    (typed : m.TypedBy ⟨ClassFile.ofLines k.lines, role.locals options⟩ shape) {pc : Nat}
    {f : Function} {before : List Line} {args : List Node} {code : List Instr} (fwf : f.WellFormed)
    (found : m.code[pc]? = some (.instr (.invokeStatic ⟨options.className, f.signature⟩)))
    (argsCode : ArgumentsCode (p.context options role.frame) role.scope args f.params code)
    (given : m.code.take pc =
      before ++ asLines ((if f.isEntryPoint then [.nullConst] else []) ++ code)) {callee : Method}
    (signature : callee.signature = f.signature) : m.Passes callee shape pc := by
  have top := k.shape_call wf belongs typed fwf found argsCode given
  unfold Method.Passes
  rw [signature]
  by_cases main : f.isEntryPoint = true
  · rw [if_pos (Function.signature_eq_entrySignature_iff.2 main)]
    rw [Function.passed, if_pos main] at top
    -- The entry point has no parameters, so the null is the last thing that is pushed.
    rw [(Function.isEntryPoint_iff.1 main).2] at argsCode
    cases argsCode
    rw [if_pos main, List.append_nil] at given
    obtain ⟨bound, -⟩ := List.getElem?_eq_some_iff.1 found
    have length := congrArg List.length given
    simp only [List.length_take, List.length_append, List.length_map,
      List.length_singleton] at length
    refine ⟨top, before.length, by omega, ?_⟩
    have last : (m.code.take pc)[before.length]? = some (.instr .nullConst) := by
      rw [given]
      simp
    rwa [List.getElem?_take_of_lt (by omega)] at last
  · rw [if_neg (mt Function.signature_eq_entrySignature_iff.1 main)]
    exact ⟨f.passed, top, Function.kinds_passed fwf main⟩

/-- The class of a program links. -/
theorem links (k : ClassCode p options) (typed : p.WellTyped)
    (globals : ∀ x ∈ p.tables.globals.entries, NameText x.name)
    (functions : ∀ f ∈ p.tables.functions.entries, NameText f.name) :
    (ClassFile.ofLines k.lines).Links := by
  have signatures := k.signatures_nodup typed.tables functions
  refine ⟨k.fields_nodup typed.tables globals functions, signatures, ?_, ?_, ?_⟩
  · intro m mem f read
    obtain ⟨role, -, -, -, shape, typedFor⟩ := k.methods_inPlace typed m mem
    exact typedFor.toTypedBy.reads read
  · intro m mem f written
    obtain ⟨role, -, -, -, shape, typedFor⟩ := k.methods_inPlace typed m mem
    exact typedFor.toTypedBy.writes written
  · intro m mem
    obtain ⟨role, belongs, -, inPlace, shape, typedFor⟩ := k.methods_inPlace typed m mem
    refine ⟨role.locals options, shape, typedFor.toTypedBy, fun pc r found => ?_⟩
    -- A call of the class stands behind the code of its arguments.
    rcases inPlace pc _ found with stands | ⟨ret, -⟩
    · generalize given : m.code.take pc = lines at stands
      cases stands with
      | plain plain => cases plain
      | @call before j f args code callee argsCode =>
        obtain ⟨method, hm, rfl⟩ := k.method_of_function callee
        obtain ⟨i, hi⟩ := List.mem_iff_getElem?.1 (k.method_mem hm)
        refine ⟨i, _, hi, rfl, k.passes_call typed.tables belongs typedFor.toTypedBy
          (typed.tables.get? callee) found argsCode given rfl,
          fun l other hl => ⟨fun text => ?_, ?_⟩⟩
        · -- Methods with the same text have the same signature, so they are at the same place.
          refine index_eq_of_nodup signatures hl hi ?_
          simpa [MethodRef.text, String.append_assoc, Program.context, ClassFile.ofLines,
            k.nameOf_lines, MethodCode.method] using text.symm
        · rintro rfl
          obtain rfl : _ = other := Option.some.inj (hi.symm.trans hl)
          rfl
    · cases ret

end ClassCode

/-! ### Source texts -/

/-- A source text that is compiled becomes the text of a class that links. Its methods are the
constructor, the initializer if there are global statements, and one method for each function, in
the order of the declarations. -/
theorem compile_links {source text : String} {options : Options}
    (h : compile source options = .ok text) :
    ∃ file p lines, ∃ cls : ClassFile, File.parse source = .ok file ∧ analyze file = .ok p ∧
      emission p.root p.tables options = ⟨lines, {}, .ok ()⟩ ∧
      cls.ReadFrom lines text options.className ∧
      cls.name = options.className ∧ cls.HasMethodsOf p ∧
      p.tables.functions.entries.map Function.name = file.funcDecls.map (·.name.name) ∧
      cls.Links := by
  obtain ⟨file, p, parsed, analyzed, typed, k, emitted, rfl⟩ := compile_eq_ok h
  have readFrom := k.readFrom parsed analyzed typed.tables
  exact ⟨file, p, k.lines, _, parsed, analyzed, emitted, readFrom, k.nameOf_lines, k.hasMethodsOf,
    functions_names analyzed, k.links typed (globals_nameText parsed analyzed)
      (functions_nameText parsed analyzed)⟩

/-- A global array and a global variable that is named like a function, a function with two results,
and a call of the entry point. -/
def linkedSource : String :=
  "var a [2]int\nvar f int\nfunc f(n int) (int, string) \x7b\nif n < 0 \x7b\nmain()\n\x7d\n" ++
    "return a[1], \"f\"\n\x7d\nfunc main() \x7b\ns := \"\"\nf, s = f(1)\nwrite(s)\n\x7d\n"

theorem linkedSource_links : ∃ text, compile linkedSource {} = .ok text ∧
    ∃ file p lines, ∃ cls : ClassFile, File.parse linkedSource = .ok file ∧ analyze file = .ok p ∧
      emission p.root p.tables {} = ⟨lines, {}, .ok ()⟩ ∧ cls.ReadFrom lines text "GoProgram" ∧
      cls.name = "GoProgram" ∧ cls.HasMethodsOf p ∧
      p.tables.functions.entries.map Function.name = file.funcDecls.map (·.name.name) ∧
      cls.Links := by
  obtain ⟨text, h⟩ := exists_text_of_isOk linkedSource {} (by decide +kernel)
  exact ⟨text, h, compile_links h⟩

end MiniGo
