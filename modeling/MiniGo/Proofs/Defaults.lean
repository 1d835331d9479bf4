import MiniGo.Proofs.Frames.Program
import MiniGo.Proofs.Machine.Storage

/-!
# What variables hold after their declaration

A declaration without a value stores what its type starts with: the zero value of a scalar, or a new
array. Whatever else is run in between, a load gives just that until the variable is assigned. The
elements of a new array are what the machine puts there. This is the zero value as well, except for
strings: the elements of an array of strings are null, while a string that is declared alone is
empty.

* `Execution.Declared`, `Execution.Unassigned`: a declaration was run, and nothing was assigned
  since.
* `Execution.Starts`: what loads give from then on.
* `compile_defaults`: so it is in every execution of a compiled class.
* `stringsSource_reads_null`: an element of an array of strings that was never assigned.
-/

namespace MiniGo

variable {P : Platform}

/-! ### Declarations and loads -/

namespace Execution

/-- An execution has just run the code of a declaration without a value, in the code of an
activation. -/
def Declared (e : Execution P) (ctx : Context) (v : VarRef) (x : Variable) (t : Nat)
    (code : List Line) (callers : List (Activation P)) : Prop :=
  ∃ before pc w, t = before + (defaultCode x).length + 1 ∧
    e.ComesTo before code pc callers w (defaultCode x ++ [ctx.storeInstr v x])

/-- From one time up to another, a variable is not assigned. A variable of a function belongs to one
activation, which goes on all the time. -/
structure Unassigned (e : Execution P) (ctx : Context) (v : VarRef) (x : Variable)
    (callers : List (Activation P)) (t n : Nat) : Prop where
  le : t ≤ n
  goesOn : v.scope ≠ .globals → e.GoesOn callers t n
  unstored : ∀ t', t ≤ t' → t' < n → ∀ code pc callers' w, e.ComesTo t' code pc callers' w
      [ctx.storeInstr v x] →
    v.scope ≠ .globals ∧ callers' ≠ callers

/-- From one time up to another, nothing is stored into an element of an array. -/
def ElementUnassigned (e : Execution P) (address : Nat) (index : BitVec 32) (t n : Nat) : Prop :=
  ∀ t', t ≤ t' → t' < n → ∀ code pc callers w i, e.ComesTo t' code pc callers w [i] →
    ¬ i.StoresElement w address index

/-- The instructions to which an execution comes put a datum on the stack and change nothing
else. -/
def Puts (e : Execution P) (n : Nat) (code : List Line) (pc : Nat) (callers : List (Activation P))
    (w : Work P) (is : List Instr) (d : Datum P) : Prop :=
  e.state (n + is.length) =
    some (Work.at ⟨d :: w.stack, w.locals, w.memory⟩ code (pc + is.length) callers)

/-- What a variable starts with, from the time when it was declared without a value, as long as it
is not assigned. A load of a scalar gives its zero value. A load of an element that was not assigned
gives the zero value, or null in an array of strings. The machine has no arrays of `arrayLimit` or
more elements, so a load from one may stop it. -/
structure Starts (e : Execution P) (ctx : Context) (v : VarRef) (x : Variable) (t : Nat)
    (callers : List (Activation P)) : Prop where
  scalar : x.array? = none → ∀ n, e.Unassigned ctx v x callers t n →
    ∀ code pc callers' w, (v.scope ≠ .globals → callers' = callers) →
      e.ComesTo n code pc callers' w [ctx.loadInstr v x] →
        e.Puts n code pc callers' w [ctx.loadInstr v x] (Value.zero x.ty).datum
  element : ∀ shape, x.array? = some shape →
      ∀ k < shape.length, ∀ n, e.Unassigned ctx v x callers t n →
    ∀ code pc callers' w, (v.scope ≠ .globals → callers' = callers) →
      e.ComesTo n code pc callers' w
        (ctx.addressCode v x k ++ [.elementLoad shape.element.elementKind]) →
          (∀ a, ctx.place w.memory w.locals v x = some (.array a) → e.ElementUnassigned a
            (.ofInt 32 k) t n) → shape.length < arrayLimit ∨ (e.state (n + 3)).isSome = true →
              e.Puts n code pc callers' w
                (ctx.addressCode v x k ++ [.elementLoad shape.element.elementKind])
                  (if shape.element = .string then .null else (Value.zero shape.element).datum)

end Execution

/-! ### Arrays -/

section

variable {cls : ClassFile} {address : Nat} {index : BitVec 32} {type : ArrayType}
  {kind : ElementKind} {d : Datum P}
  {stk : List (Datum P)} {locals : Nat → Option (Datum P)} {mem : Memory P}

/-- A new array is made. -/
theorem newArray_effect {length : BitVec 32} (short : length.toNat < arrayLimit) :
    (Instr.newArray type).effect cls ⟨.int length :: stk, locals, mem⟩ =
      some ⟨.array mem.heap.length :: stk, locals,
      mem.allocate ⟨type, .replicate length.toNat type.initial⟩⟩ :=
  if_pos short

/-- The elements of a new array. -/
theorem Memory.element?_new (object : ArrayObject P) (index : Nat) :
    (mem.allocate object).element? mem.heap.length index =
      some (object.type, object.elements[index]?) := by
  simp [Memory.element?, Memory.allocate]

/-- An element is loaded. -/
theorem elementLoad_effect (here : mem.element? address index.toNat = some (type, some d))
    (same : type.elementKind = kind) :
    (Instr.elementLoad kind).effect cls ⟨.int index :: .array address :: stk, locals, mem⟩ =
      some ⟨d :: stk, locals, mem⟩ := by
  obtain ⟨object, found, same'⟩ := Option.map_eq_some_iff.1 here
  obtain ⟨rfl, element⟩ := Prod.mk.inj same'
  simp [Instr.effect, found, element, same]

/-- There is nothing to load behind the end of an array. -/
theorem elementLoad_effect_eq_none (here : mem.element? address index.toNat = some (type, none)) :
    (Instr.elementLoad kind).effect cls ⟨.int index :: .array address :: stk, locals, mem⟩ =
      none := by
  obtain ⟨object, found, same⟩ := Option.map_eq_some_iff.1 here
  obtain ⟨-, element⟩ := Prod.mk.inj same
  simp [Instr.effect, found, element]

/-- What an array starts with is zero, except for strings. -/
theorem initial_arrayType (ty : Ty) :
    (ty.arrayType.initial : Datum P) = if ty = .string then .null else (Value.zero ty).datum := by
  cases ty <;> rfl

end

/-! ### Places of their own -/

/-- Other variables are not kept where a variable is: what is stored there by the code of the class
is the variable itself. -/
structure OwnPlace (cls : ClassFile) (ctx : Context) (v : VarRef) (x : Variable)
    (code : List Line) : Prop where
  slot : v.scope ≠ .globals → ∀ (pc : Nat) kind, code[pc]? =
      some (.instr (.store kind (ctx.frame.slot v.slot))) →
    .store kind (ctx.frame.slot v.slot) = ctx.storeInstr v x
  field : v.scope = .globals → ∀ m ∈ cls.methods, ∀ (pc : Nat) g, m.code[pc]? =
      some (.instr (.putStatic g)) →
    g.key = (ctx.fieldOf x).key → .putStatic g = ctx.storeInstr v x

/-- An instruction for an access that stores into the slot of a variable stores into the
variable. -/
theorem Context.Accesses.eq_storeInstr {ctx : Context} {i : Nat} {a : VarAccess} {v : VarRef}
    {x : Variable} {kind : ValueKind}
    (h : ctx.Accesses (.function i) a (.store kind (ctx.frame.slot v.slot)))
    (own : v.scope = .function i) (entry : ctx.tables.var? v = some x) :
    .store kind (ctx.frame.slot v.slot) = ctx.storeInstr v x := by
  obtain ⟨slot, scope⟩ := v
  obtain rfl : scope = .function i := own
  generalize stored : Instr.store kind (ctx.frame.slot slot) = instr at h
  have same {v' : VarRef} {x' : Variable} (own' : v'.scope = .function i)
      (entry' : ctx.tables.var? v' = some x')
        (slots : ctx.frame.slot slot = ctx.frame.slot v'.slot) : x' = x := by
    obtain ⟨slot', scope'⟩ := v'
    obtain rfl : scope' = .function i := own'
    obtain rfl : slot = slot' := Nat.add_left_cancel slots
    exact Option.some.inj (entry'.symm.trans entry)
  cases h with
  | load => cases stored
  | store own' entry' | declare own' entry' =>
    obtain ⟨-, slots⟩ := Instr.store.inj stored
    rw [same own' entry' slots, ← slots]
    rfl

namespace Execution

variable {e : Execution P} {ctx : Context} {v : VarRef} {x : Variable} {shape : ArrayShape}
  {t n k pc : Nat}
  {code : List Line} {callers callers' : List (Activation P)} {w : Work P} {d : Datum P}

/-! ### What a declaration leaves -/

theorem Declared.scalar (linked : Linked e.cls ctx) (entry : ctx.tables.var? v = some x)
    (plain : x.array? = none) (h : e.Declared ctx v x t code callers) :
    ∃ pc, ∃ w : Work P, e.state t = some (w.at code pc callers) ∧
      ctx.place w.memory w.locals v x = some (Value.zero x.ty).datum := by
  obtain ⟨before, pc, w, rfl, comes⟩ := h
  have scalar := (linked.wf.var? entry).isScalar plain
  unfold defaultCode at comes ⊢
  rw [plain] at comes ⊢
  have zero := comes.next (zeroInstr_effect x.ty w)
  have stored := zero.next (storeInstr_effect linked entry (Value.hasTy_zero scalar).kind_datum)
  exact ⟨_, _, stored.state, place_put_self⟩

/-- A declared array is a new one. -/
theorem Declared.array (linked : Linked e.cls ctx) (entry : ctx.tables.var? v = some x)
    (array : x.array? = some shape) (h : e.Declared ctx v x t code callers)
    (reached : (e.state t).isSome = true) :
    ∃ pc, ∃ w : Work P, ∃ a, e.state t = some (w.at code pc callers) ∧
      ctx.place w.memory w.locals v x = some (.array a) ∧
      ∀ index, w.memory.element? a index = some (shape.element.arrayType,
        (List.replicate (BitVec.ofInt 32 shape.length).toNat
          shape.element.arrayType.initial)[index]?) := by
  obtain ⟨before, pc, w, rfl, comes⟩ := h
  unfold defaultCode at comes reached ⊢
  rw [array] at comes reached ⊢
  have length : e.ComesTo _ _ _ _ ⟨.int (.ofInt 32 shape.length) :: w.stack, w.locals, w.memory⟩
      _ := comes.next rfl
  by_cases short : (BitVec.ofInt 32 shape.length).toNat < arrayLimit
  · have made := length.next (newArray_effect short)
    have isRef := (linked.wf.var? entry).array_kind (P := P) array w.memory.heap.length
    have stored := made.next (storeInstr_effect linked entry isRef)
    exact ⟨_, _, _, stored.state, place_put_self, fun index => by
      simp only [Memory.element?, putMemory_heap]
      exact Memory.element?_new _ index⟩
  · -- The machine does not make such an array.
    have stops := length.stops rfl rfl (if_neg short)
    obtain ⟨s, found⟩ := Option.isSome_iff_exists.1 reached
    obtain ⟨s', found'⟩ := exists_state_of_le found (Nat.le_succ (before + 2))
    rw [stops] at found'
    cases found'

/-! ### What is kept -/

/-- A variable keeps what it holds until it is assigned. -/
theorem place_kept (own : OwnPlace e.cls ctx v x code) (h : e.Unassigned ctx v x callers t n)
    {w' : Work P} {pc' : Nat} {code' : List Line} (state : e.state t = some (w.at code pc callers))
    (state' : e.state n = some (w'.at code' pc' callers'))
    (same : v.scope ≠ .globals → callers' = callers) :
    ctx.place w'.memory w'.locals v x = ctx.place w.memory w.locals v x := by
  have slots := own.slot
  have fields := own.field
  have goesOn := h.goesOn
  have unstored := h.unstored
  obtain ⟨slot, scope⟩ := v
  -- A global variable is kept by everything that runs, a local one while its own activation waits
  -- or goes on.
  cases scope with
  | globals =>
    have kept := statics_kept (ctx.fieldOf x).key state state' h.le
      fun t' from_ before code pc callers w g put key => by
        obtain ⟨m, isMethod, own⟩ := code_of_mem_calls put.state (List.mem_cons_self ..)
        have line := put.line
        rw [show code = m.code from own] at line
        rw [fields rfl m isMethod pc g line key] at put
        exact (unstored t' from_ before _ _ _ _ put).1 rfl
    exact congrArg some kept
  | function i =>
    have above : (Scope.function i) ≠ .globals := Scope.noConfusion
    obtain rfl := same above
    exact (slot_kept [] state state' h.le (goesOn above)
      fun t' from_ before pc w kind put => by
        rw [slots above pc kind put.line] at put
        exact (unstored t' from_ before _ _ _ _ put).2 rfl).2

/-! ### What loads give -/

/-- A variable starts with what its declaration leaves. -/
theorem Declared.starts (linked : Linked e.cls ctx) (entry : ctx.tables.var? v = some x)
    (own : OwnPlace e.cls ctx v x code) (h : e.Declared ctx v x t code callers) :
    e.Starts ctx v x t callers := by
  refine ⟨fun plain n unassigned code' pc' callers' w' same load => ?_,
    fun shape array k bound n unassigned code' pc' callers' w' same load unstored possible => ?_⟩
  · obtain ⟨pc, w, state, held⟩ := h.scalar linked entry plain
    have scalar := (linked.wf.var? entry).isScalar plain
    have kept := (place_kept own unassigned state load.state same).trans held
    exact (load.next
      (loadInstr_effect linked entry kept (Value.hasTy_zero scalar).kind_datum)).state
  · obtain ⟨s, reached⟩ := exists_state_of_le load.state unassigned.le
    obtain ⟨pc, w, a, state, held, elements⟩ := h.array linked entry array (by rw [reached]; rfl)
    have kept := (place_kept own unassigned state load.state same).trans held
    have here :=
      element_kept (.ofInt 32 k) state (elements _) load.state unassigned.le (unstored a kept)
    have loaded :=
      load.next (loadInstr_effect linked entry kept ((linked.wf.var? entry).array_kind array a))
    have address : e.ComesTo _ _ _ _ ⟨.int (.ofInt 32 k) :: .array a :: w'.stack, w'.locals,
        w'.memory⟩ _ :=
      loaded.next rfl
    by_cases inside : (BitVec.ofInt 32 k).toNat < (BitVec.ofInt 32 shape.length).toNat
    · rw [List.getElem?_replicate_of_lt inside] at here
      have done := address.next (elementLoad_effect here (elementKind_arrayType _))
      rw [initial_arrayType] at done
      exact done.state
    · -- Only an array that is too long for the machine ends before the element.
      rcases possible with short | goesOn
      · rw [toNat_ofInt short, toNat_ofInt (bound.trans short)] at inside
        exact absurd bound inside
      · rw [List.getElem?_eq_none (by simpa using inside)] at here
        have stops := address.stops rfl rfl (elementLoad_effect_eq_none here)
        rw [stops] at goesOn
        cases goesOn

end Execution

/-! ### The class of a program -/

/-- The code of the methods for a role. -/
def ClassFile.RunsFor (cls : ClassFile) (role : Role) (code : List Line) : Prop :=
  ∃ m ∈ cls.methods, m.signature = role.signature ∧ m.code = code

/-- The field of a result has a name that no variable has. -/
theorem FieldRef.dollar_of_isResult {g : FieldRef} (h : g.isResult = true) :
    '$' ∈ g.key.name.toList := by
  obtain ⟨owner, name, descriptor⟩ := g
  cases name with
  | named => cases h
  | result f i =>
    simp only [FieldRef.key, FieldName.text, String.toList_append, List.mem_append]
    exact .inl (.inr (by decide))

namespace ClassCode

variable {p : Program} {options : Options}

/-- The statements of a role are run by its method. -/
theorem statementsCode (k : ClassCode p options) {role : Role} (belongs : role.BelongsTo p)
    {n : Node} (mem : n ∈ role.statements p) :
    ∃ m ∈ ClassFile.methodsOf k.lines, m.signature = role.signature ∧
      ∃ lines c, lines <:+: m.code ∧
        StmtsCode (p.context options role.frame) role.scope {} (role.statements p) lines c := by
  cases role with
  | constructor => cases mem
  | initializer =>
    obtain ⟨c, code⟩ := k.initializerCode
    have same : Role.initializer.statements p = k.globals := k.statements_eq
    rw [same] at mem ⊢
    refine ⟨k.initializerMethod, ?_, rfl, k.initializer, c, ?_, code⟩
    · rw [k.methodsOf_lines, if_neg (List.ne_nil_of_mem mem)]
      simp
    · exact ⟨[.limitStack options.stackLimit, .limitLocals 1], [.instr .ret],
        List.append_assoc _ _ _⟩
  | function i f body =>
    obtain ⟨function, isBody⟩ := belongs
    obtain ⟨m, method, rfl⟩ := k.method_of_function function
    obtain ⟨c, code⟩ := k.methodCode method
    obtain rfl := k.body_eq method isBody
    refine ⟨m.method options i, k.method_mem method, rfl, m.code, c, ?_, code⟩
    exact ⟨[.limitStack options.stackLimit, .limitLocals _], closingReturn m.body,
      List.append_assoc _ _ _⟩

/-- A declaration without a value has its code in the method for its role. -/
theorem declaration_hasCode (k : ClassCode p options) (wf : p.tables.WellFormed) {role : Role}
    (belongs : role.BelongsTo p) {n : Node} (mem : n ∈ role.statements p) {v : VarRef} {ty : Ty}
    (contains : n.Contains (.leaf (.varDecl v) ty)) :
    v.scope = role.scope ∧ ∃ x, p.tables.var? v = some x ∧
      x.ty = ty ∧ ∃ code, (ClassFile.ofLines k.lines).RunsFor role code ∧
        asLines (defaultCode x ++ [(p.context options role.frame).storeInstr v x]) <:+: code := by
  obtain ⟨m, isMethod, signature, lines, c, part, stmtsCode⟩ := k.statementsCode belongs mem
  have knows := k.knows wf role role.scope (Role.roleOf_scope belongs)
  obtain ⟨_, _, _, before, code, behind, rfl, stmtCode, -⟩ :=
    (stmtsCode.located knows wf n mem).contains knows wf contains
  cases stmtCode with
  | @declaration _ _ _ x own entry =>
    exact ⟨own, x, entry, rfl, m.code, ⟨m, isMethod, signature, rfl⟩,
      .trans ⟨before, behind, rfl⟩ part⟩

/-- The code of the class stores nothing else into the place of a variable. -/
theorem ownPlace (k : ClassCode p options) (typed : p.WellTyped)
    (globals : ∀ x ∈ p.tables.globals.entries, NameText x.name)
    (functions : ∀ f ∈ p.tables.functions.entries, NameText f.name) {role : Role}
    (belongs : role.BelongsTo p) {v : VarRef} {x : Variable} (own : v.scope = role.scope)
    (entry : p.tables.var? v = some x) {code : List Line}
    (runs : (ClassFile.ofLines k.lines).RunsFor role code) :
    OwnPlace (ClassFile.ofLines k.lines) (p.context options role.frame) v x code := by
  constructor
  · intro above pc kind line
    cases role with
    | constructor | initializer => exact absurd own above
    | function i f body =>
      obtain ⟨function, -⟩ := belongs
      obtain ⟨mc, method, rfl⟩ := k.method_of_function function
      obtain ⟨m, isMethod, signature, rfl⟩ := runs
      -- The method is the one of the function, as no other has its signature.
      obtain rfl : m = mc.method options i :=
        List.inj_on_of_nodup_map (k.signatures_nodup typed.tables functions) isMethod
          (k.method_mem method) (congrArg Signature.text signature)
      have isLocal : Instr.store kind
          ((p.context options (.ofFunction i mc.function.isEntryPoint)).frame.slot v.slot) ∈
            localCode (mc.method options i).code :=
        List.mem_filterMap.2 ⟨_, List.mem_of_getElem? line, rfl⟩
      obtain ⟨j, bound, found⟩ := List.mem_iff_getElem.1 isLocal
      have accesses := k.method_accesses method
      have access := accesses.get (accesses.length_eq ▸ bound) bound
      rw [List.get_eq_getElem, List.get_eq_getElem, found] at access
      exact access.eq_storeInstr own entry
  · intro scope m isMethod pc g line same
    obtain ⟨role', -, -, inPlace, -⟩ := k.methods_inPlace typed m isMethod
    have entry' : x ∈ p.tables.globals.entries := mem_globals_of_var? scope entry
    rcases inPlace.putStatic line with ⟨y, found, rfl⟩ | isResult
    · obtain rfl : y = x :=
        List.inj_on_of_nodup_map typed.tables.globals.distinct found entry'
          (congrArg FieldKey.name same)
      rw [Context.storeInstr, scope]
      rfl
    · refine absurd (FieldRef.dollar_of_isResult isResult) ?_
      rw [same]
      exact (globals x entry').plain

end ClassCode

/-! ### Source texts -/

/-- In a compiled class, each declaration without a value has its code in the method for its scope.
In every execution of the class, wherever that code is run, a variable starts with the zero value of
its type, or with a new array of zero values, and a load gives just that until the variable or the
element is assigned. Only the elements of an array of strings are null. -/
theorem compile_defaults {source text : String} {options : Options}
    (h : compile source options = .ok text) :
    ∃ p lines, analyzeSource source = .ok p ∧
      emission p.root p.tables options = ⟨lines, {}, .ok ()⟩ ∧
      text = Line.render lines ∧
      ∀ role : Role, role.BelongsTo p →
        (∀ n ∈ role.statements p, ∀ v ty, n.Contains (.leaf (.varDecl v) ty) →
          v.scope = role.scope ∧
          ∃ x, p.tables.var? v = some x ∧ x.ty = ty ∧
            ∃ code, (ClassFile.ofLines lines).RunsFor role code ∧
            asLines (defaultCode x ++ [(p.context options role.frame).storeInstr v x]) <:+: code) ∧
        ∀ v x code, v.scope = role.scope → p.tables.var? v = some x →
          (ClassFile.ofLines lines).RunsFor role code →
          ∀ (P : Platform) (arguments : List P.Text) (input : P.Input) t callers,
            Execution.Declared ⟨.ofLines lines, arguments, input⟩
              (p.context options role.frame) v x t code callers →
              Execution.Starts ⟨.ofLines lines, arguments, input⟩
                (p.context options role.frame) v x t callers := by
  obtain ⟨file, p, parsed, analyzed, typed, k, emitted, rfl⟩ := compile_eq_ok h
  have globals := globals_nameText parsed analyzed
  refine ⟨p, k.lines, analyzeSource_eq_ok_iff.2 ⟨_, parsed, analyzed⟩, emitted, rfl,
    fun role belongs => ⟨?_, ?_⟩⟩
  · exact fun n mem v ty contains => k.declaration_hasCode typed.tables belongs mem contains
  · intro v x code own entry runs P arguments input t callers declared
    have linked := k.linked typed.tables (fun x mem => (globals x mem).plain) role.frame
    exact declared.starts linked entry
      (k.ownPlace typed globals (functions_nameText parsed analyzed) belongs own entry runs)

/-- The execution of a class without arguments or input. -/
def ClassFile.execution (cls : ClassFile) : Execution .words := ⟨cls, [], []⟩

/-- At a time of an execution without arguments or input, nothing is stored at an index of any
array. -/
def ClassFile.storesElsewhere (cls : ClassFile) (index : BitVec 32) (t : Nat) : Bool :=
  (cls.execution.state t).all fun s => s.calls.head?.all fun a =>
    match a.code[a.pc]?, a.stack with
    | some (.instr (.elementStore _)), _ :: .int i :: _ => i != index
    | _, _ => true

theorem ClassFile.elementUnassigned_of_check {cls : ClassFile} {index : BitVec 32} {t n : Nat}
    (h : ∀ t' < n, t ≤ t' → cls.storesElsewhere index t' = true) (address : Nat) :
    cls.execution.ElementUnassigned address index t n := by
  rintro t' from_ before code pc callers w i comes ⟨kind, d, rest, rfl, stack⟩
  have elsewhere := h t' before from_
  simp [storesElsewhere, comes.state, Work.at, comes.line, stack] at elsewhere

/-- An array outside of functions, of which one element is assigned and the other one printed. -/
def elementsSource : String := "var g [2]int\nfunc main() \x7b\ng[0] = 1\nwrite(g[1])\n\x7d\n"

theorem elementsSource_defaults : ∃ p lines, analyzeSource elementsSource = .ok p ∧
    compile elementsSource {} = .ok (Line.render lines) ∧ ∃ code pc callers w,
      let load : List Instr :=
  [.getStatic ⟨"GoProgram", .named "g", .array .int⟩, .ldc (.int 1), .elementLoad .int]
      (ClassFile.ofLines lines).execution.ComesTo 14 code pc callers w load ∧
        (ClassFile.ofLines lines).execution.Puts 14 code pc callers w load (.int 0) := by
  let field : FieldRef := ⟨"GoProgram", .named "g", .array .int⟩
  have table : (analyzeSource elementsSource).toOption.any (fun p =>
      p.tables.var? ⟨0, .globals⟩ = some ⟨"g", 1, .array, some ⟨.int, 2⟩⟩) =
        true := by decide +kernel
  obtain ⟨p, lines, analyzed, emitted, compiled, checked⟩ :=
    exists_lines_of_check elementsSource {} (fun lines =>
    let cls := ClassFile.ofLines lines
    cls.execution.isAt 2 [.ldc (.int 2), .newArray .int, .putStatic field] &&
      cls.execution.isAt 14 [.getStatic field, .ldc (.int 1), .elementLoad .int] &&
      ((cls.execution.state 2).any fun s => s.calls.all fun a => cls.methods.any fun m =>
        m.signature = Emission.initializerSignature && m.code = a.code) &&
      (List.range 14).all fun t =>
        t < 5 || (!cls.execution.isAt t [.putStatic field] && cls.storesElsewhere 1 t))
    (by decide +kernel)
  simp only [Bool.and_eq_true, List.all_eq_true, List.mem_range, Bool.or_eq_true, decide_eq_true_eq,
    Bool.not_eq_true'] at checked
  obtain ⟨⟨⟨declares, loads⟩, inInitializer⟩, quiet⟩ := checked
  obtain ⟨code, pc, callers, w, declared⟩ := Execution.isAt_iff.1 declares
  obtain ⟨code', pc', callers', w', loaded⟩ := Execution.isAt_iff.1 loads
  refine ⟨p, lines, analyzed, compiled, code', pc', callers', w', loaded, ?_⟩
  obtain ⟨p', lines', analyzed', emitted', -, starts⟩ := compile_defaults compiled
  obtain rfl : p = p' := Except.ok.inj (analyzed.symm.trans analyzed')
  obtain rfl : lines = lines' := congrArg Emission.lines (emitted.symm.trans emitted')
  have entry : p.tables.var? ⟨0, .globals⟩ = some ⟨"g", 1, .array, some ⟨.int, 2⟩⟩ := by
    simpa [analyzed, Except.toOption] using table
  have runs : (ClassFile.ofLines lines).RunsFor .initializer code := by
    rw [declared.state, Option.any_some, List.all_eq_true] at inInitializer
    obtain ⟨m, isMethod, same⟩ := List.any_eq_true.1 (inInitializer _ (List.mem_cons_self ..))
    simp only [Bool.and_eq_true, decide_eq_true_eq] at same
    exact ⟨m, isMethod, same⟩
  have start :=
    (starts .initializer trivial).2 ⟨0, .globals⟩ _ code rfl entry runs .words [] [] 5 callers
      ⟨2, pc, w, rfl, declared⟩
  refine start.element ⟨.int, 2⟩ rfl 1 (by decide) 14 ⟨by decide, fun above => absurd rfl above,
    ?_⟩ code' pc' callers' w' (fun above => absurd rfl above) loaded (fun a _ => ?_)
      (.inl (by decide))
  · intro t' from_ before _ _ _ _ stored
    have never := ((quiet t' before).resolve_left (Nat.not_lt.2 from_)).1
    have comes : (ClassFile.ofLines lines).execution.isAt t' [.putStatic field] = true :=
      Execution.isAt_iff.2 ⟨_, _, _, _, stored⟩
    rw [never] at comes
    cases comes
  · exact ClassFile.elementUnassigned_of_check
      (fun t' before from_ => ((quiet t' before).resolve_left (Nat.not_lt.2 from_)).2) a

/-- Whether a line stores into a slot, a field or an element of an array. -/
def Line.isStore : Line → Bool
  | .instr (.store _ _) | .instr (.putStatic _) | .instr (.elementStore _) => true
  | _ => false

/-- What is on top of the stack of the method that is run. -/
def MachineState.top? (s : MachineState P) : Option (Datum P) :=
  s.calls.head?.bind fun a => a.stack.head?

/-- Whether a datum is null. -/
def Datum.isNull : Datum P → Bool
  | null => true
  | _ => false

theorem Datum.eq_null {d : Datum P} (h : d.isNull = true) : d = .null := by
  cases d with
  | null => rfl
  | int | float | text | array | object => cases h

/-- An array of strings that is declared and printed, and never assigned. -/
def stringsSource : String := "func main() \x7b\nvar a [1]string\nwrite(a[0])\n\x7d\n"

/-- The element is loaded after the declaration of the array, and nothing was stored anywhere in
between. What is loaded and printed is null, and not the empty string. -/
theorem stringsSource_reads_null : ∃ p lines, analyzeSource stringsSource = .ok p ∧
    compile stringsSource {} = .ok (Line.render lines) ∧
      p.tables.var? ⟨0, .function 0⟩ = some ⟨"a", 2, .array, some ⟨.string, 1⟩⟩ ∧
      let e := (ClassFile.ofLines lines).execution
      e.isAt 3 [.ldc (.int 1), .newArray .string, .store .ref 1] = true ∧
      e.isAt 7 [.load .ref 1, .ldc (.int 0), .elementLoad .ref] = true ∧
      (∀ t, 6 ≤ t → t < 10 → ((e.state t).bind MachineState.line?).any Line.isStore = false) ∧
      (e.state 10).bind MachineState.top? = some .null ∧
      (Value.zero .string : Value .words).datum ≠ .null ∧
      ∃ mem, e.cls.Executes e.arguments e.input mem ∧ mem.output.map Value.datum = [.null] := by
  have table : (analyzeSource stringsSource).toOption.any (fun p =>
      p.tables.var? ⟨0, .function 0⟩ = some ⟨"a", 2, .array, some ⟨.string, 1⟩⟩) =
        true := by decide +kernel
  obtain ⟨p, lines, analyzed, -, compiled, checked⟩ :=
    exists_lines_of_check stringsSource {} (fun lines =>
    let e := (ClassFile.ofLines lines).execution
    e.isAt 3 [.ldc (.int 1), .newArray .string, .store .ref 1] &&
      e.isAt 7 [.load .ref 1, .ldc (.int 0), .elementLoad .ref] &&
      ((List.range 10).all fun t => t <
      6 || !((e.state t).bind MachineState.line?).any Line.isStore) &&
      ((e.state 10).bind MachineState.top?).any Datum.isNull && (e.moment 12).any fun m =>
        m.entered && m.state.calls.isEmpty && m.state.memory.output.length =
          1 && m.state.memory.output.all (·.datum.isNull))
    (by decide +kernel)
  simp only [Bool.and_eq_true, List.all_eq_true, List.mem_range, Bool.or_eq_true, decide_eq_true_eq,
    Bool.not_eq_true', Option.any_eq_true, List.isEmpty_iff] at checked
  obtain ⟨⟨⟨⟨declares, loads⟩, quiet⟩, d, top, isNull⟩, ⟨entered, calls, mem⟩, found,
    ⟨⟨isMain, ended⟩, one⟩, nulls⟩ :=
    checked
  have entry : p.tables.var? ⟨0, .function 0⟩ = some ⟨"a", 2, .array, some ⟨.string, 1⟩⟩ := by
    simpa [analyzed, Except.toOption] using table
  refine ⟨p, lines, analyzed, compiled, entry, declares, loads, ?_, ?_, ?_, mem, ?_, ?_⟩
  · exact fun t from_ before => (quiet t before).resolve_left (Nat.not_lt.2 from_)
  · rw [top, Datum.eq_null isNull]
  · simp [Value.zero, Value.datum]
  · obtain rfl : entered = true := isMain
    obtain rfl : calls = [] := ended
    exact Execution.executes_iff.2 ⟨12, found⟩
  · have printed : ∃ v, mem.output = [v] := List.length_eq_one_iff.1 one
    obtain ⟨v, printed⟩ := printed
    have isNull : v.datum.isNull = true := nulls v (printed ▸ List.mem_singleton_self v)
    rw [printed, List.map_singleton, Datum.eq_null isNull]

end MiniGo
