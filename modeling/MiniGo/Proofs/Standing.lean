import MiniGo.Proofs.Shapes.Method

/-!
# What stands before a line

Some lines of code only make sense behind others: a call behind the code of its arguments, the read
of a result behind the call that leaves it, and a return behind the stores of the results. What is
stored into a field is a global variable or a result of the function itself. All other lines are
plain.

* `StandsAfter`: a line with the lines that it needs before it.
* `StmtCode.inPlace`: each line of the code of a statement has what it needs before it.
* `ClassCode.methods_inPlace`: so has each line of a method, except for a return that was added at
  its end.
-/

namespace MiniGo

/-! ### Plain instructions -/

/-- Whether a field holds a result of a function. -/
def FieldRef.isResult (f : FieldRef) : Bool :=
  match f.name with
  | .named _ => false
  | .result _ _ => true

namespace Instr

/-- Whether an instruction neither calls a function of the program nor returns, stores into no
field, and does not read a result. -/
def isPlain : Instr → Bool
  | invokeStatic _ | ret | putStatic _ => false
  | getStatic f => !f.isResult
  | _ => true

/-- Whether an instruction goes on with the next one in the same method, and changes no field of a
result. -/
def isStraight : Instr → Bool
  | invokeStatic _ | ret | ifCompare _ _ | ifZero _ _ | goto _ => false
  | putStatic f => !f.isResult
  | _ => true

end Instr

/-- Whether a line is a plain instruction, or no instruction at all. -/
def Line.isPlain : Line → Bool
  | .instr i => i.isPlain
  | _ => true

/-! ### Lines in their place -/

/-- A line stands behind the lines that it needs. -/
inductive StandsAfter (ctx : Context) (s : Scope) : List Line → Line → Prop
  | plain {before : List Line} {l : Line} (plain : l.isPlain = true) : StandsAfter ctx s before l
  | call {before : List Line} {j : Nat} {f : Function} {args : List Node} {code : List Instr}
      (callee : ctx.tables.functions.get? j = some f)
      (argsCode : ArgumentsCode ctx s args f.params code) :
      StandsAfter ctx s (before ++ asLines ((if f.isEntryPoint then [.nullConst] else []) ++ code))
        (.instr (.invokeStatic ⟨ctx.options.className, f.signature⟩))
  | result {before : List Line} {between : List Instr} {j i : Nat} {f : Function} {ty : Ty}
      (callee : ctx.tables.functions.get? j = some f) (result : f.returns[i]? = some ty)
      (straight : ∀ i ∈ between, i.isStraight = true) :
      StandsAfter ctx s
        (before ++ asLines ([.invokeStatic ⟨ctx.options.className, f.signature⟩] ++ between))
        (.instr (.getStatic (ctx.resultOf f i ty)))
  | global {before : List Line} {v : VarRef} {x : Variable} (scope : v.scope = .globals)
      (entry : ctx.tables.var? v = some x) :
      StandsAfter ctx s before (.instr (.putStatic (ctx.fieldOf x)))
  | store {before : List Line} {j i : Nat} {f : Function} {ty : Ty} (own : s = .function j)
      (caller : ctx.tables.functions.get? j = some f) (result : f.returns[i]? = some ty) :
      StandsAfter ctx s before (.instr (.putStatic (ctx.resultOf f i ty)))
  | ret {before : List Line} {j : Nat} {f : Function} (own : s = .function j)
      (caller : ctx.tables.functions.get? j = some f) :
      StandsAfter ctx s (before ++ asLines (resultStores ctx f f.returns)) (.instr .ret)

/-- Behind given lines, each of the lines that follow has what it needs before it. -/
def InPlace (ctx : Context) (s : Scope) (given ls : List Line) : Prop :=
  ∀ pc l, ls[pc]? = some l → StandsAfter ctx s (given ++ ls.take pc) l

variable {ctx : Context} {s : Scope}

namespace InPlace

variable {given ls ms : List Line} {is js : List Instr}

theorem nil : InPlace ctx s given [] := by
  intro pc l h
  simp at h

theorem append (h : InPlace ctx s given ls) (h' : InPlace ctx s (given ++ ls) ms) :
    InPlace ctx s given (ls ++ ms) := by
  intro pc l found
  by_cases bound : pc < ls.length
  · rw [List.getElem?_append_left bound] at found
    rw [List.take_append_of_le_length (Nat.le_of_lt bound)]
    exact h pc l found
  · rw [List.getElem?_append_right (Nat.not_lt.1 bound)] at found
    rw [List.take_append, List.take_of_length_le (Nat.not_lt.1 bound), ← List.append_assoc]
    exact h' _ l found

/-- Instructions one after the other. -/
theorem code (h : InPlace ctx s given (asLines is))
    (h' : InPlace ctx s (given ++ asLines is) (asLines js)) :
    InPlace ctx s given (asLines (is ++ js)) := by
  rw [asLines, List.map_append]
  exact h.append h'

theorem line {l : Line} (h : StandsAfter ctx s given l) : InPlace ctx s given [l] := by
  intro pc l' found
  obtain ⟨rfl, rfl⟩ : pc = 0 ∧ l' = l := by
    cases pc with
    | zero => exact ⟨rfl, (Option.some.inj found).symm⟩
    | succ pc => simp at found
  simpa using h

/-- Plain lines stand anywhere. -/
theorem plain (h : ∀ l ∈ ls, l.isPlain = true) : InPlace ctx s given ls :=
  fun _ l found => .plain (h l (List.mem_of_getElem? found))

theorem plainCode (h : ∀ i ∈ is, i.isPlain = true) : InPlace ctx s given (asLines is) := by
  refine plain fun l mem => ?_
  obtain ⟨i, found, rfl⟩ := List.mem_map.1 mem
  exact h i found

end InPlace

/-! ### Single pieces -/

section

variable {v : VarRef} {x : Variable}

theorem isPlain_loadInstr : (ctx.loadInstr v x).isPlain = true := by
  unfold Context.loadInstr
  split <;> rfl

/-- A variable is stored into its slot or its field. -/
theorem storeInstr_inPlace (entry : ctx.tables.var? v = some x) (given : List Line) :
    InPlace ctx s given (asLines [ctx.storeInstr v x]) := by
  refine .line ?_
  unfold Context.storeInstr
  split
  · rename_i scope
    exact .global scope entry
  · exact .plain rfl

theorem isPlain_addressCode {k : Nat} : ∀ i ∈ ctx.addressCode v x k, i.isPlain = true := by
  simp only [Context.addressCode, List.forall_mem_cons]
  exact ⟨isPlain_loadInstr, rfl, by simp⟩

theorem isPlain_convertCode {value wanted : Ty} :
    ∀ i ∈ convertCode value wanted, i.isPlain = true := by
  unfold convertCode
  split <;> simp [Instr.isPlain]

theorem isPlain_defaultCode : ∀ i ∈ defaultCode x, i.isPlain = true := by
  unfold defaultCode
  split
  · simp [Instr.isPlain]
  · cases x.ty <;> simp [zeroInstr, Instr.isPlain]

theorem isPlain_compareCode {o : BinaryOp} {ty : Ty} {code : CondCode} {l : Label} :
    ∀ i ∈ compareCode o ty code l, i.isPlain = true := by
  unfold compareCode
  split <;> simp [Instr.isPlain]

theorem isPlain_scanCode {method : MethodRef} : ∀ i ∈ scanCode method, i.isPlain = true := by
  simp [scanCode, Instr.isPlain, Library.standardInput, FieldRef.isResult]

theorem PlaceCode.inPlace {target : Node} {before after : List Instr}
    (h : PlaceCode ctx s target before after) :
    (∀ given, InPlace ctx s given (asLines before)) ∧
    ∀ given, InPlace ctx s given (asLines after) := by
  cases h with
  | name _ entry => exact ⟨fun _ => .nil, storeInstr_inPlace entry⟩
  | declared _ entry => exact ⟨fun _ => .nil, storeInstr_inPlace entry⟩
  | element =>
    exact ⟨fun _ => .plainCode isPlain_addressCode, fun _ => .plainCode (by simp [Instr.isPlain])⟩

theorem isStraight_loadInstr : (ctx.loadInstr v x).isStraight = true := by
  unfold Context.loadInstr
  split <;> rfl

theorem isStraight_storeInstr : (ctx.storeInstr v x).isStraight = true := by
  unfold Context.storeInstr
  split <;> rfl

theorem isStraight_convertCode {value wanted : Ty} :
    ∀ i ∈ convertCode value wanted, i.isStraight = true := by
  unfold convertCode
  split <;> simp [Instr.isStraight]

theorem PlaceCode.isStraight {target : Node} {before after : List Instr}
    (h : PlaceCode ctx s target before after) :
    (∀ i ∈ before, i.isStraight = true) ∧ ∀ i ∈ after, i.isStraight = true := by
  cases h with
  | name => simp [isStraight_storeInstr]
  | declared => simp [isStraight_storeInstr]
  | element =>
    refine ⟨?_, by simp [Instr.isStraight]⟩
    simp only [Context.addressCode, List.forall_mem_cons]
    exact ⟨isStraight_loadInstr, rfl, by simp⟩

end

/-! ### Values -/

/-- A call stands behind the code of its arguments. -/
theorem call_inPlace {j : Nat} {f : Function} {args : List Node} {code : List Instr}
    (callee : ctx.tables.functions.get? j = some f)
    (argsCode : ArgumentsCode ctx s args f.params code)
    (inPlace : ∀ given, InPlace ctx s given (asLines code)) (given : List Line) :
    InPlace ctx s given (asLines (callCode ctx f code)) := by
  unfold callCode
  refine (InPlace.code (.plainCode ?_) (inPlace _)).code (.line (.call callee argsCode))
  split <;> simp [Instr.isPlain]

mutual

/-- Each line of the code of a value has what it needs before it. -/
theorem ValueCode.inPlace {n : Node} {code : List Instr} :
    ValueCode ctx s n code → ∀ given, InPlace ctx s given (asLines code)
  | .int .. | .float | .bool | .string => fun _ => .plainCode (by simp [Instr.isPlain])
  | .name .. => fun _ => .plainCode (by simp [isPlain_loadInstr])
  | .element .. => fun _ => .plainCode
      (List.forall_mem_append.2 ⟨isPlain_addressCode, by simp [Instr.isPlain]⟩)
  | .arithmetic _ _ _ _ leftCode rightCode => fun _ =>
    ((((leftCode.inPlace _).code (.plainCode isPlain_convertCode)).code (rightCode.inPlace _)).code
      (.plainCode isPlain_convertCode)).code (.plainCode (by simp [Instr.isPlain]))
  | .concat _ _ leftCode rightCode => fun _ =>
    ((leftCode.inPlace _).code (rightCode.inPlace _)).code (.plainCode (by simp [Instr.isPlain]))
  | @ValueCode.call _ _ _ f _ _ code callee result _ argsCode => fun given => by
    refine (call_inPlace callee argsCode argsCode.inPlace _).code (.line ?_)
    have stands := @StandsAfter.result ctx s
      (given ++ asLines ((if f.isEntryPoint then [.nullConst] else []) ++ code)) [] _ 0 _ _ callee
      (by rw [result]; rfl) (by simp)
    simpa [callCode] using stands

/-- Each line of the code of arguments has what it needs before it. -/
theorem ArgumentsCode.inPlace {args : List Node} {tys : List Ty} {code : List Instr} :
    ArgumentsCode ctx s args tys code → ∀ given, InPlace ctx s given (asLines code)
  | .nil => fun _ => .nil
  | .cons _ first others => fun _ =>
    ((first.inPlace _).code (.plainCode isPlain_convertCode)).code (others.inPlace _)

end

/-! ### Conditions and results -/

theorem ConditionCode.inPlace {jump : Emission.Jump} {c c' : LabelCounters} {n : Node}
    {lines : List Line} (h : ConditionCode ctx s jump c n lines c') :
    ∀ given, InPlace ctx s given lines := by
  induction h with
  | value _ valueCode =>
    exact fun _ => (valueCode.inPlace _).code (.plainCode (by simp [Instr.isPlain]))
  | comparison _ _ _ _ leftCode rightCode =>
    exact fun _ => ((((leftCode.inPlace _).code (.plainCode isPlain_convertCode)).code
      (rightCode.inPlace _)).code (.plainCode isPlain_convertCode)).code
        (.plainCode isPlain_compareCode)
  | both _ _ _ ihl ihr => exact fun _ => (ihl _).append (ihr _)
  | skip _ _ _ ihl ihr =>
    exact fun _ => ((ihl _).append (ihr _)).append (.plain (by simp [Line.isPlain]))

/-- The reads of the results of a call stand behind it, with straight code in between. -/
theorem ResultsCode.inPlace {j i : Nat} {f : Function} {targets : List Node} {tys : List Ty}
    {code : List Instr} (callee : ctx.tables.functions.get? j = some f)
    (h : ResultsCode ctx s f i targets tys code) (given : List Line) {between : List Instr}
    (straight : ∀ i ∈ between, i.isStraight = true) :
    InPlace ctx s (given ++
      asLines ([.invokeStatic ⟨ctx.options.className, f.signature⟩] ++ between))
        (asLines code) := by
  induction h generalizing between with
  | nil => exact .nil
  | @cons i target targets ty tys before after rest takes result place _ ih =>
    have beforeStraight : ∀ i ∈ between ++ before, i.isStraight = true :=
      List.forall_mem_append.2 ⟨straight, place.isStraight.1⟩
    have whole : ∀ instr ∈ between ++ before ++ [.getStatic (ctx.resultOf f i ty)] ++
        convertCode ty target.ty ++ after, instr.isStraight = true := by
      simp only [List.forall_mem_append]
      exact ⟨⟨⟨List.forall_mem_append.1 beforeStraight, by simp [Instr.isStraight]⟩,
        isStraight_convertCode⟩, place.isStraight.2⟩
    have read :=
      @StandsAfter.result ctx s given (between ++ before) j i f ty callee result beforeStraight
    have others := ih whole
    simp only [asLines, List.map_append, List.append_assoc] at read others ⊢
    refine (place.inPlace.1 _).append (.append (.line ?_)
      (.append (.plainCode isPlain_convertCode) (.append (place.inPlace.2 _) ?_)))
    · simpa using read
    · simpa using others

/-! ### Statements -/

/-- The results are stored into their own fields. -/
theorem resultStores_inPlace {j : Nat} {f : Function} (own : s = .function j)
    (caller : ctx.tables.functions.get? j = some f) (given : List Line) :
    InPlace ctx s given (asLines (resultStores ctx f f.returns)) := by
  intro pc l found
  obtain ⟨i, mem, rfl⟩ := List.mem_map.1 (List.mem_of_getElem? found)
  simp only [resultStores, List.mem_reverse, List.mem_mapIdx] at mem
  obtain ⟨k, bound, rfl⟩ := mem
  exact .store own caller (List.getElem?_eq_getElem bound)

mutual

/-- Each line of the code of a statement has what it needs before it. -/
theorem StmtCode.inPlace {exit? : Option Label} {c c' : LabelCounters} {n : Node}
    {lines : List Line} :
    StmtCode ctx s exit? c n lines c' → ∀ given, InPlace ctx s given lines
  | .declaration _ entry => fun _ =>
    (InPlace.plainCode isPlain_defaultCode).code (storeInstr_inPlace entry _)
  | .assign _ place valueCode => fun _ =>
    (((place.inPlace.1 _).code (valueCode.inPlace _)).code (.plainCode isPlain_convertCode)).code
      (place.inPlace.2 _)
  | @StmtCode.assignResults _ _ _ _ _ f _ _ code _ callee _ argsCode results => fun given => by
    refine (call_inPlace callee argsCode argsCode.inPlace _).code ?_
    have reads := @ResultsCode.inPlace ctx s _ _ f _ _ _ callee results
      (given ++ asLines ((if f.isEntryPoint then [.nullConst] else []) ++ code)) [] (by simp)
    simpa [callCode] using reads
  | .block body => body.inPlace
  | .cond conditionCode bodyCode => fun _ =>
    ((conditionCode.inPlace _).append (bodyCode.inPlace _)).append
      (.plain (by cases exit? <;> simp [Line.isPlain]))
  | .condElse conditionCode bodyCode otherwiseCode => fun _ =>
    ((((conditionCode.inPlace _).append (bodyCode.inPlace _)).append
      (.plain (by simp [Line.isPlain, Instr.isPlain]))).append (otherwiseCode.inPlace _)).append
        (.plain (by cases exit? <;> simp [Line.isPlain]))
  | .loop conditionCode bodyCode => fun _ =>
    (((InPlace.plain (by simp [Line.isPlain])).append (conditionCode.inPlace _)).append
      (bodyCode.inPlace _)).append (.plain (by simp [Line.isPlain, Instr.isPlain]))
  | .call callee _ argsCode => call_inPlace callee argsCode argsCode.inPlace
  | @StmtCode.ret _ _ _ _ _ _ _ code own caller valuesCode => fun given => by
    refine ((valuesCode.inPlace _).code (resultStores_inPlace own caller _)).code (.line ?_)
    have stands := @StandsAfter.ret ctx s (given ++ asLines code) _ _ own caller
    simpa using stands
  | .read _ place _ => fun _ =>
    ((place.inPlace.1 _).code (.plainCode isPlain_scanCode)).code (place.inPlace.2 _)
  | .write _ valueCode => fun _ =>
    ((InPlace.plainCode (by simp [Instr.isPlain, Library.standardOutput, FieldRef.isResult])).code
      (valueCode.inPlace _)).code (.plainCode (by simp [Instr.isPlain]))

/-- Each line of the code of statements has what it needs before it. -/
theorem StmtsCode.inPlace {c c' : LabelCounters} {nodes : List Node} {lines : List Line} :
    StmtsCode ctx s c nodes lines c' → ∀ given, InPlace ctx s given lines
  | .nil => fun _ => .nil
  | .cons first others => fun _ => (first.inPlace _).append (others.inPlace _)

end

/-! ### Methods -/

theorem limits_inPlace (stack locals : Nat) :
    InPlace ctx s [] [.limitStack stack, .limitLocals locals] :=
  .plain (by simp [Line.isPlain])

namespace Role

/-- The scope in which the statements of the method stand. -/
def scope : Role → Scope
  | constructor | initializer => .globals
  | function i _ _ => .function i

/-- Whether a return is added at the end of the method. -/
def addsReturn : Role → Bool
  | constructor | initializer => true
  | function _ _ body => !Emission.endsWithReturn body

end Role

/-- Each line of a method has what it needs before it, or it is a return that was added at the
end. -/
def Method.InPlace (m : Method) (p : Program) (options : Options) (role : Role) : Prop :=
  ∀ pc l, m.code[pc]? = some l →
    StandsAfter (p.context options role.frame) role.scope (m.code.take pc) l ∨
      (l = .instr .ret ∧ pc + 1 = m.code.length ∧ role.addsReturn = true)

section

variable {p : Program} {options : Options} {role : Role} {m : Method}

theorem Method.inPlace_of_lines
    (h : MiniGo.InPlace (p.context options role.frame) role.scope [] m.code) :
    m.InPlace p options role :=
  fun pc l found => .inl (h pc l found)

theorem Method.inPlace_of_return {lines : List Line}
    (h : MiniGo.InPlace (p.context options role.frame) role.scope [] lines)
    (code : m.code = lines ++ [.instr .ret]) (adds : role.addsReturn = true) :
    m.InPlace p options role := by
  intro pc l found
  rw [code] at found ⊢
  by_cases bound : pc < lines.length
  · rw [List.getElem?_append_left bound] at found
    rw [List.take_append_of_le_length (Nat.le_of_lt bound)]
    exact .inl (h pc l found)
  · obtain ⟨bound', rfl⟩ := List.getElem?_eq_some_iff.1 found
    simp only [List.length_append, List.length_singleton] at bound' ⊢
    obtain rfl : pc = lines.length := by omega
    exact .inr ⟨by simp, rfl, adds⟩

end

namespace ClassCode

variable {p : Program} {options : Options}

theorem constructor_inPlace : constructorMethod.InPlace p options .constructor := by
  have code : constructorMethod.code = asLines [.loadThis,
      .invokeSpecial (Library.constructor Library.objectClass [])] ++ [.instr .ret] := rfl
  refine Method.inPlace_of_return (.plainCode ?_) code rfl
  simp [Instr.isPlain]

theorem initializer_inPlace (k : ClassCode p options) :
    k.initializerMethod.InPlace p options .initializer := by
  obtain ⟨c, code⟩ := k.initializerCode
  exact Method.inPlace_of_return ((limits_inPlace options.stackLimit 1).append (code.inPlace _))
    (List.append_assoc _ _ _).symm rfl

theorem method_inPlace (k : ClassCode p options) {i : Nat} {m : MethodCode}
    (h : k.methods[i]? = some m) :
    (m.method options i).InPlace p options (.function i m.function m.body) := by
  obtain ⟨c, code⟩ := k.methodCode h
  have lines := (limits_inPlace options.stackLimit
    (Emission.localCount (.ofFunction i m.function.isEntryPoint) m.function)).append
      (code.inPlace _)
  by_cases ends : Emission.endsWithReturn m.body = true
  · refine Method.inPlace_of_lines ?_
    rw [MethodCode.method, closingReturn, if_pos ends, List.append_nil]
    exact lines
  · refine Method.inPlace_of_return lines ?_ (by simp [Role.addsReturn, ends])
    rw [MethodCode.method, closingReturn, if_neg ends, List.append_assoc]

/-- Each method of the class is typed for its role, and its lines are in their place. -/
theorem methods_inPlace (k : ClassCode p options) (h : p.WellTyped) :
    ∀ m ∈ ClassFile.methodsOf k.lines, ∃ role : Role, role.BelongsTo p ∧
      role.signature = m.signature ∧
      m.InPlace p options role ∧
      ∃ shape, m.TypedFor p options (ClassFile.ofLines k.lines) role shape :=
  k.forall_methods ⟨constructor_inPlace, k.constructor_typedFor h.tables⟩
    ⟨k.initializer_inPlace, k.initializer_typedFor h.tables⟩
    fun method =>
      ⟨k.method_inPlace method, k.method_typedFor h.tables (k.paramsFirst h method) method⟩

end ClassCode

end MiniGo
