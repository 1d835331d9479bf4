import MiniGo.Proofs.Code.Program
import MiniGo.Proofs.Names.Grammar
import MiniGo.Proofs.Scopes.Additions

/-!
# Integer constants

The integers that code pushes come from literals, from the indices of elements and from the lengths
of arrays. A literal has to fit into 32 bits, and so does an index that is less than the length of
its array. The length of an array is read off a literal as well, but nothing checks it apart from
the tokens, which allow one more than the greatest integer.

* `Leaf.InRange`, `Variable.InRange`: literals and lengths of arrays with at most the magnitude of
  the least integer.
* `Tables.All`: all variables have a property.
* `Fitting`: lines whose integer constants fit into 32 bits, apart from the lengths of arrays.
* `compile_constants`: the integer constants of an assembly.
-/

namespace MiniGo

/-! ### Literals -/

/-- An int literal that can be read has at most the magnitude of the least integer. -/
def Leaf.InRange (l : Leaf) : Prop :=
  l.kind = .literal .int → ∀ i, readInteger? l.text = some i → i.natAbs ≤ 2 ^ 31

/-- All int literals of a file are in range. -/
theorem File.leaves_inRange {source : String} {file : File} (h : File.parse source = .ok file) :
    ∀ l ∈ file.leaves, l.InRange := by
  intro l mem isInt i read
  have legal := leaves_legal h l mem
  rw [Leaf.Legal, isInt] at legal
  rw [readInteger?_of_legal legal] at read
  obtain rfl := Option.some.inj read
  exact legal.inRange

mutual

/-- A constant has the magnitude of its literal. -/
theorem natAbs_constantInt?_le :
    ∀ (e : Expr) {i : Int}, (∀ l ∈ e.leaves, l.InRange) → Analysis.constantInt? e = some i →
      i.natAbs ≤ 2 ^ 31
  | .binary .., i, _, h => by simp [Analysis.constantInt?] at h
  | .operand sign primary _, i, range, h => by
    simp only [Analysis.constantInt?, Option.map_eq_some_iff] at h
    obtain ⟨j, constant, rfl⟩ := h
    have bound := natAbs_constantPrimary?_le primary (List.forall_mem_append.1 range).2 constant
    rcases sign with _ | _ | _ <;> simpa using bound

theorem natAbs_constantPrimary?_le :
    ∀ (primary : Primary) {i : Int}, (∀ l ∈ primary.leaves, l.InRange) →
      Analysis.constantPrimary? primary = some i → i.natAbs ≤ 2 ^ 31
  | .literal ⟨.int, text, line⟩, i, range, h => range ⟨.literal .int, text, line⟩ (.head _) rfl i h
  | .literal ⟨.float, _, _⟩, i, _, h | .literal ⟨.string, _, _⟩, i, _, h
  | .literal ⟨.bool, _, _⟩, i, _, h => by
    simp [Analysis.constantPrimary?] at h
  | .name _, i, _, h | .call .., i, _, h | .index .., i, _, h =>
    by simp [Analysis.constantPrimary?] at h
  | .paren inner, i, range, h => natAbs_constantInt?_le inner range h

end

/-! ### Lengths of arrays -/

/-- A variable is no array, or one whose length has at most the magnitude of the least integer. -/
def Variable.InRange (x : Variable) : Prop := ∀ shape ∈ x.array?, shape.length ≤ 2 ^ 31

/-- Arrays that are declared with literals in range have lengths in range. -/
theorem admits_inRange : Admits Leaf.InRange Variable.InRange where
  scalar _ _ _ := by simp [Variable.InRange]
  array _ _ length i _ range constant := by
    have bound := natAbs_constantInt?_le length range constant
    simp only [Variable.InRange, Option.mem_def, Option.some.injEq, forall_eq']
    omega

/-- All variables have a property. -/
def Tables.All (Q : Variable → Prop) (t : Tables) : Prop :=
  ∀ s vars, t.table? s = some vars → ∀ x ∈ vars.entries, Q x

/-- If all variables have a property before, they have it after. -/
def Tables.KeepsAll (Q : Variable → Prop) (t t' : Tables) : Prop := t.All Q → t'.All Q

instance {Q : Variable → Prop} : IsPreorder Tables (Tables.KeepsAll Q) where
  refl _ := id
  trans _ _ _ h k := k ∘ h

namespace Tables

variable {Q : Variable → Prop} {s : Scope} {t t' : Tables}

theorem AddsOnly.keepsAll (h : t.AddsOnly s Q t') : t.KeepsAll Q t' := by
  intro all s' vars' table
  by_cases own : s' = s
  · subst own
    obtain ⟨new, property, eq⟩ := h.added
    rw [table] at eq
    obtain ⟨vars, before, rfl⟩ := Option.map_eq_some_iff.1 eq.symm
    exact List.forall_mem_append.2 ⟨all s' vars before, property⟩
  · exact all s' vars' (h.apart s' own ▸ table)

/-- A new function has no variables yet. -/
theorem keepsAll_declare {f : Function} {functions : FuncTable}
    (h : t.functions.declare f = .ok functions) (empty : f.vars = {}) :
    t.KeepsAll Q { t with functions } := by
  intro all s vars table
  cases s with
  | globals => exact all .globals vars table
  | function i =>
    obtain ⟨g, found, rfl⟩ := Option.map_eq_some_iff.1 table
    have entries := (FuncTable.declare_eq_ok_iff.1 h).2
    rw [FuncTable.get?, entries] at found
    rcases List.mem_append.1 (List.mem_of_getElem? found) with old | new
    · obtain ⟨j, found⟩ := List.mem_iff_getElem?.1 old
      exact all (.function j) g.vars (Option.map_eq_some_iff.2 ⟨g, found, rfl⟩)
    · obtain rfl := List.mem_singleton.1 new
      simp [empty]

theorem All.var? (h : t.All Q) {v : VarRef} {x : Variable} (entry : t.var? v = some x) : Q x := by
  obtain ⟨vars, table, found⟩ := Option.bind_eq_some_iff.1 entry
  exact h _ vars table x (List.mem_of_getElem? found)

end Tables

namespace Analysis

variable {P : Leaf → Prop} {Q : Variable → Prop} {s : Scope} {t : Tables}

/-- A run after which all variables have a property if they had it before. -/
def RunsKeeping {α : Type} (Q : Variable → Prop) (t : Tables) (x : Lower α) : Prop :=
  Runs (Tables.KeepsAll Q) t x fun _ _ => True

theorem Adds.keeping {α : Type} {x : Lower α} (h : Adds s Q t x) : RunsKeeping Q t x :=
  h.weaken fun _ => Tables.AddsOnly.keepsAll

theorem declareParams_adds {params : List (Ident × Ty)}
    (h : ∀ param ∈ params, Q ⟨param.1.name, param.1.line, param.2, none⟩) :
    Adds s Q t (declareParams s params) := by
  induction params generalizing t with
  | nil => exact .pure
  | cons param params ih =>
    obtain ⟨first, others⟩ := List.forall_mem_cons.1 h
    exact (declareVariable_adds first).bind fun _ _ => ih others

theorem declareFunction_keeping {func : FuncDecl}
    (scalar : ∀ name line ty, Q ⟨name, line, ty, none⟩) :
    RunsKeeping Q t (declareFunction func) := by
  unfold declareFunction
  refine .report (.report ?_)
  split
  · refine .get ?_
    split
    · exact .report (.pure trivial)
    · rename_i functions declared
      refine Runs.bind (P := fun _ _ => True) ⟨Tables.keepsAll_declare declared rfl, trivial⟩
        fun t' _ _ _ => ?_
      exact (declareParams_adds fun _ _ => scalar _ _ _).keeping.bind fun _ _ _ _ => .pure trivial
  · exact .pure trivial

theorem declareFunctions_keeping {funcs : List FuncDecl}
    (scalar : ∀ name line ty, Q ⟨name, line, ty, none⟩) :
    RunsKeeping Q t (declareFunctions funcs) := by
  induction funcs generalizing t with
  | nil => exact .pure trivial
  | cons func funcs ih =>
    exact (declareFunction_keeping scalar).bind fun _ _ _ _ => ih.bind fun _ _ _ _ => .pure trivial

theorem lowerFunctions_keeping (admits : Admits P Q) {funcs : List FuncDecl}
    {indices : List (Option Nat)} (h : ∀ func ∈ funcs, ∀ l ∈ func.leaves, P l) :
    RunsKeeping Q t (lowerFunctions funcs indices) := by
  induction funcs generalizing t indices with
  | nil => exact .pure trivial
  | cons func funcs ih =>
    obtain ⟨first, others⟩ := List.forall_mem_cons.1 h
    cases indices with
    | nil => exact .pure trivial
    | cons index? indices =>
      unfold lowerFunctions
      split
      · have body : ∀ l ∈ func.body.leaves, P l :=
          fun l mem => first l (by simp [FuncDecl.leaves, mem])
        exact (lowerFunction_adds admits body).keeping.bind fun _ _ _ _ =>
          (ih others).bind fun _ _ _ _ => .pure trivial
      · exact ih others

/-- All variables of a program have a property that follows from the leaves of its file. -/
theorem lowerProgram_keeping (admits : Admits P Q)
    (scalar : ∀ name line ty, Q ⟨name, line, ty, none⟩) {file : File} (h : ∀ l ∈ file.leaves, P l) :
    RunsKeeping Q t (lowerProgram file) := by
  have globals : ∀ decl ∈ file.varDecls, ∀ spec ∈ decl.specs, spec.Admits Q :=
    fun decl declared spec listed =>
    admits.spec fun l mem =>
      h l (File.mem_leaves_of_varDecl declared (List.mem_flatMap.2 ⟨spec, listed, mem⟩))
  have functions : ∀ func ∈ file.funcDecls, ∀ l ∈ func.leaves, P l := fun func declared l mem =>
    h l (File.mem_leaves_of_funcDecl declared mem)
  unfold lowerProgram
  refine (lowerGlobals_adds globals).keeping.bind fun _ _ _ _ => ?_
  refine (declareFunctions_keeping scalar).bind fun _ _ _ _ => .get (.report ?_)
  exact (lowerFunctions_keeping admits functions).bind fun _ _ _ _ => .pure trivial

end Analysis

/-- The arrays of a program have lengths in range. -/
theorem lengths_inRange {source : String} {file : File} {p : Program}
    (parsed : File.parse source = .ok file) (analyzed : analyze file = .ok p) :
    p.tables.All Variable.InRange := by
  obtain ⟨-, rfl⟩ := analyze_eq_ok analyzed
  have keeping : Analysis.RunsKeeping Variable.InRange {} (Analysis.lowerProgram file) :=
    Analysis.lowerProgram_keeping admits_inRange (by simp [Variable.InRange])
      (File.leaves_inRange parsed)
  refine keeping.1 fun s vars table => ?_
  cases s with
  | globals =>
    obtain rfl := Option.some.inj table
    simp
  | function i => simp [Tables.table?, FuncTable.get?] at table

/-! ### Code -/

/-- The integer constant that a line pushes. -/
def Line.int? : Line → Option Int
  | .instr (.ldc (.int i)) => some i
  | _ => none

/-- Lines whose integer constants fit into 32 bits, apart from lengths of arrays of a program in
front of the instructions that make these arrays. -/
inductive Fitting (t : Tables) : List Line → Prop
  | nil : Fitting t []
  | cons {l : Line} {ls : List Line} (fits : ∀ i ∈ l.int?, Analysis.fitsInt i = true)
      (rest : Fitting t ls) :
      Fitting t (l :: ls)
  | length {v : VarRef} {x : Variable} {shape : ArrayShape} {ls : List Line}
      (entry : t.var? v = some x) (array : x.array? = some shape) (rest : Fitting t ls) :
      Fitting t (asLines [.ldc (.int shape.length), .newArray shape.element.arrayType] ++ ls)

namespace Fitting

variable {t : Tables} {ls ms : List Line} {is js : List Instr}

theorem append (h : Fitting t ls) (h' : Fitting t ms) : Fitting t (ls ++ ms) := by
  induction h with
  | nil => exact h'
  | cons fits _ ih => exact .cons fits ih
  | length entry array _ ih => exact .length entry array ih

theorem of_forall (h : ∀ l ∈ ls, l.int? = none) : Fitting t ls := by
  induction ls with
  | nil => exact .nil
  | cons l ls ih =>
    obtain ⟨first, others⟩ := List.forall_mem_cons.1 h
    exact .cons (by simp [first]) (ih others)

theorem flatten {lss : List (List Line)} (h : ∀ ls ∈ lss, Fitting t ls) :
    Fitting t lss.flatten := by
  induction lss with
  | nil => exact .nil
  | cons ls lss ih =>
    obtain ⟨first, others⟩ := List.forall_mem_cons.1 h
    exact first.append (ih others)

theorem code (h : Fitting t (asLines is)) (h' : Fitting t (asLines js)) :
    Fitting t (asLines (is ++ js)) := by
  rw [asLines, List.map_append]
  exact h.append h'

theorem free (h : ∀ i ∈ is, (Line.instr i).int? = none) : Fitting t (asLines is) := by
  refine of_forall fun l mem => ?_
  obtain ⟨i, found, rfl⟩ := List.mem_map.1 mem
  exact h i found

/-- A constant in fitting lines fits into 32 bits, or it is the length of an array that the next
line makes. -/
theorem at_pc (h : Fitting t ls) {pc : Nat} {i : Int}
    (found : ls[pc]? = some (.instr (.ldc (.int i)))) :
    Analysis.fitsInt i = true ∨ ∃ v x shape, t.var? v = some x ∧ x.array? = some shape ∧
      i = shape.length ∧
      ls[pc + 1]? = some (.instr (.newArray shape.element.arrayType)) := by
  induction h generalizing pc with
  | nil => cases found
  | cons fits _ ih =>
    cases pc with
    | zero =>
      obtain rfl := Option.some.inj found
      exact .inl (fits i rfl)
    | succ pc => exact ih found
  | @length v x shape ls entry array _ ih =>
    match pc, found with
    | 0, found =>
      cases found
      exact .inr ⟨v, x, shape, entry, array, rfl, rfl⟩
    | 1, found => cases found
    | pc + 2, found => exact ih found

end Fitting

section

variable {ctx : Context} {s : Scope} {v : VarRef} {x : Variable}

theorem fitsInt_offset (inRange : ctx.tables.All Variable.InRange) {shape : ArrayShape} {k : Nat}
    (entry : ctx.tables.var? v = some x) (array : x.array? = some shape)
    (bound : k < shape.length) :
    Analysis.fitsInt k = true := by
  have length := inRange.var? entry shape array
  have power : Nat.pow 2 31 = 2 ^ 31 := rfl
  simp only [Analysis.fitsInt, power, decide_eq_true_eq]
  omega

theorem loadInstr_fitting : Fitting ctx.tables (asLines [ctx.loadInstr v x]) := by
  refine .free ?_
  simp only [List.forall_mem_singleton, Context.loadInstr]
  split <;> rfl

theorem storeInstr_fitting : Fitting ctx.tables (asLines [ctx.storeInstr v x]) := by
  refine .free ?_
  simp only [List.forall_mem_singleton, Context.storeInstr]
  split <;> rfl

theorem address_fitting (inRange : ctx.tables.All Variable.InRange) {shape : ArrayShape} {k : Nat}
    (entry : ctx.tables.var? v = some x) (array : x.array? = some shape)
    (bound : k < shape.length) :
    Fitting ctx.tables (asLines (ctx.addressCode v x k)) := by
  have offset := fitsInt_offset inRange entry array bound
  exact loadInstr_fitting.append (.cons (by simpa [Line.int?] using offset) .nil)

theorem convert_fitting {value wanted : Ty} :
    Fitting ctx.tables (asLines (convertCode value wanted)) := by
  refine .free ?_
  unfold convertCode
  split <;> simp [Line.int?]

theorem compare_fitting {o : BinaryOp} {ty : Ty} {code : CondCode} {l : Label} :
    Fitting ctx.tables (asLines (compareCode o ty code l)) := by
  refine .free ?_
  unfold compareCode
  split <;> simp [Line.int?]

/-- A declaration makes an array of the length that it has in the tables. -/
theorem default_fitting (entry : ctx.tables.var? v = some x) :
    Fitting ctx.tables (asLines (defaultCode x)) := by
  unfold defaultCode
  split
  · rename_i shape array
    exact .length entry array .nil
  · refine .free ?_
    cases x.ty <;> simp [zeroInstr, Line.int?]

theorem call_fitting {f : Function} {is : List Instr} (h : Fitting ctx.tables (asLines is)) :
    Fitting ctx.tables (asLines (callCode ctx f is)) := by
  refine ((Fitting.free ?_).code h).code (.free (by simp [Line.int?]))
  split <;> simp [Line.int?]

theorem resultStores_fitting {f : Function} {tys : List Ty} :
    Fitting ctx.tables (asLines (resultStores ctx f tys)) := by
  refine .free fun i mem => ?_
  simp only [resultStores, List.mem_reverse, List.mem_mapIdx] at mem
  obtain ⟨_, _, rfl⟩ := mem
  rfl

theorem exit_fitting {exit? : Option Label} {l : Label} :
    Fitting ctx.tables (if exit?.isNone then [Line.label l] else []) := by
  refine .of_forall ?_
  split <;> simp [Line.int?]

mutual

theorem ValueCode.fitting (inRange : ctx.tables.All Variable.InRange) {n : Node}
    {code : List Instr} :
    ValueCode ctx s n code → Fitting ctx.tables (asLines code)
  | .int fits _ => by
    refine .cons ?_ .nil
    unfold Emission.intConstant
    split
    · simp [Line.int?]
    · simpa [Line.int?] using fits
  | .float | .bool | .string => .free (by simp [Line.int?])
  | .name .. => loadInstr_fitting
  | .element _ entry array bound =>
    (address_fitting inRange entry array bound).code (.free (by simp [Line.int?]))
  | .arithmetic _ _ _ _ leftCode rightCode =>
    ((((leftCode.fitting inRange).code convert_fitting).code (rightCode.fitting inRange)).code
      convert_fitting).code (.free (by simp [Line.int?]))
  | .concat _ _ leftCode rightCode =>
    ((leftCode.fitting inRange).code (rightCode.fitting inRange)).code (.free (by simp [Line.int?]))
  | .call _ _ _ argsCode =>
    (call_fitting (argsCode.fitting inRange)).code (.free (by simp [Line.int?]))

theorem ArgumentsCode.fitting (inRange : ctx.tables.All Variable.InRange) {args : List Node}
    {tys : List Ty} {code : List Instr} :
    ArgumentsCode ctx s args tys code → Fitting ctx.tables (asLines code)
  | .nil => .nil
  | .cons _ first others =>
    ((first.fitting inRange).code convert_fitting).code (others.fitting inRange)

end

theorem ConditionCode.fitting (inRange : ctx.tables.All Variable.InRange) {jump : Emission.Jump}
    {c c' : LabelCounters} {n : Node} {lines : List Line}
    (h : ConditionCode ctx s jump c n lines c') :
    Fitting ctx.tables lines := by
  induction h with
  | value _ valueCode => exact (valueCode.fitting inRange).code (.free (by simp [Line.int?]))
  | comparison _ _ _ _ leftCode rightCode =>
    exact ((((leftCode.fitting inRange).code convert_fitting).code (rightCode.fitting inRange)).code
      convert_fitting).code compare_fitting
  | both _ _ _ ihl ihr => exact ihl.append ihr
  | skip _ _ _ ihl ihr => exact (ihl.append ihr).append (.of_forall (by simp [Line.int?]))

theorem PlaceCode.fitting (inRange : ctx.tables.All Variable.InRange) {target : Node}
    {before after : List Instr} (h : PlaceCode ctx s target before after) :
    Fitting ctx.tables (asLines before) ∧ Fitting ctx.tables (asLines after) := by
  cases h with
  | name | declared => exact ⟨.nil, storeInstr_fitting⟩
  | element _ entry array bound =>
    exact ⟨address_fitting inRange entry array bound, .free (by simp [Line.int?])⟩

theorem ResultsCode.fitting (inRange : ctx.tables.All Variable.InRange) {f : Function} {i : Nat}
    {targets : List Node} {tys : List Ty} {code : List Instr}
    (h : ResultsCode ctx s f i targets tys code) :
    Fitting ctx.tables (asLines code) := by
  induction h with
  | nil => exact .nil
  | cons _ _ place _ ih =>
    obtain ⟨before, after⟩ := place.fitting inRange
    exact (((before.code (.free (by simp [Line.int?]))).code convert_fitting).code after).code ih

mutual

theorem StmtCode.fitting (inRange : ctx.tables.All Variable.InRange) {exit? : Option Label}
    {c c' : LabelCounters} {n : Node} {lines : List Line} :
    StmtCode ctx s exit? c n lines c' → Fitting ctx.tables lines
  | .declaration _ entry => (default_fitting entry).code storeInstr_fitting
  | .assign _ place valueCode => by
    obtain ⟨before, after⟩ := place.fitting inRange
    exact ((before.code (valueCode.fitting inRange)).code convert_fitting).code after
  | .assignResults _ _ argsCode results =>
    (call_fitting (argsCode.fitting inRange)).code (results.fitting inRange)
  | .block body => body.fitting inRange
  | .cond conditionCode bodyCode =>
    ((conditionCode.fitting inRange).append (bodyCode.fitting inRange)).append exit_fitting
  | .condElse conditionCode bodyCode otherwiseCode =>
    ((((conditionCode.fitting inRange).append (bodyCode.fitting inRange)).append
      (.of_forall (by simp [Line.int?]))).append (otherwiseCode.fitting inRange)).append
        exit_fitting
  | .loop conditionCode bodyCode =>
    (((Fitting.of_forall (by simp [Line.int?])).append (conditionCode.fitting inRange)).append
      (bodyCode.fitting inRange)).append (.of_forall (by simp [Line.int?]))
  | .call _ _ argsCode => call_fitting (argsCode.fitting inRange)
  | .ret _ _ valuesCode =>
    ((valuesCode.fitting inRange).code resultStores_fitting).code (.free (by simp [Line.int?]))
  | .read _ place _ => by
    obtain ⟨before, after⟩ := place.fitting inRange
    exact (before.code (.free (by simp [scanCode, Line.int?]))).code after
  | .write _ valueCode =>
    ((Fitting.free (by simp [Line.int?])).code (valueCode.fitting inRange)).code
      (.free (by simp [Line.int?]))

theorem StmtsCode.fitting (inRange : ctx.tables.All Variable.InRange) {c c' : LabelCounters}
    {nodes : List Node} {lines : List Line} :
    StmtsCode ctx s c nodes lines c' → Fitting ctx.tables lines
  | .nil => .nil
  | .cons first others => (first.fitting inRange).append (others.fitting inRange)

end

end

/-! ### Classes -/

namespace ClassCode

variable {p : Program} {options : Options}

theorem methodBlock_fitting {access : Access} {signature : Signature} {locals : Nat}
    {body : List Line} (h : Fitting p.tables body) :
    Fitting p.tables (methodBlock options access signature locals body) :=
  ((Fitting.of_forall (by simp [Line.int?])).append h).append (.of_forall (by simp [Line.int?]))

theorem instr_notMem_headerLines (ctx : Context) (i : Instr) :
    .instr i ∉ Emission.headerLines ctx := by
  simp only [Emission.headerLines, List.mem_append, not_or]
  refine ⟨⟨by simp, by simp [Emission.fieldLines, Emission.resultFields]⟩, ?_⟩
  split <;> simp

/-- Only the code of statements has integer constants. -/
theorem lines_fitting (k : ClassCode p options) (inRange : p.tables.All Variable.InRange) :
    Fitting p.tables k.lines := by
  have header : Fitting p.tables (Emission.headerLines { tables := p.tables, options }) := by
    refine .of_forall fun l mem => ?_
    cases l with
    | instr i => exact absurd mem (instr_notMem_headerLines _ i)
    | _ => rfl
  have initializer : Fitting p.tables k.initializerLines := by
    obtain ⟨c, code⟩ := k.initializerCode
    unfold initializerLines
    split
    · exact .nil
    · exact methodBlock_fitting ((code.fitting inRange).append (.of_forall (by simp [Line.int?])))
  refine ((header.append (.of_forall (by simp [Emission.constructorLines, Line.int?]))).append
    initializer).append ?_
  refine .flatten fun ls mem => ?_
  obtain ⟨i, bound, rfl⟩ := List.mem_mapIdx.1 mem
  obtain ⟨c, code⟩ := k.methodCode (List.getElem?_eq_getElem bound)
  refine methodBlock_fitting ((code.fitting inRange).append (.of_forall ?_))
  unfold closingReturn
  split <;> simp [Line.int?]

end ClassCode

/-! ### Source texts -/

/-- Each integer constant of an assembly is one of 32 bits, unless it is the length of an array of
`2 ^ 31` elements in front of the instruction that makes the array. -/
theorem compile_constants {source text : String} {options : Options}
    (h : compile source options = .ok text) :
    ∃ file p lines, File.parse source = .ok file ∧ analyze file = .ok p ∧
      emission p.root p.tables options = ⟨lines, {}, .ok ()⟩ ∧ text = Line.render lines ∧
      ∀ pc i, lines[pc]? = some (.instr (.ldc (.int i))) →
        (-2 ^ 31 ≤ i ∧ i ≤ 2 ^ 31 - 1) ∨
          (i = 2 ^ 31 ∧ ∃ v x shape, p.tables.var? v = some x ∧ x.array? = some shape ∧
            shape.length = 2 ^ 31 ∧
            lines[pc + 1]? = some (.instr (.newArray shape.element.arrayType))) := by
  obtain ⟨file, p, parsed, analyzed, typed, k, emitted, rfl⟩ := compile_eq_ok h
  have inRange := lengths_inRange parsed analyzed
  refine ⟨file, p, k.lines, parsed, analyzed, emitted, rfl, fun pc i found => ?_⟩
  rcases (k.lines_fitting inRange).at_pc found with fits | ⟨v, x, shape, entry, array, rfl, next⟩
  · have power : Nat.pow 2 31 = 2 ^ 31 := rfl
    simp only [Analysis.fitsInt, power, decide_eq_true_eq] at fits
    omega
  · have length := inRange.var? entry shape array
    rcases Nat.lt_or_eq_of_le length with less | same
    · omega
    · exact .inr ⟨by omega, v, x, shape, entry, array, same, next⟩

/-- The least integer as a value, and the greatest offset of an array whose length is one too large
for an int. -/
def boundarySource : String :=
  "var a [-(-2147483648)]float64\nfunc main() \x7b\nvar i int = -2147483648\na[+2147483647] = i\n\x7d\n"

theorem boundarySource_constants : ∃ text, compile boundarySource {} = .ok text ∧
    ∃ file p lines, File.parse boundarySource = .ok file ∧ analyze file = .ok p ∧
      emission p.root p.tables {} = ⟨lines, {}, .ok ()⟩ ∧ text = Line.render lines ∧
      ∀ pc i, lines[pc]? = some (.instr (.ldc (.int i))) →
        (-2 ^ 31 ≤ i ∧ i ≤ 2 ^ 31 - 1) ∨
          (i = 2 ^ 31 ∧ ∃ v x shape, p.tables.var? v = some x ∧ x.array? = some shape ∧
            shape.length = 2 ^ 31 ∧
            lines[pc + 1]? = some (.instr (.newArray shape.element.arrayType))) := by
  obtain ⟨text, h⟩ := exists_text_of_isOk boundarySource {} (by decide +kernel)
  exact ⟨text, h, compile_constants h⟩

/-- A local array whose length is one more than the greatest int. -/
def oversizedSource : String := "func main() \x7b\nvar a [2147483648]int\n\x7d\n"

/-- The length is accepted and pushed as it is, although it is no int. -/
theorem oversizedSource_exceeds : ∃ p lines, analyzeSource oversizedSource = .ok p ∧
    emission p.root p.tables {} = ⟨lines, {}, .ok ()⟩ ∧
    compile oversizedSource {} = .ok (Line.render lines) ∧
    ∃ i, .instr (.ldc (.int i)) ∈ lines ∧ ¬ (-2 ^ 31 ≤ i ∧ i ≤ 2 ^ 31 - 1) := by
  obtain ⟨p, lines, analyzed, emitted, compiled, check⟩ := exists_lines_of_check oversizedSource {}
    (fun lines => lines.contains (.instr (.ldc (.int 2147483648)))) (by decide +kernel)
  exact ⟨p, lines, analyzed, emitted, compiled, 2147483648, by simpa using check, by decide⟩

end MiniGo
