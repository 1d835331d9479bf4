import MiniGo.Proofs.Assembly.References
import MiniGo.Proofs.Rounding
import MiniGo.Proofs.Strings.Literals

/-!
# What the code of a tree consists of

The string constants of a program are pushed in the order in which its string nodes come to run,
which is the order of the source text. Among them are the empty strings that variables of strings
are declared with. All lines refer to nothing but what the class has.

* `Node.quotes`: what the string constants of the code of a tree stand for, in order.
* `Node.quotes_perm`, `Node.reduceOption_quotes`: these are the texts of the string nodes, apart
  from the values of declarations.
* `Writes`: lines with given string constants, which refer to nothing but what the class has.
* `ClassCode.writes`: so the lines of a class are those of its program.
-/

namespace MiniGo

open scoped List

/-! ### Trees -/

/-- What the string constant of a node stands for: a text, or nothing for the value that a string is
declared with. -/
def NodeKind.quotes (ty : Ty) : NodeKind → List (Option String)
  | .strVal text => [some text]
  | .varDecl _ => if ty = .string then [none] else []
  | _ => []

/-- The parts of a node in the order of the code. A condition comes first, and a variable that is
declared by an assignment gets no value before it. -/
def NodeKind.inOrder : NodeKind → List (List (Option String)) → List (Option String)
  | .cond, parts | .repeat_, parts => parts.getLast?.getD [] ++ parts.dropLast.flatten
  | .assign, target :: values => target.filter Option.isSome ++ values.flatten
  | _, parts => parts.flatten

mutual

/-- What the string constants of the code of a tree stand for, in order. -/
def Node.quotes : Node → List (Option String)
  | .mk kind ty children => kind.quotes ty ++ kind.inOrder (quotesEach children)

/-- What the string constants of the code of trees stand for, for each tree. -/
def Node.quotesEach : List Node → List (List (Option String))
  | [] => []
  | n :: ns => n.quotes :: quotesEach ns

end

namespace Node

@[simp] theorem quotes_mk (kind : NodeKind) (ty : Ty) (children : List Node) :
    (mk kind ty children).quotes = kind.quotes ty ++ kind.inOrder (quotesEach children) := rfl

@[simp] theorem quotesEach_nil : quotesEach [] = [] := rfl

@[simp] theorem quotesEach_cons (n : Node) (ns : List Node) :
    quotesEach (n :: ns) = n.quotes :: quotesEach ns := rfl

theorem quotesEach_eq_map (ns : List Node) : quotesEach ns = ns.map quotes := by
  induction ns with
  | nil => rfl
  | cons n ns ih => rw [quotesEach_cons, ih, List.map_cons]

theorem quotes_op (o : BinaryOp) (ty : Ty) (left right : Node) :
    (mk (.op o) ty [left, right]).quotes = left.quotes ++ right.quotes := by
  simp [NodeKind.quotes, NodeKind.inOrder]

theorem quotes_declaration (v : VarRef) (ty : Ty) :
    (mk (.varDecl v) ty []).quotes = if ty = .string then [none] else [] := by
  simp [NodeKind.quotes, NodeKind.inOrder]

theorem quotes_assign (ty : Ty) (target value : Node) :
    (mk .assign ty [target, value]).quotes =
      target.quotes.filter Option.isSome ++ value.quotes := by
  simp [NodeKind.quotes, NodeKind.inOrder]

theorem quotes_list (ty : Ty) (children : List Node) :
    (mk .varList ty children).quotes = (quotesEach children).flatten := rfl

theorem quotes_cond (ty : Ty) (body condition : Node) :
    (mk .cond ty [body, condition]).quotes = condition.quotes ++ body.quotes := by
  simp [NodeKind.quotes, NodeKind.inOrder]

theorem quotes_condElse (ty : Ty) (body otherwise condition : Node) :
    (mk .cond ty [body, otherwise, condition]).quotes = condition.quotes ++ body.quotes ++
      otherwise.quotes := by
  simp [NodeKind.quotes, NodeKind.inOrder]

theorem quotes_loop (ty : Ty) (body condition : Node) :
    (mk .repeat_ ty [body, condition]).quotes = condition.quotes ++ body.quotes := by
  simp [NodeKind.quotes, NodeKind.inOrder]

theorem quotes_read (ty : Ty) (target : Node) : (mk .read ty [target]).quotes = target.quotes :=
  List.append_nil _

theorem quotes_write (ty : Ty) (value : Node) : (mk .write ty [value]).quotes = value.quotes :=
  List.append_nil _

theorem quotes_program (children : List Node) :
    (statement .program children).quotes = (quotesEach children).flatten := rfl

theorem quotes_function (i : Nat) (body : List Node) :
    (functionNode i body).quotes = (quotesEach body).flatten :=
  List.append_nil _

end Node

theorem NodeKind.reduceOption_quotes (kind : NodeKind) (ty : Ty) :
    (kind.quotes ty).reduceOption = kind.text?.toList := by
  cases kind with
  | varDecl => by_cases string : ty = .string <;> simp [quotes, text?, string]
  | _ => rfl

theorem reduceOption_filter (quotes : List (Option String)) :
    (quotes.filter Option.isSome).reduceOption = quotes.reduceOption := by
  induction quotes with
  | nil => rfl
  | cons quote quotes ih => cases quote <;> simp [ih]

theorem NodeKind.inOrder_perm (kind : NodeKind) (parts : List (List (Option String))) :
    (kind.inOrder parts).reduceOption ~ parts.flatten.reduceOption := by
  have lastFirst : (parts.getLast?.getD [] ++ parts.dropLast.flatten).reduceOption ~
      parts.flatten.reduceOption := by
    rcases parts.eq_nil_or_concat with rfl | ⟨front, last, rfl⟩
    · exact .refl _
    · simpa [List.reduceOption_append] using List.perm_append_comm
  unfold inOrder
  split
  · exact lastFirst
  · exact lastFirst
  · simp [List.reduceOption_append, reduceOption_filter]
  · exact .refl _

mutual

/-- The string constants of a tree are the texts of its string nodes, apart from the values of
declarations. -/
theorem Node.quotes_perm : ∀ n : Node, n.quotes.reduceOption ~ n.texts
  | .mk kind ty children => by
    rw [quotes_mk, List.reduceOption_append, kind.reduceOption_quotes]
    exact ((kind.inOrder_perm _).trans (quotesEach_perm children)).append_left _

theorem Node.quotesEach_perm : ∀ ns : List Node, (quotesEach ns).flatten.reduceOption ~ textsAll ns
  | [] => .refl _
  | n :: ns => by
    rw [quotesEach_cons, List.flatten_cons, List.reduceOption_append]
    exact n.quotes_perm.append (quotesEach_perm ns)

end

/-- The order of the string constants is that of the string nodes in the source text. -/
theorem NodeKind.reduceOption_inOrder (kind : NodeKind) (parts : List (List (Option String))) :
    (kind.inOrder parts).reduceOption =
      (kind.conditionFirst (parts.map List.reduceOption)).flatten := by
  have flatten (parts : List (List (Option String))) :
      parts.flatten.reduceOption = (parts.map List.reduceOption).flatten := by
    induction parts with
    | nil => rfl
    | cons part parts ih =>
      rw [List.flatten_cons, List.reduceOption_append, ih, List.map_cons, List.flatten_cons]
  have lastFirst : (parts.getLast?.getD [] ++ parts.dropLast.flatten).reduceOption =
      ((parts.map List.reduceOption).getLast?.toList ++
        (parts.map List.reduceOption).dropLast).flatten := by
    rcases parts.eq_nil_or_concat with rfl | ⟨front, last, rfl⟩
    · rfl
    · simp [List.reduceOption_append, flatten]
  unfold inOrder conditionFirst
  split
  · exact lastFirst
  · exact lastFirst
  · simp [List.reduceOption_append, reduceOption_filter, flatten]
  · rename_i noCond noLoop _
    split
    · exact absurd rfl noCond
    · exact absurd rfl noLoop
    · exact flatten parts

mutual

/-- The string constants of a tree are the texts of its string nodes in order, apart from the values
of declarations. -/
theorem Node.reduceOption_quotes :
    ∀ n : Node, n.quotes.reduceOption = n.constants.filterMap NodeKind.text?
  | .mk kind ty children => by
    have own : kind.text?.toList =
        (if kind.isConstant then [kind] else []).filterMap NodeKind.text? := by
      cases kind <;> rfl
    have order (parts : List (List NodeKind)) :
        (kind.conditionFirst parts).map (List.filterMap NodeKind.text?) =
          kind.conditionFirst (parts.map (List.filterMap NodeKind.text?)) := by
      unfold NodeKind.conditionFirst
      split
      · rw [List.map_append, List.map_dropLast, List.getLast?_map]
        cases parts.getLast? <;> rfl
      · rw [List.map_append, List.map_dropLast, List.getLast?_map]
        cases parts.getLast? <;> rfl
      · rfl
    rw [quotes_mk, List.reduceOption_append, kind.reduceOption_quotes, kind.reduceOption_inOrder,
      map_reduceOption_quotesEach children, constants_mk, List.filterMap_append, own,
      List.filterMap_flatten, order, constantsEach_eq]

theorem Node.map_reduceOption_quotesEach : ∀ ns : List Node,
    (quotesEach ns).map List.reduceOption = (ns.map constants).map (List.filterMap NodeKind.text?)
  | [] => rfl
  | n :: ns => by
    rw [quotesEach_cons, List.map_cons, n.reduceOption_quotes, map_reduceOption_quotesEach ns]
    rfl

end

/-- The float constants of a tree are finite. -/
def Node.FiniteConstants (n : Node) : Prop := ∀ x, .floatVal x ∈ n.constants → x.isFinite = true

theorem Node.FiniteConstants.child {kind : NodeKind} {ty : Ty} {children : List Node} {n : Node}
    (h : (mk kind ty children).FiniteConstants) (child : n ∈ children) : n.FiniteConstants :=
  fun x mem => h x (mem_constants_of_child child mem)

/-! ### Lines -/

/-- The lines push the string constants that are asked for, in order, and refer to what the class
has. -/
structure Writes (ctx : Context) (quotes : List (Option String)) (ls : List Line) : Prop where
  strings : ls.filterMap Line.string? = quotes.map (·.getD "")
  suits : ∀ l ∈ ls, l.Suits ctx

namespace Writes

variable {ctx : Context} {quotes quotes' : List (Option String)} {ls ms : List Line}
  {is js : List Instr}

theorem nil : Writes ctx [] [] := ⟨rfl, by simp⟩

theorem append (h : Writes ctx quotes ls) (h' : Writes ctx quotes' ms) :
    Writes ctx (quotes ++ quotes') (ls ++ ms) :=
  ⟨by simp [h.strings, h'.strings], List.forall_mem_append.2 ⟨h.suits, h'.suits⟩⟩

/-- Lines without string constants. -/
theorem free (noStrings : ∀ l ∈ ls, l.string? = none) (suits : ∀ l ∈ ls, l.Suits ctx) :
    Writes ctx [] ls :=
  ⟨List.filterMap_eq_nil_iff.2 noStrings, suits⟩

theorem code (h : Writes ctx quotes (asLines is)) (h' : Writes ctx quotes' (asLines js)) :
    Writes ctx (quotes ++ quotes') (asLines (is ++ js)) := by
  rw [asLines, List.map_append]
  exact h.append h'

/-- Instructions without string constants after others. -/
theorem andCode (h : Writes ctx quotes (asLines is)) (h' : Writes ctx [] (asLines js)) :
    Writes ctx quotes (asLines (is ++ js)) := by
  simpa using h.code h'

/-- Lines without string constants after others. -/
theorem andFree (h : Writes ctx quotes ls) (h' : Writes ctx [] ms) :
    Writes ctx quotes (ls ++ ms) := by
  simpa using h.append h'

theorem flatten {quotes : List (List (Option String))} {lines : List (List Line)}
    (h : List.Forall₂ (Writes ctx) quotes lines) : Writes ctx quotes.flatten lines.flatten := by
  induction h with
  | nil => exact .nil
  | cons first _ ih => exact first.append ih

/-- A line without a string constant before others. -/
theorem cons {l : Line} (noString : l.string? = none) (suits : l.Suits ctx)
    (h : Writes ctx quotes ls) :
    Writes ctx quotes (l :: ls) :=
  ⟨by rw [List.filterMap_cons_none noString, h.strings], List.forall_mem_cons.2 ⟨suits, h.suits⟩⟩

/-- A line without a string constant. -/
theorem line {l : Line} (noString : l.string? = none) (suits : l.Suits ctx) : Writes ctx [] [l] :=
  nil.cons noString suits

end Writes

/-! ### Values -/

section

variable {ctx : Context} {s : Scope} {v : VarRef} {x : Variable} {is js : List Instr}

/-- The field of a global variable is one of the class. -/
theorem owns_fieldOf (entry : ctx.tables.var? v = some x) (isGlobal : v.scope = .globals) :
    ctx.Owns (ctx.fieldOf x) := by
  obtain ⟨slot, scope⟩ := v
  cases isGlobal
  exact .inl ⟨x, List.mem_of_getElem? entry, rfl⟩

theorem owns_resultOf {f : Function} {i : Nat} (entry : ctx.tables.functions.get? i = some f)
    (k : Nat) (ty : Ty) :
    ctx.Owns (ctx.resultOf f k ty) := .inr ⟨f, List.mem_of_getElem? entry, k, ty, rfl⟩

theorem loadInstr_writes (entry : ctx.tables.var? v = some x) :
    Writes ctx [] (asLines [ctx.loadInstr v x]) := by
  unfold Context.loadInstr
  split
  · rename_i isGlobal
    exact .line rfl (.inr (owns_fieldOf entry isGlobal))
  · exact .line rfl trivial

theorem storeInstr_writes (entry : ctx.tables.var? v = some x) :
    Writes ctx [] (asLines [ctx.storeInstr v x]) := by
  unfold Context.storeInstr
  split
  · rename_i isGlobal
    exact .line rfl (owns_fieldOf entry isGlobal)
  · exact .line rfl trivial

theorem address_writes (entry : ctx.tables.var? v = some x) {k : Nat} :
    Writes ctx [] (asLines (ctx.addressCode v x k)) :=
  (loadInstr_writes entry).append (.line rfl trivial)

theorem convert_writes {value wanted : Ty} :
    Writes ctx [] (asLines (convertCode value wanted)) := by
  unfold convertCode
  split
  · exact .line rfl trivial
  · exact .nil

theorem compare_writes {o : BinaryOp} {ty : Ty} {code : CondCode} {l : Label}
    (target : l.stem? ≠ none) :
    Writes ctx [] (asLines (compareCode o ty code l)) := by
  unfold compareCode
  split
  · exact .cons rfl trivial (.line rfl target)
  · exact .cons rfl (by decide : Library.compareTo ∈ Library.virtualMethods) (.line rfl target)
  · exact .line rfl target

/-- A string variable is declared with an empty string. -/
theorem default_writes (wf : x.WellFormed) :
    Writes ctx (if x.ty = .string then [none] else []) (asLines (defaultCode x)) := by
  unfold defaultCode
  cases array : x.array? with
  | some shape =>
    rw [(wf.of_array array).1]
    exact .cons rfl trivial (.line rfl trivial)
  | none =>
    cases x.ty with
    | string => exact ⟨rfl, List.forall_mem_singleton.2 trivial⟩
    | _ => exact .line rfl trivial

theorem call_writes {f : Function} {i : Nat} (callee : ctx.tables.functions.get? i = some f)
    {quotes : List (Option String)} (h : Writes ctx quotes (asLines is)) :
    Writes ctx quotes (asLines (callCode ctx f is)) := by
  have null : Writes ctx [] (asLines (if f.isEntryPoint then [.nullConst] else [])) := by
    split
    · exact .line rfl trivial
    · exact .nil
  exact (null.code h).andCode (.line rfl ⟨f, List.mem_of_getElem? callee, rfl⟩)

theorem resultStores_writes {f : Function} {i : Nat} (caller : ctx.tables.functions.get? i = some f)
    {tys : List Ty} :
    Writes ctx [] (asLines (resultStores ctx f tys)) := by
  have each : ∀ l ∈ asLines (resultStores ctx f tys), ∃ k ty, l =
      .instr (.putStatic (ctx.resultOf f k ty)) := by
    intro l mem
    obtain ⟨store, listed, rfl⟩ := List.mem_map.1 mem
    obtain ⟨k, _, rfl⟩ := List.mem_mapIdx.1 (List.mem_reverse.1 listed)
    exact ⟨k, _, rfl⟩
  refine .free (fun l mem => ?_) (fun l mem => ?_)
  · obtain ⟨k, ty, rfl⟩ := each l mem
    rfl
  · obtain ⟨k, ty, rfl⟩ := each l mem
    exact owns_resultOf caller k ty

/-- The code of two operands, each with its conversion. -/
theorem operands_writes {left right : List (Option String)} (l : Writes ctx left (asLines is))
    (r : Writes ctx right (asLines js)) {a b ty : Ty} :
    Writes ctx (left ++ right) (asLines (is ++ convertCode a ty ++ js ++ convertCode b ty)) :=
  ((l.andCode convert_writes).code r).andCode convert_writes

/-- The float that an int is converted to is finite. -/
theorem suits_intConstant {i : Int} {ty : Ty} (fits : Analysis.fitsInt i = true) :
    Instr.Suits ctx (.ldc (Emission.intConstant i ty)) := by
  unfold Emission.intConstant
  split
  · have range : -(2 ^ 31 : Int) ≤ i ∧ i < 2 ^ 31 := by simpa [Analysis.fitsInt] using fits
    exact Binary32.isFinite_ofInt (by omega)
  · trivial

mutual

theorem ValueCode.writes {n : Node} {code : List Instr} (finite : n.FiniteConstants) :
    ValueCode ctx s n code → Writes ctx n.quotes (asLines code)
  | .int fits _ => by
    refine .line ?_ (suits_intConstant fits)
    unfold Emission.intConstant
    split <;> rfl
  | .float => .line rfl (finite _ (by simp [NodeKind.isConstant]))
  | .bool => .line rfl trivial
  | .string => ⟨rfl, List.forall_mem_singleton.2 trivial⟩
  | .name _ entry _ => loadInstr_writes entry
  | .element _ entry _ _ => (address_writes entry).andCode (.line rfl trivial)
  | @ValueCode.arithmetic _ _ o _ ty _ _ _ _ _ number _ _ leftCode rightCode => by
    rw [Node.quotes_op]
    have left := leftCode.writes (finite.child (by simp))
    have right := rightCode.writes (finite.child (by simp))
    refine (operands_writes left right).andCode (.line rfl ?_)
    cases ty <;> simp [Ty.isNumeric] at number <;> simp [Line.Suits, Instr.Suits, Ty.valueKind]
  | .concat _ _ leftCode rightCode => by
    rw [Node.quotes_op]
    have left := leftCode.writes (finite.child (by simp))
    have right := rightCode.writes (finite.child (by simp))
    exact (left.code right).andCode
      (.line rfl (by decide : Library.concat ∈ Library.virtualMethods))
  | .call callee _ _ argsCode => by
    have args := argsCode.writes fun arg mem => finite.child mem
    exact (call_writes callee args).andCode (.line rfl (.inr (owns_resultOf callee 0 _)))

theorem ArgumentsCode.writes {args : List Node} {tys : List Ty} {code : List Instr}
    (finite : ∀ arg ∈ args, arg.FiniteConstants) :
    ArgumentsCode ctx s args tys code → Writes ctx (Node.quotesEach args).flatten (asLines code)
  | .nil => .nil
  | .cons _ first others => by
    obtain ⟨own, rest⟩ := List.forall_mem_cons.1 finite
    exact ((first.writes own).andCode convert_writes).code (others.writes rest)

end

/-! ### Conditions and targets -/

theorem ConditionCode.writes {jump : Emission.Jump} {c c' : LabelCounters} {n : Node}
    {lines : List Line} (h : ConditionCode ctx s jump c n lines c') (finite : n.FiniteConstants)
    (target : jump.target.stem? ≠ none) :
    Writes ctx n.quotes lines := by
  induction h with
  | value _ valueCode => exact (valueCode.writes finite).andCode (.line rfl target)
  | comparison _ _ _ _ leftCode rightCode =>
    rw [Node.quotes_op]
    have left := leftCode.writes (finite.child (by simp))
    have right := rightCode.writes (finite.child (by simp))
    exact (operands_writes left right).andCode (compare_writes target)
  | both _ _ _ ihl ihr =>
    rw [Node.quotes_op]
    exact (ihl (finite.child (by simp)) target).append (ihr (finite.child (by simp)) target)
  | skip _ _ _ ihl ihr =>
    rw [Node.quotes_op]
    have operands :=
      (ihl (finite.child (by simp)) nofun).append (ihr (finite.child (by simp)) target)
    exact operands.andFree (.line rfl nofun)

/-- The instructions around the value that is stored into a target push no string constant. -/
theorem PlaceCode.writes {target : Node} {before after : List Instr}
    (h : PlaceCode ctx s target before after) :
    Writes ctx [] (asLines before) ∧ Writes ctx [] (asLines after) := by
  cases h with
  | name _ entry | declared _ entry => exact ⟨.nil, storeInstr_writes entry⟩
  | element _ entry => exact ⟨address_writes entry, .line rfl trivial⟩

theorem PlaceCode.quotes_eq {target : Node} {before after : List Instr}
    (h : PlaceCode ctx s target before after) (used : ∀ v, target.kind ≠ .varDecl v) :
    target.quotes = [] := by
  cases h with
  | declared => exact absurd rfl (used _)
  | _ => rfl

theorem PlaceCode.filter_quotes {target : Node} {before after : List Instr}
    (h : PlaceCode ctx s target before after) :
    target.quotes.filter Option.isSome = [] := by
  cases h with
  | @declared _ x =>
    by_cases string : x.ty = .string <;> simp [NodeKind.quotes, NodeKind.inOrder, string]
  | _ => rfl

theorem ResultsCode.writes {f : Function} {i j : Nat}
    (callee : ctx.tables.functions.get? j = some f) {targets : List Node} {tys : List Ty}
    {code : List Instr} (h : ResultsCode ctx s f i targets tys code) :
    Writes ctx [] (asLines code) ∧ (Node.quotesEach targets).flatten.filter Option.isSome = [] := by
  induction h with
  | nil => exact ⟨.nil, rfl⟩
  | cons _ _ place _ ih =>
    obtain ⟨before, after⟩ := place.writes
    obtain ⟨others, targets⟩ := ih
    refine ⟨(((before.andCode ?_).andCode convert_writes).andCode after).andCode others, ?_⟩
    · exact .line rfl (.inr (owns_resultOf callee _ _))
    · rw [Node.quotesEach_cons, List.flatten_cons, List.filter_append, place.filter_quotes, targets]
      rfl

/-! ### Statements -/

theorem mem_virtualMethods_of_scan? {ty : Ty} {method : MethodRef}
    (h : Library.scan? ty = some method) :
    method ∈ Library.virtualMethods := by
  cases ty <;> cases h <;> decide

theorem scan_writes {ty : Ty} {method : MethodRef} (h : Library.scan? ty = some method) :
    Writes ctx [] (asLines (scanCode method)) := by
  have scanner : Library.constructor Library.scannerClass [Library.standardInput.descriptor] ∈
      Library.constructors := by
    decide
  have rest : Writes ctx [] (asLines [.invokeSpecial _, .invokeVirtual method]) :=
    .cons rfl scanner (.line rfl (mem_virtualMethods_of_scan? h))
  exact .cons rfl rfl (.cons rfl trivial (.cons rfl (.inl (by decide)) rest))

theorem exit_writes {exit? : Option Label} {l : Label} (numbered : l.stem? ≠ none) :
    Writes ctx [] (if exit?.isNone then [.label l] else []) := by
  split
  · exact .line rfl numbered
  · exact .nil

theorem stem?_exit {exit? : Option Label} {l : Label} (exit : ∀ l ∈ exit?, l.stem? ≠ none)
    (numbered : l.stem? ≠ none) :
    (exit?.getD l).stem? ≠ none := by
  cases exit? with
  | none => exact numbered
  | some l' => exact exit l' rfl

theorem mem_virtualMethods_println {ty : Ty} (scalar : ty.isScalar = true) :
    Library.println ty.descriptor ∈ Library.virtualMethods := by
  cases ty <;> cases scalar <;> decide

mutual

theorem StmtCode.writes (wf : ctx.tables.WellFormed) {exit? : Option Label} {c c' : LabelCounters}
    {n : Node} {lines : List Line} (finite : n.FiniteConstants)
    (exit : ∀ l ∈ exit?, l.stem? ≠ none) :
    StmtCode ctx s exit? c n lines c' → Writes ctx n.quotes lines
  | .declaration _ entry => by
    rw [Node.quotes_declaration]
    exact (default_writes (wf.var? entry)).andCode (storeInstr_writes entry)
  | .assign _ place valueCode => by
    obtain ⟨before, after⟩ := place.writes
    rw [Node.quotes_assign, place.filter_quotes]
    exact ((before.code (valueCode.writes (finite.child (by simp)))).andCode
      convert_writes).andCode after
  | .assignResults callee _ argsCode results => by
    obtain ⟨stores, targets⟩ := results.writes callee
    rw [Node.quotes_assign, Node.quotes_list, targets]
    have call : Node.FiniteConstants (.mk (.call _) _ _) := finite.child (.tail _ (.head _))
    exact (call_writes callee (argsCode.writes fun arg mem => call.child mem)).andCode stores
  | .block body => body.writes wf fun node mem => finite.child mem
  -- The condition stands last in the node, but its code comes first, and so do its strings.
  | .cond conditionCode bodyCode => by
    rw [Node.quotes_cond]
    have condition := conditionCode.writes (finite.child (by simp)) (stem?_exit exit nofun)
    have block : Node.FiniteConstants (.mk .block _ _) := finite.child (.head _)
    exact (condition.append (bodyCode.writes wf fun node mem => block.child mem)).andFree
      (exit_writes nofun)
  | .condElse conditionCode bodyCode otherwiseCode => by
    rw [Node.quotes_condElse]
    have goto := stem?_exit (l := .endOf c.conds) exit nofun
    have condition := conditionCode.writes (finite.child (by simp)) nofun
    have block : Node.FiniteConstants (.mk .block _ _) := finite.child (.head _)
    have others := otherwiseCode.writes wf (finite.child (by simp)) (by simpa using goto)
    refine (((condition.append (bodyCode.writes wf fun node mem => block.child mem)).andFree
      ?_).append others).andFree (exit_writes nofun)
    exact .cons rfl goto (.line rfl nofun)
  | .loop conditionCode bodyCode => by
    rw [Node.quotes_loop]
    have condition := conditionCode.writes (finite.child (by simp)) nofun
    have block : Node.FiniteConstants (.mk .block _ _) := finite.child (.head _)
    have body := condition.append (bodyCode.writes wf fun node mem => block.child mem)
    exact .cons rfl nofun (body.andFree (.cons rfl nofun (.line rfl nofun)))
  | .call callee _ argsCode => call_writes callee (argsCode.writes fun arg mem => finite.child mem)
  | .ret _ caller valuesCode => by
    have values := valuesCode.writes fun value mem => finite.child mem
    exact (values.andCode (resultStores_writes caller)).andCode (.line rfl trivial)
  | .read used place scans => by
    obtain ⟨before, after⟩ := place.writes
    rw [Node.quotes_read, place.quotes_eq used]
    exact (before.andCode (scan_writes scans)).andCode after
  | .write scalar valueCode => by
    rw [Node.quotes_write]
    have out : Writes ctx [] (asLines [.getStatic Library.standardOutput]) :=
      .line rfl (.inl (by decide))
    exact (out.code (valueCode.writes (finite.child (by simp)))).andCode
      (.line rfl (mem_virtualMethods_println scalar))

theorem StmtsCode.writes (wf : ctx.tables.WellFormed) {c c' : LabelCounters} {nodes : List Node}
    {lines : List Line} (finite : ∀ node ∈ nodes, node.FiniteConstants) :
    StmtsCode ctx s c nodes lines c' → Writes ctx (Node.quotesEach nodes).flatten lines
  | .nil => .nil
  | .cons first others => by
    obtain ⟨own, rest⟩ := List.forall_mem_cons.1 finite
    exact (first.writes wf own (by simp)).append (others.writes wf rest)

end

end

/-! ### Classes -/

namespace ClassCode

variable {p : Program} {options : Options} {ctx : Context}

/-- The lines in front of the first method push no string constants. -/
theorem header_writes : Writes ctx [] (Emission.headerLines ctx) := by
  have fields : Writes ctx [] (Emission.fieldLines ctx.tables) := by
    refine .free (List.forall_mem_append.2 ⟨fun l mem => ?_, fun l mem => ?_⟩)
      (List.forall_mem_append.2 ⟨fun l mem => ?_, fun l mem => ?_⟩)
    · obtain ⟨x, declared, rfl⟩ := List.mem_map.1 mem
      rfl
    · obtain ⟨f, declared, mem⟩ := List.mem_flatMap.1 mem
      obtain ⟨i, _, rfl⟩ := List.mem_mapIdx.1 mem
      rfl
    · obtain ⟨x, declared, rfl⟩ := List.mem_map.1 mem
      exact .inl ⟨x, declared, rfl⟩
    · obtain ⟨f, declared, mem⟩ := List.mem_flatMap.1 mem
      obtain ⟨i, _, rfl⟩ := List.mem_mapIdx.1 mem
      exact .inr ⟨f, declared, i, _, rfl⟩
  have start : Writes ctx [] [.classHeader ctx.options.className, .superclass Library.objectClass,
      .blank] :=
    .cons rfl rfl (.cons rfl rfl (.line rfl trivial))
  refine (start.append fields).andFree ?_
  split
  · exact .nil
  · exact .line rfl trivial

theorem constructor_writes : Writes ctx [] Emission.constructorLines := by
  have object : Library.constructor Library.objectClass [] ∈ Library.constructors := by decide
  exact .cons rfl (.inl rfl)
    (.cons rfl trivial (.cons rfl object (.cons rfl trivial (.line rfl trivial))))

theorem methodBlock_writes {access : Access} {signature : Signature} {locals : Nat}
    (suits : Line.Suits ctx (.method access signature)) {quotes : List (Option String)}
    {body : List Line} (h : Writes ctx quotes body) :
    Writes ctx quotes (methodBlock options access signature locals body) := by
  have start : Writes ctx []
      [.blank, .method access signature, .limitStack options.stackLimit, .limitLocals locals] :=
    .cons rfl trivial (.cons rfl suits (.cons rfl trivial (.line rfl trivial)))
  exact (start.append h).andFree (.line rfl trivial)

theorem closingReturn_writes {body : List Node} : Writes ctx [] (closingReturn body) := by
  unfold closingReturn
  split
  · exact .nil
  · exact .line rfl trivial

/-- What lines refer to does not depend on the method that they stand in. -/
theorem writes_frame {frame frame' : Frame} {quotes : List (Option String)} {ls : List Line}
    (h : Writes (p.context options frame) quotes ls) :
    Writes (p.context options frame') quotes ls :=
  ⟨h.strings, fun l mem => h.suits l mem⟩

/-- The lines of a class push the string constants of its program, in order, and refer to what the
class has. -/
theorem writes (k : ClassCode p options) (wf : p.tables.WellFormed)
    (finite : p.root.FiniteConstants) :
    Writes (p.context options {}) p.root.quotes k.lines := by
  have children : ∀ n ∈ k.globals ++ (k.methods.map MethodCode.body).mapIdx functionNode,
      n.FiniteConstants := by
    intro n mem
    rw [k.root] at finite
    exact finite.child mem
  have initializer :
      Writes (p.context options {}) (Node.quotesEach k.globals).flatten k.initializerLines := by
    obtain ⟨c, code⟩ := k.initializerCode
    unfold initializerLines
    split
    · rename_i none
      rw [none]
      exact .nil
    · have body := code.writes wf fun n mem => children n (List.mem_append_left _ mem)
      exact methodBlock_writes (.inr (.inl rfl)) ((writes_frame body).andFree (.line rfl trivial))
  -- Each method pushes the string constants of its own node.
  have methods : List.Forall₂ (Writes (p.context options {}))
      (Node.quotesEach ((k.methods.map MethodCode.body).mapIdx functionNode))
      (k.methods.mapIdx (methodLines options)) := by
    rw [Node.quotesEach_eq_map]
    refine List.forall₂_iff_get.2 ⟨by simp, fun i _ bound => ?_⟩
    rw [List.length_mapIdx] at bound
    simp only [List.get_eq_getElem, List.getElem_map, List.getElem_mapIdx, Node.quotes_function]
    obtain ⟨c, code⟩ := k.methodCode (List.getElem?_eq_getElem bound)
    have declared : k.methods[i].function ∈ p.tables.functions.entries :=
      k.functions ▸ List.mem_map_of_mem (List.getElem_mem bound)
    have node : functionNode i k.methods[i].body ∈
        (k.methods.map MethodCode.body).mapIdx functionNode :=
      List.mem_mapIdx.2 ⟨i, by simpa using bound, by simp⟩
    have block : Node.FiniteConstants (.mk .block _ k.methods[i].body) :=
      (children _ (List.mem_append_right _ node)).child (.head _)
    have body := code.writes wf fun n mem => block.child mem
    exact methodBlock_writes (.inr (.inr ⟨_, declared, rfl⟩))
      ((writes_frame body).andFree closingReturn_writes)
  rw [k.root, Node.quotes_program, Node.quotesEach_eq_map, List.map_append, List.flatten_append,
    ← Node.quotesEach_eq_map, ← Node.quotesEach_eq_map]
  exact ((header_writes.append constructor_writes).append initializer).append (.flatten methods)

end ClassCode

end MiniGo
