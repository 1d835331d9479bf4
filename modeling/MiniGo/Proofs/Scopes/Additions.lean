import MiniGo.Proofs.Reordering.Stmt
import MiniGo.Proofs.Syntax.Leaves

/-!
# What an analysis adds

The analysis of a part of a program works in one scope. Statements and declarations add variables at
the end of the table of their scope, and what is true of the names and arrays of these variables
follows from the leaves of the part. This holds whether errors are met or not.

* `Tables.AddsOnly`: tables before and after variables with a property are added in one scope.
* `lowerVarDecl_adds`, `lowerStmt_adds`, `lowerBlock_adds`: what declarations, statements and blocks
  add.
-/

namespace MiniGo

variable {P : Leaf → Prop} {Q : Variable → Prop} {s : Scope} {t t' : Tables} {vars vars' : VarTable}
  {x : Variable}

/-! ### Tables -/

/-- Tables before and after variables with a property are added at the end of the table of a
scope. -/
structure Tables.AddsOnly (s : Scope) (Q : Variable → Prop) (t t' : Tables) :
    Prop extends Tables.DifferIn s t t' where
  added : ∃ new, (∀ x ∈ new, Q x) ∧ t'.table? s = (t.table? s).map fun vars => ⟨vars.entries ++ new⟩

instance : IsPreorder Tables (Tables.AddsOnly s Q) where
  refl t := ⟨refl_of (Tables.DifferIn s) t, [], by simp, by simp⟩
  trans _ _ _ h k := by
    obtain ⟨new, hnew, eq⟩ := h.added
    obtain ⟨new', hnew', eq'⟩ := k.added
    refine ⟨trans_of (Tables.DifferIn s) h.toDifferIn k.toDifferIn, new ++ new',
      List.forall_mem_append.2 ⟨hnew, hnew'⟩, ?_⟩
    rw [eq', eq, Option.map_map]
    simp only [Function.comp_def, List.append_assoc]

namespace Tables

theorem addsOnly_setTable (hx : Q x) (own : t.table? s = some vars)
    (h : vars.declare x = .ok vars') :
    t.AddsOnly s Q (t.setTable vars' s) where
  toDifferIn := differIn_setTable own
  added := by
    refine ⟨[x], List.forall_mem_singleton.2 hx, ?_⟩
    rw [table?_setTable own, if_pos rfl, own, Option.map_some, ← (VarTable.declare_eq_ok_iff.1 h).2]

end Tables

/-! ### Runs -/

/-- A property of variables that those of a specification have, whatever is found out about types
and values. -/
structure VarSpec.Admits (Q : Variable → Prop) (spec : VarSpec) : Prop where
  scalar : ∀ id ∈ spec.names, ∀ ty, Q ⟨id.name, id.line, ty, none⟩
  array : ∀ {length element line i}, spec.type? = some (.array length element line) →
    Analysis.constantInt? length = some i →
    ∀ id ∈ spec.names, ∀ ty, Q ⟨id.name, id.line, .array, some ⟨ty, i.toNat⟩⟩

/-- A property of variables that follows from one of the leaves of their declarations. -/
structure Admits (P : Leaf → Prop) (Q : Variable → Prop) : Prop where
  scalar : ∀ (id : Ident) (ty : Ty), P id.leaf → Q ⟨id.name, id.line, ty, none⟩
  array : ∀ (id : Ident) (ty : Ty) (length : Expr) (i : Int), P id.leaf →
      (∀ l ∈ length.leaves, P l) →
    Analysis.constantInt? length = some i → Q ⟨id.name, id.line, .array, some ⟨ty, i.toNat⟩⟩

theorem Admits.spec {spec : VarSpec} (admits : Admits P Q) (h : ∀ l ∈ spec.leaves, P l) :
    spec.Admits Q := by
  obtain ⟨names, others⟩ := List.forall_mem_append.1 h
  obtain ⟨type, -⟩ := List.forall_mem_append.1 others
  have named := List.forall_mem_map.1 names
  refine ⟨fun id mem ty => admits.scalar id ty (named id mem), ?_⟩
  intro length element line i isArray constant id mem ty
  refine admits.array id ty length i (named id mem) (fun l leaf => type l ?_) constant
  simp [isArray, TypeSpec.leaves, leaf]

namespace Analysis

/-- A run that adds only variables with a property, in one scope. -/
def Adds {α : Type} (s : Scope) (Q : Variable → Prop) (t : Tables) (x : Lower α) : Prop :=
  Runs (Tables.AddsOnly s Q) t x fun _ _ => True

section

variable {α β : Type} {x : Lower α}

theorem Adds.pure {a : α} : Adds s Q t (Pure.pure a) := Runs.pure trivial

theorem Adds.bind {f : α → Lower β} (hx : Adds s Q t x) (hf : ∀ t' a, Adds s Q t' (f a)) :
    Adds s Q t (x >>= f) :=
  Runs.bind hx fun t' a _ _ => hf t' a

theorem Adds.get {f : Tables → Lower β} (h : Adds s Q t (f t)) :
    Adds s Q t (MonadState.get >>= f) := h

theorem Adds.report {r : Report α} {f : α → Lower β} (h : Adds s Q t (f r.value)) :
    Adds s Q t (liftM r >>= f) := h

theorem Adds.ifReport {c : Prop} [Decidable c] {r : Report Unit} {f : Unit → Lower β}
    (h : Adds s Q t (f ())) :
    Adds s Q t (if c then liftM r >>= f else f ()) := Runs.ifReport h

theorem Adds.lift {r : Report α} : Adds s Q t (liftM r) := Runs.lift trivial

end

variable {operator : String} {line : Nat}

/-! ### Declarations -/

theorem declareVariable_adds {name : Ident} {ty : Ty} {array? : Option ArrayShape}
    (h : Q ⟨name.name, name.line, ty, array?⟩) : Adds s Q t (declareVariable s name ty array?) := by
  unfold declareVariable
  refine .get ?_
  split
  · exact .pure
  · rename_i vars own
    split
    · rename_i vars' declared
      exact ⟨Tables.addsOnly_setTable h own declared, trivial⟩
    · exact .report .pure

theorem declareNames_adds {ty : Ty} {array? : Option ArrayShape} {names : List Ident}
    (h : ∀ id ∈ names, Q ⟨id.name, id.line, ty, array?⟩) :
    Adds s Q t (declareNames s ty array? names) := by
  induction names generalizing t with
  | nil => exact .pure
  | cons name names ih =>
    obtain ⟨first, others⟩ := List.forall_mem_cons.1 h
    refine (declareVariable_adds first).bind fun t' v? => (ih others).bind fun t'' nodes => ?_
    split <;> exact .pure

theorem declareResults_adds {declared : Option Ty} {names : List Ident} {results : List Ty}
    (h : ∀ id ∈ names, ∀ ty, Q ⟨id.name, id.line, ty, none⟩) :
    Adds s Q t (declareResults s declared operator line names results) := by
  induction names generalizing t results with
  | nil => exact .pure
  | cons name names ih =>
    cases results with
    | nil => exact .pure
    | cons result results =>
      obtain ⟨first, others⟩ := List.forall_mem_cons.1 h
      unfold declareResults
      simp only
      refine .ifReport ((declareVariable_adds (first _)).bind fun t' v? => ?_)
      refine (ih others).bind fun t'' rest? => ?_
      split <;> exact .pure

theorem declareInitialized_adds {declared : Option Ty} {name : Ident} {value? : Option Node}
    (h : ∀ ty, Q ⟨name.name, name.line, ty, none⟩) :
    Adds s Q t (declareInitialized s declared operator line name value?) := by
  unfold declareInitialized
  split
  · split
    · exact (declareVariable_adds (h _)).bind fun _ _ => .pure
    · exact .pure
  · simp only
    split
    · exact .report .pure
    · refine .report ((declareVariable_adds (h _)).bind fun t' v? => ?_)
      split <;> exact .pure

theorem declarePairs_adds {declared : Option Ty} {names : List Ident} {values : List (Option Node)}
    (h : ∀ id ∈ names, ∀ ty, Q ⟨id.name, id.line, ty, none⟩) :
    Adds s Q t (declarePairs s declared operator line names values) := by
  induction names generalizing t values with
  | nil => exact .pure
  | cons name names ih =>
    cases values with
    | nil => exact .pure
    | cons value? values =>
      obtain ⟨first, others⟩ := List.forall_mem_cons.1 h
      exact (declareInitialized_adds first).bind fun t' nodes => (ih others).bind fun _ _ => .pure

theorem lowerDeclaration_adds {names : List Ident} {declared : Option Ty} {values : List Expr}
    (h : ∀ id ∈ names, ∀ ty, Q ⟨id.name, id.line, ty, none⟩) :
    Adds s Q t (lowerDeclaration s names declared values operator line) := by
  unfold lowerDeclaration
  refine .get ?_
  split
  · refine .report ?_
    split
    · exact .pure
    · refine (declareResults_adds h).bind fun t' targets? => ?_
      split <;> exact .pure
  · split
    · exact .report (declarePairs_adds h)
    · exact .report (.report .pure)

theorem lowerArraySpec_adds {spec : VarSpec} {length : Expr} {element : Ident}
    (admits : spec.Admits Q) (isArray : spec.type? = some (.array length element line)) :
    Adds s Q t (lowerArraySpec s spec length element line) := by
  unfold lowerArraySpec
  refine .report ?_
  simp only
  refine .ifReport ?_
  split
  · exact .get (.report (.report .pure))
  · split
    · rename_i ty i _ constant
      have constant := (Option.filter_eq_some_iff.1 constant).1
      exact declareNames_adds fun id mem => admits.array isArray constant id mem ty
    · exact .pure

theorem lowerVarSpec_adds {spec : VarSpec} (admits : spec.Admits Q) :
    Adds s Q t (lowerVarSpec s spec) := by
  unfold lowerVarSpec
  split
  · rename_i isArray
    exact lowerArraySpec_adds admits isArray
  · refine .report ?_
    split
    · split
      · exact declareNames_adds fun id mem => admits.scalar id mem _
      · exact lowerDeclaration_adds admits.scalar
    · exact .get (.report .pure)
  · exact lowerDeclaration_adds admits.scalar

theorem lowerVarSpecs_adds {specs : List VarSpec} (admits : ∀ spec ∈ specs, spec.Admits Q) :
    Adds s Q t (lowerVarSpecs s specs) := by
  induction specs generalizing t with
  | nil => exact .pure
  | cons spec specs ih =>
    obtain ⟨first, others⟩ := List.forall_mem_cons.1 admits
    exact (lowerVarSpec_adds first).bind fun _ _ => (ih others).bind fun _ _ => .pure

/-- A variable declaration adds variables in its scope only. -/
theorem lowerVarDecl_adds {decl : VarDecl} (admits : Admits P Q) (h : ∀ l ∈ decl.leaves, P l) :
    Adds s Q t (lowerVarDecl s decl) :=
  lowerVarSpecs_adds fun spec mem => admits.spec fun l leaf =>
    h l (List.mem_flatMap.2 ⟨spec, mem, leaf⟩)

/-- Declarations outside of functions add global variables only. -/
theorem lowerGlobals_adds {decls : List VarDecl}
    (admits : ∀ decl ∈ decls, ∀ spec ∈ decl.specs, spec.Admits Q) :
    Adds .globals Q t (lowerGlobals decls) := by
  induction decls generalizing t with
  | nil => exact .pure
  | cons decl decls ih =>
    obtain ⟨first, others⟩ := List.forall_mem_cons.1 admits
    exact (lowerVarSpecs_adds first).bind fun _ _ => (ih others).bind fun _ _ => .pure

/-! ### Statements -/

mutual

/-- A statement adds variables in its scope only. -/
theorem lowerStmt_adds (admits : Admits P Q) :
    ∀ (stmt : Stmt) {t : Tables}, (∀ l ∈ stmt.leaves, P l) → Adds s Q t (lowerStmt s stmt)
  | .var _, _, h => lowerVarDecl_adds admits h
  | .define .., _, h =>
    lowerDeclaration_adds fun id mem ty =>
      admits.scalar id ty (List.forall_mem_map.1 (List.forall_mem_append.1 h).1 id mem)
  | .assign .., _, _ => .get .lift
  | .cond stmt, _, h => (lowerIf_adds admits stmt h).bind fun _ _ => .pure
  | .loop _ body _, _, h =>
    .get (.report ((lowerBlock_adds admits body (List.forall_mem_append.1 h).2).bind
      fun _ _ => .pure))
  | .ret .., _, _ => .get (.report .pure)
  | .call .., _, _ => .get (.report .pure)
  | .block body, _, h => (lowerBlock_adds admits body h).bind fun _ _ => .pure

/-- A block adds variables in its scope only. -/
theorem lowerBlock_adds (admits : Admits P Q) :
    ∀ (block : Block) {t : Tables}, (∀ l ∈ block.leaves, P l) → Adds s Q t (lowerBlock s block)
  | .mk statements _ _, _, h => (lowerStmts_adds admits statements h).bind fun _ _ => .pure

theorem lowerStmts_adds (admits : Admits P Q) :
    ∀ (stmts : List Stmt) {t : Tables}, (∀ l ∈ Stmt.leavesAll stmts, P l) →
      Adds s Q t (lowerStmts s stmts)
  | [], _, _ => .pure
  | stmt :: stmts, _, h => by
    obtain ⟨first, others⟩ := List.forall_mem_append.1 h
    exact (lowerStmt_adds admits stmt first).bind fun _ _ =>
      (lowerStmts_adds admits stmts others).bind fun _ _ => .pure

theorem lowerIf_adds (admits : Admits P Q) :
    ∀ (stmt : IfStmt) {t : Tables}, (∀ l ∈ stmt.leaves, P l) → Adds s Q t (lowerIf s stmt)
  | .mk _ body otherwise _, _, h => by
    obtain ⟨inBody, inElse⟩ := List.forall_mem_append.1 (List.forall_mem_append.1 h).2
    exact .get (.report ((lowerBlock_adds admits body inBody).bind fun _ _ =>
      (lowerElse_adds admits otherwise inElse).bind fun _ _ => .pure))

theorem lowerElse_adds (admits : Admits P Q) :
    ∀ (branch : ElseBranch) {t : Tables}, (∀ l ∈ branch.leaves, P l) →
      Adds s Q t (lowerElse s branch)
  | .absent, _, _ => .pure
  | .block body, _, h => (lowerBlock_adds admits body h).bind fun _ _ => .pure
  | .elseIf stmt, _, h => (lowerIf_adds admits stmt h).bind fun _ _ => .pure

end

/-- The body of a function adds variables in the scope of the function only. -/
theorem lowerFunction_adds {func : FuncDecl} {i : Nat} (admits : Admits P Q)
    (h : ∀ l ∈ func.body.leaves, P l) :
    Adds (.function i) Q t (lowerFunction func i) :=
  (lowerBlock_adds admits func.body h).bind fun _ _ => .pure

end Analysis

end MiniGo
