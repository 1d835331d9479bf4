import MiniGo.Proofs.Slots.Branches
import MiniGo.Proofs.WellTyped.Clean

/-!
# The order of declarations and loads

Variables get their slots in the order of the source text, and a name can be used only behind its
declaration. So in the statements of a function, taken in order, all that is done to a variable
comes behind its declaration.

* `Ordered`: each declaration takes the next slot, and each load and store is of a slot that is
  already taken.
* `Ordered.not_firstLoad`, `Ordered.declaredFirst`: no variable is used before it is declared.
* `lowerBlock_ordered`: the statements of an analysis without errors are ordered.
-/

namespace MiniGo

/-! ### Accesses in order -/

/-- Accesses to the variables of a scope, of which a number is declared before and after. -/
inductive Ordered (s : Scope) : Nat → List VarAccess → Nat → Prop
  | nil {n : Nat} : Ordered s n [] n
  | load {n n' : Nat} {v : VarRef} {as : List VarAccess} (old : v.scope = s → v.slot < n)
      (rest : Ordered s n as n') : Ordered s n (.load v :: as) n'
  | store {n n' : Nat} {v : VarRef} {as : List VarAccess} (old : v.scope = s → v.slot < n)
      (rest : Ordered s n as n') : Ordered s n (.store v :: as) n'
  | declare {n n' : Nat} {as : List VarAccess} (rest : Ordered s (n + 1) as n') :
      Ordered s n (.declare ⟨n, s⟩ :: as) n'

/-- The number of variables of a scope. -/
def Tables.count (t : Tables) (s : Scope) : Nat := ((t.table? s).map VarTable.size).getD 0

/-- An access to a variable that is already there. -/
def VarAccess.Uses (t : Tables) : VarAccess → Prop
  | load v | store v => (t.var? v).isSome = true
  | declare _ => False

variable {s : Scope} {t : Tables}

theorem Ordered.append {n n' n'' : Nat} {as bs : List VarAccess} (h : Ordered s n as n')
    (h' : Ordered s n' bs n'') : Ordered s n (as ++ bs) n'' := by
  induction h with
  | nil => exact h'
  | load old _ ih => exact .load old (ih h')
  | store old _ ih => exact .store old (ih h')
  | declare _ ih => exact .declare (ih h')

/-- A variable that is not yet declared is not loaded before it is. -/
theorem Ordered.not_firstLoad {n n' : Nat} {as : List VarAccess} {v : VarRef}
    (h : Ordered s n as n') (own : v.scope = s) (new : n ≤ v.slot) : ¬ FirstLoad v as := by
  -- The first access is no declaration of the variable, so that its slot stays free.
  have rest {a : VarAccess} {as : List VarAccess} (first : FirstLoad v (a :: as))
      (other : a ≠ .load v) : a ≠ .declare v ∧ FirstLoad v as := by
    obtain ⟨before, after, split, free⟩ := first
    cases before with
    | nil => exact absurd (List.cons.inj split).1 other
    | cons b before =>
      obtain ⟨rfl, rfl⟩ := List.cons.inj split
      rw [List.mem_cons, not_or] at free
      exact ⟨Ne.symm free.1, before, after, rfl, free.2⟩
  induction h with
  | nil =>
    intro first
    cases first.mem
  | @load n n' w as old _ ih =>
    intro first
    have other : VarAccess.load w ≠ .load v := by
      rintro ⟨⟩
      exact absurd (old own) (by omega)
    exact ih new (rest first other).2
  | store _ _ ih => exact fun first => ih new (rest first (by simp)).2
  | @declare n n' as _ ih =>
    intro first
    obtain ⟨other, first⟩ := rest first (by simp)
    have free : n ≠ v.slot := by
      rintro rfl
      exact other (by rw [← own])
    exact ih (by omega) first

/-- A variable that is already there is not declared again. -/
theorem Ordered.declare_notMem {n n' : Nat} {as : List VarAccess} {v : VarRef}
    (h : Ordered s n as n') (own : v.scope = s) (old : v.slot < n) : .declare v ∉ as := by
  induction h with
  | nil => simp
  | load _ _ ih | store _ _ ih => simpa using ih old
  | @declare n n' as _ ih =>
    rw [List.mem_cons, not_or]
    refine ⟨?_, ih (by omega)⟩
    rintro ⟨⟩
    exact Nat.lt_irrefl _ old

/-- Nothing is done to a variable before it is declared. -/
theorem Ordered.declaredFirst {n n' : Nat} {as : List VarAccess} {v : VarRef}
    (h : Ordered s n as n') (own : v.scope = s) (new : n ≤ v.slot) : DeclaredFirst v as := by
  induction h with
  | nil => exact .nil
  | load old _ ih | store old _ ih =>
    refine .cons (if_neg ?_) (ih new)
    rintro rfl
    exact absurd (old own) (by omega)
  | @declare n n' as rest ih =>
    by_cases same : (⟨n, s⟩ : VarRef) = v
    · subst same
      exact .declare (rest.declare_notMem rfl (Nat.lt_succ_self n))
    · have other : n ≠ v.slot := by
        rintro rfl
        exact same (by rw [← own])
      exact .cons (if_neg same) (ih (by omega))

/-- A variable with an entry is one of its table. -/
theorem Tables.slot_lt_count {v : VarRef} (h : (t.var? v).isSome = true) :
    v.slot < t.count v.scope := by
  obtain ⟨x, entry⟩ := Option.isSome_iff_exists.1 h
  obtain ⟨vars, table, found⟩ := Option.bind_eq_some_iff.1 entry
  rw [Tables.count, table]
  exact (List.getElem?_eq_some_iff.1 found).1

/-- Accesses to variables that are there are in order. -/
theorem Ordered.of_uses {as : List VarAccess} (h : ∀ a ∈ as, a.Uses t) :
    Ordered s (t.count s) as (t.count s) := by
  induction as with
  | nil => exact .nil
  | cons a as ih =>
    obtain ⟨first, others⟩ := List.forall_mem_cons.1 h
    have old (v : VarRef) (entry : (t.var? v).isSome = true) : v.scope = s →
        v.slot < t.count s := by
      rintro rfl
      exact Tables.slot_lt_count entry
    cases a with
    | load v => exact .load (old v first) (ih others)
    | store v => exact .store (old v first) (ih others)
    | declare v => exact first.elim

/-! ### Typed nodes -/

theorem Node.mem_readsAll {v : VarRef} {ns : List Node} :
    v ∈ readsAll ns ↔ ∃ n ∈ ns, v ∈ n.reads := by
  induction ns with
  | nil => simp [readsAll]
  | cons n ns ih => simp [readsAll, ih]

/-- The variables that a node reads are there. -/
def Node.ReadsFrom (t : Tables) (n : Node) : Prop := ∀ v ∈ n.reads, (t.var? v).isSome = true

theorem Node.ReadsFrom.uses {n : Node} (h : n.ReadsFrom t) :
    ∀ a ∈ n.reads.map VarAccess.load, a.Uses t := by
  intro a mem
  obtain ⟨v, read, rfl⟩ := List.mem_map.1 mem
  exact h v read

theorem Node.uses_of_readsFrom {ns : List Node} (h : ∀ n ∈ ns, n.ReadsFrom t) :
    ∀ a ∈ (readsAll ns).map VarAccess.load, a.Uses t := by
  intro a mem
  obtain ⟨v, read, rfl⟩ := List.mem_map.1 mem
  obtain ⟨n, node, read⟩ := mem_readsAll.1 read
  exact h n node v read

theorem Node.readsFrom_of_children {kind : NodeKind} {ty : Ty} {ns : List Node}
    (reads_eq : (mk kind ty ns).reads = readsAll ns) (h : ∀ n ∈ ns, n.ReadsFrom t) :
    (mk kind ty ns).ReadsFrom t := by
  intro v read
  rw [reads_eq] at read
  obtain ⟨n, node, read⟩ := mem_readsAll.1 read
  exact h n node v read

theorem Node.readsFrom_of_entry {kind : NodeKind} {ty : Ty} {ns : List Node} {v : VarRef}
    {x : Variable} (reads_eq : (mk kind ty ns).reads = [v]) (entry : t.var? v = some x) :
    (mk kind ty ns).ReadsFrom t := by
  intro w read
  rw [reads_eq, List.mem_singleton] at read
  rw [read, entry]
  rfl

theorem ValueTyped.readsFrom {n : Node} (h : ValueTyped t s n) : n.ReadsFrom t := by
  induction h with
  | name _ entry => exact Node.readsFrom_of_entry rfl entry
  | element _ entry => exact Node.readsFrom_of_entry rfl entry
  | arithmetic _ _ _ _ _ _ ihl ihr => exact Node.readsFrom_of_children rfl (by simp [ihl, ihr])
  | call _ _ _ _ ih => exact Node.readsFrom_of_children rfl ih
  | _ => exact Node.readsFrom_of_children rfl (by simp)

theorem ConditionTyped.readsFrom {n : Node} (h : ConditionTyped t s n) : n.ReadsFrom t := by
  induction h with
  | value typed => exact typed.readsFrom
  | comparison _ _ left right =>
    exact Node.readsFrom_of_children rfl (by simp [left.readsFrom, right.readsFrom])
  | logical _ _ _ ihl ihr => exact Node.readsFrom_of_children rfl (by simp [ihl, ihr])

/-- The variables that a typed call reads are there. -/
theorem CallTyped.uses {i : Nat} {f : Function} {args : List Node} (h : CallTyped t s i f args) :
    ∀ a ∈ (Node.readsAll args).map VarAccess.load, a.Uses t :=
  Node.uses_of_readsFrom fun arg mem => (h.typed arg mem).readsFrom

/-- Storing into a place that is there declares nothing. -/
theorem PlaceTyped.uses {n : Node} (h : PlaceTyped t s n) :
    (∀ a ∈ n.addressAccesses, a.Uses t) ∧ ∀ a ∈ n.storeAccesses, a.Uses t := by
  cases h with
  | name _ entry => simp [Node.addressAccesses, Node.storeAccesses, VarAccess.Uses, entry]
  | element _ entry => simp [Node.addressAccesses, Node.storeAccesses, VarAccess.Uses, entry]

@[simp] theorem Node.accessesAll_append (ns ms : List Node) :
    accessesAll (ns ++ ms) = accessesAll ns ++ accessesAll ms := by
  induction ns with
  | nil => rfl
  | cons n ns ih => rw [List.cons_append, accessesAll, accessesAll, ih, List.append_assoc]

theorem Node.accessesAll_singleton (n : Node) : accessesAll [n] = n.accesses := List.append_nil _

/-- A statement with a condition: the condition is evaluated before the branches. -/
theorem Ordered.branches {kind : NodeKind} {branches : List Node} {condition : Node} {n' : Nat}
    (ordered : Ordered s (t.count s) (Node.accessesAll branches) n')
    (isBranch : kind = .cond ∨ kind = .repeat_) (reads : condition.ReadsFrom t) :
    Ordered s (t.count s) (Node.statement kind (branches ++ [condition])).accesses n' := by
  have accesses : (Node.statement kind (branches ++ [condition])).accesses =
      condition.reads.map .load ++ Node.accessesAll branches := by
    have last : Node.conditionReads (branches ++ [condition]) = condition.reads := by
      simp [Node.conditionReads]
    rw [← Node.accessesOfBranches_append branches condition, ← last]
    rcases isBranch with rfl | rfl <;> rfl
  rw [accesses]
  exact (Ordered.of_uses reads.uses).append ordered

namespace Analysis

/-! ### Runs in order -/

/-- Tables in which a scope can get more variables. -/
structure Ready (s : Scope) (t : Tables) : Prop extends t.WellFormed where
  table : (t.table? s).isSome = true

theorem Ready.grows {t' : Tables} (h : Ready s t) (grows : t.Grows s t') : Ready s t' where
  toWellFormed := grows.wellFormed h.toWellFormed
  table := by
    cases s with
    | globals => rfl
    | function i =>
      have table := h.table
      simp only [Tables.table?, Option.isSome_map] at table ⊢
      obtain ⟨f, entry⟩ := Option.isSome_iff_exists.1 table
      obtain ⟨f', entry', -⟩ := grows.functions entry
      rw [entry']
      rfl

/-- A run without errors gives statements whose accesses are in order. -/
def Orders (s : Scope) (t : Tables) (x : Lower (List Node)) : Prop :=
  Clean (Tables.Grows s) t x fun t' nodes =>
    Ordered s (t.count s) (Node.accessesAll nodes) (t'.count s)

theorem Orders.append {x y : Lower (List Node)} (ready : Ready s t) (hx : Orders s t x)
    (hy : ∀ t', Ready s t' → Orders s t' y) :
    Orders s t (do let nodes ← x; return nodes ++ (← y)) := by
  refine hx.bind fun t' ns grows ordered => ?_
  refine (hy t' (ready.grows grows)).bind fun t'' ms grows' ordered' => .pure ?_
  rw [Node.accessesAll_append]
  exact ordered.append ordered'

/-! ### Declarations -/

variable {operator : String} {line : Nat}

/-- A variable that is declared without an error takes the next slot. -/
theorem declareVariable_clean {name : Ident} {ty : Ty} {array? : Option ArrayShape}
    (ready : Ready s t) (hx : Variable.WellFormed ⟨name.name, name.line, ty, array?⟩) :
    Clean (Tables.Grows s) t (declareVariable s name ty array?)
      fun t' v? => v? = some ⟨t.count s, s⟩ ∧ t'.count s = t.count s + 1 := by
  refine .newVariable ready.table fun {vars vars'} own declared =>
    ⟨Tables.grows_setTable hx own declared, ?_, ?_⟩
  · rw [Tables.count, own]
    rfl
  · have entries := (VarTable.declare_eq_ok_iff.1 declared).2
    rw [Tables.count, Tables.count, Tables.table?_setTable own, if_pos rfl, own]
    simp [VarTable.size, entries]

theorem declareNames_ordered {ty : Ty} {array? : Option ArrayShape} (names : List Ident)
    (ready : Ready s t) (hx : ∀ name line, Variable.WellFormed ⟨name, line, ty, array?⟩) :
    Orders s t (declareNames s ty array? names) := by
  induction names generalizing t with
  | nil => exact .pure .nil
  | cons name names ih =>
    refine (declareVariable_clean ready (hx _ _)).bind fun t' v? grows declared => ?_
    obtain ⟨rfl, count⟩ := declared
    refine (ih (ready.grows grows)).bind fun t'' nodes grows' ordered => .pure ?_
    rw [count] at ordered
    exact .declare ordered

/-- What is done to store the results of a call into targets. -/
theorem declareResults_ordered {declared : Option Ty} (names : List Ident) (results : List Ty)
    (ready : Ready s t) (scalarDeclared : ∀ ty ∈ declared, ty.isScalar = true)
    (scalars : ∀ ty ∈ results, ty.isScalar = true) :
    Clean (Tables.Grows s) t (declareResults s declared operator line names results)
      fun t' targets? => ∃ targets, targets? = some targets ∧
        Ordered s (t.count s) (targets.flatMap fun n => n.addressAccesses ++
          n.storeAccesses) (t'.count s) := by
  induction names generalizing t results with
  | nil => exact .pure ⟨[], rfl, .nil⟩
  | cons name names ih =>
    cases results with
    | nil => exact .pure ⟨[], rfl, .nil⟩
    | cons result results =>
      obtain ⟨scalarResult, scalars⟩ := List.forall_mem_cons.1 scalars
      have scalar : (declared.getD result).isScalar = true := by
        cases declared with
        | none => exact scalarResult
        | some ty => exact scalarDeclared ty rfl
      refine .newResult fun _ =>
        (declareVariable_clean ready (.scalar scalar)).bind fun t' v? grows declared => ?_
      obtain ⟨rfl, count⟩ := declared
      refine (ih results (ready.grows grows) scalars).bind fun t'' rest? grows' ordered => ?_
      obtain ⟨rest, rfl, ordered⟩ := ordered
      rw [count] at ordered
      exact .pure ⟨_, rfl, .declare ordered⟩

theorem declareInitialized_ordered {declared : Option Ty} {name : Ident} {n : Node}
    (ready : Ready s t) (operand : Operand t s n) :
    Orders s t (declareInitialized s declared operator line name (some n)) := by
  refine .initialized fun {m} scalar assigned => ?_
  obtain ⟨typed, -⟩ := assignTo_typed operand scalar assigned
  refine (declareVariable_clean ready (.scalar scalar)).imp fun t' v? grows declares => ?_
  obtain ⟨rfl, count⟩ := declares
  refine ⟨_, rfl, ?_⟩
  -- The value is computed before the variable gets its slot.
  rw [Node.accessesAll_singleton, count]
  exact (Ordered.of_uses typed.readsFrom.uses).append (.declare .nil)

theorem declarePairs_ordered {declared : Option Ty} (names : List Ident) (values : List Node)
    (ready : Ready s t) (operands : ∀ n ∈ values, Operand t s n) :
    Orders s t (declarePairs s declared operator line names (values.map some)) := by
  induction names generalizing t values with
  | nil => exact .pure .nil
  | cons name names ih =>
    cases values with
    | nil => exact .pure .nil
    | cons value values =>
      obtain ⟨first, others⟩ := List.forall_mem_cons.1 operands
      refine (declareInitialized_ordered ready first).bind fun t' ns grows ordered => ?_
      have others : ∀ n ∈ values, Operand t' s n := fun n mem => (others n mem).mono grows.toExtends
      refine (ih values (ready.grows grows) others).bind fun t'' ms grows' ordered' => .pure ?_
      rw [Node.accessesAll_append]
      exact ordered.append ordered'

theorem lowerDeclaration_ordered {names : List Ident} {declared : Option Ty} {values : List Expr}
    (ready : Ready s t) (scalarDeclared : ∀ ty ∈ declared, ty.isScalar = true) :
    Orders s t (lowerDeclaration s names declared values operator line) := by
  refine .declaration (fun {callee args line' call returns} _ _ lowered => ?_)
    fun {nodes} _ each => ?_
  · obtain ⟨i, f, children, rfl, typed, rfl, -⟩ := lowerResultCall_typed ready.toWellFormed lowered
    refine (declareResults_ordered names f.returns ready scalarDeclared
      (ready.toWellFormed.get? typed.callee).returns).imp fun t' targets? grows ordered => ?_
    obtain ⟨targets, rfl, ordered⟩ := ordered
    refine ⟨targets, rfl, ?_⟩
    rw [Node.accessesAll_singleton]
    exact (Ordered.of_uses typed.uses).append ordered
  · exact declarePairs_ordered names nodes ready
      (forall₂_right each fun e n => lowerValue_operand ready.toWellFormed)

theorem lowerVarSpec_ordered {spec : VarSpec} (ready : Ready s t) :
    Orders s t (lowerVarSpec s spec) := by
  refine .varSpec (fun _ _ resolved _ _ => ?_) (fun _ _ resolved => ?_)
    (fun _ _ resolved => ?_) fun _ => ?_
  · exact declareNames_ordered spec.names ready fun _ _ => .array (isScalar_of_resolveType resolved)
  · exact declareNames_ordered spec.names ready fun _ _ =>
      .scalar (isScalar_of_resolveType resolved)
  · exact lowerDeclaration_ordered ready (by rintro ty' ⟨⟩; exact isScalar_of_resolveType resolved)
  · exact lowerDeclaration_ordered ready (by simp)

theorem lowerVarSpecs_ordered (specs : List VarSpec) (ready : Ready s t) :
    Orders s t (lowerVarSpecs s specs) := by
  induction specs generalizing t with
  | nil => exact .pure .nil
  | cons spec specs ih =>
    exact .append ready (lowerVarSpec_ordered ready) fun t' ready' => ih ready'

/-! ### Statements that declare nothing -/

/-- Statements whose variables are all there. -/
def AllUse (t : Tables) (nodes : List Node) : Prop := ∀ n ∈ nodes, ∀ a ∈ n.accesses, a.Uses t

theorem AllUse.toList {n? : Option Node} (h : ∀ n, n? = some n → ∀ a ∈ n.accesses, a.Uses t) :
    AllUse t n?.toList :=
  fun n mem => h n (Option.mem_toList.1 mem)

/-- Statements that leave the tables as they are. -/
theorem AllUse.ordered {nodes : List Node} (h : AllUse t nodes) :
    Ordered s (t.count s) (Node.accessesAll nodes) (t.count s) := by
  induction nodes with
  | nil => exact .nil
  | cons n nodes ih =>
    obtain ⟨first, others⟩ := List.forall_mem_cons.1 h
    exact (Ordered.of_uses first).append (ih others)

theorem assignPairs_uses {targets : List (Option Node)} {values : List Expr} (wf : t.WellFormed)
    (places : ∀ n, some n ∈ targets → PlaceTyped t s n) :
    AllUse t (assignPairs t s line targets values).value := by
  intro n mem
  obtain ⟨target, e, value, value', isTarget, lowered, assigned, rfl⟩ := mem_assignPairs mem
  have place := places target isTarget
  obtain ⟨typed, -⟩ :=
    assignTo_typed (lowerValue_operand wf lowered) (isScalar_of_place wf place) assigned
  have accesses : (Node.statement .assign [target, value']).accesses =
      target.addressAccesses ++ value'.reads.map .load ++ target.storeAccesses := by
    cases place <;> rfl
  rw [accesses, List.forall_mem_append, List.forall_mem_append]
  exact ⟨⟨place.uses.1, typed.readsFrom.uses⟩, place.uses.2⟩

theorem lowerAssignment_uses {targets : List Target} {values : List Expr} (wf : t.WellFormed) :
    AllUse t (lowerAssignment t s targets values line).value := by
  have places := @lowerTargets_typed t s targets
  intro n mem
  rcases mem_lowerAssignment mem with
    ⟨callee, args, call, returns, list, lowered, matched, rfl⟩ | pair
  · obtain ⟨i, f, children, rfl, typed, rfl, count⟩ := lowerResultCall_typed wf lowered
    obtain ⟨all, -⟩ := matchResults_eq_some ((length_lowerTargets targets).trans count.symm) matched
    refine List.forall_mem_append.2 ⟨typed.uses, fun a access => ?_⟩
    obtain ⟨n, node, access⟩ := List.mem_flatMap.1 access
    have place := places n (all ▸ List.mem_map_of_mem node)
    exact List.forall_mem_append.2 place.uses a access
  · exact assignPairs_uses wf places n pair

theorem lowerWrite_uses {args : List Expr} {n : Node} (wf : t.WellFormed)
    (h : (lowerWrite t s args line).value = some n) : ∀ a ∈ n.accesses, a.Uses t := by
  obtain ⟨arg, value, rfl, lowered, scalar, rfl⟩ := value_lowerWrite.1 h
  exact Node.uses_of_readsFrom
    (List.forall_mem_singleton.2 ((lowerValue_operand wf lowered).typed scalar).readsFrom)

theorem lowerRead_uses {args : List Expr} {n : Node}
    (h : (lowerRead t s args line).value = some n) :
    ∀ a ∈ n.accesses, a.Uses t := by
  obtain ⟨arg, target, place, rfl, -, lowered, rfl⟩ := value_lowerRead.1 h
  intro a access
  obtain ⟨n, node, mem⟩ := List.mem_flatMap.1 access
  obtain rfl := List.mem_singleton.1 node
  exact List.forall_mem_append.2 (lowerTarget_typed lowered).uses a mem

theorem lowerCallStmt_uses {callee : Ident} {args : List Expr} {n : Node} (wf : t.WellFormed)
    (h : (lowerCallStmt t s callee args line).value = some n) : ∀ a ∈ n.accesses, a.Uses t := by
  rcases lowerCallStmt_eq_some h with ⟨-, -, output⟩ | ⟨-, -, input⟩ | call
  · exact lowerWrite_uses wf output
  · exact lowerRead_uses input
  · obtain ⟨i, f, children, rfl, typed⟩ := lowerCall_typed wf (lowerValues_operands wf args) call
    exact typed.uses

theorem lowerReturn_uses {values : List Expr} {n : Node} (wf : t.WellFormed)
    (h : (lowerReturn t s values line).value = some n) : ∀ a ∈ n.accesses, a.Uses t := by
  have typed := lowerReturn_typed wf h
  obtain ⟨i, f, nodes, rfl, -, -, rfl, -⟩ := lowerReturn_eq_some h
  cases typed with
  | ret _ _ valuesTyped =>
    exact Node.uses_of_readsFrom fun value mem => (valuesTyped value mem).readsFrom

/-! ### Statements -/

mutual

theorem lowerStmt_ordered : ∀ (stmt : Stmt) {t : Tables}, Ready s t → Orders s t (lowerStmt s stmt)
  | .var decl, t, ready => lowerVarSpecs_ordered decl.specs ready
  | .define names values line, t, ready => lowerDeclaration_ordered ready (by simp)
  | .assign targets values line, t, ready =>
    .get fun _ => .lift (lowerAssignment_uses ready.toWellFormed).ordered
  | .cond stmt, t, ready => by
    refine (lowerIf_ordered stmt ready).bind fun t' n? grows ordered => .pure ?_
    obtain ⟨n, rfl, ordered⟩ := ordered
    exact Node.accessesAll_singleton n ▸ ordered
  | .loop condition body line, t, ready => by
    refine .get (.report fun noErrors => ?_)
    obtain ⟨node, lowered⟩ :=
      Option.isSome_iff_exists.1 (lowerCondition_explained condition "for" noErrors)
    refine (lowerBlock_ordered body ready).bind fun t' block grows ordered => .pure ?_
    have reads := (lowerCondition_typed ready.toWellFormed lowered).readsFrom
    rw [lowered, Option.map_some, Option.toList_some, Node.accessesAll_singleton]
    rw [← Node.accessesAll_singleton block] at ordered
    exact ordered.branches (.inr rfl) reads
  | .ret values line, t, ready => by
    refine .get (.report fun _ => .pure ?_)
    exact (AllUse.toList fun n => lowerReturn_uses ready.toWellFormed).ordered
  | .call callee args line, t, ready => by
    refine .get (.report fun _ => .pure ?_)
    exact (AllUse.toList fun n => lowerCallStmt_uses ready.toWellFormed).ordered
  | .block body, t, ready => by
    refine (lowerBlock_ordered body ready).bind fun t' node grows ordered => .pure ?_
    exact Node.accessesAll_singleton node ▸ ordered

/-- The statements of a block are in order. -/
theorem lowerBlock_ordered : ∀ (block : Block) {t : Tables}, Ready s t →
    Clean (Tables.Grows s) t (lowerBlock s block)
      fun t' node => Ordered s (t.count s) node.accesses (t'.count s)
  | .mk statements _ _, _, ready =>
    (lowerStmts_ordered statements ready).bind fun _ _ _ ordered => .pure ordered

theorem lowerStmts_ordered :
    ∀ (stmts : List Stmt) {t : Tables}, Ready s t → Orders s t (lowerStmts s stmts)
  | [], _, _ => .pure .nil
  | stmt :: stmts, _, ready =>
    .append ready (lowerStmt_ordered stmt ready) fun _ ready' => lowerStmts_ordered stmts ready'

theorem lowerIf_ordered : ∀ (stmt : IfStmt) {t : Tables}, Ready s t →
    Clean (Tables.Grows s) t (lowerIf s stmt)
      fun t' n? => ∃ n, n? = some n ∧ Ordered s (t.count s) n.accesses (t'.count s)
  | .mk condition body otherwise line, t, ready => by
    refine .get (.report fun noErrors => ?_)
    obtain ⟨node, lowered⟩ :=
      Option.isSome_iff_exists.1 (lowerCondition_explained condition "if" noErrors)
    refine (lowerBlock_ordered body ready).bind fun t' block grows ordered => ?_
    refine (lowerElse_ordered otherwise (ready.grows grows)).bind fun t'' others? grows' ordered' =>
      .pure ?_
    obtain ⟨others, rfl, ordered'⟩ := ordered'
    have reads := (lowerCondition_typed ready.toWellFormed lowered).readsFrom
    have both : Ordered s (t.count s) (Node.accessesAll (block :: others)) (t''.count s) :=
      ordered.append ordered'
    rw [lowered]
    exact ⟨_, rfl, both.branches (.inl rfl) reads⟩

theorem lowerElse_ordered : ∀ (branch : ElseBranch) {t : Tables}, Ready s t →
    Clean (Tables.Grows s) t (lowerElse s branch)
      fun t' nodes? => ∃ nodes, nodes? = some nodes ∧
        Ordered s (t.count s) (Node.accessesAll nodes) (t'.count s)
  | .absent, t, ready => .pure ⟨[], rfl, .nil⟩
  | .block body, t, ready => by
    refine (lowerBlock_ordered body ready).bind fun t' node grows ordered => .pure ⟨_, rfl, ?_⟩
    exact Node.accessesAll_singleton node ▸ ordered
  | .elseIf stmt, t, ready => by
    refine (lowerIf_ordered stmt ready).bind fun t' n? grows ordered => .pure ?_
    obtain ⟨n, rfl, ordered⟩ := ordered
    exact ⟨[n], rfl, Node.accessesAll_singleton n ▸ ordered⟩

end

end Analysis

end MiniGo
