import MiniGo.Proofs.WellTyped.Declare

/-!
# Typing gives well-typed statements

The main statement is `lowerStmt_typed`: a statement becomes typed nodes, in tables that have grown
in its scope. It follows the recursion of the definitions, with a companion for blocks, lists of
statements, conditional statements and else branches.
-/

namespace MiniGo.Analysis

variable {t : Tables} {s : Scope} {line : Nat}

/-! ### Assignments -/

theorem lowerTargets_typed (targets : List Target) (n : Node)
    (h : some n ∈ (lowerTargets t s targets).value) : PlaceTyped t s n := by
  induction targets with
  | nil => simp [lowerTargets] at h
  | cons target targets ih =>
    simp only [lowerTargets, Report.value_bind, Report.value_pure, List.mem_cons] at h
    rcases h with h | h
    · exact lowerTarget_typed h.symm
    · exact ih h

theorem length_lowerTargets (targets : List Target) :
    (lowerTargets t s targets).value.length = targets.length := by
  induction targets with
  | nil => rfl
  | cons target targets ih =>
    simp only [lowerTargets, Report.value_bind, Report.value_pure, List.length_cons, ih]

/-- Targets that match the results of a call can take them, one by one. -/
theorem matchResults_typed {targets : List (Option Node)} {results : List Ty} {nodes : List Node}
    (places : ∀ n, some n ∈ targets → PlaceTyped t s n) (same : targets.length = results.length)
    (h : (matchResults line targets results).value = some nodes) :
    (∀ n ∈ nodes, TargetTyped t s n) ∧
      List.Forall₂ Ty.Takes (nodes.map Node.ty) results := by
  obtain ⟨rfl, each⟩ := matchResults_eq_some same h
  refine ⟨fun n mem => .place (places n (List.mem_map_of_mem mem)), ?_⟩
  rw [List.forall₂_map_left_iff]
  exact each.imp fun n result assignable => Ty.assignable_iff.1 assignable

/-- A place has a scalar type. -/
theorem isScalar_of_place {n : Node} (wf : t.WellFormed) (h : PlaceTyped t s n) :
    n.ty.isScalar = true := by
  cases h with
  | name sees entry scalar => exact scalar
  | element sees entry array bound => exact ((wf.var? entry).of_array array).2

theorem assignPairs_typed {targets : List (Option Node)} {values : List Expr} (wf : t.WellFormed)
    (places : ∀ n, some n ∈ targets → PlaceTyped t s n) :
    AllTyped s t (assignPairs t s line targets values).value := by
  intro n mem
  obtain ⟨target, e, value, value', isTarget, lowered, assigned, rfl⟩ := mem_assignPairs mem
  have place := places target isTarget
  obtain ⟨typed, stores⟩ :=
    assignTo_typed (lowerValue_operand wf lowered) (isScalar_of_place wf place) assigned
  exact .assign (.place place) typed stores

theorem lowerAssignment_typed {targets : List Target} {values : List Expr} (wf : t.WellFormed) :
    AllTyped s t (lowerAssignment t s targets values line).value := by
  have places := @lowerTargets_typed t s targets
  intro n mem
  rcases mem_lowerAssignment mem with
    ⟨callee, args, call, returns, list, lowered, matched, rfl⟩ | pair
  · obtain ⟨i, f, children, rfl, typed, rfl, count⟩ := lowerResultCall_typed wf lowered
    obtain ⟨targetsTyped, take⟩ :=
      matchResults_typed places ((length_lowerTargets targets).trans count.symm) matched
    exact .assignResults typed targetsTyped take
  · exact assignPairs_typed wf places n pair

/-! ### Calls, input and output -/

theorem lowerWrite_typed {args : List Expr} {n : Node} (wf : t.WellFormed)
    (h : (lowerWrite t s args line).value = some n) : StmtTyped t s n := by
  obtain ⟨arg, value, rfl, lowered, scalar, rfl⟩ := value_lowerWrite.1 h
  exact .write ((lowerValue_operand wf lowered).typed scalar)

theorem lowerRead_typed {args : List Expr} {n : Node}
    (h : (lowerRead t s args line).value = some n) : StmtTyped t s n := by
  obtain ⟨arg, target, place, rfl, -, lowered, rfl⟩ := value_lowerRead.1 h
  exact .read (lowerTarget_typed lowered)

theorem lowerCallStmt_typed {callee : Ident} {args : List Expr} {n : Node} (wf : t.WellFormed)
    (h : (lowerCallStmt t s callee args line).value = some n) : StmtTyped t s n := by
  rcases lowerCallStmt_eq_some h with ⟨-, -, output⟩ | ⟨-, -, input⟩ | call
  · exact lowerWrite_typed wf output
  · exact lowerRead_typed input
  · obtain ⟨i, f, children, rfl, typed⟩ := lowerCall_typed wf (lowerValues_operands wf args) call
    exact .call typed

/-! ### Return -/

theorem lowerReturn_typed {values : List Expr} {n : Node} (wf : t.WellFormed)
    (h : (lowerReturn t s values line).value = some n) : StmtTyped t s n := by
  obtain ⟨i, f, nodes, rfl, entry, count, rfl, each⟩ := lowerReturn_eq_some h
  have scalars : ∀ pair ∈ values.zip f.returns, pair.2.isScalar = true := fun pair mem =>
    (wf.get? entry).returns _ (List.of_mem_zip mem).2
  have stored :
      List.Forall₂ (fun ty m => ValueTyped t (.function i) m ∧ m.StoresInto ty)
        f.returns nodes := by
    refine forall₂_of_zip_right count.symm (((List.forall₂_and_left _ _).2 ⟨scalars, each⟩).imp ?_)
    rintro pair m ⟨scalar, n, lowered, assigned⟩
    exact assignTo_typed (lowerValue_operand wf lowered) scalar assigned
  exact .ret rfl entry (forall₂_right stored fun _ _ => And.left)
    (stored.imp fun _ _ => And.right).flip

/-! ### Statements -/

/-- The node of a block of typed statements. -/
def BlockTyped (s : Scope) (t : Tables) (n : Node) : Prop :=
  ∃ nodes, n = .statement .block nodes ∧ AllTyped s t nodes

theorem BlockTyped.mono {t' : Tables} {n : Node} (h : BlockTyped s t n) (le : t.Extends t') :
    BlockTyped s t' n := by
  obtain ⟨nodes, rfl, typed⟩ := h
  exact ⟨nodes, rfl, fun n mem => (typed n mem).mono le⟩

/-- The nodes of an else branch: none, or a block or a conditional statement. -/
def ElseTyped (s : Scope) (t : Tables) (nodes : List Node) : Prop :=
  nodes = [] ∨ ∃ n, nodes = [n] ∧ StmtTyped t s n ∧ (n.kind = .block ∨ n.kind = .cond)

/-- A conditional statement of typed parts is typed. -/
theorem condition_typed {body condition : Node} {otherwise : List Node}
    (bodyTyped : BlockTyped s t body) (otherwiseTyped : ElseTyped s t otherwise)
    (conditionTyped : ConditionTyped t s condition) :
    StmtTyped t s (.statement .cond (body :: (otherwise ++ [condition]))) := by
  obtain ⟨nodes, rfl, typed⟩ := bodyTyped
  rcases otherwiseTyped with rfl | ⟨n, rfl, branchTyped, branch⟩
  · exact .cond typed conditionTyped
  · exact .condElse typed branchTyped branch conditionTyped

mutual

/-- A statement becomes typed nodes. -/
theorem lowerStmt_typed : ∀ (stmt : Stmt) {t : Tables}, t.WellFormed → Lowers s t (lowerStmt s stmt)
  | .var decl, t, wf => lowerVarDecl_typed wf
  | .define names values line, t, wf => lowerDeclaration_typed wf (by simp)
  | .assign targets values line, t, wf => .get (.lift (lowerAssignment_typed wf))
  | .cond stmt, t, wf => by
    refine (lowerIf_typed stmt wf).bind fun t' n? grows typed => .pure ?_
    intro n mem
    exact (typed n (Option.mem_toList.1 mem)).1
  | .loop condition body line, t, wf => by
    refine .get (.report ?_)
    refine (lowerBlock_typed body wf).bind fun t' node grows typed => .pure ?_
    intro n mem
    simp only [Option.mem_toList, Option.map_eq_some_iff] at mem
    obtain ⟨condition, lowered, rfl⟩ := mem
    obtain ⟨nodes, rfl, typed⟩ := typed
    exact .loop typed ((lowerCondition_typed wf lowered).mono grows.toExtends)
  | .ret values line, t, wf => by
    refine .get (.report (.pure ?_))
    intro n mem
    exact lowerReturn_typed wf (Option.mem_toList.1 mem)
  | .call callee args line, t, wf => by
    refine .get (.report (.pure ?_))
    intro n mem
    exact lowerCallStmt_typed wf (Option.mem_toList.1 mem)
  | .block body, t, wf => by
    refine (lowerBlock_typed body wf).bind fun t' node grows typed => .pure ?_
    obtain ⟨nodes, rfl, typed⟩ := typed
    simp only [AllTyped, List.mem_singleton, forall_eq]
    exact .block typed

/-- A block becomes a block of typed statements. -/
theorem lowerBlock_typed : ∀ (block : Block) {t : Tables}, t.WellFormed →
    Runs (Tables.Grows s) t (lowerBlock s block) (BlockTyped s)
  | .mk statements _ _, _, wf =>
    (lowerStmts_typed statements wf).bind fun _ nodes _ typed => .pure ⟨nodes, rfl, typed⟩

/-- Statements become typed nodes. -/
theorem lowerStmts_typed : ∀ (stmts : List Stmt) {t : Tables}, t.WellFormed →
    Lowers s t (lowerStmts s stmts)
  | [], _, _ => .pure .nil
  | stmt :: stmts, _, wf =>
    .append wf (lowerStmt_typed stmt wf) fun _ wf' => lowerStmts_typed stmts wf'

/-- A conditional statement becomes a typed one. -/
theorem lowerIf_typed : ∀ (stmt : IfStmt) {t : Tables}, t.WellFormed →
    Runs (Tables.Grows s) t (lowerIf s stmt)
      fun t' n? => ∀ n ∈ n?, StmtTyped t' s n ∧ n.kind = .cond
  | .mk condition body otherwise line, t, wf => by
    refine .get (.report ?_)
    refine (lowerBlock_typed body wf).bind fun t' node grows typed => ?_
    refine (lowerElse_typed otherwise (grows.wellFormed wf)).bind
      fun t'' otherwise? grows' typed' => .pure ?_
    intro n mem
    simp only [Option.bind_eq_bind, Option.mem_def, Option.bind_eq_some_iff, Option.pure_def,
      Option.some.injEq] at mem
    obtain ⟨nodes, rfl, condition, lowered, rfl⟩ := mem
    have conditionTyped := (lowerCondition_typed wf lowered).mono grows.toExtends
    exact ⟨condition_typed (typed.mono grows'.toExtends) (typed' nodes rfl)
      (conditionTyped.mono grows'.toExtends), rfl⟩

/-- An else branch becomes nothing, a typed block or a typed conditional statement. -/
theorem lowerElse_typed :
    ∀ (branch : ElseBranch) {t : Tables}, t.WellFormed →
    Runs (Tables.Grows s) t (lowerElse s branch) fun t' nodes? => ∀ nodes ∈ nodes?,
      ElseTyped s t' nodes
  | .absent, t, wf => .pure (by rintro _ ⟨⟩; exact .inl rfl)
  | .block body, t, wf => by
    refine (lowerBlock_typed body wf).bind fun t' node grows typed => .pure ?_
    rintro _ ⟨⟩
    obtain ⟨nodes, rfl, typed⟩ := typed
    exact .inr ⟨_, rfl, .block typed, .inl rfl⟩
  | .elseIf stmt, t, wf => by
    refine (lowerIf_typed stmt wf).bind fun t' n? grows typed => .pure ?_
    intro nodes mem
    obtain ⟨n, rfl, rfl⟩ := Option.map_eq_some_iff.1 mem
    exact .inr ⟨n, rfl, (typed n rfl).1, .inr (typed n rfl).2⟩

end

end MiniGo.Analysis
