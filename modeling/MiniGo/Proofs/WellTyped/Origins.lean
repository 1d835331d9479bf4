import Mathlib.Data.List.Forall2
import MiniGo.Analysis.Program

/-!
# Where nodes come from

If the analysis has a node for a piece of text, then it has nodes for the parts, and these have
passed the checks on the way. For each function of the analysis there is one statement that says so.
All else that is proved about nodes starts from these statements and not from the definitions.

* `value_continueWith`, `value_assignTo`, `value_lowerOperation`, `value_lowerSigned`: steps on
  nodes.
* `lowerLiteral_eq_some`, `value_lowerVariable`, `value_lowerIndex`, `lowerCall_eq_some`: operands.
* `value_lowerExpr_binary`, `lowerExpr_operand_eq_some`, `value_lowerPrimary_call`: expressions made
  of others.
* `value_lowerValue`, `value_lowerCondition`, `value_lowerTarget`: expressions in their positions.
* `mem_lowerAssignment`, `value_lowerWrite`, `value_lowerRead`, `lowerCallStmt_eq_some`,
  `lowerReturn_eq_some`: statements.
-/

namespace MiniGo.Analysis

open Report

variable {t : Tables} {s : Scope} {line : Nat} {n m left right : Node} {ty : Ty}

/-- What is known of all values that are there is known of each, if none is missing. -/
theorem forall₂_of_values {P : Expr → Node → Prop} {es : List Expr} {values : List (Option Node)}
    {nodes : List Node} (each : List.Forall₂ (fun e n? => ∀ n, n? = some n → P e n) es values)
    (all : values = nodes.map some) :
    List.Forall₂ P es nodes := by
  rw [all, List.forall₂_map_right_iff] at each
  exact each.imp fun _ n h => h n rfl

/-! ### Steps on typed parts -/

@[simp] theorem value_reject {α : Type} (e : SemanticError) :
    (Report.reject e : Report (Option α)).value = none := rfl

/-- A node comes out of a step only if one goes in. -/
theorem value_continueWith {α β : Type} {a? : Option α} {f : α → Report (Option β)} {b : β} :
    (continueWith a? f).value = some b ↔ ∃ a, a? = some a ∧ (f a).value = some b := by
  cases a? <;> simp [continueWith]

/-- A step that checks a condition has a node only if the condition holds. -/
theorem value_ite_reject {α : Type} {c : Prop} [Decidable c] {r : Report (Option α)}
    {e : SemanticError} {a : α} :
    (if c then r else .reject e).value = some a ↔ c ∧ r.value = some a := by
  split <;> simp_all

theorem value_asValue {n' : Node} :
    (asValue line n).value = some n' ↔ n = n' ∧ n.isJumpOnly = false := by
  unfold asValue
  split <;> simp_all

theorem value_asCondition {construct : String} {n' : Node} :
    (asCondition construct line n).value = some n' ↔ n = n' ∧ n.isCondition = true := by
  unfold asCondition
  split <;> simp_all

theorem value_assignTo {operator : String} :
    (assignTo ty n operator line).value = some m ↔
      ty.assignable n.ty = true ∧ m = if ty = .float then n.widen else n := by
  simp only [assignTo, value_ite_reject, value_pure, Option.some.injEq, eq_comm (b := m)]

theorem value_binaryTy {op : BinaryOp} :
    (binaryTy op left right line).value = some ty ↔ binaryTy? op left right = some ty := by
  unfold binaryTy
  split <;> simp_all

/-- The node of an operation has the type of the operator. The operands of a float operation are
widened. -/
theorem value_lowerOperation {op : BinaryOp} :
    (lowerOperation op line left right).value = some n ↔ ∃ ty, binaryTy? op left right = some ty ∧
      n = .mk (.op op) ty (if Ty.unify left.ty right.ty = some .float ∧ op.isLogical = false
        then [left.widen, right.widen] else [left, right]) := by
  simp only [lowerOperation, value_bind, value_continueWith, value_binaryTy, value_pure,
    Option.some.injEq]
  simp only [eq_comm (b := n)]

/-- A sign stands in front of a number. -/
theorem value_lowerSigned {sign : Sign} :
    (lowerSigned sign line m).value = some n ↔ m.isJumpOnly = false ∧ m.ty.isNumeric = true ∧
      n = match sign with
        | .plus => m
        | .minus => .mk (.op .sub) m.ty [zeroNode m.ty, m] := by
  simp only [lowerSigned, value_bind, value_continueWith, value_asValue, value_ite_reject,
    value_pure, Option.some.injEq]
  constructor
  · rintro ⟨_, ⟨rfl, value⟩, number, node⟩
    exact ⟨value, number, node.symm⟩
  · rintro ⟨value, number, node⟩
    exact ⟨m, ⟨rfl, value⟩, number, node.symm⟩

/-! ### Literals, names and elements -/

/-- The node of a literal has the value that its text says. -/
theorem lowerLiteral_eq_some {lit : Literal} {negate : Bool}
    (h : (lowerLiteral lit negate).value = some n) :
    match lit.kind with
    | .int => ∃ i, readInteger? lit.text = some i ∧ fitsInt (if negate then -i else i) = true ∧
        n = .mk (.intVal (if negate then -i else i)) .int []
    | .float => ∃ x, Binary32.readFinite? lit.text = some x ∧
        n = .mk (.floatVal (if negate then x.neg else x)) .float []
    | .string => n = .mk (.strVal lit.text) .string []
    | .bool => n = .mk (.boolVal (lit.text == "true")) .bool [] := by
  obtain ⟨kind, text, line⟩ := lit
  simp only [lowerLiteral] at h
  split at h
  · rename_i node found
    obtain rfl := Option.some.inj h
    cases kind with
    | int =>
      simp only [intLiteral?, Option.bind_eq_bind, Option.bind_eq_some_iff,
        Option.ite_none_right_eq_some, Option.some.injEq] at found
      obtain ⟨i, read, fits, node⟩ := found
      exact ⟨i, read, fits, node.symm⟩
    | float =>
      simp only [floatLiteral?, Option.bind_eq_bind, Option.bind_eq_some_iff,
        Option.some.injEq] at found
      obtain ⟨x, read, node⟩ := found
      exact ⟨x, read, node.symm⟩
    | string => exact (Option.some.inj found).symm
    | bool => exact (Option.some.inj found).symm
  · cases h

/-- Only a number directly after a minus takes the minus in. -/
theorem negatedLiteral?_eq_some {sign : Option Sign} {primary : Primary} {lit : Literal}
    (h : negatedLiteral? sign primary = some lit) :
    sign = some .minus ∧ primary = .literal lit := by
  unfold negatedLiteral? at h
  split at h
  · split at h <;> cases h <;> exact ⟨rfl, rfl⟩
  · cases h

theorem value_lowerVariable {id : Ident} :
    (lowerVariable t s id).value = some n ↔
      ∃ v x, t.resolve? id.name s = some v ∧ t.var? v = some x ∧ n = .mk (.varUse v) x.ty [] := by
  unfold lowerVariable
  constructor
  · intro h
    split at h
    · cases h
    rename_i v found
    obtain ⟨x, entry, node⟩ := Option.map_eq_some_iff.1 h
    exact ⟨v, x, found, entry, node.symm⟩
  · rintro ⟨v, x, found, entry, rfl⟩
    simp only [found, entry]
    rfl

/-- An element is one of an array, at a constant index within its length. -/
theorem value_lowerIndex {array : Ident} {index : Expr} :
    (lowerIndex t s array index).value = some n ↔
      ∃ v x shape i, t.resolve? array.name s = some v ∧ t.var? v = some x ∧ x.array? = some shape ∧
        constantInt? index = some i ∧ (0 ≤ i ∧ i < shape.length) ∧
        n = .mk (.arrayUse v i.toNat) shape.element [] := by
  unfold lowerIndex
  constructor
  · intro h
    split at h
    · cases h
    rename_i v found
    obtain ⟨x, entry, h⟩ := value_continueWith.1 h
    split at h
    · cases h
    rename_i shape isArray
    split at h
    · cases h
    rename_i i constant
    obtain ⟨bounds, node⟩ := value_ite_reject.1 h
    exact ⟨v, x, shape, i, found, entry, isArray, constant, bounds, (Option.some.inj node).symm⟩
  · rintro ⟨v, x, shape, i, found, entry, isArray, constant, bounds, rfl⟩
    simp only [found, entry, continueWith, isArray, constant, if_pos bounds]
    rfl

/-! ### Calls -/

/-- Arguments that match are all there, and have exactly the types of the parameters. -/
theorem matchArguments_eq_some {callee : Ident} {position : Nat} {args : List (Option Node)}
    {params : List Ty} {nodes : List Node} (same : params.length = args.length)
    (h : (matchArguments callee line position args params).value = some nodes) :
    args = nodes.map some ∧ nodes.map Node.ty = params := by
  induction args generalizing position params nodes with
  | nil =>
    obtain rfl := List.length_eq_zero_iff.1 same
    obtain rfl := Option.some.inj h
    exact ⟨rfl, rfl⟩
  | cons arg? args ih =>
    cases params with
    | nil => simp at same
    | cons param params =>
      simp only [matchArguments, value_bind, value_pure, Option.bind_eq_bind,
        Option.bind_eq_some_iff, Option.some.injEq, value_continueWith, value_ite_reject] at h
      obtain ⟨_, ⟨n, rfl, rfl, rfl⟩, rest, matched, rfl⟩ := h
      obtain ⟨rfl, rfl⟩ := ih (by simpa using same) matched
      exact ⟨rfl, rfl⟩

/-- A call is one of a function that is there, with arguments of the types of its parameters. -/
theorem lowerCall_eq_some {callee : Ident} {args : List (Option Node)}
    (h : (lowerCall t callee args line).value = some n) :
    ∃ i f children, t.functions.find? callee.name = some i ∧ t.functions.get? i = some f ∧
      args = children.map some ∧ children.map Node.ty = f.params ∧
      n = .mk (.call i) f.valueTy children := by
  unfold lowerCall at h
  split at h
  · cases h
  rename_i i found
  obtain ⟨f, entry, h⟩ := value_continueWith.1 h
  obtain ⟨count, h⟩ := value_ite_reject.1 h
  obtain ⟨children, matched, node⟩ := value_continueWith.1 h
  obtain ⟨args, types⟩ := matchArguments_eq_some count matched
  exact ⟨i, f, children, found, entry, args, types, (Option.some.inj node).symm⟩

/-! ### Expressions -/

/-- The operands of an operator have nodes, and values unless the operator is a logical one. -/
theorem value_lowerExpr_binary {op : BinaryOp} {l r : Expr} :
    (lowerExpr t s (.binary op line l r)).value = some n ↔
      ∃ left right, (lowerExpr t s l).value = some left ∧ (lowerExpr t s r).value = some right ∧
        (op.isLogical = false → left.isJumpOnly = false ∧ right.isJumpOnly = false) ∧
        (lowerOperation op line left right).value = some n := by
  cases logical : op.isLogical with
  | true =>
    simp only [lowerExpr, value_bind, logical, if_true, value_pure, value_continueWith,
      Bool.true_eq_false, false_implies, true_and]
    grind
  | false =>
    simp only [lowerExpr, value_bind, logical, Bool.false_eq_true, if_false, value_continueWith,
      value_asValue, true_implies]
    grind

/-- An operand is a negated number, or has the node of what is behind its sign. -/
theorem lowerExpr_operand_eq_some {sign : Option Sign} {primary : Primary}
    (h : (lowerExpr t s (.operand sign primary line)).value = some n) :
    (∃ lit, negatedLiteral? sign primary = some lit ∧ (lowerLiteral lit true).value = some n) ∨
      (negatedLiteral? sign primary = none ∧ ∃ m, (lowerPrimary t s line primary).value = some m ∧
        match sign with
        | none => n = m
        | some sign => (lowerSigned sign line m).value = some n) := by
  simp only [lowerExpr] at h
  split at h
  · rename_i lit negated
    exact .inl ⟨lit, negated, h⟩
  · rename_i other
    refine .inr ⟨other, ?_⟩
    cases sign with
    | none => exact ⟨n, h, rfl⟩
    | some sign => exact value_continueWith.1 h

/-- A call that is an operand has a value. -/
theorem value_lowerPrimary_call {callee : Ident} {args : List Expr} :
    (lowerPrimary t s line (.call callee args)).value = some n ↔
      (lowerCall t callee (lowerValues t s args).value line).value = some n ∧ n.ty ≠ .noType := by
  simp only [lowerPrimary, value_bind, value_continueWith, asCallValue]
  grind [value_pure, value_reject]

theorem value_lowerValue {e : Expr} :
    (lowerValue t s e).value = some n ↔ (lowerExpr t s e).value = some n ∧
    n.isJumpOnly = false := by
  simp only [lowerValue, value_bind, value_continueWith, value_asValue]
  grind

theorem value_lowerValues (es : List Expr) :
    (lowerValues t s es).value = es.map fun e => (lowerValue t s e).value := by
  induction es with
  | nil => rfl
  | cons e es ih =>
    simp only [lowerValues, value_bind, value_pure, List.map_cons, ih]
    rfl

theorem value_lowerCondition {e : Expr} {construct : String} :
    (lowerCondition t s e construct line).value = some n ↔
      (lowerExpr t s e).value = some n ∧ n.isCondition = true := by
  simp only [lowerCondition, value_bind, value_continueWith, value_asCondition]
  grind

/-- A target is a variable or an element with a scalar type. -/
theorem value_lowerTarget {target : Target} :
    (lowerTarget t s target).value = some n ↔
      (match target with
        | .name id => lowerVariable t s id
        | .index array index => lowerIndex t s array index).value = some n ∧
          n.ty.isScalar = true := by
  cases target <;> simp only [lowerTarget, value_bind, value_continueWith, value_ite_reject] <;>
    grind [value_pure]

/-- A call whose results go to targets has as many results as there are targets. -/
theorem value_lowerResultCall {callee : Ident} {args : List Expr} {targets : Nat} {call : Node}
    {returns : List Ty} :
    (lowerResultCall t s callee args targets line).value = some (call, returns) ↔
      (lowerCall t callee (lowerValues t s args).value line).value = some call ∧
        resultTypes? t call = some returns ∧ returns.length = targets := by
  simp only [lowerResultCall, value_bind, value_continueWith, value_ite_reject, value_pure]
  grind

/-! ### Assignments -/

/-- Targets that match are all there, and each can take its result. -/
theorem matchResults_eq_some {targets : List (Option Node)} {results : List Ty} {nodes : List Node}
    (same : targets.length = results.length)
    (h : (matchResults line targets results).value = some nodes) :
    targets = nodes.map some ∧
    List.Forall₂ (fun n result => n.ty.assignable result = true) nodes results := by
  induction targets generalizing results nodes with
  | nil =>
    obtain rfl := List.length_eq_zero_iff.1 same.symm
    obtain rfl := Option.some.inj h
    exact ⟨rfl, .nil⟩
  | cons target? targets ih =>
    cases results with
    | nil => simp at same
    | cons result results =>
      simp only [matchResults, value_continueWith, value_ite_reject, value_bind, value_pure,
        Option.map_eq_some_iff] at h
      obtain ⟨target, rfl, takes, rest, matched, rfl⟩ := h
      obtain ⟨rfl, each⟩ := ih (by simpa using same) matched
      exact ⟨rfl, .cons takes each⟩

/-- Each node is an assignment of a value to one of the targets. -/
theorem mem_assignPairs {targets : List (Option Node)} {values : List Expr}
    (h : n ∈ (assignPairs t s line targets values).value) :
    ∃ target e value value', some target ∈ targets ∧ (lowerValue t s e).value = some value ∧
      (assignTo target.ty value "=" line).value = some value' ∧
      n = .statement .assign [target, value'] := by
  induction targets generalizing values with
  | nil => simp [assignPairs] at h
  | cons target? targets ih =>
    cases values with
    | nil => simp [assignPairs] at h
    | cons e es =>
      simp only [assignPairs, value_bind, value_pure, List.mem_append, Option.mem_toList,
        value_continueWith, Option.map_eq_some_iff] at h
      rcases h with ⟨target, rfl, value, lowered, value', assigned, rfl⟩ | rest
      · exact ⟨target, e, value, value', .head _, lowered, assigned, rfl⟩
      · obtain ⟨target, e, value, value', mem, assignment⟩ := ih rest
        exact ⟨target, e, value, value', .tail _ mem, assignment⟩

/-- The results of one call go to all targets, or there is an assignment for each target. -/
theorem mem_lowerAssignment {targets : List Target} {values : List Expr}
    (h : n ∈ (lowerAssignment t s targets values line).value) :
    (∃ callee args call returns list,
      (lowerResultCall t s callee args targets.length line).value = some (call, returns) ∧
        (matchResults line (lowerTargets t s targets).value returns).value = some list ∧
        n = resultAssignment list call) ∨
      n ∈ (assignPairs t s line (lowerTargets t s targets).value values).value := by
  simp only [lowerAssignment, value_bind] at h
  split at h
  · rename_i callee args _
    simp only [value_bind] at h
    split at h
    · simp at h
    rename_i call returns lowered
    simp only [value_bind] at h
    split at h
    · simp at h
    rename_i list matched
    exact .inl ⟨callee, args, call, returns, list, lowered, matched, List.mem_singleton.1 h⟩
  · split at h
    · exact .inr h
    · exact absurd h List.not_mem_nil

/-! ### Calls, input and output -/

/-- A scalar is written. -/
theorem value_lowerWrite {args : List Expr} :
    (lowerWrite t s args line).value = some n ↔ ∃ arg value, args = [arg] ∧
      (lowerValue t s arg).value = some value ∧ value.ty.isScalar = true ∧
      n = .statement .write [value] := by
  constructor
  · intro h
    unfold lowerWrite at h
    split at h
    · obtain ⟨value, lowered, h⟩ := value_continueWith.1 h
      obtain ⟨scalar, node⟩ := value_ite_reject.1 h
      exact ⟨_, value, rfl, lowered, scalar, (Option.some.inj node).symm⟩
    · cases h
  · rintro ⟨arg, value, rfl, lowered, scalar, rfl⟩
    simp only [lowerWrite, value_bind, lowered, continueWith, if_pos scalar, value_pure]

/-- What is read goes to a target. -/
theorem value_lowerRead {args : List Expr} :
    (lowerRead t s args line).value = some n ↔ ∃ arg target place, args = [arg] ∧
      arg.target? = some target ∧
      (lowerTarget t s target).value = some place ∧ n = .statement .read [place] := by
  constructor
  · intro h
    unfold lowerRead at h
    split at h
    · split at h
      · rename_i target isTarget
        obtain ⟨place, lowered, node⟩ := value_continueWith.1 h
        exact ⟨_, target, place, rfl, isTarget, lowered, (Option.some.inj node).symm⟩
      · cases h
    · cases h
  · rintro ⟨arg, target, place, rfl, isTarget, lowered, rfl⟩
    simp only [lowerRead, isTarget, value_bind, lowered, continueWith, value_pure]

/-- Input and output are meant only where no function has the name. -/
theorem lowerCallStmt_eq_some {callee : Ident} {args : List Expr}
    (h : (lowerCallStmt t s callee args line).value = some n) :
    (t.functions.find? callee.name = none ∧ callee.name = "write" ∧
      (lowerWrite t s args line).value = some n) ∨
      (t.functions.find? callee.name = none ∧ callee.name = "read" ∧
        (lowerRead t s args line).value = some n) ∨
      (lowerCall t callee (lowerValues t s args).value line).value = some n := by
  simp only [lowerCallStmt, Bool.and_eq_true, Bool.not_eq_true', Option.isSome_eq_false_iff,
    Option.isNone_iff_eq_none, beq_iff_eq] at h
  split at h
  · rename_i write
    exact .inl ⟨write.1, write.2, h⟩
  · split at h
    · rename_i read
      exact .inr (.inl ⟨read.1, read.2, h⟩)
    · exact .inr (.inr h)

/-! ### Return -/

/-- Values that match are all there, and each is stored as its result. -/
theorem matchReturns_eq_some {values : List (Option Node)} {results : List Ty} {nodes : List Node}
    (same : results.length = values.length)
    (h : (matchReturns line values results).value = some nodes) :
    List.Forall₂ (fun pair m => ∃ n, pair.1 = some n ∧
      (assignTo pair.2 n "return" line).value = some m)
      (values.zip results) nodes := by
  induction values generalizing results nodes with
  | nil =>
    obtain rfl := Option.some.inj h
    exact .nil
  | cons value? values ih =>
    cases results with
    | nil => simp at same
    | cons result results =>
      simp only [matchReturns, value_bind, value_pure, Option.bind_eq_bind, Option.bind_eq_some_iff,
        Option.some.injEq, value_continueWith] at h
      obtain ⟨m, ⟨n, rfl, assigned⟩, rest, matched, rfl⟩ := h
      exact .cons ⟨n, rfl, assigned⟩ (ih (by simpa using same) matched)

/-- A function returns as many values as it has results, and each is stored as its result. -/
theorem lowerReturn_eq_some {values : List Expr}
    (h : (lowerReturn t s values line).value = some n) :
    ∃ i f children, s = .function i ∧ t.functions.get? i = some f ∧
      f.returns.length = values.length ∧
      n = .statement .ret children ∧
      List.Forall₂ (fun pair m => ∃ n, (lowerValue t s pair.1).value = some n ∧
        (assignTo pair.2 n "return" line).value = some m) (values.zip f.returns) children := by
  unfold lowerReturn at h
  split at h
  · cases h
  rename_i i
  obtain ⟨f, entry, h⟩ := value_continueWith.1 h
  obtain ⟨count, h⟩ := value_ite_reject.1 h
  obtain ⟨children, matched, node⟩ := Option.map_eq_some_iff.1 h
  rw [value_lowerValues] at matched
  have each := matchReturns_eq_some (by rw [List.length_map, count]) matched
  rw [List.zip_map_left] at each
  exact ⟨i, f, children, rfl, entry, count, node.symm, List.forall₂_map_left_iff.1 each⟩

end MiniGo.Analysis
