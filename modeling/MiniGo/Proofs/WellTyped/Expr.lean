import MiniGo.Proofs.WellTyped.Basic
import MiniGo.Proofs.WellTyped.Origins

/-!
# Typing gives well-typed expressions

`Lowered` says what the node of an expression can be: a value, the name of an array, or a condition.
The position of the expression then rules out all but one of them. The main statement is
`lowerExpr_lowered`; the other lemmas put it into the positions: `lowerValue_operand`,
`lowerCondition_typed`, `lowerTarget_typed` and `lowerCall_typed`.

Nothing is assumed about errors: whatever node comes out is well typed.
-/

namespace MiniGo

variable {t : Tables} {s : Scope} {n left right : Node} {ty : Ty}

/-! ### Types -/

theorem Ty.isScalar_of_isNumeric (h : ty.isNumeric = true) : ty.isScalar = true := by
  cases ty <;> simp_all [Ty.isNumeric, Ty.isScalar, Ty.isComparable]

/-- What takes an int in place of an int takes it in place of a float. -/
theorem Ty.Takes.float {value : Ty} (h : Ty.int.Takes value) : Ty.float.Takes value := by
  rcases h with rfl | ⟨h, -⟩
  · exact .inr ⟨rfl, rfl⟩
  · cases h

theorem Ty.assignable_iff {value : Ty} : ty.assignable value = true ↔ ty.Takes value := by
  simp only [Ty.assignable, Ty.Takes, Bool.or_eq_true, Bool.and_eq_true, beq_iff_eq]
  rw [eq_comm]

/-- Two types meet in a type if both are that type, or if it is float and both are numbers. -/
theorem Ty.unify_eq_some {l r : Ty} (h : Ty.unify l r = some ty) :
    (l = ty ∧ r = ty) ∨ (ty = .float ∧ l.isNumeric = true ∧ r.isNumeric = true) := by
  unfold Ty.unify at h
  split at h
  · rename_i eq
    obtain rfl := Option.some.inj h
    exact .inl ⟨rfl, eq.symm⟩
  · split at h
    · rename_i numbers
      obtain rfl := Option.some.inj h
      exact .inr ⟨rfl, by simpa using numbers⟩
    · cases h

theorem Node.StoresInto.takes (h : n.StoresInto ty) : ty.Takes n.ty := by
  rcases h with h | ⟨hty, hn, -⟩
  · exact .inl h
  · exact .inr ⟨hty, hn⟩

/-! ### What a node can be -/

/-- The code of a value does not jump. -/
theorem ValueTyped.isJumpOnly (h : ValueTyped t s n) : n.isJumpOnly = false := by
  cases h with
  | @arithmetic o _ _ _ family =>
    cases o <;> simp_all [Node.isJumpOnly, NodeKind.isJumpOnly, BinaryOp.isArithmetic,
      BinaryOp.isComparison, BinaryOp.isLogical]
  | _ => rfl

/-- The node of an operand: a value, or the name of an array. -/
inductive Operand (t : Tables) (s : Scope) : Node → Prop
  | value {n : Node} (typed : ValueTyped t s n) : Operand t s n
  | array {v : VarRef} : Operand t s (.mk (.varUse v) .array [])

/-- The node of an expression: an operand or a condition. -/
def Lowered (t : Tables) (s : Scope) (n : Node) : Prop := Operand t s n ∨ ConditionTyped t s n

/-- An operand with a scalar type is a value. -/
theorem Operand.typed (h : Operand t s n) (scalar : n.ty.isScalar = true) : ValueTyped t s n := by
  cases h with
  | value typed => exact typed
  | array => simp [Ty.isScalar, Ty.isComparable] at scalar

theorem Operand.mono {t' : Tables} (h : Operand t s n) (le : t.Extends t') :
    Operand t' s n := by
  cases h with
  | value typed => exact .value (typed.mono le)
  | array => exact .array

/-- Two operands that meet in a scalar type are values. -/
theorem Operand.typed_of_unify (hl : Operand t s left) (hr : Operand t s right)
    (meet : Ty.unify left.ty right.ty = some ty) (scalar : ty.isScalar = true) :
    ValueTyped t s left ∧ ValueTyped t s right := by
  rcases Ty.unify_eq_some meet with ⟨l, r⟩ | ⟨-, l, r⟩
  · exact ⟨hl.typed (l ▸ scalar), hr.typed (r ▸ scalar)⟩
  · exact ⟨hl.typed (Ty.isScalar_of_isNumeric l), hr.typed (Ty.isScalar_of_isNumeric r)⟩

/-- A node that does not jump is an operand. -/
theorem Lowered.operand (h : Lowered t s n) (value : n.isJumpOnly = false) : Operand t s n := by
  rcases h with h | h
  · exact h
  · cases h with
    | value typed => exact .value typed
    | comparison family => simp_all [Node.isJumpOnly, NodeKind.isJumpOnly]
    | logical family => simp_all [Node.isJumpOnly, NodeKind.isJumpOnly]

/-- A node that passes for a condition is one. -/
theorem Lowered.condition (h : Lowered t s n) (condition : n.isCondition = true) :
    ConditionTyped t s n := by
  rcases h with h | h
  · cases h with
    | value typed =>
      refine .value typed ?_
      simpa [Node.isCondition, typed.isJumpOnly] using condition
    | array => simp [Node.isCondition, Node.isJumpOnly, NodeKind.isJumpOnly] at condition
  · exact h

/-! ### Widening -/

/-- Widening leaves what is no int, and what is stored as an int. -/
theorem Node.widen_eq_self (h : n.ty ≠ .int ∨ n.isReference = true) : n.widen = n := by
  obtain ⟨kind, ty, children⟩ := n
  simp only [Node.widen]
  split
  · rename_i int
    rcases h with h | h
    · exact absurd int.1 h
    · simp [Node.isReference, int.2] at h
  · rfl

/-- A widened value is a value. -/
theorem ValueTyped.widen (h : ValueTyped t s n) : ValueTyped t s n.widen := by
  cases h with
  | int fits number =>
    simp only [Node.widen]
    split
    · exact .int fits rfl
    · exact .int fits number
  | arithmetic family computes l r takesLeft takesRight =>
    simp only [Node.widen]
    split
    · rename_i int
      obtain ⟨rfl, -⟩ := int
      exact .arithmetic family (.inl rfl) l r (Ty.Takes.float takesLeft) (Ty.Takes.float takesRight)
    · exact .arithmetic family computes l r takesLeft takesRight
  | float => exact .float
  | bool => exact .bool
  | string => exact .string
  | name sees entry scalar =>
    rw [Node.widen_eq_self (.inr rfl)]
    exact .name sees entry scalar
  | element sees entry array bound =>
    rw [Node.widen_eq_self (.inr rfl)]
    exact .element sees entry array bound
  | call callee args types result =>
    rw [Node.widen_eq_self (.inr rfl)]
    exact .call callee args types result

/-- Widening gives a float, or leaves the int of a reference. -/
theorem Node.widen_storesInto (number : n.ty.isNumeric = true) : n.widen.StoresInto .float := by
  obtain ⟨kind, ty, children⟩ := n
  simp only [Node.widen]
  split
  · exact .inl rfl
  · rename_i h
    cases ty with
    | int => exact .inr ⟨rfl, rfl, by simpa [Node.isReference] using h⟩
    | float => exact .inl rfl
    | _ => simp [Ty.isNumeric] at number

/-- The operands of an operation after widening, each of a type that the operation takes. -/
theorem takes_of_unify (meet : Ty.unify left.ty right.ty = some ty) :
    let wide := Ty.unify left.ty right.ty = some .float
    ty.Takes (if wide then left.widen else left).ty ∧
      ty.Takes (if wide then right.widen else right).ty := by
  by_cases wide : Ty.unify left.ty right.ty = some .float
  · obtain rfl : ty = .float := Option.some.inj (meet.symm.trans wide)
    have numbers : left.ty.isNumeric = true ∧ right.ty.isNumeric = true := by
      rcases Ty.unify_eq_some meet with ⟨l, r⟩ | ⟨-, l, r⟩
      · exact ⟨l ▸ rfl, r ▸ rfl⟩
      · exact ⟨l, r⟩
    simp only [wide, if_true]
    exact ⟨(Node.widen_storesInto numbers.1).takes, (Node.widen_storesInto numbers.2).takes⟩
  · simp only [wide, if_false]
    rcases Ty.unify_eq_some meet with ⟨l, r⟩ | ⟨rfl, -, -⟩
    · exact ⟨.inl l, .inl r⟩
    · exact absurd meet wide

/-! ### Names, elements and calls -/

/-- A place is a value. -/
theorem PlaceTyped.value (h : PlaceTyped t s n) : ValueTyped t s n := by
  cases h with
  | name sees entry scalar => exact .name sees entry scalar
  | element sees entry array bound => exact .element sees entry array bound

/-- A call that has a value calls a function with one result. -/
theorem CallTyped.value {i : Nat} {f : Function} {children : List Node}
    (call : CallTyped t s i f children) (hasValue : f.valueTy ≠ .noType) :
    ValueTyped t s (.mk (.call i) f.valueTy children) := by
  refine .call call.callee call.typed call.types ?_
  simp only [Function.valueTy] at hasValue ⊢
  split at hasValue
  · rename_i ty returns
    rw [returns]
  · exact absurd rfl hasValue

/-- A name means a variable of the scope or a global one. -/
theorem Tables.sees_of_resolve? {name : String} {v : VarRef} (h : t.resolve? name s = some v) :
    s.Sees v := by
  simp only [Tables.resolve?] at h
  split at h
  · obtain rfl := Option.some.inj h
    exact .inr rfl
  · obtain ⟨slot, -, rfl⟩ := Option.map_eq_some_iff.1 h
    exact .inl rfl

/-- The name of a variable is an operand. -/
theorem Tables.WellFormed.operand (wf : t.WellFormed) {v : VarRef} {x : Variable}
    (sees : s.Sees v) (entry : t.var? v = some x) : Operand t s (.mk (.varUse v) x.ty []) := by
  cases wf.var? entry with
  | scalar scalar => exact .value (.name sees entry scalar)
  | array => exact .array

/-- The node of a zero is a value. -/
theorem zeroNode_typed : ValueTyped t s (Analysis.zeroNode ty) := by
  unfold Analysis.zeroNode
  split
  · exact .float
  · exact .int (by decide) rfl

theorem zeroNode_ty (number : ty.isNumeric = true) : (Analysis.zeroNode ty).ty = ty := by
  unfold Analysis.zeroNode
  cases ty <;> simp_all [Ty.isNumeric, Node.leaf]

namespace Analysis

/-! ### Steps on typed parts -/

/-- A value that may be assigned is stored into its target, after widening for a float. -/
theorem assignTo_typed {operator : String} {line : Nat} {n' : Node} (operand : Operand t s n)
    (scalar : ty.isScalar = true) (h : (assignTo ty n operator line).value = some n') :
    ValueTyped t s n' ∧ n'.StoresInto ty := by
  obtain ⟨assignable, rfl⟩ := value_assignTo.1 h
  rcases Ty.assignable_iff.1 assignable with eq | ⟨rfl, int⟩
  · have typed := operand.typed (eq ▸ scalar)
    split
    · rename_i float
      exact ⟨typed.widen, float ▸ Node.widen_storesInto (by rw [eq, float]; rfl)⟩
    · exact ⟨typed, .inl eq⟩
  · have typed := operand.typed (int ▸ rfl)
    simp only [if_true]
    exact ⟨typed.widen, Node.widen_storesInto (int ▸ rfl)⟩

/-- The node of a literal is a value. -/
theorem lowerLiteral_typed {lit : Literal} {negate : Bool}
    (h : (lowerLiteral lit negate).value = some n) : ValueTyped t s n := by
  have node := lowerLiteral_eq_some h
  split at node
  · obtain ⟨i, -, fits, rfl⟩ := node
    exact .int fits rfl
  · obtain ⟨x, -, rfl⟩ := node
    exact .float
  · subst node
    exact .string
  · subst node
    exact .bool

/-- The node of a name is a variable that the scope sees. -/
theorem lowerVariable_entry {name : Ident} (h : (lowerVariable t s name).value = some n) :
    ∃ v x, s.Sees v ∧ t.var? v = some x ∧ n = .mk (.varUse v) x.ty [] := by
  obtain ⟨v, x, resolved, entry, rfl⟩ := value_lowerVariable.1 h
  exact ⟨v, x, Tables.sees_of_resolve? resolved, entry, rfl⟩

/-- The node of an element is an array that the scope sees, with an offset within its length. -/
theorem lowerIndex_typed {array : Ident} {index : Expr}
    (h : (lowerIndex t s array index).value = some n) : PlaceTyped t s n := by
  obtain ⟨v, x, shape, i, resolved, entry, isArray, constant, bounds, rfl⟩ := value_lowerIndex.1 h
  exact .element (Tables.sees_of_resolve? resolved) entry isArray (by omega)

/-! ### Operations -/

/-- A logical operation on conditions is a condition. -/
theorem lowerOperation_logical {op : BinaryOp} {line : Nat} (logical : op.isLogical = true)
    (hl : Lowered t s left) (hr : Lowered t s right)
    (h : (lowerOperation op line left right).value = some n) : ConditionTyped t s n := by
  obtain ⟨ty, conditions, rfl⟩ := value_lowerOperation.1 h
  simp only [binaryTy?, logical, if_true, Option.ite_none_right_eq_some,
    Bool.and_eq_true] at conditions
  obtain ⟨both, type⟩ := conditions
  obtain rfl := Option.some.inj type
  simp only [logical, Bool.true_eq_false, and_false, if_false]
  exact .logical logical (hl.condition both.1) (hr.condition both.2)

/-- An operation on values is a value if it is arithmetic, and a condition if it is a comparison. -/
theorem lowerOperation_lowered {op : BinaryOp} {line : Nat} (notLogical : op.isLogical = false)
    (hl : Operand t s left) (hr : Operand t s right)
    (h : (lowerOperation op line left right).value = some n) : Lowered t s n := by
  obtain ⟨ty', computed, hn⟩ := value_lowerOperation.1 h
  simp only [notLogical, and_true] at hn
  simp only [binaryTy?, notLogical, Bool.false_eq_true, if_false] at computed
  split at computed
  · cases computed
  rename_i meet unified
  -- The children are those of the tree, or the widened ones: in both cases they are what is typed
  -- below.
  have node : n = .mk (.op op) ty'
      [if Ty.unify left.ty right.ty = some .float then left.widen else left,
        if Ty.unify left.ty right.ty = some .float then right.widen else right] := by
    rw [hn]
    split <;> rfl
  have values (scalar : meet.isScalar = true) :
      ValueTyped t s (if Ty.unify left.ty right.ty = some .float then left.widen else left) ∧
        ValueTyped t s (if Ty.unify left.ty right.ty = some .float then right.widen
          else right) := by
    obtain ⟨l, r⟩ := hl.typed_of_unify hr unified scalar
    split
    · exact ⟨l.widen, r.widen⟩
    · exact ⟨l, r⟩
  obtain ⟨takesLeft, takesRight⟩ := takes_of_unify unified
  rw [node]
  split at computed
  · rename_i comparison
    split at computed
    · rename_i comparable
      obtain rfl := Option.some.inj computed
      obtain ⟨l, r⟩ := values comparable
      exact .inr (.comparison comparison comparable l r takesLeft takesRight)
    · cases computed
  · rename_i notComparison
    split at computed
    · rename_i arithmetic
      obtain rfl := Option.some.inj computed
      have family : op.isArithmetic = true := by
        cases op <;> simp_all [BinaryOp.isArithmetic, BinaryOp.isComparison, BinaryOp.isLogical]
      have computes : op.ComputesIn meet := by
        simpa [BinaryOp.ComputesIn] using arithmetic
      have scalar : meet.isScalar = true := by
        rcases computes with number | ⟨-, rfl⟩
        · exact Ty.isScalar_of_isNumeric number
        · rfl
      obtain ⟨l, r⟩ := values scalar
      exact .inl (.value (.arithmetic family computes l r takesLeft takesRight))
    · cases computed

/-- A number with a sign is a value. -/
theorem lowerSigned_typed {sign : Sign} {line : Nat} (lowered : Lowered t s left)
    (h : (lowerSigned sign line left).value = some n) : ValueTyped t s n := by
  obtain ⟨value, number, node⟩ := value_lowerSigned.1 h
  have typed := (lowered.operand value).typed (Ty.isScalar_of_isNumeric number)
  subst node
  cases sign with
  | plus => exact typed
  | minus =>
    exact .arithmetic rfl (.inl number) zeroNode_typed typed (.inl (zeroNode_ty number)) (.inl rfl)

/-! ### Calls -/

/-- The node of a call calls a function with arguments of the types of its parameters. -/
theorem lowerCall_typed {callee : Ident} {args : List (Option Node)} {line : Nat}
    (wf : t.WellFormed) (operands : ∀ n, some n ∈ args → Operand t s n)
    (h : (lowerCall t callee args line).value = some n) :
    ∃ i f children, n = .mk (.call i) f.valueTy children ∧ CallTyped t s i f children := by
  obtain ⟨i, f, children, -, entry, rfl, types, rfl⟩ := lowerCall_eq_some h
  refine ⟨i, f, children, rfl, entry, fun n mem => ?_, types⟩
  have param : n.ty ∈ f.params := types ▸ List.mem_map_of_mem mem
  exact (operands n (List.mem_map_of_mem mem)).typed ((wf.get? entry).params _ param)

/-! ### Expressions -/

mutual

/-- The node of an expression is a value, the name of an array, or a condition. -/
theorem lowerExpr_lowered (wf : t.WellFormed) :
    ∀ (e : Expr) {n : Node}, (lowerExpr t s e).value = some n → Lowered t s n
  | .binary op line left right, n, h => by
    have ihl := @lowerExpr_lowered wf left
    have ihr := @lowerExpr_lowered wf right
    obtain ⟨l, r, hl, hr, values, hn⟩ := value_lowerExpr_binary.1 h
    cases logical : op.isLogical with
    | true => exact .inr (lowerOperation_logical logical (ihl hl) (ihr hr) hn)
    | false =>
      obtain ⟨valueLeft, valueRight⟩ := values logical
      exact lowerOperation_lowered logical ((ihl hl).operand valueLeft)
        ((ihr hr).operand valueRight) hn
  | .operand sign primary line, n, h => by
    have ih := @lowerPrimary_lowered wf line primary
    rcases lowerExpr_operand_eq_some h with ⟨lit, -, literal⟩ | ⟨-, m, lowered, node⟩
    · exact .inl (.value (lowerLiteral_typed literal))
    · cases sign with
      | none => exact node ▸ ih lowered
      | some sign => exact .inl (.value (lowerSigned_typed (ih lowered) node))

/-- The node of an operand without its sign is a value, the name of an array, or a condition. -/
theorem lowerPrimary_lowered (wf : t.WellFormed) (line : Nat) :
    ∀ (primary : Primary) {n : Node}, (lowerPrimary t s line primary).value = some n →
      Lowered t s n
  | .literal lit, n, h => .inl (.value (lowerLiteral_typed h))
  | .name id, n, h => by
    obtain ⟨v, x, sees, entry, rfl⟩ := lowerVariable_entry h
    exact .inl (wf.operand sees entry)
  | .call callee args, n, h => by
    have ih := lowerValues_operands wf args
    obtain ⟨call, hasValue⟩ := value_lowerPrimary_call.1 h
    obtain ⟨i, f, children, rfl, typed⟩ := lowerCall_typed wf ih call
    exact .inl (.value (typed.value hasValue))
  | .index array index, n, h => .inl (.value (lowerIndex_typed h).value)
  | .paren inner, n, h => lowerExpr_lowered wf inner h

/-- The nodes of arguments are operands. -/
theorem lowerValues_operands (wf : t.WellFormed) :
    ∀ (es : List Expr) (n : Node), some n ∈ (lowerValues t s es).value → Operand t s n
  | [], n, h => by simp [lowerValues] at h
  | e :: es, n, h => by
    have ih := @lowerExpr_lowered wf e
    have rest := lowerValues_operands wf es n
    simp only [lowerValues, Report.value_bind, Report.value_pure, List.mem_cons] at h
    rcases h with h | h
    · obtain ⟨node, hnode, hn⟩ := value_continueWith.1 h.symm
      obtain ⟨rfl, value⟩ := value_asValue.1 hn
      exact (ih hnode).operand value
    · exact rest h

end

/-- The node of an expression that must have a value is an operand. -/
theorem lowerValue_operand {e : Expr} (wf : t.WellFormed)
    (h : (lowerValue t s e).value = some n) : Operand t s n := by
  obtain ⟨lowered, value⟩ := value_lowerValue.1 h
  exact (lowerExpr_lowered wf e lowered).operand value

/-- The node of an expression that must be a condition is one. -/
theorem lowerCondition_typed {e : Expr} {construct : String} {line : Nat} (wf : t.WellFormed)
    (h : (lowerCondition t s e construct line).value = some n) : ConditionTyped t s n := by
  obtain ⟨lowered, condition⟩ := value_lowerCondition.1 h
  exact (lowerExpr_lowered wf e lowered).condition condition

/-- The node of a target is a place. -/
theorem lowerTarget_typed {target : Target} (h : (lowerTarget t s target).value = some n) :
    PlaceTyped t s n := by
  obtain ⟨lowered, scalar⟩ := value_lowerTarget.1 h
  cases target with
  | name id =>
    obtain ⟨v, x, sees, entry, rfl⟩ := lowerVariable_entry lowered
    exact .name sees entry scalar
  | index array index => exact lowerIndex_typed lowered

end Analysis

end MiniGo
