import MiniGo.Proofs.Represented.Stmt

/-!
# Values in place of a type

Where an expression stands in a larger piece of the program, the analysis takes it in place of a
type: that of the operation that it is an operand of, of the variable that it is stored into, or of
the result that it is returned as.

* `Node.takenAs`: the node of a value in place of a type.
* `TakenAs`: the places where the analysis takes an expression.
* `TakenAs.node`: in each of these places, the node is the one that the expression has alone,
  widened for a float.
* `Expr.isComputed`: whether a value is the result of an operator.
-/

namespace MiniGo

open Analysis Report

variable {t : Tables} {s : Scope} {operator : String} {line : Nat} {ty : Ty} {e : Expr}
  {n m parent : Node}

/-- The node of a value in place of a type. For a float it is widened. -/
def Node.takenAs (n : Node) (ty : Ty) : Node := if ty = .float then n.widen else n

/-- The analysis takes an expression in place of a type. Its node is a child of another node. -/
inductive TakenAs (t : Tables) (s : Scope) (ty : Ty) (e : Expr) : Node → Node → Prop
  | left {op : BinaryOp} {line : Nat} {other : Expr} {m r : Node} (plain : op.isLogical = false)
      (lowered : (lowerExpr t s (.binary op line e other)).value = some (.mk (.op op) ty [m, r])) :
      TakenAs t s ty e (.mk (.op op) ty [m, r]) m
  | right {op : BinaryOp} {line : Nat} {other : Expr} {l m : Node} (plain : op.isLogical = false)
      (lowered : (lowerExpr t s (.binary op line other e)).value = some (.mk (.op op) ty [l, m])) :
      TakenAs t s ty e (.mk (.op op) ty [l, m]) m
  | declared {names : List Ident} {declared : Option Ty} {values : List Expr} {operator : String}
      {line i : Nat} {nodes : List Node} {t' : Tables} {target m : Node} (scope : t.HasScope s)
      (lowered : (lowerDeclaration s names declared values operator line).run t = ⟨(nodes, t'), []⟩)
      (single : target.kind ≠ .varList) (value : values[i]? = some e)
      (node : nodes[i]? = some (.statement .assign [target, m])) (type : target.ty = ty) :
      TakenAs t s ty e (.statement .assign [target, m]) m
  | assigned {targets : List Target} {values : List Expr} {line i : Nat} {nodes : List Node}
      {target m : Node} (lowered : lowerAssignment t s targets values line = ⟨nodes, []⟩)
      (single : target.kind ≠ .varList) (value : values[i]? = some e)
      (node : nodes[i]? = some (.statement .assign [target, m])) (type : target.ty = ty) :
      TakenAs t s ty e (.statement .assign [target, m]) m
  | returned {f : Function} {values : List Expr} {line i k : Nat} {nodes : List Node} {m : Node}
      (own : s = .function k) (caller : t.functions.get? k = some f)
      (lowered : (lowerReturn t s values line).value = some (.statement .ret nodes))
      (value : values[i]? = some e) (node : nodes[i]? = some m) (result : f.returns[i]? = some ty) :
      TakenAs t s ty e (.statement .ret nodes) m

/-! ### Operands -/

/-- The type of an operation on values is the one in which its operands meet. -/
theorem unify_of_binaryTy? {op : BinaryOp} {left right : Node} (plain : op.isLogical = false)
    (h : binaryTy? op left right = some ty) : Ty.unify left.ty right.ty = some ty := by
  simp only [binaryTy?, plain, Bool.false_eq_true, if_false] at h
  split at h
  · cases h
  · rename_i meet unified
    rw [unified]
    split at h
    · exact (Option.ite_none_right_eq_some.1 h).2
    · exact (Option.ite_none_right_eq_some.1 h).2

/-- The node of an operation on values takes its operands in place of its type. -/
theorem lowerOperation_takenAs {op : BinaryOp} {left right : Node} (plain : op.isLogical = false)
    (h : (lowerOperation op line left right).value = some n) :
    ∃ ty, n = .mk (.op op) ty [left.takenAs ty, right.takenAs ty] := by
  obtain ⟨ty, found, rfl⟩ := value_lowerOperation.1 h
  refine ⟨ty, ?_⟩
  simp only [unify_of_binaryTy? plain found, plain, and_true, Option.some.injEq, Node.takenAs]
  split <;> rfl

theorem lowerExpr_operation {op : BinaryOp} {left right : Expr} (plain : op.isLogical = false)
    (h : (lowerExpr t s (.binary op line left right)).value = some n) :
    ∃ ty l r, (lowerValue t s left).value = some l ∧ (lowerValue t s right).value = some r ∧
      n = .mk (.op op) ty [l.takenAs ty, r.takenAs ty] := by
  obtain ⟨l, r, hl, hr, values, h⟩ := value_lowerExpr_binary.1 h
  obtain ⟨valueLeft, valueRight⟩ := values plain
  obtain ⟨ty, rfl⟩ := lowerOperation_takenAs plain h
  exact ⟨ty, l, r, value_lowerValue.2 ⟨hl, valueLeft⟩, value_lowerValue.2 ⟨hr, valueRight⟩, rfl⟩

/-! ### Stored values -/

/-- An assignment of a value, which is taken in place of the type of the target. -/
def Node.StoredBy (n assignment : Node) : Prop :=
  ∃ target, assignment = .statement .assign [target, n.takenAs target.ty]

theorem eq_takenAs_of_assignTo (h : (assignTo ty n operator line).value = some m) :
    m = n.takenAs ty :=
  (value_assignTo.1 h).2

theorem declareInitialized_storedBy {declared : Option Ty} {name : Ident} (scope : t.HasScope s) :
    Clean Tables.Adds t (declareInitialized s declared operator line name (some n))
      fun _ nodes => ∃ assignment, nodes = [assignment] ∧ n.StoredBy assignment := by
  refine .initialized fun {m} _ assigned =>
    (declareVariable_declared scope).imp fun t' v? _ declared => ?_
  obtain ⟨v, rfl, -⟩ := declared
  exact ⟨v, rfl, _, rfl, _, by rw [eq_takenAs_of_assignTo assigned]; rfl⟩

theorem declarePairs_storedBy {declared : Option Ty} (names : List Ident) {P : Expr → Node → Prop}
    {es : List Expr} {values : List Node} (scope : t.HasScope s) (same : names.length = es.length)
    (each : List.Forall₂ P es values) :
    Clean Tables.Adds t (declarePairs s declared operator line names (values.map some))
      fun _ nodes => List.Forall₂ (fun e a => ∃ n, P e n ∧ n.StoredBy a) es nodes := by
  induction names generalizing t es values with
  | nil =>
    obtain rfl := List.length_eq_zero_iff.1 same.symm
    exact .pure .nil
  | cons name names ih =>
    cases each with
    | nil => simp at same
    | cons first each =>
      refine (declareInitialized_storedBy scope).bind fun t' nodes adds stored => ?_
      obtain ⟨assignment, rfl, stored⟩ := stored
      refine (ih (scope.mono adds.toExtends) (by simpa using same) each).bind fun _ _ _ rest =>
        .pure ?_
      exact .cons ⟨_, first, stored⟩ rest

/-- The assignments of a declaration, unless a call gives the values of all names. -/
theorem lowerDeclaration_storedBy {names : List Ident} {declared : Option Ty} {values : List Expr}
    (scope : t.HasScope s) :
    Clean Tables.Adds t (lowerDeclaration s names declared values operator line) fun _ nodes =>
      (∃ targets call, nodes = [resultAssignment targets call]) ∨
        List.Forall₂ (fun e a => ∃ n, (lowerValue t s e).value = some n ∧
          n.StoredBy a) values nodes := by
  refine .declaration (fun {callee args line' call returns} _ _ lowered => ?_)
    fun {nodes} same each => ?_
  · obtain ⟨-, -, count⟩ := value_lowerResultCall.1 lowered
    refine (declareResults_declared names returns scope count).imp fun t' targets? _ each => ?_
    obtain ⟨targets, rfl, -⟩ := each
    exact ⟨targets, rfl, .inl ⟨_, _, rfl⟩⟩
  · exact (declarePairs_storedBy names scope same each).imp fun _ assignments _ stored =>
      .inr stored

theorem lowerAssignment_storedBy {targets : List Target} {values : List Expr}
    (noErrors : (lowerAssignment t s targets values line).errors = []) :
    (∃ list call, (lowerAssignment t s targets values line).value = [resultAssignment list call]) ∨
      List.Forall₂ (fun e a => ∃ n, (lowerValue t s e).value = some n ∧ n.StoredBy a) values
        (lowerAssignment t s targets values line).value := by
  rcases lowerAssignment_of_noErrors noErrors with
    ⟨callee, args, line', call, returns, places, -, -, -, -, node⟩ | ⟨same, each⟩
  · exact .inl ⟨_, _, node⟩
  · refine .inr (forall₂_of_zip_right same (each.imp ?_))
    rintro ⟨target, e⟩ a ⟨place, n, m, -, lowered, assigned, rfl⟩
    exact ⟨n, lowered, place, by rw [eq_takenAs_of_assignTo assigned]⟩

/-! ### Returned values -/

theorem lowerReturn_takenAs {f : Function} {values : List Expr} {k : Nat} {nodes : List Node}
    (caller : t.functions.get? k = some f)
    (h : (lowerReturn t (.function k) values line).value = some (.statement .ret nodes)) :
    List.Forall₂ (fun pair m => ∃ n, (lowerValue t (.function k) pair.1).value = some n ∧
      m = n.takenAs pair.2)
      (values.zip f.returns) nodes := by
  obtain ⟨i, g, children, own, entry, -, same, each⟩ := lowerReturn_eq_some h
  cases own
  cases same
  obtain rfl : f = g := Option.some.inj (caller.symm.trans entry)
  refine each.imp ?_
  rintro ⟨e, ty⟩ m ⟨n, lowered, assigned⟩
  exact ⟨n, lowered, eq_takenAs_of_assignTo assigned⟩

/-! ### All places -/

theorem rel_of_forall₂ {α β : Type} {R : α → β → Prop} {as : List α} {bs : List β}
    (h : List.Forall₂ R as bs) {i : Nat} {a : α} {b : β} (ha : as[i]? = some a)
    (hb : bs[i]? = some b) : R a b := by
  obtain ⟨b', found, rel⟩ := forall₂_getElem? h ha
  rwa [Option.some.inj (hb.symm.trans found)]

/-- What is stored is not the results of a call, since these have a list of targets. -/
theorem ne_resultAssignment {list : List Node} {call target : Node} {i : Nat}
    (single : target.kind ≠ .varList)
    (node : [resultAssignment list call][i]? = some (.statement .assign [target, m])) : False := by
  rw [List.getElem?_singleton, Option.ite_none_right_eq_some] at node
  injection node.2 with same
  injection same with _ _ children
  injection children with first
  exact single (by rw [← first]; rfl)

theorem Node.StoredBy.value {target : Node} (h : n.StoredBy (.statement .assign [target, m]))
    (type : target.ty = ty) :
    m = n.takenAs ty := by
  obtain ⟨target', same⟩ := h
  injection same with _ _ children
  injection children with first rest
  injection rest with second
  rw [second, ← first, type]

/-- In each of the places, the node is the one that the expression has alone, taken in place of the
type. -/
theorem TakenAs.node (h : TakenAs t s ty e parent m) :
    ∃ n, (lowerValue t s e).value = some n ∧ m = n.takenAs ty := by
  -- In each position the type of the value is settled when its node is put into its parent.
  cases h with
  | left plain lowered =>
    obtain ⟨ty', l, r, hl, -, node⟩ := lowerExpr_operation plain lowered
    injection node with _ same children
    injection children with first
    exact ⟨l, hl, same ▸ first⟩
  | right plain lowered =>
    obtain ⟨ty', l, r, -, hr, node⟩ := lowerExpr_operation plain lowered
    injection node with _ same children
    injection children with _ rest
    injection rest with second
    exact ⟨r, hr, same ▸ second⟩
  | declared scope lowered single value node type =>
    have stored := (lowerDeclaration_storedBy scope (congrArg Report.errors lowered)).2
    rw [lowered] at stored
    rcases stored with ⟨list, call, rfl⟩ | each
    · exact (ne_resultAssignment single node).elim
    · obtain ⟨n, found, stored⟩ := rel_of_forall₂ each value node
      exact ⟨n, found, stored.value type⟩
  | assigned lowered single value node type =>
    have stored := lowerAssignment_storedBy (congrArg Report.errors lowered)
    rw [lowered] at stored
    rcases stored with ⟨list, call, rfl⟩ | each
    · exact (ne_resultAssignment single node).elim
    · obtain ⟨n, found, stored⟩ := rel_of_forall₂ each value node
      exact ⟨n, found, stored.value type⟩
  | returned own caller lowered value node result =>
    subst own
    have pair : (List.zip _ _)[_]? = some (e, ty) := List.getElem?_zip_eq_some.2 ⟨value, result⟩
    exact rel_of_forall₂ (lowerReturn_takenAs caller lowered) pair node

/-! ### Computed values -/

mutual

/-- Whether the value of an expression is the result of an operator. A minus is one unless it
belongs to a literal. -/
def Expr.isComputed : Expr → Bool
  | .binary .. => true
  | .operand sign primary _ =>
    (negatedLiteral? sign primary).isNone && (sign == some .minus || primary.isComputed)
termination_by structural e => e

/-- Whether the value of an operand is the result of an operator. -/
def Primary.isComputed : Primary → Bool
  | .paren inner => inner.isComputed
  | _ => false
termination_by structural primary => primary

end

theorem Literal.Becomes.not_op {lit : Literal} {negate : Bool} (h : lit.Becomes negate n) :
    ¬ ∃ o, n.kind = .op o := by
  rintro ⟨o, same⟩
  obtain ⟨-, kind⟩ := h
  rw [same] at kind
  split at kind
  · obtain ⟨i, -, wrong⟩ := kind
    cases wrong
  · obtain ⟨x, -, wrong⟩ := kind
    cases wrong
  · cases kind
  · cases kind

mutual

/-- The node of a computed value is that of an operator. -/
theorem Expr.Becomes.isComputed : ∀ {e : Expr} {n : Node}, e.Becomes t s n →
    (e.isComputed = true ↔ ∃ o, n.kind = .op o)
  | .binary op line left right, n, h => ⟨fun _ => ⟨op, h.1⟩, fun _ => rfl⟩
  | .operand sign primary line, n, h => by
    unfold Expr.Becomes at h
    unfold Expr.isComputed
    split at h
    · rename_i lit negated
      simp [negated, h.not_op]
    · rename_i other
      rw [other]
      split at h
      · simpa using Primary.Becomes.isComputed h
      · simpa using Primary.Becomes.isComputed h
      · exact ⟨fun _ => ⟨.sub, h.1⟩, fun _ => rfl⟩

theorem Primary.Becomes.isComputed : ∀ {primary : Primary} {n : Node}, primary.Becomes t s n →
    (primary.isComputed = true ↔ ∃ o, n.kind = .op o)
  | .literal lit, n, h => ⟨nofun, fun computed => (Literal.Becomes.not_op h computed).elim⟩
  | .name id, n, ⟨_, v, kind, _⟩ => ⟨nofun, fun ⟨o, same⟩ => by rw [kind] at same; cases same⟩
  | .call callee args, n, ⟨i, kind, _⟩ => ⟨nofun, fun ⟨o, same⟩ => by rw [kind] at same; cases same⟩
  | .index array index, n, ⟨_, v, k, kind, _⟩ =>
    ⟨nofun, fun ⟨o, same⟩ => by rw [kind] at same; cases same⟩
  | .paren inner, n, h => Expr.Becomes.isComputed (e := inner) h

end

end MiniGo
