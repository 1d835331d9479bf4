import MiniGo.Proofs.Represented.Basic
import MiniGo.Proofs.WellTyped.Explained

/-!
# An expression has a node exactly if it has no errors

An expression without a node leaves an error behind, and one with a node leaves none. The node is
that of the expression.

* `Report.Exact`: there is a value exactly if there is no error.
* `lowerExpr_exact`, `lowerValue_exact`, `lowerCondition_exact`, `lowerTarget_exact`,
  `lowerIndex_exact`, `lowerCall_exact`: this holds for expressions of all kinds.
* `lowerExpr_becomes`, `lowerValue_becomes`, `lowerTarget_becomes`: the nodes that they have.
-/

namespace MiniGo

namespace Report

variable {α β : Type}

/-- A value comes without errors. -/
def Flawless (r : Report (Option α)) : Prop := ∀ a, r.value = some a → r.errors = []

/-- There is a value exactly if there is no error. -/
def Exact (r : Report (Option α)) : Prop := r.value.isSome = true ↔ r.errors = []

theorem Exact.intro {r : Report (Option α)} (flawless : Flawless r) (explained : Explained r) :
    Exact r := by
  refine ⟨fun isSome => ?_, explained⟩
  obtain ⟨a, found⟩ := Option.isSome_iff_exists.1 isSome
  exact flawless a found

theorem Flawless.pure {a? : Option α} : Flawless (Pure.pure a?) := fun _ _ => rfl

theorem Flawless.reject {e : SemanticError} : Flawless (.reject e : Report (Option α)) := by
  intro a found
  cases found

/-- A step after a report may rely on the value that comes out in the end. -/
theorem Flawless.bind {r : Report α} {f : α → Report (Option β)}
    (first : ∀ b, (f r.value).value = some b → r.errors = []) (second : Flawless (f r.value)) :
    Flawless (r >>= f) := by
  intro b found
  rw [errors_bind, first b found, second b found, List.append_nil]

theorem Flawless.continueWith {a? : Option α} {f : α → Report (Option β)}
    (h : ∀ a, Flawless (f a)) :
    Flawless (Analysis.continueWith a? f) := by
  cases a? with
  | none => exact .pure
  | some a => exact h a

/-- One flawless step after the other. -/
theorem Flawless.andThen {r : Report (Option α)} {f : α → Report (Option β)} (hr : Flawless r)
    (h : ∀ a, Flawless (f a)) : Flawless (r >>= fun a? => Analysis.continueWith a? f) := by
  refine .bind (fun b found => ?_) (.continueWith h)
  obtain ⟨a, some, -⟩ := Analysis.value_continueWith.1 found
  exact hr a some

theorem Flawless.ite {c : Prop} [Decidable c] {r r' : Report (Option α)} (h : Flawless r)
    (h' : Flawless r') :
    Flawless (if c then r else r') := by
  split
  · exact h
  · exact h'

end Report

open Report

/-- A name that is resolved is that of the variable. -/
theorem Tables.variableNamed_of_resolve? {t : Tables} {name : String} {s : Scope} {v : VarRef}
    (h : t.resolve? name s = some v) : t.VariableNamed s v name := by
  -- The entry at a slot that is found has the name.
  have entry {vars : VarTable} {slot : Nat} (found : vars.find? name = some slot) :
      ∃ x, vars.get? slot = some x ∧ x.name = name := by
    obtain ⟨bound, same, -⟩ := List.findIdx?_eq_some_iff_getElem.1 found
    exact ⟨_, List.getElem?_eq_getElem bound, by simpa using same⟩
  refine ⟨Tables.sees_of_resolve? h, ?_⟩
  unfold Tables.resolve? at h
  dsimp only at h
  split at h
  · rename_i slot own
    cases s with
    | globals => cases own
    | function i =>
      obtain ⟨vars, table, found⟩ := Option.bind_eq_some_iff.1 own
      obtain rfl := Option.some.inj h
      obtain ⟨x, atSlot, same⟩ := entry found
      exact ⟨x, by rw [Tables.var?, table]; exact atSlot, same⟩
  · obtain ⟨slot, found, rfl⟩ := Option.map_eq_some_iff.1 h
    exact entry found

namespace Analysis

variable {t : Tables} {s : Scope} {line : Nat} {n : Node}

/-! ### Values come without errors -/

theorem asValue_flawless (n : Node) : Flawless (asValue line n) := .ite .reject .pure

theorem lowerLiteral_flawless (lit : Literal) (negate : Bool) :
    Flawless (lowerLiteral lit negate) := by
  unfold lowerLiteral
  dsimp only
  split
  · exact .pure
  · exact .reject

theorem lowerOperation_flawless (op : BinaryOp) (left right : Node) :
    Flawless (lowerOperation op line left right) := by
  refine .andThen ?_ fun _ => .pure
  unfold binaryTy
  split
  · exact .pure
  · exact .reject

theorem lowerSigned_flawless (sign : Sign) (n : Node) : Flawless (lowerSigned sign line n) :=
  .andThen (asValue_flawless n) fun _ => .ite .pure .reject

theorem lowerVariable_flawless (name : Ident) : Flawless (lowerVariable t s name) := by
  unfold lowerVariable
  split
  · exact .reject
  · exact .pure

theorem lowerIndex_flawless (array : Ident) (index : Expr) :
    Flawless (lowerIndex t s array index) := by
  unfold lowerIndex
  split
  · exact .reject
  · refine .continueWith fun entry => ?_
    split
    · exact .reject
    · split
      · exact .reject
      · exact .ite .pure .reject

/-- Arguments of the types of the parameters match. -/
theorem matchArguments_map_some {callee : Ident} {position : Nat} (nodes : List Node) :
    matchArguments callee line position (nodes.map some) (nodes.map Node.ty) =
      pure (some nodes) := by
  induction nodes generalizing position with
  | nil => rfl
  | cons n nodes ih =>
    simp only [List.map_cons, matchArguments, continueWith, if_true, ih]
    rfl

theorem lowerCall_flawless {callee : Ident} (args : List (Option Node)) :
    Flawless (lowerCall t callee args line) := by
  intro n h
  obtain ⟨i, f, children, found, entry, rfl, types, -⟩ := lowerCall_eq_some h
  simp only [lowerCall, found, entry, continueWith, ← types, List.length_map, if_true,
    matchArguments_map_some]
  rfl

/-- An operand must have a value, unless its operator is a logical one. -/
theorem operand_flawless {logical : Bool} {r : Report (Option Node)}
    {f : Option Node → Report (Option Node)} (hr : Flawless r) (needed : (f none).value = none)
    (h : ∀ n, Flawless (f (some n))) :
    Flawless (r >>= fun n? => if logical then pure n? >>= f else continueWith n?
      (asValue line) >>= f) := by
  intro b found
  obtain ⟨n?, errors⟩ := r
  cases n? with
  | none =>
    -- Without an operand there is no value in the end.
    have none : (f none).value = some b := by
      cases logical
      · exact found
      · exact found
    rw [needed] at none
    cases none
  | some n =>
    obtain rfl : errors = [] := hr n rfl
    cases logical with
    | true => exact h n b found
    | false =>
      by_cases jumpOnly : n.isJumpOnly = true
      · have none : (f none).value = some b := by
          simpa [asValue, continueWith, jumpOnly, reject] using found
        rw [needed] at none
        cases none
      · have step : continueWith (some n) (asValue line) = pure (some n) := if_neg jumpOnly
        simp only [value_bind, Bool.false_eq_true, if_false, step, pure_bind] at found
        simp only [errors_bind, Bool.false_eq_true, if_false, step, pure_bind, List.nil_append]
        exact h n b found

mutual

theorem lowerExpr_flawless : ∀ e : Expr, Flawless (lowerExpr t s e)
  | .binary op line left right => by
    refine operand_flawless (lowerExpr_flawless left) ?_ fun left' => ?_
    · simp only [value_bind]
      split <;> rfl
    · refine operand_flawless (lowerExpr_flawless right) rfl fun right' => ?_
      exact lowerOperation_flawless op left' right'
  | .operand sign primary line => by
    unfold lowerExpr
    split
    · exact lowerLiteral_flawless _ _
    · have flawless := lowerPrimary_flawless line primary
      cases sign with
      | none => exact .bind (fun b found => flawless b found) .pure
      | some sign => exact .andThen flawless (lowerSigned_flawless sign)

theorem lowerPrimary_flawless (line : Nat) :
    ∀ primary : Primary, Flawless (lowerPrimary t s line primary)
  | .literal lit => lowerLiteral_flawless lit _
  | .name id => lowerVariable_flawless id
  | .call callee args => by
    have values := lowerValues_flawless args
    refine .bind (fun b found => ?_)
      (.andThen (lowerCall_flawless _) fun call => .ite .reject .pure)
    obtain ⟨i, f, children, -, -, all, -, -⟩ :=
      lowerCall_eq_some (value_lowerPrimary_call.1 found).1
    exact values (by rw [all]; simp)
  | .index array index => lowerIndex_flawless array index
  | .paren inner => lowerExpr_flawless inner

/-- Expressions that have all a value come without errors. -/
theorem lowerValues_flawless :
    ∀ es : List Expr, (∀ n? ∈ (lowerValues t s es).value, n?.isSome = true) →
    (lowerValues t s es).errors = []
  | [], _ => rfl
  | e :: es, all => by
    simp only [lowerValues, value_bind, value_pure, List.forall_mem_cons] at all
    obtain ⟨n, first⟩ := Option.isSome_iff_exists.1 all.1
    have flawless : Flawless (lowerExpr t s e >>= fun n? => continueWith n? (asValue e.line)) :=
      .andThen (lowerExpr_flawless e) asValue_flawless
    have noErrors := flawless n first
    rw [errors_bind, List.append_eq_nil_iff] at noErrors
    simp only [lowerValues, errors_bind, errors_pure, noErrors, lowerValues_flawless es all.2,
      List.append_nil]

end

/-! ### Values and errors -/

theorem lowerExpr_exact (e : Expr) : Exact (lowerExpr t s e) :=
  .intro (lowerExpr_flawless e) (lowerExpr_explained e)

theorem lowerValue_exact (e : Expr) : Exact (lowerValue t s e) :=
  .intro (.andThen (lowerExpr_flawless e) asValue_flawless) (lowerValue_explained e)

theorem lowerCondition_exact (e : Expr) (construct : String) :
    Exact (lowerCondition t s e construct line) :=
  .intro (.andThen (lowerExpr_flawless e) fun _ => .ite .pure .reject)
    (lowerCondition_explained e construct)

theorem lowerIndex_exact (array : Ident) (index : Expr) : Exact (lowerIndex t s array index) :=
  .intro (lowerIndex_flawless array index) (lowerIndex_explained array index)

theorem lowerTarget_flawless (target : Target) : Flawless (lowerTarget t s target) := by
  cases target with
  | name id => exact .andThen (lowerVariable_flawless id) fun _ => .ite .pure .reject
  | index array position =>
    exact .andThen (lowerIndex_flawless array position) fun _ => .ite .pure .reject

theorem lowerTarget_exact (target : Target) : Exact (lowerTarget t s target) :=
  .intro (lowerTarget_flawless target) (lowerTarget_explained target)

/-- A call with its arguments. -/
theorem lowerCall_exact (callee : Ident) (args : List Expr) :
    Exact (lowerValues t s args >>= fun args => lowerCall t callee args line) := by
  refine .intro (.bind (fun call found => ?_) (lowerCall_flawless _))
    (.bind fun noErrors => lowerCall_explained (lowerValues_isSome args noErrors))
  obtain ⟨i, f, children, -, -, all, -, -⟩ := lowerCall_eq_some found
  exact lowerValues_flawless args (by rw [all]; simp)

/-! ### Nodes -/

theorem lowerLiteral_becomes {lit : Literal} {negate : Bool}
    (h : (lowerLiteral lit negate).value = some n) :
    lit.Becomes negate n := by
  have node := lowerLiteral_eq_some h
  obtain ⟨kind, text, line⟩ := lit
  cases kind with
  | int =>
    obtain ⟨i, read, -, rfl⟩ := node
    exact ⟨rfl, i, read, rfl⟩
  | float =>
    obtain ⟨x, read, rfl⟩ := node
    exact ⟨rfl, x, read, rfl⟩
  | string =>
    subst node
    exact ⟨rfl, rfl⟩
  | bool =>
    subst node
    exact ⟨rfl, rfl⟩

theorem lowerVariable_becomes {id : Ident} (h : (lowerVariable t s id).value = some n) :
    (Primary.name id).Becomes t s n := by
  obtain ⟨v, x, resolved, -, rfl⟩ := value_lowerVariable.1 h
  exact ⟨rfl, v, rfl, Tables.variableNamed_of_resolve? resolved⟩

theorem lowerIndex_becomes {array : Ident} {index : Expr}
    (h : (lowerIndex t s array index).value = some n) :
    (Primary.index array index).Becomes t s n := by
  obtain ⟨v, x, shape, i, resolved, -, -, constant, bounds, rfl⟩ := value_lowerIndex.1 h
  refine ⟨rfl, v, i.toNat, rfl, Tables.variableNamed_of_resolve? resolved, ?_⟩
  rw [constant, Int.toNat_of_nonneg bounds.1]

theorem lowerOperation_becomes {op : BinaryOp} {left right : Expr} {l r : Node}
    (hl : left.Becomes t s l) (hr : right.Becomes t s r)
    (h : (lowerOperation op line l r).value = some n) :
    (Expr.binary op line left right).Becomes t s n := by
  obtain ⟨ty, -, rfl⟩ := value_lowerOperation.1 h
  refine ⟨rfl, ?_⟩
  -- The operands of a float operation are widened.
  split
  · exact ⟨l.widen, r.widen, rfl, hl.widen, hr.widen⟩
  · exact ⟨l, r, rfl, hl, hr⟩

theorem zeroNode_isZero (ty : Ty) : (zeroNode ty).IsZero := by
  unfold zeroNode
  split
  · exact ⟨rfl, .inr rfl⟩
  · exact ⟨rfl, .inl rfl⟩

theorem lowerSigned_becomes {sign : Sign} {primary : Primary} {m : Node}
    (hm : primary.Becomes t s m) (other : negatedLiteral? (some sign) primary = none)
    (h : (lowerSigned sign line m).value = some n) :
    (Expr.operand (some sign) primary line).Becomes t s n := by
  obtain ⟨-, -, node⟩ := value_lowerSigned.1 h
  unfold Expr.Becomes
  rw [other]
  subst node
  cases sign with
  | plus => exact hm
  | minus => exact ⟨rfl, _, _, rfl, zeroNode_isZero _, hm⟩

/-- The nodes of several expressions, one by one. -/
theorem Expr.allBecome_of_forall₂ {es : List Expr} {nodes : List Node}
    (each : List.Forall₂ (Expr.Becomes t s) es nodes) :
    Expr.AllBecome t s es nodes := by
  induction each with
  | nil => rfl
  | cons first _ ih => exact ⟨_, _, rfl, first, ih⟩

mutual

/-- The node of an expression. -/
theorem lowerExpr_becomes :
    ∀ {e : Expr} {n : Node}, (lowerExpr t s e).value = some n → e.Becomes t s n
  | .binary op line left right, n, h => by
    obtain ⟨l, r, hl, hr, -, hn⟩ := value_lowerExpr_binary.1 h
    exact lowerOperation_becomes (lowerExpr_becomes hl) (lowerExpr_becomes hr) hn
  | .operand sign primary line, n, h => by
    rcases lowerExpr_operand_eq_some h with ⟨lit, negated, literal⟩ | ⟨other, m, lowered, node⟩
    · unfold Expr.Becomes
      rw [negated]
      exact lowerLiteral_becomes literal
    · cases sign with
      | none =>
        unfold Expr.Becomes
        rw [other]
        exact node ▸ lowerPrimary_becomes lowered
      | some sign => exact lowerSigned_becomes (lowerPrimary_becomes lowered) other node

theorem lowerPrimary_becomes : ∀ {line : Nat} {primary : Primary} {n : Node},
    (lowerPrimary t s line primary).value = some n → primary.Becomes t s n
  | line, .literal lit, n, h => lowerLiteral_becomes h
  | line, .name id, n, h => lowerVariable_becomes h
  | line, .call callee args, n, h => by
    obtain ⟨i, f, children, found, -, all, -, rfl⟩ :=
      lowerCall_eq_some (value_lowerPrimary_call.1 h).1
    have each := forall₂_of_values (lowerValues_forall₂ args) all
    exact ⟨i, rfl, FuncTable.name_of_find? found, Expr.allBecome_of_forall₂ each⟩
  | line, .index array index, n, h => lowerIndex_becomes h
  | line, .paren inner, n, h => lowerExpr_becomes (e := inner) h

theorem lowerValues_forall₂ : ∀ es : List Expr,
    List.Forall₂ (fun e n? => ∀ n, n? = some n → e.Becomes t s n) es (lowerValues t s es).value
  | [] => .nil
  | e :: es => by
    refine .cons (fun n found => ?_) (lowerValues_forall₂ es)
    simp only [value_continueWith, value_asValue] at found
    obtain ⟨_, found, rfl, -⟩ := found
    exact lowerExpr_becomes found

end

theorem lowerValue_becomes {e : Expr} (h : (lowerValue t s e).value = some n) : e.Becomes t s n :=
  lowerExpr_becomes (value_lowerValue.1 h).1

theorem lowerCondition_becomes {e : Expr} {construct : String}
    (h : (lowerCondition t s e construct line).value = some n) : e.Becomes t s n :=
  lowerExpr_becomes (value_lowerCondition.1 h).1

theorem lowerTarget_becomes {target : Target} (h : (lowerTarget t s target).value = some n) :
    target.Becomes t s n := by
  have lowered := (value_lowerTarget.1 h).1
  cases target with
  | name id => exact lowerVariable_becomes lowered
  | index array position => exact lowerIndex_becomes lowered

/-- A call with its arguments becomes one node. -/
theorem lowerCall_becomes {callee : Ident} {args : List Expr}
    (h : (lowerCall t callee (lowerValues t s args).value line).value = some n) :
    (Primary.call callee args).Becomes t s n := by
  obtain ⟨i, f, children, found, -, all, -, rfl⟩ := lowerCall_eq_some h
  have each := forall₂_of_values (lowerValues_forall₂ args) all
  exact ⟨i, rfl, FuncTable.name_of_find? found, Expr.allBecome_of_forall₂ each⟩

end Analysis

end MiniGo
