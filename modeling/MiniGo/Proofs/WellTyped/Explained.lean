import MiniGo.Proofs.WellTyped.Program

/-!
# What is wrong leaves an error

An expression without a node is wrong, and then an error is recorded. So an analysis without errors
gives a node for each expression, for each condition and for each call and return.

* `Report.Explained`: there is a value, or an error.
* `lowerExpr_explained`, `lowerValues_isSome`, `lowerTarget_explained`, `lowerCondition_explained`:
  expressions, targets and conditions are explained.
* `lowerCallStmt_explained`, `lowerReturn_explained`: so are calls and returns.
-/

namespace MiniGo

namespace Report

variable {α β : Type}

/-- There is a value, or an error that says why there is none. -/
def Explained (r : Report (Option α)) : Prop := r.errors = [] → r.value.isSome = true

theorem Explained.some {a : α} : Explained (pure (some a)) := fun _ => rfl

theorem Explained.reject {e : SemanticError} : Explained (.reject e : Report (Option α)) := by
  intro noErrors
  cases noErrors

/-- A step after a report may rely on it not having errors. -/
theorem Explained.bind {r : Report α} {f : α → Report (Option β)}
    (h : r.errors = [] → Explained (f r.value)) : Explained (r >>= f) := by
  intro noErrors
  obtain ⟨first, rest⟩ := List.append_eq_nil_iff.1 noErrors
  exact h first rest

theorem Explained.continueWith {a? : Option α} {f : α → Report (Option β)} (some : a?.isSome = true)
    (h : ∀ a, Explained (f a)) : Explained (Analysis.continueWith a? f) := by
  obtain ⟨a, rfl⟩ := Option.isSome_iff_exists.1 some
  exact h a

/-- One explained step after the other. -/
theorem Explained.andThen {r : Report (Option α)} {f : α → Report (Option β)} (hr : Explained r)
    (h : ∀ a, Explained (f a)) : Explained (r >>= fun a? => Analysis.continueWith a? f) :=
  .bind fun noErrors => .continueWith (hr noErrors) h

theorem Explained.ite {c : Prop} [Decidable c] {r r' : Report (Option α)} (h : Explained r)
    (h' : Explained r') :
    Explained (if c then r else r') := by
  split
  · exact h
  · exact h'

end Report

open Report

/-- A name that is resolved has an entry. -/
theorem Tables.isSome_var?_of_resolve? {t : Tables} {name : String} {s : Scope} {v : VarRef}
    (h : t.resolve? name s = some v) : (t.var? v).isSome = true := by
  -- A slot that is found is one of its table.
  have entry {vars : VarTable} {slot : Nat} (found : vars.find? name = some slot) :
      (vars.get? slot).isSome = true := by
    obtain ⟨bound, -⟩ := List.findIdx?_eq_some_iff_getElem.1 found
    rw [VarTable.get?, List.getElem?_eq_getElem bound]
    rfl
  unfold Tables.resolve? at h
  dsimp only at h
  split at h
  · rename_i slot own
    cases s with
    | globals => cases own
    | function i =>
      obtain ⟨vars, table, found⟩ := Option.bind_eq_some_iff.1 own
      obtain rfl := Option.some.inj h
      rw [Tables.var?, table, Option.bind_some]
      exact entry found
  · obtain ⟨slot, found, rfl⟩ := Option.map_eq_some_iff.1 h
    exact entry found

namespace Analysis

variable {t : Tables} {s : Scope} {line : Nat}

/-! ### Steps on typed parts -/

theorem asValue_explained (n : Node) : Explained (asValue line n) := .ite .reject .some

theorem assignTo_explained {target : Ty} {operator : String} (n : Node) :
    Explained (assignTo target n operator line) := .ite .some .reject

theorem lowerLiteral_explained (lit : Literal) (negate : Bool) :
    Explained (lowerLiteral lit negate) := by
  unfold lowerLiteral
  dsimp only
  split
  · exact .some
  · exact .reject

theorem lowerOperation_explained (op : BinaryOp) (left right : Node) :
    Explained (lowerOperation op line left right) := by
  refine .andThen ?_ fun _ => .some
  unfold binaryTy
  split
  · exact .some
  · exact .reject

theorem lowerSigned_explained (sign : Sign) (n : Node) : Explained (lowerSigned sign line n) :=
  .andThen (asValue_explained n) fun _ => .ite .some .reject

theorem lowerVariable_explained (name : Ident) : Explained (lowerVariable t s name) := by
  unfold lowerVariable
  split
  · exact .reject
  · rename_i v resolved
    intro _
    rw [value_pure, Option.isSome_map]
    exact Tables.isSome_var?_of_resolve? resolved

theorem lowerIndex_explained (array : Ident) (index : Expr) :
    Explained (lowerIndex t s array index) := by
  unfold lowerIndex
  split
  · exact .reject
  · rename_i v resolved
    refine .continueWith (Tables.isSome_var?_of_resolve? resolved) fun entry => ?_
    split
    · exact .reject
    · split
      · exact .reject
      · exact .ite .some .reject

theorem matchArguments_explained {callee : Ident} {position : Nat} {args : List (Option Node)}
    {params : List Ty} (nodes : ∀ arg? ∈ args, arg?.isSome = true) :
    Explained (matchArguments callee line position args params) := by
  induction args generalizing position params with
  | nil => exact .some
  | cons arg? args ih =>
    cases params with
    | nil => exact .some
    | cons param params =>
      obtain ⟨node, nodes⟩ := List.forall_mem_cons.1 nodes
      refine .bind fun noErrors => .bind fun noErrors' => ?_
      have first := Explained.continueWith node (fun arg => Explained.ite .some .reject) noErrors
      have rest := ih nodes noErrors'
      obtain ⟨arg, hArg⟩ := Option.isSome_iff_exists.1 first
      obtain ⟨rest, hRest⟩ := Option.isSome_iff_exists.1 rest
      rw [hArg, hRest]
      exact .some

theorem lowerCall_explained {callee : Ident} {args : List (Option Node)}
    (nodes : ∀ arg? ∈ args, arg?.isSome = true) :
    Explained (lowerCall t callee args line) := by
  unfold lowerCall
  split
  · exact .reject
  · rename_i index found
    obtain ⟨f, entry, -⟩ := FuncTable.name_of_find? found
    refine .continueWith (by rw [entry]; rfl) fun f => .ite ?_ .reject
    exact .andThen (matchArguments_explained nodes) fun _ => .some

/-! ### Expressions -/

/-- An operand must have a value, unless its operator is a logical one. -/
theorem operand_explained {logical : Bool} {n? : Option Node}
    {f : Option Node → Report (Option Node)} (node : n?.isSome = true)
    (h : ∀ n, Explained (f (some n))) :
    Explained (if logical then pure n? >>= f else continueWith n? (asValue line) >>= f) := by
  obtain ⟨n, rfl⟩ := Option.isSome_iff_exists.1 node
  refine .ite (h n) (.bind fun noErrors => ?_)
  obtain ⟨value, isValue⟩ := Option.isSome_iff_exists.1 (asValue_explained n noErrors)
  rw [show continueWith (some n) (asValue line) = asValue line n from rfl, isValue]
  exact h value

mutual

theorem lowerExpr_explained : ∀ e : Expr, Explained (lowerExpr t s e)
  | .binary op line left right => by
    refine .bind fun noErrors => operand_explained (lowerExpr_explained left noErrors) fun _ => ?_
    refine .bind fun noErrors' =>
      operand_explained (lowerExpr_explained right noErrors') fun _ => ?_
    exact lowerOperation_explained op _ _
  | .operand sign primary line => by
    unfold lowerExpr
    split
    · exact lowerLiteral_explained _ _
    · refine .bind fun noErrors => ?_
      have some := lowerPrimary_explained line primary noErrors
      split
      · exact fun _ => some
      · exact .continueWith some (lowerSigned_explained _)

theorem lowerPrimary_explained (line : Nat) :
    ∀ primary : Primary, Explained (lowerPrimary t s line primary)
  | .literal lit => lowerLiteral_explained lit _
  | .name id => lowerVariable_explained id
  | .call callee args => by
    refine .bind fun noErrors => ?_
    exact .andThen (lowerCall_explained (lowerValues_isSome args noErrors)) fun _ =>
      .ite .reject .some
  | .index array index => lowerIndex_explained array index
  | .paren inner => lowerExpr_explained inner

theorem lowerValues_isSome : ∀ es : List Expr, (lowerValues t s es).errors = [] →
    ∀ n? ∈ (lowerValues t s es).value, n?.isSome = true
  | [], _ => by simp [lowerValues]
  | e :: es, noErrors => by
    obtain ⟨expr, rest⟩ := List.append_eq_nil_iff.1 noErrors
    obtain ⟨value, rest⟩ := List.append_eq_nil_iff.1 rest
    obtain ⟨rest, -⟩ := List.append_eq_nil_iff.1 rest
    refine List.forall_mem_cons.2 ⟨?_, lowerValues_isSome es rest⟩
    exact Explained.continueWith (lowerExpr_explained e expr) asValue_explained value

end

theorem lowerValue_explained (e : Expr) : Explained (lowerValue t s e) :=
  .andThen (lowerExpr_explained e) asValue_explained

theorem lowerTarget_explained (target : Target) : Explained (lowerTarget t s target) := by
  cases target with
  | name id => exact .andThen (lowerVariable_explained id) fun _ => .ite .some .reject
  | index array index =>
    exact .andThen (lowerIndex_explained array index) fun _ => .ite .some .reject

theorem lowerCondition_explained (e : Expr) (construct : String) :
    Explained (lowerCondition t s e construct line) :=
  .andThen (lowerExpr_explained e) fun _ => .ite .some .reject

/-! ### Statements -/

theorem lowerWrite_explained (args : List Expr) : Explained (lowerWrite t s args line) := by
  unfold lowerWrite
  split
  · exact .andThen (lowerValue_explained _) fun _ => .ite .some .reject
  · exact .reject

theorem lowerRead_explained (args : List Expr) : Explained (lowerRead t s args line) := by
  unfold lowerRead
  split
  · split
    · exact .andThen (lowerTarget_explained _) fun _ => .some
    · exact .bind fun _ => .reject
  · exact .reject

theorem lowerCallStmt_explained (callee : Ident) (args : List Expr) :
    Explained (lowerCallStmt t s callee args line) := by
  unfold lowerCallStmt
  refine .ite (lowerWrite_explained args)
    (.ite (lowerRead_explained args) (.bind fun noErrors => ?_))
  exact lowerCall_explained (lowerValues_isSome args noErrors)

theorem matchReturns_explained {values : List (Option Node)} {results : List Ty}
    (nodes : ∀ value? ∈ values, value?.isSome = true) :
    Explained (matchReturns line values results) := by
  induction values generalizing results with
  | nil => exact .some
  | cons value? values ih =>
    cases results with
    | nil => exact .some
    | cons result results =>
      obtain ⟨node, nodes⟩ := List.forall_mem_cons.1 nodes
      refine .bind fun noErrors => .bind fun noErrors' => ?_
      obtain ⟨first, hFirst⟩ :=
        Option.isSome_iff_exists.1 (Explained.continueWith node assignTo_explained noErrors)
      obtain ⟨rest, hRest⟩ := Option.isSome_iff_exists.1 (ih nodes noErrors')
      rw [hFirst, hRest]
      exact .some

/-- A function that is there returns its values. -/
theorem lowerReturn_explained {i : Nat} (values : List Expr)
    (scope : (t.table? (.function i)).isSome = true) :
    Explained (lowerReturn t (.function i) values line) := by
  have defined : (t.functions.get? i).isSome = true := by simpa [Tables.table?] using scope
  refine .continueWith defined fun f => .bind fun noErrors => .ite ?_ .reject
  refine .bind fun noErrors' => ?_
  have children := matchReturns_explained (lowerValues_isSome values noErrors) noErrors'
  exact fun _ => by rwa [value_pure, Option.isSome_map]

end Analysis

end MiniGo
