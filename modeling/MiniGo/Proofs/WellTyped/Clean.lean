import MiniGo.Proofs.WellTyped.Explained

/-!
# Runs without errors

Where nothing is wrong, the analysis takes none of its exits without a node: all parts of a
declaration or a statement have nodes, and all names are declared. So each function of the analysis
has one rule that says what is left to be shown of a run without errors.

* `Clean`: what a run without errors gives.
* `lowerValues_of_noErrors`, `lowerTargets_of_noErrors`: the nodes of all values and of all targets.
* `Clean.newVariable`, `Clean.declaration`, `Clean.varSpec`: the rules for declarations.
* `Assigned`, `lowerAssignment_of_noErrors`: the nodes of an assignment.
* `lowerFunctions_each`: the bodies of functions, each on its own.
-/

namespace MiniGo.Analysis

open Report

variable {t : Tables} {s : Scope} {operator : String} {line : Nat}

/-! ### Runs -/

section Clean

variable {α β : Type} {R : Tables → Tables → Prop} {x : Lower α} {P : Tables → α → Prop}
  {S : Tables → β → Prop}

/-- A run, if it has no errors, changes the tables within a relation, and its result has a
property. -/
def Clean (R : Tables → Tables → Prop) (t : Tables) (x : Lower α) (post : Tables → α → Prop) :
    Prop :=
  (x.run t).errors = [] → Runs R t x post

theorem Clean.pure [IsPreorder Tables R] {a : α} (h : P t a) : Clean R t (Pure.pure a) P :=
  fun _ => .pure h

theorem Clean.bind [IsPreorder Tables R] {f : α → Lower β} (hx : Clean R t x P)
    (hf : ∀ t' a, R t t' → P t' a → Clean R t' (f a) S) : Clean R t (x >>= f) S := by
  intro noErrors
  obtain ⟨first, rest⟩ := errors_bind_eq_nil.1 noErrors
  obtain ⟨step, post⟩ := hx first
  obtain ⟨step', post'⟩ := hf _ _ step post rest
  exact ⟨trans_of R step step', post'⟩

theorem Clean.get {f : Tables → Lower β} (h : Clean R t (f t) S) :
    Clean R t (MonadState.get >>= f) S := h

theorem Clean.report {r : Report α} {f : α → Lower β}
    (h : r.errors = [] → Clean R t (f r.value) S) :
    Clean R t (liftM r >>= f) S := by
  intro noErrors
  obtain ⟨first, rest⟩ := errors_bind_eq_nil.1 noErrors
  rw [errors_run_lift] at first
  exact h first rest

/-- An error is recorded only if a condition holds. -/
theorem Clean.ifRecord {c : Prop} [Decidable c] {e : SemanticError} {f : Unit → Lower β}
    (h : ¬ c → Clean R t (f ()) S) :
    Clean R t (if c then liftM (Report.record e) >>= f else f ()) S := by
  split
  · exact .report fun noErrors => by cases noErrors
  · rename_i fits
    exact h fits

theorem Clean.imp {Q : Tables → α → Prop} (hx : Clean R t x P)
    (le : ∀ t' a, R t t' → P t' a → Q t' a) :
    Clean R t x Q :=
  fun noErrors => ⟨(hx noErrors).1, le _ _ (hx noErrors).1 (hx noErrors).2⟩

/-- What is known of a run without errors is known of its result. -/
theorem Clean.result {t' : Tables} {a : α} (h : Clean R t x P) (run : x.run t = ⟨(a, t'), []⟩) :
    P t' a := by
  unfold Clean Runs at h
  rw [run] at h
  exact (h rfl).2

/-- A run without errors is known by its result. -/
theorem Clean.of_run (h : ∀ t' a, x.run t = ⟨(a, t'), []⟩ → R t t' ∧ P t' a) : Clean R t x P := by
  rcases run : x.run t with ⟨⟨a, t'⟩, errors⟩
  intro noErrors
  rw [run] at noErrors
  obtain rfl : errors = [] := noErrors
  simpa only [Runs, run] using h t' a run

end Clean

/-! ### Values and targets -/

/-- Nodes that are all there. -/
theorem exists_eq_map_some {values : List (Option Node)} (all : ∀ n? ∈ values, n?.isSome = true) :
    ∃ nodes : List Node, values = nodes.map some := by
  induction values with
  | nil => exact ⟨[], rfl⟩
  | cons n? values ih =>
    rw [List.forall_mem_cons] at all
    obtain ⟨n, rfl⟩ := Option.isSome_iff_exists.1 all.1
    obtain ⟨nodes, rfl⟩ := ih all.2
    exact ⟨n :: nodes, rfl⟩

/-- Values without errors all have their nodes. -/
theorem lowerValues_of_noErrors {es : List Expr} (noErrors : (lowerValues t s es).errors = []) :
    ∃ nodes, (lowerValues t s es).value = nodes.map some ∧
      List.Forall₂ (fun e n => (lowerValue t s e).value = some n) es nodes := by
  obtain ⟨nodes, all⟩ := exists_eq_map_some (lowerValues_isSome es noErrors)
  have each : List.Forall₂ Eq (es.map fun e => (lowerValue t s e).value) (nodes.map some) := by
    rw [← value_lowerValues, all]
    exact List.forall₂_refl _
  rw [List.forall₂_map_left_iff, List.forall₂_map_right_iff] at each
  exact ⟨nodes, all, each⟩

/-- Targets without errors all have their nodes. -/
theorem lowerTargets_of_noErrors {targets : List Target}
    (noErrors : (lowerTargets t s targets).errors = []) :
    ∃ nodes, (lowerTargets t s targets).value = nodes.map some ∧
      List.Forall₂ (fun target n => (lowerTarget t s target).value = some n) targets nodes := by
  induction targets with
  | nil => exact ⟨[], rfl, .nil⟩
  | cons target targets ih =>
    simp only [lowerTargets, errors_bind, errors_pure, List.append_nil,
      List.append_eq_nil_iff] at noErrors
    obtain ⟨n, found⟩ := Option.isSome_iff_exists.1 (lowerTarget_explained target noErrors.1)
    obtain ⟨nodes, rest, each⟩ := ih noErrors.2
    refine ⟨n :: nodes, ?_, .cons found each⟩
    simp only [lowerTargets, value_bind, value_pure, found, rest, List.map_cons]

/-! ### Results of a call -/

/-- A single call whose results go to all places. To a single place it goes only if it has not one
result. -/
theorem resultCall?_eq_some {targets : Nat} {values : List Expr} {callee : Ident} {args : List Expr}
    (h : resultCall? t targets values = some (callee, args)) :
    (∃ line, values = [.operand none (.call callee args) line]) ∧
      (1 < targets ∨ ∃ f, (t.functions.find? callee.name).bind t.functions.get? = some f ∧
        f.returns.length ≠ 1) := by
  unfold resultCall? at h
  split at h
  · rename_i value
    split at h
    · rename_i callee' args' called
      have isCall : ∃ line, value = .operand none (.call callee' args') line := by
        unfold Expr.call? at called
        split at called
        · cases called
          exact ⟨_, rfl⟩
        · cases called
      obtain ⟨line, rfl⟩ := isCall
      split at h
      · rename_i several
        cases h
        exact ⟨⟨line, rfl⟩, .inl several⟩
      · split at h
        · rename_i f found
          split at h
          · cases h
          · rename_i other
            cases h
            exact ⟨⟨line, rfl⟩, .inr ⟨f, found, other⟩⟩
        · cases h
    · cases h
  · cases h

/-- The results of a call go to several places, or to none. -/
theorem several_of_resultCall {targets : Nat} {values : List Expr} {callee : Ident}
    {args : List Expr} {call : Node} {returns : List Ty}
    (isCall : resultCall? t targets values = some (callee, args))
    (lowered : (lowerResultCall t s callee args targets line).value = some (call, returns)) :
    targets ≠ 1 := by
  obtain ⟨called, types, count⟩ := value_lowerResultCall.1 lowered
  obtain ⟨i, f, children, found, entry, -, -, rfl⟩ := lowerCall_eq_some called
  obtain rfl : f.returns = returns := by simpa [resultTypes?, entry] using types
  rcases (resultCall?_eq_some isCall).2 with several | ⟨g, known, other⟩
  · omega
  · rw [found, Option.bind_some, entry] at known
    obtain rfl := Option.some.inj known
    rwa [← count]

theorem lowerResultCall_explained (callee : Ident) (args : List Expr) (targets : Nat)
    (noErrors : (lowerResultCall t s callee args targets line).errors = []) :
    ((lowerResultCall t s callee args targets line).value).isSome = true := by
  simp only [lowerResultCall, errors_bind, List.append_eq_nil_iff] at noErrors
  obtain ⟨values, calls, rest⟩ := noErrors
  obtain ⟨call, lowered⟩ :=
    Option.isSome_iff_exists.1 (lowerCall_explained (lowerValues_isSome args values) calls)
  obtain ⟨i, f, children, -, entry, -, -, rfl⟩ := lowerCall_eq_some lowered
  have types : resultTypes? t (.mk (.call i) f.valueTy children) = some f.returns := by
    simp [resultTypes?, entry]
  simp only [lowerResultCall, value_bind, lowered, continueWith, types] at rest ⊢
  split at rest
  · rename_i count
    rw [if_pos count]
    rfl
  · cases rest

/-! ### Declarations -/

section Declarations

variable {R : Tables → Tables → Prop} {P : Tables → List Node → Prop} {names : List Ident}
  {name : Ident} {ty : Ty} {declared : Option Ty}

/-- A variable goes to the end of the table of its scope. -/
theorem Clean.newVariable {array? : Option ArrayShape} {P : Tables → Option VarRef → Prop}
    (scope : (t.table? s).isSome = true)
    (h : ∀ {vars vars'}, t.table? s = some vars →
      vars.declare ⟨name.name, name.line, ty, array?⟩ = .ok vars' →
      R t (t.setTable vars' s) ∧ P (t.setTable vars' s) (some ⟨vars.size, s⟩)) :
    Clean R t (declareVariable s name ty array?) P := by
  obtain ⟨vars, own⟩ := Option.isSome_iff_exists.1 scope
  unfold declareVariable
  refine .get ?_
  simp only [own]
  split
  · rename_i vars' declared
    exact fun _ => h own declared
  · exact .report fun noErrors => by cases noErrors

/-- A name for the first result of a call, and names for the others. -/
theorem Clean.newResult {result : Ty} {results : List Ty} {P : Tables → Option (List Node) → Prop}
    (h : (declared.getD result).assignable result = true →
      Clean R t (declareVariable s name (declared.getD result) none >>= fun v? => do
        let rest? ← declareResults s declared operator line names results
        match v?, rest? with
        | some v, some rest => return some (.leaf (.varDecl v) (declared.getD result) :: rest)
        | _, _ => return none) P) :
    Clean R t (declareResults s declared operator line (name :: names) (result :: results)) P := by
  unfold declareResults
  simp only
  refine .ifRecord fun fits => ?_
  have fits : (declared.getD result).assignable result = true := by simpa using fits
  simp only [fits, if_true]
  exact h fits

/-- An initial value is stored into the new variable. -/
theorem Clean.initialized [IsPreorder Tables R] {n : Node}
    (h : ∀ {m}, (declared.getD n.ty).isScalar = true →
      (assignTo (declared.getD n.ty) n operator line).value = some m →
      Clean R t (declareVariable s name (declared.getD n.ty) none) fun t' v? =>
        ∃ v, v? = some v ∧ P t' [.statement .assign [.leaf (.varDecl v) (declared.getD n.ty), m]]) :
    Clean R t (declareInitialized s declared operator line name (some n)) P := by
  unfold declareInitialized
  simp only
  split
  · exact .report fun noErrors => by cases noErrors
  · rename_i scalar
    refine .report fun noErrors => ?_
    obtain ⟨m, assigned⟩ := Option.isSome_iff_exists.1 (assignTo_explained n noErrors)
    refine (h (by simpa using scalar) assigned).bind fun t' v? _ stored => ?_
    obtain ⟨v, rfl, stored⟩ := stored
    rw [assigned]
    exact .pure stored

/-- The initial values come from one call for all names, or there is one for each name. -/
theorem Clean.declaration [IsPreorder Tables R] {values : List Expr}
    (results : ∀ {callee args line' call returns}, values =
      [.operand none (.call callee args) line'] →
      names.length ≠ 1 → (lowerResultCall t s callee args names.length line).value =
        some (call, returns) →
      Clean R t (declareResults s declared operator line names returns) fun t' targets? =>
        ∃ targets, targets? = some targets ∧ P t' [resultAssignment targets call])
    (pairs : ∀ {nodes}, names.length = values.length →
      List.Forall₂ (fun e n => (lowerValue t s e).value = some n) values nodes →
      Clean R t (declarePairs s declared operator line names (nodes.map some)) P) :
    Clean R t (lowerDeclaration s names declared values operator line) P := by
  unfold lowerDeclaration
  refine .get ?_
  split
  · -- A run without errors has a node for the call, or for each of the values.
    rename_i callee args isCall
    refine .report fun noErrors => ?_
    obtain ⟨⟨call, returns⟩, lowered⟩ :=
      Option.isSome_iff_exists.1 (lowerResultCall_explained callee args names.length noErrors)
    obtain ⟨line', single⟩ := (resultCall?_eq_some isCall).1
    rw [lowered]
    refine (results single (several_of_resultCall isCall lowered) lowered).bind
      fun t' targets? _ assigned => ?_
    obtain ⟨targets, rfl, assigned⟩ := assigned
    exact .pure assigned
  · split
    · rename_i same
      refine .report fun noErrors => ?_
      obtain ⟨nodes, all, each⟩ := lowerValues_of_noErrors noErrors
      rw [all]
      exact pairs same each
    · exact .report fun _ => .report fun noErrors => by cases noErrors

/-- Arrays have a constant length, and no initial values. -/
theorem Clean.arraySpec {spec : VarSpec} {length : Expr} {element : Ident}
    (h : ∀ {ty k}, spec.values = [] → (resolveType element).value = some ty →
      constantInt? length = some k → 0 ≤ k →
      Clean R t (declareNames s .array (some ⟨ty, k.toNat⟩) spec.names) P) :
    Clean R t (lowerArraySpec s spec length element line) P := by
  unfold lowerArraySpec
  refine .report fun noErrors => ?_
  obtain ⟨ty, resolved⟩ := resolveType_eq_some noErrors
  simp only
  refine .ifRecord fun hasLength => ?_
  rw [Option.isNone_iff_eq_none] at hasLength
  obtain ⟨k, isLength⟩ := Option.ne_none_iff_exists'.1 hasLength
  obtain ⟨constant, nonneg⟩ := Option.filter_eq_some_iff.1 isLength
  simp only [resolved, isLength]
  split
  · exact .get (.report fun _ => .report fun noErrors => by cases noErrors)
  · rename_i none
    exact h none resolved constant (by simpa using nonneg)

/-- A specification declares arrays, or scalars with or without initial values. -/
theorem Clean.varSpec {spec : VarSpec}
    (arrays : ∀ {length element line ty k}, spec.type? = some (.array length element line) →
      spec.values = [] →
      (resolveType element).value = some ty → constantInt? length = some k → 0 ≤ k →
      Clean R t (declareNames s .array (some ⟨ty, k.toNat⟩) spec.names) P)
    (scalars : ∀ {name ty}, spec.type? = some (.named name) → spec.values = [] →
      (resolveType name).value = some ty → Clean R t (declareNames s ty none spec.names) P)
    (typed : ∀ {name ty}, spec.type? = some (.named name) → spec.values ≠ [] →
      (resolveType name).value = some ty →
      Clean R t (lowerDeclaration s spec.names (some ty) spec.values "=" spec.line) P)
    (untyped : spec.type? = none →
      Clean R t (lowerDeclaration s spec.names none spec.values "=" spec.line) P) :
    Clean R t (lowerVarSpec s spec) P := by
  unfold lowerVarSpec
  split
  · rename_i type
    exact .arraySpec (arrays type)
  · rename_i name type
    refine .report fun noErrors => ?_
    obtain ⟨ty, resolved⟩ := resolveType_eq_some noErrors
    rw [resolved]
    simp only
    split
    · rename_i empty
      exact scalars type (List.isEmpty_iff.1 empty) resolved
    · rename_i values
      exact typed type (by simpa using values) resolved
  · rename_i none
    exact untyped none

end Declarations

/-! ### Assignments -/

/-- Targets that all can take their results are all kept. -/
theorem matchResults_of_noErrors {nodes : List Node} {results : List Ty}
    (same : results.length = nodes.length)
    (noErrors : (matchResults line (nodes.map some) results).errors = []) :
    (matchResults line (nodes.map some) results).value = some nodes := by
  induction nodes generalizing results with
  | nil => rfl
  | cons n nodes ih =>
    cases results with
    | nil => simp at same
    | cons result results =>
      simp only [List.map_cons, matchResults, continueWith] at noErrors ⊢
      split at noErrors
      · rename_i fits
        simp only [errors_bind, errors_pure, List.append_nil] at noErrors
        rw [if_pos fits]
        simp only [value_bind, value_pure, ih (by simpa using same) noErrors, Option.map_some]
      · cases noErrors

/-- The assignment of a value to a target. -/
def Assigned (t : Tables) (s : Scope) (line : Nat) (target : Target) (e : Expr) (n : Node) : Prop :=
  ∃ place value value', (lowerTarget t s target).value = some place ∧
    (lowerValue t s e).value = some value ∧ (assignTo place.ty value "=" line).value = some value' ∧
      n = .statement .assign [place, value']

/-- One assignment for each pair of a target and a value. -/
theorem assignPairs_of_noErrors {targets : List Target} {places : List Node} {values : List Expr}
    (each : List.Forall₂ (fun target n => (lowerTarget t s target).value = some n) targets places)
    (same : targets.length = values.length)
    (noErrors : (assignPairs t s line (places.map some) values).errors = []) :
    List.Forall₂ (fun pair => Assigned t s line pair.1 pair.2) (targets.zip values)
      (assignPairs t s line (places.map some) values).value := by
  induction each generalizing values with
  | nil => exact .nil
  | @cons target place targets places first each ih =>
    cases values with
    | nil => simp at same
    | cons e es =>
      simp only [List.map_cons, assignPairs, errors_bind, errors_pure, List.append_nil,
        List.append_eq_nil_iff]
        at noErrors
      obtain ⟨lowers, assigns, rest⟩ := noErrors
      obtain ⟨value, lowered⟩ := Option.isSome_iff_exists.1 (lowerValue_explained e lowers)
      simp only [lowered, continueWith, errors_bind, errors_pure, List.append_nil] at assigns
      obtain ⟨value', assigned⟩ := Option.isSome_iff_exists.1 (assignTo_explained value assigns)
      simp only [List.map_cons, assignPairs, value_bind, value_pure, lowered, continueWith,
        assigned, Option.map_some, Option.toList_some, List.singleton_append]
      exact .cons ⟨place, value, value', first, lowered, assigned, rfl⟩
        (ih (by simpa using same) rest)

/-- The results of one call go to all targets, or there is an assignment for each target. -/
theorem lowerAssignment_of_noErrors {targets : List Target} {values : List Expr}
    (noErrors : (lowerAssignment t s targets values line).errors = []) :
    (∃ callee args line' call returns places, values = [.operand none (.call callee args) line'] ∧
        targets.length ≠ 1 ∧ (lowerResultCall t s callee args targets.length line).value =
          some (call, returns) ∧
        List.Forall₂ (fun target n => (lowerTarget t s target).value = some n) targets places ∧
        (lowerAssignment t s targets values line).value = [resultAssignment places call]) ∨
      (targets.length = values.length ∧
        List.Forall₂ (fun pair => Assigned t s line pair.1 pair.2) (targets.zip values)
          (lowerAssignment t s targets values line).value) := by
  unfold lowerAssignment at noErrors ⊢
  simp only [errors_bind, List.append_eq_nil_iff] at noErrors
  obtain ⟨lowersTargets, noErrors⟩ := noErrors
  obtain ⟨places, all, each⟩ := lowerTargets_of_noErrors lowersTargets
  simp only [value_bind, all] at noErrors ⊢
  split at noErrors
  · rename_i callee args isCall
    simp only [errors_bind, List.append_eq_nil_iff] at noErrors
    obtain ⟨⟨call, returns⟩, lowered⟩ :=
      Option.isSome_iff_exists.1 (lowerResultCall_explained callee args targets.length noErrors.1)
    obtain ⟨-, -, count⟩ := value_lowerResultCall.1 lowered
    obtain ⟨line', single⟩ := (resultCall?_eq_some isCall).1
    simp only [lowered, value_bind, errors_bind, List.append_eq_nil_iff] at noErrors ⊢
    have matched := matchResults_of_noErrors (count.trans each.length_eq) noErrors.2.1
    simp only [matched]
    exact .inl ⟨callee, args, line', call, returns, places, single,
      several_of_resultCall isCall lowered, lowered, each,
      rfl⟩
  · split at noErrors
    · rename_i same
      simp only [if_pos same]
      exact .inr ⟨same, assignPairs_of_noErrors each same noErrors⟩
    · simp only [errors_bind, List.append_eq_nil_iff] at noErrors
      cases noErrors.2.1

/-! ### Bodies -/

/-- Bodies that are typed one after the other. Each of them starts with the variables of its
function as they were before the first, and the others leave these as they are. -/
theorem lowerFunctions_each {funcs : List FuncDecl} {k : Nat} (wf : t.WellFormed) :
    Clean Tables.Fills t (lowerFunctions funcs
      ((List.range' k funcs.length).map some)) fun t' nodes =>
      nodes.length = funcs.length ∧ (∀ i < k, t'.table? (.function i) = t.table? (.function i)) ∧
        ∀ j func, funcs[j]? = some func → ∃ node u u', nodes[j]? = some node ∧
          (lowerFunction func (k + j)).run u = ⟨(node, u'), []⟩ ∧
          t.Fills u ∧ u.table? (.function (k + j)) = t.table? (.function (k + j)) ∧
          u'.Fills t' ∧ t'.table? (.function (k + j)) = u'.table? (.function (k + j)) := by
  induction funcs generalizing t k with
  | nil => exact .pure ⟨rfl, fun _ _ => rfl, by simp⟩
  | cons func funcs ih =>
    simp only [List.length_cons, List.range'_succ, List.map_cons, lowerFunctions]
    have first : Clean Tables.Fills t (lowerFunction func k) fun u node =>
        (lowerFunction func k).run t = ⟨(node, u), []⟩ ∧ t.Grows (.function k) u := by
      refine .of_run fun u node run => ?_
      have grows := (@lowerFunction_typed t func k wf).1
      rw [run] at grows
      exact ⟨grows.fills, run, grows⟩
    refine first.bind fun u node fills found => ?_
    obtain ⟨run, grows⟩ := found
    refine (ih (fills.wellFormed wf)).bind fun t' nodes fills' rest => .pure ?_
    obtain ⟨count, same, each⟩ := rest
    refine ⟨by simp [count], fun i lt => ?_, fun j func' declared => ?_⟩
    · exact (same i (by omega)).trans (grows.apart _ (by simp; omega))
    · cases j with
      | zero =>
        obtain rfl := Option.some.inj declared
        exact ⟨node, t, u, rfl, run, refl_of Tables.Fills t, rfl, fills',
          same k (Nat.lt_succ_self k)⟩
      | succ j =>
        rw [show k + (j + 1) = k + 1 + j by omega]
        obtain ⟨node', v, v', atNode, run', fillsTo, before, fillsFrom, after⟩ :=
          each j func' declared
        exact ⟨node', v, v', atNode, run', trans_of Tables.Fills fills fillsTo,
          before.trans (grows.apart _ (by simp; omega)), fillsFrom, after⟩

end MiniGo.Analysis
