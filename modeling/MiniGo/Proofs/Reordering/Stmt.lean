import Mathlib.Order.Defs.Unbundled
import MiniGo.Proofs.Reordering.Expr
import MiniGo.Proofs.WellTyped.Declare

/-!
# Statements under other indices of functions

A statement is typed with what its expressions see, and it declares variables in its own scope only.
So in tables with other indices of functions its nodes are the same up to these indices, and it
declares the same variables.

* `Tables.DifferIn`: tables that are the same outside of the variables of one scope.
* `LowerMaps`: two runs of which one is the renaming of the other, with rules for their steps.
* `lowerVarDecl_maps`, `lowerStmt_maps`: declarations and statements have such runs.
-/

namespace MiniGo

variable {ρ : Nat → Nat} {s : Scope} {t t' : Tables}

/-! ### Tables -/

/-- Tables with the same functions, and the same variables outside of a scope. -/
structure Tables.DifferIn (s : Scope) (t t' : Tables) : Prop where
  heads : ∀ i, (t'.functions.get? i).map Function.head = (t.functions.get? i).map Function.head
  apart : ∀ s', s' ≠ s → t'.table? s' = t.table? s'

instance : IsPreorder Tables (Tables.DifferIn s) where
  refl _ := ⟨fun _ => rfl, fun _ _ => rfl⟩
  trans _ _ _ h k :=
    ⟨fun i => (k.heads i).trans (h.heads i), fun s' ne => (k.apart s' ne).trans (h.apart s' ne)⟩

namespace FuncTable

/-- Tables with the same function at each index, apart from its variables. -/
theorem map_head_congr {functions functions' : FuncTable}
    (heads : ∀ i, (functions'.get? i).map Function.head = (functions.get? i).map Function.head) :
    functions'.entries.map Function.head = functions.entries.map Function.head := by
  refine List.ext_getElem? fun i => ?_
  rw [List.getElem?_map, List.getElem?_map]
  exact heads i

/-- The variables of functions do not matter for their names. -/
theorem find?_congr {functions functions' : FuncTable}
    (heads : ∀ i, (functions'.get? i).map Function.head = (functions.get? i).map Function.head)
    (name : String) :
    functions'.find? name = functions.find? name := by
  have found (fs : List Function) :
      fs.findIdx? (·.name == name) = (fs.map Function.head).findIdx? (·.name == name) := by
    rw [List.findIdx?_map]
    rfl
  rw [find?, find?, found, map_head_congr heads, ← found]

theorem heads_setVars {functions : FuncTable} {i : Nat} {vars : VarTable} (j : Nat) :
    ((functions.setVars i vars).get? j).map Function.head =
      (functions.get? j).map Function.head := by
  rw [get?_setVars]
  split
  · rw [Option.map_map]
    rfl
  · rfl

end FuncTable

namespace Tables

variable {vars vars' : VarTable}

/-- What another function declares is not seen in a scope. -/
theorem DifferIn.renames {i : Nat} (h : t.DifferIn (.function i) t') (ne : s ≠ .function i) :
    t.Renames id s t' where
  globals := Option.some.inj (h.apart .globals (by simp))
  find? name := by rw [FuncTable.find?_congr h.heads, Option.map_id, id]
  heads := h.heads
  own := by rw [rename_scope_id, h.apart s ne]

theorem heads_setTable (i : Nat) :
    ((t.setTable vars s).functions.get? i).map Function.head =
      (t.functions.get? i).map Function.head := by
  cases s with
  | globals => rfl
  | function j => exact FuncTable.heads_setVars i

theorem differIn_setTable (own : t.table? s = some vars) : t.DifferIn s (t.setTable vars' s) :=
  ⟨heads_setTable, fun s' ne => by rw [table?_setTable own, if_neg ne]⟩

/-- Variables can be replaced in a scope and in its renaming. -/
theorem Renames.setTable (h : t.Renames ρ s t') (own : t.table? s = some vars) :
    (t.setTable vars' s).Renames ρ s (t'.setTable vars' (s.rename ρ)) where
  globals := by cases s <;> simp [Tables.setTable, Scope.rename, h.globals]
  find? name := by
    rw [FuncTable.find?_congr heads_setTable, FuncTable.find?_congr heads_setTable, h.find?]
  heads i := by rw [heads_setTable, heads_setTable, h.heads]
  own := by
    rw [table?_setTable own, table?_setTable (h.own.trans own), if_pos rfl, if_pos rfl]

end Tables

namespace Analysis

open Report

/-! ### Runs -/

section Runs

variable {α β γ δ : Type} {f : α → β} {g : γ → δ} {x : Lower α} {x' : Lower β}

/-- A run in renamed tables has the mapped result and the same errors. The tables that come out are
renamed again, and they differ from those before in one scope only. -/
structure LowerMaps (ρ : Nat → Nat) (s : Scope) (t t' : Tables) (f : α → β) (x : Lower α)
    (x' : Lower β) : Prop where
  errors : (x'.run t').errors = (x.run t).errors
  value : (x'.run t').value.1 = f (x.run t).value.1
  renames : (x.run t).value.2.Renames ρ s (x'.run t').value.2
  differ : t.DifferIn s (x.run t).value.2

theorem LowerMaps.pure (h : t.Renames ρ s t') {a : α} {b : β} (same : b = f a) :
    LowerMaps ρ s t t' f (Pure.pure a) (Pure.pure b) :=
  ⟨rfl, same, h, refl_of (Tables.DifferIn s) t⟩

theorem LowerMaps.bind {k : α → Lower γ} {k' : β → Lower δ} (h : LowerMaps ρ s t t' f x x')
    (next : ∀ a u u', u.Renames ρ s u' → LowerMaps ρ s u u' g (k a) (k' (f a))) :
    LowerMaps ρ s t t' g (x >>= k) (x' >>= k') := by
  have second := next (x.run t).value.1 _ _ h.renames
  rw [← h.value] at second
  refine ⟨?_, second.value, second.renames, trans_of (Tables.DifferIn s) h.differ second.differ⟩
  exact congrArg₂ (· ++ ·) h.errors second.errors

theorem LowerMaps.get {k : Tables → Lower α} {k' : Tables → Lower β}
    (h : LowerMaps ρ s t t' f (k t) (k' t')) :
    LowerMaps ρ s t t' f (MonadState.get >>= k) (MonadState.get >>= k') :=
  ⟨h.errors, h.value, h.renames, h.differ⟩

/-- A report comes first, which leaves the tables alone. -/
theorem LowerMaps.report {r : Report α} {r' : Report β} {k : α → Lower γ} {k' : β → Lower δ}
    (maps : Maps f r r') (next : LowerMaps ρ s t t' g (k r.value) (k' (f r.value))) :
    LowerMaps ρ s t t' g (liftM r >>= k) (liftM r' >>= k') := by
  cases maps
  exact ⟨congrArg (r.errors ++ [] ++ ·) next.errors, next.value, next.renames, next.differ⟩

/-- A report comes first that is the same in both. -/
theorem LowerMaps.record {r : Report α} {k : α → Lower γ} {k' : α → Lower δ}
    (next : LowerMaps ρ s t t' g (k r.value) (k' r.value)) :
    LowerMaps ρ s t t' g (liftM r >>= k) (liftM r >>= k') :=
  LowerMaps.report (f := id) rfl next

/-- An error may be recorded in between. -/
theorem LowerMaps.ifRecord {c : Prop} [Decidable c] {r : Report Unit} {k : Unit → Lower γ}
    {k' : Unit → Lower δ} (next : LowerMaps ρ s t t' g (k ()) (k' ())) :
    LowerMaps ρ s t t' g (if c then liftM r >>= k else k ())
      (if c then liftM r >>= k' else k' ()) := by
  split
  · exact .record next
  · exact next

theorem LowerMaps.lift (h : t.Renames ρ s t') {r : Report α} {r' : Report β} (maps : Maps f r r') :
    LowerMaps ρ s t t' f (liftM r) (liftM r') := by
  cases maps
  exact ⟨rfl, rfl, h, refl_of (Tables.DifferIn s) t⟩

end Runs

/-- Typing gives the same nodes up to the indices of functions, with the same errors. -/
def NodesMap (ρ : Nat → Nat) (s : Scope) (t t' : Tables) (x x' : Lower (List Node)) : Prop :=
  LowerMaps ρ s t t' (List.map (Node.rename ρ)) x x'

variable {operator : String} {line : Nat}

/-- One run after the other. -/
theorem NodesMap.append {x x' y y' : Lower (List Node)} (hx : NodesMap ρ s t t' x x')
    (hy : ∀ u u', u.Renames ρ s u' → NodesMap ρ s u u' y y') :
    NodesMap ρ s t t' (do let nodes ← x; return nodes ++ (← y))
      (do let nodes ← x'; return nodes ++ (← y')) :=
  LowerMaps.bind hx fun _ u u' h => LowerMaps.bind (hy u u' h) fun _ _ _ h =>
    .pure h List.map_append.symm

/-! ### Variables -/

theorem declareVariable_maps (h : t.Renames ρ s t') (name : Ident) (ty : Ty)
    (array? : Option ArrayShape) :
    LowerMaps ρ s t t' (Option.map (VarRef.rename ρ)) (declareVariable s name ty array?)
      (declareVariable (s.rename ρ) name ty array?) := by
  unfold declareVariable
  refine .get ?_
  rw [h.own]
  split
  · exact .pure h rfl
  · rename_i vars own
    split
    · exact ⟨rfl, rfl, h.setTable own, Tables.differIn_setTable own⟩
    · exact .record (.pure h rfl)

theorem declareNames_maps (h : t.Renames ρ s t') (ty : Ty) (array? : Option ArrayShape)
    (names : List Ident) :
    NodesMap ρ s t t' (declareNames s ty array? names)
      (declareNames (s.rename ρ) ty array? names) := by
  induction names generalizing t t' with
  | nil => exact .pure h rfl
  | cons name names ih =>
    refine (declareVariable_maps h name ty array?).bind fun v? u u' h => ?_
    refine LowerMaps.bind (ih h) fun nodes _ _ h => ?_
    cases v? with
    | none => exact .pure h rfl
    | some v => exact .pure h rfl

/-! ### Results of a call -/

theorem resultCall?_renames (h : t.Renames ρ s t') (targets : Nat) (values : List Expr) :
    resultCall? t' targets values = resultCall? t targets values := by
  unfold resultCall?
  split
  · split
    · rename_i callee args _
      split
      · rfl
      · rw [h.find?]
        cases t.functions.find? callee.name with
        | none => rfl
        | some i =>
          rcases h.get? i with ⟨found, found'⟩ | ⟨_, _, _, _, _, _, found, found'⟩
          · simp [found, found']
          · simp [found, found']
    · rfl
  · rfl

theorem resultTypes?_renames (h : t.Renames ρ s t') (call : Node) :
    resultTypes? t' (call.rename ρ) = resultTypes? t call := by
  unfold resultTypes?
  rw [Node.kind_rename]
  cases call.kind with
  | call i =>
    rcases h.get? i with ⟨found, found'⟩ | ⟨_, _, _, returns, _, _, found, found'⟩
    · simp [NodeKind.rename, found, found']
    · simp [NodeKind.rename, found, found']
  | _ => rfl

/-- The node of a call with the types of its results, up to the indices of functions. -/
theorem lowerResultCall_maps (h : t.Renames ρ s t') (callee : Ident) (args : List Expr)
    (targets : Nat) :
    Maps (Option.map (Prod.map (Node.rename ρ) id)) (lowerResultCall t s callee args targets line)
      (lowerResultCall t' (s.rename ρ) callee args targets line) := by
  refine (lowerValues_maps h args).bind fun args =>
    (lowerCall_maps h callee args).andThen fun call => ?_
  rw [resultTypes?_renames h]
  cases resultTypes? t call with
  | none => exact .pure rfl
  | some returns => exact .ite (.pure rfl) .reject

theorem rename_resultAssignment (targets : List Node) (call : Node) :
    (resultAssignment targets call).rename ρ =
      resultAssignment (targets.map (Node.rename ρ)) (call.rename ρ) := by
  simp [resultAssignment, NodeKind.rename]

theorem declareResults_maps (h : t.Renames ρ s t') (declared : Option Ty) (names : List Ident)
    (results : List Ty) :
    LowerMaps ρ s t t' (Option.map (List.map (Node.rename ρ)))
      (declareResults s declared operator line names results)
      (declareResults (s.rename ρ) declared operator line names results) := by
  induction names generalizing t t' results with
  | nil => exact .pure h rfl
  | cons name names ih =>
    cases results with
    | nil => exact .pure h rfl
    | cons result results =>
      unfold declareResults
      dsimp only
      refine .ifRecord ((declareVariable_maps h name _ none).bind fun v? u u' h => ?_)
      -- The names behind it are declared in the tables that it leaves, which are renamed again.
      refine (ih h results).bind fun rest? _ _ h => ?_
      cases v? with
      | none => exact .pure h rfl
      | some v =>
        cases rest? with
        | none => exact .pure h rfl
        | some rest =>
          refine .pure h ?_
          split <;> rfl

/-! ### Pairs of names and values -/

theorem declareInitialized_maps (h : t.Renames ρ s t') (declared : Option Ty) (name : Ident)
    (value? : Option Node) :
    NodesMap ρ s t t' (declareInitialized s declared operator line name value?)
      (declareInitialized (s.rename ρ) declared operator line name
        (value?.map (Node.rename ρ))) := by
  unfold declareInitialized
  cases value? with
  | none =>
    cases declared with
    | none => exact .pure h rfl
    | some ty => exact (declareVariable_maps h name ty none).bind fun _ _ _ h => .pure h rfl
  | some value =>
    dsimp only [Option.map_some]
    rw [Node.ty_rename]
    split
    · exact .record (.pure h rfl)
    · refine .report (assignTo_maps _ value operator) ?_
      refine (declareVariable_maps h name _ none).bind fun v? _ _ h => ?_
      cases v? with
      | none => exact .pure h rfl
      | some v =>
        generalize Report.value _ = value?
        cases value? with
        | none => exact .pure h rfl
        | some value => exact .pure h (by simp [NodeKind.rename])

theorem declarePairs_maps (h : t.Renames ρ s t') (declared : Option Ty) (names : List Ident)
    (values : List (Option Node)) :
    NodesMap ρ s t t' (declarePairs s declared operator line names values)
      (declarePairs (s.rename ρ) declared operator line names
        (values.map (Option.map (Node.rename ρ)))) := by
  induction names generalizing t t' values with
  | nil => exact .pure h rfl
  | cons name names ih =>
    cases values with
    | nil => exact .pure h rfl
    | cons value? values =>
      exact .append (declareInitialized_maps h declared name value?) fun _ _ h => ih h values

/-- A declaration with initial values. -/
theorem lowerDeclaration_maps (h : t.Renames ρ s t') (names : List Ident) (declared : Option Ty)
    (values : List Expr) :
    NodesMap ρ s t t' (lowerDeclaration s names declared values operator line)
      (lowerDeclaration (s.rename ρ) names declared values operator line) := by
  unfold lowerDeclaration
  refine .get ?_
  -- Whether the value is a call with several results depends on the signature of the callee only.
  rw [resultCall?_renames h]
  split
  · rename_i callee args _
    refine .report (lowerResultCall_maps h callee args names.length) ?_
    generalize Report.value _ = call?
    cases call? with
    | none => exact .pure h rfl
    | some call =>
      refine (declareResults_maps h declared names call.2).bind fun targets? _ _ h => ?_
      cases targets? with
      | none => exact .pure h rfl
      | some targets => exact .pure h (by simp [rename_resultAssignment])
  · split
    · exact .report (lowerValues_maps h values) (declarePairs_maps h declared names _)
    · rw [checkExprs_maps h]
      exact .record (.record (.pure h rfl))

/-! ### Specifications -/

theorem lowerArraySpec_maps (h : t.Renames ρ s t') (spec : VarSpec) (length : Expr)
    (element : Ident) :
    NodesMap ρ s t t' (lowerArraySpec s spec length element line)
      (lowerArraySpec (s.rename ρ) spec length element line) := by
  unfold lowerArraySpec
  refine .record (.ifRecord ?_)
  split
  · rename_i value _ _
    refine .get (.report (lowerValue_maps h value) ?_)
    have same (value? : Option Node) : (value?.map (Node.rename ρ)).map Node.ty =
        value?.map Node.ty := by
      cases value? <;> simp
    rw [same]
    exact .record (.pure h rfl)
  · split
    · exact declareNames_maps h ..
    · exact .pure h rfl

theorem lowerVarSpec_maps (h : t.Renames ρ s t') (spec : VarSpec) :
    NodesMap ρ s t t' (lowerVarSpec s spec) (lowerVarSpec (s.rename ρ) spec) := by
  unfold lowerVarSpec
  split
  · exact lowerArraySpec_maps h ..
  · refine .record ?_
    split
    · split
      · exact declareNames_maps h ..
      · exact lowerDeclaration_maps h ..
    · refine .get ?_
      rw [checkExprs_maps h]
      exact .record (.pure h rfl)
  · exact lowerDeclaration_maps h ..

/-- A variable declaration. -/
theorem lowerVarDecl_maps (h : t.Renames ρ s t') (decl : VarDecl) :
    NodesMap ρ s t t' (lowerVarDecl s decl) (lowerVarDecl (s.rename ρ) decl) := by
  obtain ⟨specs, line⟩ := decl
  unfold lowerVarDecl
  induction specs generalizing t t' with
  | nil => exact .pure h rfl
  | cons spec specs ih => exact .append (lowerVarSpec_maps h spec) fun _ _ h => ih h

/-! ### Assignments -/

theorem lowerTargets_maps (h : t.Renames ρ s t') (targets : List Target) :
    Maps (List.map (Option.map (Node.rename ρ))) (lowerTargets t s targets)
      (lowerTargets t' (s.rename ρ) targets) := by
  induction targets with
  | nil => exact .pure rfl
  | cons target targets ih =>
    exact (lowerTarget_maps h target).bind fun _ => ih.bind fun _ => .pure rfl

theorem matchResults_maps (targets : List (Option Node)) (results : List Ty) :
    Maps (Option.map (List.map (Node.rename ρ))) (matchResults line targets results)
      (matchResults line (targets.map (Option.map (Node.rename ρ))) results) := by
  induction targets generalizing results with
  | nil => exact .pure rfl
  | cons target? targets ih =>
    cases results with
    | nil => exact .pure rfl
    | cons result results =>
      refine .continueWith fun target => ?_
      rw [Node.ty_rename]
      refine .ite ((ih results).bind fun rest? => .pure ?_) .reject
      cases rest? <;> rfl

theorem assignPairs_maps (h : t.Renames ρ s t') (targets : List (Option Node))
    (values : List Expr) :
    Maps (List.map (Node.rename ρ)) (assignPairs t s line targets values)
      (assignPairs t' (s.rename ρ) line (targets.map (Option.map (Node.rename ρ))) values) := by
  induction targets generalizing values with
  | nil => exact .pure rfl
  | cons target? targets ih =>
    cases values with
    | nil => exact .pure rfl
    | cons value values =>
      refine (lowerValue_maps h value).bind fun value? => ?_
      -- One pair: what the target takes is decided by its type.
      have first : NodeMaps ρ
          (continueWith target? fun target => continueWith value? fun value => do
            let value? ← assignTo target.ty value "=" line
            return value?.map fun value => .statement .assign [target, value])
          (continueWith (target?.map (Node.rename ρ)) fun target =>
            continueWith (value?.map (Node.rename ρ)) fun value => do
              let value? ← assignTo target.ty value "=" line
              return value?.map fun value => .statement .assign [target, value]) := by
        refine .continueWith fun target => .continueWith fun value => ?_
        rw [Node.ty_rename]
        refine (assignTo_maps target.ty value "=").bind fun value? => .pure ?_
        cases value? <;> simp [NodeKind.rename]
      refine first.bind fun node? => (ih values).bind fun nodes => .pure ?_
      cases node? <;> simp

theorem lowerAssignment_maps (h : t.Renames ρ s t') (targets : List Target) (values : List Expr) :
    Maps (List.map (Node.rename ρ)) (lowerAssignment t s targets values line)
      (lowerAssignment t' (s.rename ρ) targets values line) := by
  refine (lowerTargets_maps h targets).bind fun nodes => ?_
  rw [resultCall?_renames h]
  split
  · rename_i callee args _
    refine (lowerResultCall_maps h callee args targets.length).bind fun call? => ?_
    cases call? with
    | none => exact .pure rfl
    | some call =>
      refine (matchResults_maps nodes call.2).bind fun list? => ?_
      cases list? with
      | none => exact .pure rfl
      | some list => exact .pure (by simp [rename_resultAssignment])
  · split
    · exact assignPairs_maps h nodes values
    · rw [checkExprs_maps h]
      exact .after fun _ => .after fun _ => .pure rfl

/-! ### Calls, input and output -/

theorem lowerWrite_maps (h : t.Renames ρ s t') (args : List Expr) :
    NodeMaps ρ (lowerWrite t s args line) (lowerWrite t' (s.rename ρ) args line) := by
  unfold lowerWrite
  split
  · rename_i arg
    refine (lowerValue_maps h arg).andThen fun value => ?_
    rw [Node.ty_rename]
    exact .ite (.pure (by simp [NodeKind.rename])) .reject
  · exact .reject

theorem lowerRead_maps (h : t.Renames ρ s t') (args : List Expr) :
    NodeMaps ρ (lowerRead t s args line) (lowerRead t' (s.rename ρ) args line) := by
  unfold lowerRead
  split
  · rename_i arg
    split
    · rename_i target _
      exact (lowerTarget_maps h target).andThen fun _ => .pure (by simp [NodeKind.rename])
    · refine (lowerExpr_maps h arg).bind fun node? => ?_
      cases node? with
      | none => exact .reject
      | some node =>
        simp only [Option.map_some, Node.ty_rename]
        exact .reject
  · exact .reject

theorem lowerCallStmt_maps (h : t.Renames ρ s t') (callee : Ident) (args : List Expr) :
    NodeMaps ρ (lowerCallStmt t s callee args line)
      (lowerCallStmt t' (s.rename ρ) callee args line) := by
  unfold lowerCallStmt
  rw [h.find?, Option.isSome_map]
  exact .ite (lowerWrite_maps h args)
    (.ite (lowerRead_maps h args)
      ((lowerValues_maps h args).bind fun _ => lowerCall_maps h callee _))

/-! ### Return -/

theorem matchReturns_maps (values : List (Option Node)) (results : List Ty) :
    Maps (Option.map (List.map (Node.rename ρ))) (matchReturns line values results)
      (matchReturns line (values.map (Option.map (Node.rename ρ))) results) := by
  induction values generalizing results with
  | nil => exact .pure rfl
  | cons value? values ih =>
    cases results with
    | nil => exact .pure rfl
    | cons result results =>
      have first : NodeMaps ρ (continueWith value? fun value => assignTo result value "return" line)
          (continueWith (value?.map (Node.rename ρ)) fun value =>
            assignTo result value "return" line) :=
        .continueWith fun value => assignTo_maps result value "return"
      refine first.bind fun value? => (ih results).bind fun rest? => .pure ?_
      cases value? <;> cases rest? <;> rfl

theorem lowerReturn_maps (h : t.Renames ρ s t') (values : List Expr) :
    NodeMaps ρ (lowerReturn t s values line) (lowerReturn t' (s.rename ρ) values line) := by
  cases s with
  | globals => exact .pure rfl
  | function i =>
    unfold lowerReturn
    dsimp only [Scope.rename]
    rcases h.get? i with ⟨found, found'⟩ | ⟨_, _, _, returns, _, _, found, found'⟩
    · rw [found, found']
      exact .pure rfl
    · rw [found, found']
      refine (lowerValues_maps h values).bind fun nodes => ?_
      refine .ite ((matchReturns_maps nodes returns).bind fun children? => .pure ?_) .reject
      cases children? <;> simp [NodeKind.rename]

/-! ### Statements -/

/-- A node that is there becomes one of a list. -/
theorem toList_rename (node? : Option Node) :
    (node?.map (Node.rename ρ)).toList = node?.toList.map (Node.rename ρ) := by
  cases node? <;> rfl

mutual

/-- A statement has the same nodes up to the indices of functions, with the same errors. -/
theorem lowerStmt_maps (stmt : Stmt) {t t' : Tables} (h : t.Renames ρ s t') :
    NodesMap ρ s t t' (lowerStmt s stmt) (lowerStmt (s.rename ρ) stmt) := by
  cases stmt with
  | var decl => exact lowerVarDecl_maps h decl
  | define names values line => exact lowerDeclaration_maps h names none values
  | assign targets values line => exact .get (.lift h (lowerAssignment_maps h targets values))
  | cond stmt => exact (lowerIf_maps stmt h).bind fun node? _ _ h => .pure h (toList_rename node?)
  | loop condition body line =>
    refine .get (.report (lowerCondition_maps h condition "for") ?_)
    refine (lowerBlock_maps body h).bind fun body _ _ h => .pure h ?_
    generalize Report.value _ = condition?
    cases condition? <;> simp [NodeKind.rename]
  | ret values line => exact .get (.report (lowerReturn_maps h values) (.pure h (toList_rename _)))
  | call callee args line =>
    exact .get (.report (lowerCallStmt_maps h callee args) (.pure h (toList_rename _)))
  | block body => exact (lowerBlock_maps body h).bind fun _ _ _ h => .pure h rfl

/-- A block has the same node up to the indices of functions, with the same errors. -/
theorem lowerBlock_maps (block : Block) {t t' : Tables} (h : t.Renames ρ s t') :
    LowerMaps ρ s t t' (Node.rename ρ) (lowerBlock s block) (lowerBlock (s.rename ρ) block) := by
  obtain ⟨statements, _, _⟩ := block
  exact LowerMaps.bind (lowerStmts_maps statements h) fun _ _ _ h =>
    .pure h (by simp [NodeKind.rename])

/-- Statements have the same nodes up to the indices of functions, with the same errors. -/
theorem lowerStmts_maps (stmts : List Stmt) {t t' : Tables} (h : t.Renames ρ s t') :
    NodesMap ρ s t t' (lowerStmts s stmts) (lowerStmts (s.rename ρ) stmts) := by
  cases stmts with
  | nil => exact .pure h rfl
  | cons stmt stmts => exact .append (lowerStmt_maps stmt h) fun _ _ h => lowerStmts_maps stmts h

/-- A conditional statement has the same node up to the indices of functions, with the same
errors. -/
theorem lowerIf_maps (stmt : IfStmt) {t t' : Tables} (h : t.Renames ρ s t') :
    LowerMaps ρ s t t' (Option.map (Node.rename ρ)) (lowerIf s stmt)
      (lowerIf (s.rename ρ) stmt) := by
  obtain ⟨condition, body, otherwise, line⟩ := stmt
  refine .get (.report (lowerCondition_maps h condition "if") ?_)
  generalize Report.value _ = condition?
  refine (lowerBlock_maps body h).bind fun body _ _ h => ?_
  refine (lowerElse_maps otherwise h).bind fun otherwise? _ _ h => .pure h ?_
  cases condition? <;> cases otherwise? <;> simp [NodeKind.rename]

/-- An else branch has the same nodes up to the indices of functions, with the same errors. -/
theorem lowerElse_maps (branch : ElseBranch) {t t' : Tables} (h : t.Renames ρ s t') :
    LowerMaps ρ s t t' (Option.map (List.map (Node.rename ρ))) (lowerElse s branch)
      (lowerElse (s.rename ρ) branch) := by
  cases branch with
  | absent => exact .pure h rfl
  | block body => exact (lowerBlock_maps body h).bind fun _ _ _ h => .pure h rfl
  | elseIf stmt =>
    refine (lowerIf_maps stmt h).bind fun node? _ _ h => .pure h ?_
    cases node? <;> rfl

end

end Analysis

end MiniGo
