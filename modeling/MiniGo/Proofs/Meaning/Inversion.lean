import MiniGo.Proofs.Meaning.Program

/-!
# What a run has done

If a node has a value, its children have values; if a statement has run, so have its parts. For each
kind of node there is one lemma, which says all that can have happened.
-/

namespace MiniGo

variable {P : Platform}

/-! ### Values and conditions -/

section

variable {t : Tables} {call : Call P} {locals : Nat → Cell P} {ty : Ty} {tys : List Ty}
  {node : Node}
  {nodes : List Node} {w w' : World P} {v : Value P} {vs : List (Value P)}

theorem evalArguments_nil (h : evalArguments t call locals [] [] w = some (vs, w')) :
    vs = [] ∧ w' = w := by
  simp only [evalArguments, Option.some.injEq, Prod.mk.injEq] at h
  exact ⟨h.1.symm, h.2.symm⟩

theorem evalArguments_cons
    (h : evalArguments t call locals (node :: nodes) (ty :: tys) w = some (vs, w')) :
    ∃ v w₁ u us, evalValue t call locals node w = some (v, w₁) ∧ v.convert node.ty ty = some u ∧
      evalArguments t call locals nodes tys w₁ = some (us, w') ∧ vs = u :: us := by
  simp only [evalArguments, Option.bind_eq_bind, Option.bind_eq_some_iff, Prod.exists,
    Option.pure_def, Option.some.injEq, Prod.mk.injEq] at h
  obtain ⟨v, w₁, first, u, converted, us, w₂, others, rfl, rfl⟩ := h
  exact ⟨v, w₁, u, us, first, converted, others, rfl⟩

theorem evalValue_op {o : BinaryOp}
    (h : evalValue t call locals (.mk (.op o) ty nodes) w = some (v, w')) :
    ∃ op l r, o.arith? = some op ∧
      evalArguments t call locals nodes [ty, ty] w = some ([l, r], w') ∧
      Value.arith op ty l r = some v := by
  simp only [evalValue, Option.bind_eq_bind, Option.bind_eq_some_iff, Prod.exists] at h
  obtain ⟨op, family, us, w₁, operands, result⟩ := h
  split at result
  · rename_i l r w₂ pair
    cases pair
    simp only [Option.map_eq_some_iff, Prod.mk.injEq] at result
    obtain ⟨_, computed, rfl, rfl⟩ := result
    exact ⟨op, l, r, family, operands, computed⟩
  · cases result

/-- A comparison has no value. -/
example : evalValue t call locals (.mk (.op .eq) ty nodes) w = none := by cbv

theorem evalValue_call {i : Nat}
    (h : evalValue t call locals (.mk (.call i) ty nodes) w = some (v, w')) :
    ∃ f args w₁, t.functions.get? i = some f ∧
      evalArguments t call locals nodes f.params w = some (args, w₁) ∧
      call i args w₁ = some ([v], w') := by
  simp only [evalValue, Option.bind_eq_bind, Option.bind_eq_some_iff, Prod.exists] at h
  obtain ⟨f, callee, args, w₁, passed, us, w₂, called, result⟩ := h
  split at result
  · rename_i pair
    cases pair
    cases result
    exact ⟨f, args, w₁, callee, passed, called⟩
  · cases result

theorem evalCondition_comparison {o : BinaryOp} {b : Bool} (family : o.isLogical = false)
    (h : evalCondition t call locals (.mk (.op o) ty nodes) w = some (b, w')) :
    ∃ l r order, evalArguments t call locals nodes [ty, ty] w = some ([l, r], w') ∧
      Value.order ty l r = some order ∧ b = o.holds order := by
  simp only [evalCondition, family, Bool.false_eq_true, if_false, Option.bind_eq_bind,
    Option.bind_eq_some_iff, Prod.exists] at h
  obtain ⟨us, w₁, operands, result⟩ := h
  split at result
  · rename_i l r w₂ pair
    cases pair
    simp only [Option.map_eq_some_iff, Prod.mk.injEq] at result
    obtain ⟨order, compared, rfl, rfl⟩ := result
    exact ⟨l, r, order, operands, compared, rfl⟩
  · cases result

/-- A logical operation without operands has no truth value. -/
example : evalCondition t call locals (.mk (.op .and) ty []) w = none := by cbv

theorem evalCondition_logical {o : BinaryOp} {b : Bool} {left right : Node}
    (family : o.isLogical = true)
    (h : evalCondition t call locals (.mk (.op o) ty [left, right]) w = some (b, w')) :
    ∃ b₁ w₁, evalCondition t call locals left w = some (b₁, w₁) ∧
      if b₁ = (o == .or) then b = b₁ ∧ w' = w₁
      else evalCondition t call locals right w₁ = some (b, w') := by
  simp only [evalCondition, family, if_true, evalLogical, Option.bind_eq_bind,
    Option.bind_eq_some_iff, Prod.exists] at h
  obtain ⟨b₁, w₁, first, result⟩ := h
  refine ⟨b₁, w₁, first, ?_⟩
  split
  · rename_i decides
    rw [if_pos decides] at result
    cases result
    exact ⟨rfl, rfl⟩
  · rename_i decides
    rwa [if_neg decides] at result

/-- A condition that is no operation is a value. -/
theorem evalCondition_value {b : Bool} (leaf : ∀ o, node.kind ≠ .op o)
    (h : evalCondition t call locals node w = some (b, w')) :
    evalValue t call locals node w = some (.bool b, w') := by
  obtain ⟨kind, ty, children⟩ := node
  cases kind with
  | op o => exact absurd rfl (leaf o)
  | _ =>
    simp only [evalCondition, Option.bind_eq_bind, Option.bind_eq_some_iff, Prod.exists,
      Option.pure_def, Option.some.injEq, Prod.mk.injEq] at h
    obtain ⟨v, w₁, value, truth, isTruth, rfl, rfl⟩ := h
    cases v with
    | bool =>
      cases isTruth
      exact value
    | _ => cases isTruth

end

/-! ### Statements and calls -/

section

variable {p : Program} {returns : List Ty} {fuel i : Nat} {ty : Ty} {σ σ' : Store P} {flow : Flow P}
  {target value body otherwise condition : Node} {nodes targets : List Node}

theorem execStmt_declaration {v : VarRef}
    (h : execStmt p returns (fuel + 1) (.mk (.varDecl v) ty nodes) σ = some (flow, σ')) :
    ∃ x c, p.tables.var? v = some x ∧ Cell.declared? x = some c ∧ flow = .next ∧
      σ' = σ.setCell v c := by
  simp only [execStmt, Option.bind_eq_bind, Option.bind_eq_some_iff, Option.pure_def,
    Option.some.injEq, Prod.mk.injEq] at h
  obtain ⟨x, entry, c, declared, rfl, rfl⟩ := h
  exact ⟨x, c, entry, declared, rfl, rfl⟩

/-- Without fuel nothing runs. -/
example : execStmt p returns 0 body σ = none := by cbv

theorem execStmt_assign (single : target.kind ≠ .varList)
    (h : execStmt p returns (fuel + 1) (.mk .assign ty [target, value]) σ = some (flow, σ')) :
    ∃ v w u, evalValue p.tables (callFunction p fuel) σ.locals value σ.world = some (v, w) ∧
      v.convert value.ty target.ty = some u ∧ Store.assign ⟨σ.locals, w⟩ target u = some σ' ∧
      flow = .next := by
  simp only [execStmt] at h
  split at h
  · rename_i list _
    exact absurd list single
  · simp only [Option.bind_eq_bind, Option.bind_eq_some_iff, Prod.exists, Option.pure_def,
      Option.some.injEq, Prod.mk.injEq] at h
    obtain ⟨v, w, evaluated, u, converted, _, assigned, rfl, rfl⟩ := h
    exact ⟨v, w, u, evaluated, converted, assigned, rfl⟩

theorem execStmt_assignResults {ty' ty'' : Ty}
    (h : execStmt p returns (fuel + 1)
      (.mk .assign ty [.mk .varList ty' targets, .mk (.call i) ty'' nodes]) σ = some (flow, σ')) :
    ∃ f args w results w', p.tables.functions.get? i = some f ∧
      evalArguments p.tables (callFunction p fuel) σ.locals nodes f.params σ.world =
        some (args, w) ∧
      callFunction p fuel i args w = some (results, w') ∧
      Store.assignResults ⟨σ.locals, w'⟩ targets f.returns results = some σ' ∧ flow = .next := by
  simp only [execStmt, Node.kind_mk, Node.children_mk, Option.bind_eq_bind, Option.bind_eq_some_iff,
    Prod.exists, Option.pure_def, Option.some.injEq, Prod.mk.injEq] at h
  obtain ⟨f, callee, args, w, passed, results, w', called, _, assigned, rfl, rfl⟩ := h
  exact ⟨f, args, w, results, w', callee, passed, called, assigned, rfl⟩

theorem execStmt_cond
    (h : execStmt p returns (fuel + 1) (.mk .cond ty [body, condition]) σ = some (flow, σ')) :
    ∃ b w, evalCondition p.tables (callFunction p fuel) σ.locals condition σ.world = some (b, w) ∧
      if b then execStmt p returns fuel body ⟨σ.locals, w⟩ = some (flow, σ')
      else flow = .next ∧ σ' = ⟨σ.locals, w⟩ := by
  simp only [execStmt, Option.bind_eq_bind, Option.bind_eq_some_iff, Prod.exists] at h
  obtain ⟨b, w, evaluated, result⟩ := h
  refine ⟨b, w, evaluated, ?_⟩
  cases b with
  | true => exact result
  | false =>
    cases result
    exact ⟨rfl, rfl⟩

theorem execStmt_condElse
    (h : execStmt p returns (fuel + 1) (.mk .cond ty [body, otherwise, condition]) σ =
      some (flow, σ')) :
    ∃ b w, evalCondition p.tables (callFunction p fuel) σ.locals condition σ.world = some (b, w) ∧
      execStmt p returns fuel (if b then body else otherwise) ⟨σ.locals, w⟩ = some (flow, σ') := by
  simp only [execStmt, Option.bind_eq_bind, Option.bind_eq_some_iff, Prod.exists] at h
  exact h

theorem execStmt_loop
    (h : execStmt p returns (fuel + 1) (.mk .repeat_ ty [body, condition]) σ = some (flow, σ')) :
    ∃ b w, evalCondition p.tables (callFunction p fuel) σ.locals condition σ.world = some (b, w) ∧
      if b then
        (∃ σ₁, execStmt p returns fuel body ⟨σ.locals, w⟩ = some (.next, σ₁) ∧
          execStmt p returns fuel (.mk .repeat_ ty [body, condition]) σ₁ = some (flow, σ')) ∨
        ∃ results, execStmt p returns fuel body ⟨σ.locals, w⟩ = some (.returned results, σ') ∧
          flow = .returned results
      else flow = .next ∧ σ' = ⟨σ.locals, w⟩ := by
  simp only [execStmt, Option.bind_eq_bind, Option.bind_eq_some_iff, Prod.exists] at h
  obtain ⟨b, w, evaluated, result⟩ := h
  refine ⟨b, w, evaluated, ?_⟩
  cases b with
  | true =>
    simp only [if_true, Option.bind_eq_some_iff, Prod.exists] at result ⊢
    obtain ⟨flow₁, σ₁, first, rest⟩ := result
    cases flow₁ with
    | next => exact .inl ⟨σ₁, first, rest⟩
    | returned results =>
      cases rest
      exact .inr ⟨results, first, rfl⟩
  | false =>
    cases result
    exact ⟨rfl, rfl⟩

theorem execStmt_call
    (h : execStmt p returns (fuel + 1) (.mk (.call i) ty nodes) σ = some (flow, σ')) :
    ∃ f args w results w', p.tables.functions.get? i = some f ∧
      evalArguments p.tables (callFunction p fuel) σ.locals nodes f.params σ.world =
        some (args, w) ∧
      callFunction p fuel i args w = some (results, w') ∧ flow = .next ∧ σ' = ⟨σ.locals, w'⟩ := by
  simp only [execStmt, Option.bind_eq_bind, Option.bind_eq_some_iff, Prod.exists, Option.pure_def,
    Option.some.injEq, Prod.mk.injEq] at h
  obtain ⟨f, callee, args, w, passed, results, w', called, rfl, rfl⟩ := h
  exact ⟨f, args, w, results, w', callee, passed, called, rfl, rfl⟩

theorem execStmt_ret (h : execStmt p returns (fuel + 1) (.mk .ret ty nodes) σ = some (flow, σ')) :
    ∃ results w,
      evalArguments p.tables (callFunction p fuel) σ.locals nodes returns σ.world =
        some (results, w) ∧
      flow = .returned results ∧ σ' = ⟨σ.locals, w⟩ := by
  simp only [execStmt, Option.bind_eq_bind, Option.bind_eq_some_iff, Prod.exists, Option.pure_def,
    Option.some.injEq, Prod.mk.injEq] at h
  obtain ⟨results, w, evaluated, rfl, rfl⟩ := h
  exact ⟨results, w, evaluated, rfl, rfl⟩

theorem execStmt_read
    (h : execStmt p returns (fuel + 1) (.mk .read ty [target]) σ = some (flow, σ')) :
    ∃ v input, Value.read target.ty σ.world.input = some (v, input) ∧
      Store.assign ⟨σ.locals, { σ.world with input }⟩ target v = some σ' ∧ flow = .next := by
  simp only [execStmt, Option.bind_eq_bind, Option.bind_eq_some_iff, Prod.exists, Option.pure_def,
    Option.some.injEq, Prod.mk.injEq] at h
  obtain ⟨v, input, scanned, _, assigned, rfl, rfl⟩ := h
  exact ⟨v, input, scanned, assigned, rfl⟩

theorem execStmt_write
    (h : execStmt p returns (fuel + 1) (.mk .write ty [value]) σ = some (flow, σ')) :
    ∃ v w, evalValue p.tables (callFunction p fuel) σ.locals value σ.world = some (v, w) ∧
      v.isPrintable = true ∧ flow = .next ∧
      σ' = ⟨σ.locals, { w with output := v :: w.output }⟩ := by
  simp only [execStmt, Option.bind_eq_bind, Option.bind_eq_some_iff, Prod.exists] at h
  obtain ⟨v, w, evaluated, result⟩ := h
  by_cases printable : v.isPrintable = true
  · rw [if_pos printable] at result
    cases result
    exact ⟨v, w, evaluated, printable, rfl, rfl⟩
  · rw [if_neg printable] at result
    cases result

theorem execStmts_cons {node : Node}
    (h : execStmts p returns (fuel + 1) (node :: nodes) σ = some (flow, σ')) :
    (∃ σ₁, execStmt p returns fuel node σ = some (.next, σ₁) ∧
      execStmts p returns fuel nodes σ₁ = some (flow, σ')) ∨
    ∃ results, execStmt p returns fuel node σ = some (.returned results, σ') ∧
      flow = .returned results := by
  simp only [execStmts, Option.bind_eq_bind, Option.bind_eq_some_iff, Prod.exists] at h
  obtain ⟨flow₁, σ₁, first, rest⟩ := h
  cases flow₁ with
  | next => exact .inl ⟨σ₁, first, rest⟩
  | returned results =>
    cases rest
    exact .inr ⟨results, first, rfl⟩

theorem callFunction_succ {args results : List (Value P)} {w w' : World P}
    (h : callFunction p (fuel + 1) i args w = some (results, w')) :
    ∃ f body flow σ, p.tables.functions.get? i = some f ∧ p.body? i = some body ∧
      execStmt p f.returns fuel body (.enter args w) = some (flow, σ) ∧ w' = σ.world ∧
      (flow = .returned results ∨ flow = .next ∧ f.returns = [] ∧ results = []) := by
  simp only [callFunction, Option.bind_eq_bind, Option.bind_eq_some_iff, Prod.exists] at h
  obtain ⟨f, callee, body, found, flow, σ, run, result⟩ := h
  refine ⟨f, body, flow, σ, callee, found, run, ?_⟩
  cases flow with
  | returned results =>
    cases result
    exact ⟨rfl, .inl rfl⟩
  | next =>
    dsimp only at result
    by_cases noResults : f.returns.isEmpty = true
    · rw [if_pos noResults] at result
      cases result
      exact ⟨rfl, .inr ⟨rfl, List.isEmpty_iff.1 noResults, rfl⟩⟩
    · rw [if_neg noResults] at result
      cases result

end

end MiniGo
