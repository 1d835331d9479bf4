import MiniGo.Proofs.Code.Basic
import MiniGo.Proofs.WellTyped.Expr

/-!
# Well-typed nodes have code

Every node that is typed for its position has code there, whatever labels are free. What a code
relation asks for is what typing gives: entries, types that meet, and targets that can take their
values.
-/

namespace MiniGo

variable {ctx : Context} {s : Scope} {n : Node} {ty : Ty}

/-! ### Operators and types -/

/-- An arithmetic operator has an instruction. -/
theorem BinaryOp.arith?_of_isArithmetic {o : BinaryOp} (h : o.isArithmetic = true) :
    ∃ op, o.arith? = some op := by
  cases o <;> first | exact ⟨_, rfl⟩ | cases h

/-- A comparison operator has a condition. -/
theorem BinaryOp.condCode?_of_isComparison {o : BinaryOp} (h : o.isComparison = true) :
    ∃ code, o.condCode? = some code := by
  cases o <;> first | exact ⟨_, rfl⟩ | cases h

/-- A scalar type can be read. -/
theorem Library.scan?_of_isScalar (h : ty.isScalar = true) :
    ∃ method, Library.scan? ty = some method := by
  cases ty <;> first | exact ⟨_, rfl⟩ | cases h

/-- What a string takes is a string. -/
theorem Ty.Takes.string {value : Ty} (h : Ty.string.Takes value) : value = .string := by
  rcases h with rfl | ⟨h, -⟩
  · rfl
  · cases h

/-- A value has a scalar type. -/
theorem ValueTyped.isScalar {t : Tables} (h : ValueTyped t s n) (wf : t.WellFormed) :
    n.ty.isScalar = true := by
  cases h with
  | int _ number => exact Ty.isScalar_of_isNumeric number
  | float => rfl
  | bool => rfl
  | string => rfl
  | name _ _ scalar => exact scalar
  | element _ entry array _ => exact ((wf.var? entry).of_array array).2
  | arithmetic _ computes =>
    rcases computes with number | ⟨-, rfl⟩
    · exact Ty.isScalar_of_isNumeric number
    · rfl
  | call callee _ _ result => exact (wf.get? callee).returns _ (by simp [result])

/-! ### Values -/

theorem arithmetic_hasCode {o : BinaryOp} {left right : Node} {l r : List Instr}
    (family : o.isArithmetic = true) (computes : o.ComputesIn ty) (takesLeft : ty.Takes left.ty)
    (takesRight : ty.Takes right.ty) (leftCode : ValueCode ctx s left l)
    (rightCode : ValueCode ctx s right r) :
    ∃ code, ValueCode ctx s (.mk (.op o) ty [left, right]) code := by
  rcases computes with number | ⟨rfl, rfl⟩
  · obtain ⟨op, arith⟩ := BinaryOp.arith?_of_isArithmetic family
    exact ⟨_, .arithmetic arith number takesLeft takesRight leftCode rightCode⟩
  · exact ⟨_, .concat takesLeft.string takesRight.string leftCode rightCode⟩

/-- Values that have code have it one after the other, each converted to its type. -/
theorem arguments_haveCode {args : List Node} {tys : List Ty}
    (values : ∀ arg ∈ args, ∃ code, ValueCode ctx s arg code)
    (takes : List.Forall₂ Ty.Takes tys (args.map Node.ty)) :
    ∃ code, ArgumentsCode ctx s args tys code := by
  induction args generalizing tys with
  | nil =>
    cases takes
    exact ⟨[], .nil⟩
  | cons arg args ih =>
    obtain ⟨⟨code, first⟩, others⟩ := List.forall_mem_cons.1 values
    cases takes with
    | cons takesFirst takesOthers =>
      obtain ⟨rest, restCode⟩ := ih others takesOthers
      exact ⟨_, .cons takesFirst first restCode⟩

/-- Arguments of exactly the types of the parameters are taken by them. -/
theorem takes_of_eq {tys values : List Ty} (h : values = tys) :
    List.Forall₂ Ty.Takes tys values := by
  subst h
  induction values with
  | nil => exact .nil
  | cons ty tys ih => exact .cons (.inl rfl) ih

/-- Values that can be stored into places are taken by them. -/
theorem takes_of_stores {values : List Node} {tys : List Ty}
    (stores : List.Forall₂ Node.StoresInto values tys) :
    List.Forall₂ Ty.Takes tys (values.map Node.ty) :=
  List.forall₂_map_right_iff.2 (stores.flip.imp fun _ _ => Node.StoresInto.takes)

/-- A typed value has code. -/
theorem ValueTyped.hasCode (h : ValueTyped ctx.tables s n) : ∃ code, ValueCode ctx s n code := by
  induction h with
  | int fits number => exact ⟨_, .int fits number⟩
  | float => exact ⟨_, .float⟩
  | bool => exact ⟨_, .bool⟩
  | string => exact ⟨_, .string⟩
  | name sees entry scalar => exact ⟨_, .name sees entry scalar⟩
  | element sees entry array bound => exact ⟨_, .element sees entry array bound⟩
  | arithmetic family computes _ _ takesLeft takesRight ihl ihr =>
    obtain ⟨l, leftCode⟩ := ihl
    obtain ⟨r, rightCode⟩ := ihr
    exact arithmetic_hasCode family computes takesLeft takesRight leftCode rightCode
  | call callee _ types result ih =>
    obtain ⟨code, argsCode⟩ := arguments_haveCode ih (takes_of_eq types)
    exact ⟨_, .call callee result types argsCode⟩

/-- The arguments of a typed call have code. -/
theorem CallTyped.hasCode {i : Nat} {f : Function} {args : List Node}
    (h : CallTyped ctx.tables s i f args) : ∃ code, ArgumentsCode ctx s args f.params code :=
  arguments_haveCode (fun arg mem => (h.typed arg mem).hasCode) (takes_of_eq h.types)

/-! ### Conditions -/

/-- A typed condition has code. -/
theorem ConditionTyped.hasCode (h : ConditionTyped ctx.tables s n) (jump : Emission.Jump)
    (c : LabelCounters) : ∃ lines c', ConditionCode ctx s jump c n lines c' := by
  induction h generalizing jump c with
  | value typed truth =>
    obtain ⟨code, valueCode⟩ := typed.hasCode
    exact ⟨_, c, .value truth valueCode⟩
  | comparison family comparable left right takesLeft takesRight =>
    obtain ⟨l, leftCode⟩ := left.hasCode
    obtain ⟨r, rightCode⟩ := right.hasCode
    obtain ⟨code, cond⟩ := BinaryOp.condCode?_of_isComparison family
    exact ⟨_, c, .comparison cond comparable takesLeft takesRight leftCode rightCode⟩
  | @logical o left right family _ _ ihl ihr =>
    -- The left operand decides for the jump if it can make the whole condition what the jump asks
    -- for.
    by_cases decides : o = if jump.onTrue then .or else .and
    · obtain ⟨l, c', leftCode⟩ := ihl jump c
      obtain ⟨r, c'', rightCode⟩ := ihr jump c'
      exact ⟨_, c'', .both decides leftCode rightCode⟩
    · have skips : o = if jump.onTrue then .and else .or := by
        obtain ⟨onTrue, target⟩ := jump
        cases o <;> cases onTrue <;> simp_all [BinaryOp.isLogical]
      obtain ⟨l, c', leftCode⟩ := ihl ⟨!jump.onTrue, .join c.joins⟩ c.nextJoin.2
      obtain ⟨r, c'', rightCode⟩ := ihr jump c'
      exact ⟨_, c'', .skip skips leftCode rightCode⟩

/-! ### Targets -/

theorem PlaceTyped.hasCode (h : PlaceTyped ctx.tables s n) :
    ∃ before after, PlaceCode ctx s n before after := by
  cases h with
  | name sees entry scalar => exact ⟨_, _, .name sees entry scalar⟩
  | element sees entry array bound => exact ⟨_, _, .element sees entry array bound⟩

theorem TargetTyped.hasCode (h : TargetTyped ctx.tables s n) :
    ∃ before after, PlaceCode ctx s n before after := by
  cases h with
  | place typed => exact typed.hasCode
  | declared own entry scalar => exact ⟨_, _, .declared own entry scalar⟩

/-- Targets that take the results from the `k`-th on have code. -/
theorem results_haveCode {f : Function} {targets : List Node} {tys : List Ty} {k : Nat}
    (results : f.returns.drop k = tys)
    (typed : ∀ target ∈ targets, TargetTyped ctx.tables s target)
    (take : List.Forall₂ Ty.Takes (targets.map Node.ty) tys) :
    ∃ code, ResultsCode ctx s f k targets tys code := by
  induction targets generalizing tys k with
  | nil =>
    cases take
    exact ⟨[], .nil⟩
  | cons target targets ih =>
    obtain ⟨first, others⟩ := List.forall_mem_cons.1 typed
    cases take with
    | @cons _ ty _ tys takesFirst takesOthers =>
      have result : f.returns[k]? = some ty := by
        rw [← List.head?_drop, results]
        rfl
      have rest : f.returns.drop (k + 1) = tys := by
        rw [← List.tail_drop, results]
        rfl
      obtain ⟨before, after, place⟩ := first.hasCode
      obtain ⟨code, resultsCode⟩ := ih rest others takesOthers
      exact ⟨_, .cons takesFirst result place resultsCode⟩

/-! ### Statements -/

/-- Statements that have code have it one after the other. -/
theorem stmts_haveCode {nodes : List Node}
    (h : ∀ n ∈ nodes, ∀ exit? c, ∃ lines c', StmtCode ctx s exit? c n lines c')
    (c : LabelCounters) : ∃ lines c', StmtsCode ctx s c nodes lines c' := by
  induction nodes generalizing c with
  | nil => exact ⟨[], c, .nil⟩
  | cons n nodes ih =>
    obtain ⟨first, others⟩ := List.forall_mem_cons.1 h
    obtain ⟨lines, c', stmtCode⟩ := first none c
    obtain ⟨rest, c'', stmtsCode⟩ := ih others c'
    exact ⟨lines ++ rest, c'', .cons stmtCode stmtsCode⟩

/-- A typed statement has code. -/
theorem StmtTyped.hasCode (wf : ctx.tables.WellFormed) (h : StmtTyped ctx.tables s n) :
    ∀ exit? c, ∃ lines c', StmtCode ctx s exit? c n lines c' := by
  -- The parts are typed first, so their code is at hand; labels are taken in the order of emission.
  induction h with
  | declaration own entry => exact fun _ c => ⟨_, c, .declaration own entry⟩
  | assign target value stores =>
    obtain ⟨before, after, place⟩ := target.hasCode
    obtain ⟨code, valueCode⟩ := value.hasCode
    exact fun _ c => ⟨_, c, .assign stores.takes place valueCode⟩
  | assignResults call targets take =>
    obtain ⟨code, argsCode⟩ := call.hasCode
    obtain ⟨stores, results⟩ := results_haveCode List.drop_zero targets take
    exact fun _ c => ⟨_, c, .assignResults call.callee call.types argsCode results⟩
  | block _ ih =>
    intro exit? c
    obtain ⟨lines, c', body⟩ := stmts_haveCode ih c
    exact ⟨lines, c', .block body⟩
  | cond _ condition ih =>
    intro exit? c
    obtain ⟨jump, c', conditionCode⟩ :=
      condition.hasCode ⟨false, exit?.getD (.endOf c.conds)⟩ c.nextCond.2
    obtain ⟨lines, c'', bodyCode⟩ := stmts_haveCode ih c'
    exact ⟨_, c'', .cond conditionCode bodyCode⟩
  | condElse _ _ _ condition ih ih' =>
    intro exit? c
    obtain ⟨jump, c₁, conditionCode⟩ := condition.hasCode ⟨false, .elseOf c.conds⟩ c.nextCond.2
    obtain ⟨lines, c₂, bodyCode⟩ := stmts_haveCode ih c₁
    obtain ⟨others, c₃, otherwiseCode⟩ := ih' (some (exit?.getD (.endOf c.conds))) c₂
    exact ⟨_, c₃, .condElse conditionCode bodyCode otherwiseCode⟩
  | loop _ condition ih =>
    intro exit? c
    obtain ⟨jump, c', conditionCode⟩ := condition.hasCode ⟨false, .loopEnd c.loops⟩ c.nextLoop.2
    obtain ⟨lines, c'', bodyCode⟩ := stmts_haveCode ih c'
    exact ⟨_, c'', .loop conditionCode bodyCode⟩
  | call call =>
    obtain ⟨code, argsCode⟩ := call.hasCode
    exact fun _ c => ⟨_, c, .call call.callee call.types argsCode⟩
  | ret own caller typed stores =>
    obtain ⟨code, valuesCode⟩ := arguments_haveCode (fun n mem => (typed n mem).hasCode)
      (takes_of_stores stores)
    exact fun _ c => ⟨_, c, .ret own caller valuesCode⟩
  | @read target typed =>
    obtain ⟨before, after, place⟩ := typed.hasCode
    obtain ⟨method, scans⟩ := Library.scan?_of_isScalar (typed.value.isScalar wf)
    have used : ∀ v, target.kind ≠ .varDecl v := by cases typed <;> simp
    exact fun _ c => ⟨_, c, .read used place scans⟩
  | write typed =>
    obtain ⟨code, valueCode⟩ := typed.hasCode
    exact fun _ c => ⟨_, c, .write (typed.isScalar wf) valueCode⟩

end MiniGo
