import MiniGo.Proofs.Code.Basic

/-!
# Code generation writes the code of a node

Code generation succeeds on every node that has code, and writes exactly this code. The lemmas
follow the relations between nodes and code, from single variables up to statements:
`ValueCode.emits`, `ConditionCode.emits` and `StmtCode.emits`.
-/

namespace MiniGo

open Emission

/-! ### Successful emission -/

section Emits

variable {α β : Type} {x : Emit α} {f : α → Emit β} {a : α} {b : β} {c c' c'' : LabelCounters}
  {lines lines' : List Line}

/-- Code generation writes lines, advances the counters and gives a result. -/
def Emits (x : Emit α) (c : LabelCounters) (lines : List Line) (c' : LabelCounters) (a : α) :
    Prop :=
  x c = ⟨lines, c', .ok a⟩

theorem Emits.pure : Emits (Pure.pure a) c [] c a := rfl

theorem Emits.line {l : Line} : Emits (Emit.line l) c [l] c () := rfl

theorem Emits.instr {i : Instr} : Emits (Emit.instr i) c (asLines [i]) c () := rfl

theorem Emits.fresh {take : LabelCounters → α × LabelCounters} :
    Emits (Emit.fresh take) c [] (take c).2 (take c).1 := rfl

theorem Emits.bind (hx : Emits x c lines c' a) (hf : Emits (f a) c' lines' c'' b) :
    Emits (x >>= f) c (lines ++ lines') c'' b := by
  unfold Emits at *
  simp only [Emit.bind_apply, Emit.andThen, hx, hf]

/-- A look-up that succeeds writes nothing. -/
theorem Emits.require {e : GenError} {o : Option α} (h : o = some a) :
    Emits (Emit.require e o) c [] c a := by
  rw [h]
  rfl

/-- The same emission with its lines written in another way. -/
theorem Emits.cast (hx : Emits x c lines c' a) (h : lines = lines') : Emits x c lines' c' a :=
  h ▸ hx

end Emits

variable {ctx : Context} {s : Scope} {n : Node} {c : LabelCounters} {v : VarRef} {x : Variable}
  {i : Nat} {f : Function} {ty : Ty}

/-! ### Variables -/

theorem lookupVariable_emits (entry : ctx.tables.var? v = some x) :
    Emits (ctx.lookupVariable v) c [] c x := .require entry

theorem lookupFunction_emits (callee : ctx.tables.functions.get? i = some f) :
    Emits (ctx.lookupFunction i) c [] c f := .require callee

theorem globalField_emits (entry : ctx.tables.var? v = some x) :
    Emits (ctx.globalField v) c [] c (ctx.fieldOf x) :=
  (lookupVariable_emits entry).bind .pure

theorem resultField_emits {k : Nat} (callee : ctx.tables.functions.get? i = some f)
    (result : f.returns[k]? = some ty) :
    Emits (ctx.resultField i k) c [] c (ctx.resultOf f k ty) :=
  (lookupFunction_emits callee).bind ((Emits.require result).bind .pure)

theorem emitLoad_emits (entry : ctx.tables.var? v = some x) :
    Emits (emitLoad ctx v) c (asLines [ctx.loadInstr v x]) c () := by
  unfold emitLoad Context.loadInstr
  cases v.scope with
  | globals => exact (globalField_emits entry).bind .instr
  | function _ => exact (lookupVariable_emits entry).bind .instr

theorem emitStore_emits (entry : ctx.tables.var? v = some x) :
    Emits (emitStore ctx v) c (asLines [ctx.storeInstr v x]) c () := by
  unfold emitStore Context.storeInstr
  cases v.scope with
  | globals => exact (globalField_emits entry).bind .instr
  | function _ => exact (lookupVariable_emits entry).bind .instr

theorem emitElementAddress_emits {k : Nat} (entry : ctx.tables.var? v = some x) :
    Emits (emitElementAddress ctx v k) c (asLines (ctx.addressCode v x k)) c () :=
  (emitLoad_emits entry).bind .instr

theorem emitConvert_emits {value wanted : Ty} :
    Emits (emitConvert value wanted) c (asLines (convertCode value wanted)) c () := by
  unfold emitConvert convertCode
  split
  · exact .instr
  · exact .pure

theorem emitZero_emits : Emits (emitZero ty) c (asLines [zeroInstr ty]) c () := by
  cases ty <;> exact .instr

theorem emitDefault_emits (entry : ctx.tables.var? v = some x) :
    Emits (emitDefault ctx v) c (asLines (defaultCode x ++ [ctx.storeInstr v x])) c () := by
  refine (lookupVariable_emits entry).bind ?_
  unfold defaultCode
  cases x.array? with
  | some shape => exact Emits.instr.bind (Emits.instr.bind (emitStore_emits entry))
  | none => exact emitZero_emits.bind (emitStore_emits entry)

/-! ### Values -/

theorem emitCallWith_emits {arguments : List Ty → Emit Unit} {code : List Instr}
    (callee : ctx.tables.functions.get? i = some f)
    (args : ∀ {c}, Emits (arguments f.params) c (asLines code) c ()) :
    Emits (emitCallWith ctx i arguments) c (asLines (callCode ctx f code)) c () := by
  refine (lookupFunction_emits callee).bind ?_
  have call :
      Emits (do arguments f.params; .instr (.invokeStatic ⟨ctx.options.className, f.signature⟩)) c
        (asLines (code ++ [.invokeStatic ⟨ctx.options.className, f.signature⟩])) c () :=
    (args.bind .instr).cast (by simp)
  unfold callCode
  by_cases main : f.isEntryPoint = true
  · simp only [main, if_true]
    exact (Emits.instr.bind call).cast (by simp)
  · simp only [main]
    exact call.cast (by simp)

mutual

/-- The code of a value is what is emitted for it. -/
theorem ValueCode.emits {n : Node} {code : List Instr} :
    ValueCode ctx s n code → ∀ {c}, Emits (emitValue ctx n) c (asLines code) c ()
  | .int _ _, _ => .instr
  | .float, _ => .instr
  | .bool, _ => .instr
  | .string, _ => .instr
  | .name _ entry _, _ => emitLoad_emits entry
  | .element _ entry _ _, _ => ((emitElementAddress_emits entry).bind .instr).cast (by simp)
  | @ValueCode.arithmetic _ _ o op ty left right l r family number _ _ leftCode rightCode, _ => by
    have arithmetic : o.isArithmetic = true := by cases o <;> first | rfl | cases family
    have notString : ty ≠ .string := by rintro rfl; cases number
    simp only [emitValue, arithmetic, emitArithmetic, notString, family, if_true, if_false]
    exact (leftCode.emits.bind (emitConvert_emits.bind (rightCode.emits.bind
      (emitConvert_emits.bind .instr)))).cast (by simp)
  | .concat _ _ leftCode rightCode, _ => by
    simp only [emitValue, BinaryOp.isArithmetic, emitArithmetic, if_true]
    exact (leftCode.emits.bind (rightCode.emits.bind .instr)).cast (by simp)
  | .call callee result _ argsCode, c => by
    simp only [emitValue]
    have field := resultField_emits (k := 0) (c := c) callee (by rw [result]; rfl)
    exact ((emitCallWith_emits callee argsCode.emits).bind (field.bind .instr)).cast (by simp)

/-- The code of arguments is what is emitted for them. -/
theorem ArgumentsCode.emits {args : List Node} {tys : List Ty} {code : List Instr} :
    ArgumentsCode ctx s args tys code →
      ∀ {c}, Emits (emitArguments ctx args tys) c (asLines code) c ()
  | .nil, _ => .pure
  | .cons _ first others, _ => by
    simp only [emitArguments]
    exact (first.emits.bind (emitConvert_emits.bind others.emits)).cast (by simp)

end

theorem emitValueAs_emits {code : List Instr} (h : ValueCode ctx s n code) :
    Emits (emitValueAs ctx n ty) c (asLines (code ++ convertCode n.ty ty)) c () :=
  (h.emits.bind emitConvert_emits).cast (by simp)

theorem emitCall_emits {args : List Node} {code : List Instr}
    (callee : ctx.tables.functions.get? i = some f)
    (argsCode : ArgumentsCode ctx s args f.params code) :
    Emits (emitCall ctx i args) c (asLines (callCode ctx f code)) c () :=
  emitCallWith_emits callee argsCode.emits

/-! ### Conditions -/

theorem emitTest_emits {jump : Jump} :
    Emits (emitTest jump) c (asLines [.ifZero (if jump.onTrue then .ne else .eq) jump.target]) c
      () :=
  .instr

/-- A truth value is tested after it is pushed. -/
theorem emitCondition_value {jump : Jump} {code : List Instr} (h : ValueCode ctx s n code)
    (truth : n.ty = .bool) :
    emitCondition ctx jump n = emitValue ctx n >>= fun _ => emitTest jump := by
  cases h with
  | int _ number =>
    rw [Node.ty_mk] at truth
    subst truth
    cases number
  | float => cases truth
  | bool => rfl
  | string => cases truth
  | name =>
    simp only [emitCondition]
    exact if_pos truth
  | element =>
    simp only [emitCondition]
    exact if_pos truth
  | arithmetic _ number =>
    rw [Node.ty_mk] at truth
    subst truth
    cases number
  | concat => cases truth
  | call =>
    simp only [emitCondition]
    exact if_pos truth

theorem emitCompare_emits {kind : NodeKind} {o : BinaryOp} {code : CondCode} {target : Label}
    (comparable : ty.isComparable = true) :
    Emits (emitCompare kind o ty code target) c (asLines (compareCode o ty code target)) c () := by
  cases ty with
  | int => exact .instr
  | bool => exact .instr
  | float => exact Emits.instr.bind .instr
  | string => exact Emits.instr.bind .instr
  | _ => cases comparable

/-- The code of a condition is what is emitted for it. -/
theorem ConditionCode.emits {jump : Jump} {lines : List Line} {c c' : LabelCounters}
    (h : ConditionCode ctx s jump c n lines c') :
    Emits (emitCondition ctx jump n) c lines c' () := by
  induction h with
  | value truth valueCode =>
    rw [emitCondition_value valueCode truth]
    exact (valueCode.emits.bind emitTest_emits).cast (by simp)
  | @comparison _ _ o _ _ _ _ _ _ family comparable _ _ leftCode rightCode =>
    have comparison : o.isComparison = true := by cases o <;> first | rfl | cases family
    simp only [emitCondition, comparison, if_true, emitComparison, comparison?, family,
      Option.map_some]
    exact ((emitValueAs_emits leftCode).bind ((emitValueAs_emits rightCode).bind
      (emitCompare_emits comparable))).cast (by simp [Jump.code])
  | @both jump _ _ _ _ _ _ _ _ family _ _ ihl ihr =>
    obtain ⟨onTrue, target⟩ := jump
    subst family
    cases onTrue <;> exact ihl.bind ihr
  | @skip jump _ _ _ _ _ _ _ _ family _ _ ihl ihr =>
    obtain ⟨onTrue, target⟩ := jump
    subst family
    cases onTrue <;> exact .cast (.bind .fresh (ihl.bind (ihr.bind .line))) (by simp; rfl)

/-! ### Targets -/

theorem emitResultTarget_emits {k : Nat} {target : Node} {before after : List Instr}
    (callee : ctx.tables.functions.get? i = some f) (result : f.returns[k]? = some ty)
    (place : PlaceCode ctx s target before after) :
    Emits (emitResultTarget ctx i f.returns k target) c
      (asLines (before ++ [.getStatic (ctx.resultOf f k ty)] ++ convertCode ty target.ty ++ after))
      c () := by
  have field := resultField_emits (c := c) callee result
  cases place with
  | name _ entry _ =>
    simp only [emitResultTarget, result, Option.getD_some]
    exact (field.bind (Emits.instr.bind (emitConvert_emits.bind (emitStore_emits entry)))).cast
      (by simp)
  | declared _ entry _ =>
    simp only [emitResultTarget, result, Option.getD_some]
    exact (field.bind (Emits.instr.bind (emitConvert_emits.bind (emitStore_emits entry)))).cast
      (by simp)
  | element _ entry _ _ =>
    simp only [emitResultTarget, result, Option.getD_some]
    exact (field.bind ((emitElementAddress_emits entry).bind (Emits.instr.bind
      (emitConvert_emits.bind .instr)))).cast (by simp)

theorem ResultsCode.emits {targets : List Node} {tys : List Ty} {k : Nat} {code : List Instr}
    (h : ResultsCode ctx s f k targets tys code) (callee : ctx.tables.functions.get? i = some f) :
    Emits (emitResultTargetsFrom ctx i f.returns k targets) c (asLines code) c () := by
  induction h with
  | nil => exact .pure
  | cons _ result place _ ih =>
    exact ((emitResultTarget_emits callee result place).bind ih).cast (by simp)

theorem emitAssign_emits {target value : Node} {before code after : List Instr}
    (place : PlaceCode ctx s target before after) (valueCode : ValueCode ctx s value code) :
    Emits (emitAssign ctx .assign [target, value]) c
      (asLines (before ++ code ++ convertCode value.ty target.ty ++ after)) c () := by
  cases place with
  | name _ entry _ =>
    exact ((emitValueAs_emits valueCode).bind (emitStore_emits entry)).cast (by simp)
  | declared _ entry _ =>
    exact ((emitValueAs_emits valueCode).bind (emitStore_emits entry)).cast (by simp)
  | element _ entry _ _ =>
    exact ((emitElementAddress_emits entry).bind ((emitValueAs_emits valueCode).bind .instr)).cast
      (by simp)

/-! ### Input and return -/

theorem emitScan_emits {method : MethodRef} (scans : Library.scan? ty = some method) :
    Emits (emitScan ty) c (asLines (scanCode method)) c () :=
  (Emits.require scans).bind (Emits.instr.bind (Emits.instr.bind (Emits.instr.bind
    (Emits.instr.bind .instr))))

theorem emitRead_emits {target : Node} {method : MethodRef} {before after : List Instr}
    (used : ∀ v, target.kind ≠ .varDecl v) (place : PlaceCode ctx s target before after)
    (scans : Library.scan? target.ty = some method) :
    Emits (emitRead ctx .read [target]) c (asLines (before ++ scanCode method ++ after)) c () := by
  cases place with
  | name _ entry _ => exact ((emitScan_emits scans).bind (emitStore_emits entry)).cast (by simp)
  | declared => exact absurd rfl (used _)
  | element _ entry _ _ =>
    exact ((emitElementAddress_emits entry).bind ((emitScan_emits scans).bind .instr)).cast
      (by simp)

theorem emitResultStores_emits {k : Nat} (callee : ctx.tables.functions.get? i = some f)
    (bound : k ≤ f.returns.length) :
    Emits (emitResultStores ctx i k) c (asLines (resultStores ctx f (f.returns.take k))) c () := by
  induction k with
  | zero => exact .pure
  | succ k ih =>
    have result : f.returns[k]? = some f.returns[k] := List.getElem?_eq_getElem bound
    refine ((resultField_emits callee result).bind (Emits.instr.bind (ih (by omega)))).cast ?_
    rw [List.take_succ_eq_append_getElem bound]
    simp only [resultStores, List.mapIdx_append, List.length_take, List.mapIdx_cons,
      List.mapIdx_nil, List.reverse_append, List.reverse_singleton, List.map_append,
      List.nil_append, Nat.zero_add, Nat.min_eq_left (show k ≤ f.returns.length by omega)]

theorem ArgumentsCode.length_eq {values : List Node} {tys : List Ty} {code : List Instr} :
    ArgumentsCode ctx s values tys code → values.length = tys.length
  | .nil => rfl
  | .cons _ _ others => by simp [others.length_eq]

/-- All values of a return statement are computed before the first is stored. -/
theorem emitReturn_emits {values : List Node} {code : List Instr}
    (own : ctx.frame.function? = some i) (caller : ctx.tables.functions.get? i = some f)
    (valuesCode : ArgumentsCode ctx s values f.returns code) :
    Emits (emitReturn ctx .ret values) c
      (asLines (code ++ resultStores ctx f f.returns ++ [.ret])) c () := by
  have stored := emitResultStores_emits (c := c) caller (Nat.le_refl f.returns.length)
  rw [List.take_length] at stored
  unfold emitReturn
  simp only [own, valuesCode.length_eq]
  exact ((lookupFunction_emits caller).bind (valuesCode.emits.bind (stored.bind .instr))).cast
    (by simp)

/-! ### Statements -/

mutual

/-- The code of a statement is what is emitted for it. -/
theorem StmtCode.emits (stands : ctx.StandsIn s) {exit? : Option Label} {c c' : LabelCounters}
    {n : Node} {lines : List Line} :
    StmtCode ctx s exit? c n lines c' → Emits (emitBranch ctx exit? n) c lines c' ()
  | .declaration _ entry => emitDefault_emits entry
  | .assign _ place valueCode => emitAssign_emits place valueCode
  | .assignResults callee _ argsCode results => by
    simp only [emitBranch, emitAssign, Node.kind_mk, Node.children_mk]
    exact ((emitCall_emits callee argsCode).bind ((lookupFunction_emits callee).bind
      (results.emits callee))).cast (by simp)
  | .block body => body.emits stands
  -- A branch that is given a label to end at does not define one of its own.
  | .cond conditionCode bodyCode => by
    have body := bodyCode.emits stands
    simp only [emitBranch, emitIf]
    cases exit? with
    | none =>
      exact .cast (.bind .fresh (conditionCode.emits.bind (body.bind .line)))
        (by simp [LabelCounters.nextCond])
    | some exit => exact .cast (.bind .fresh (conditionCode.emits.bind (body.bind .pure))) (by simp)
  | .condElse conditionCode bodyCode otherwiseCode => by
    have body := bodyCode.emits stands
    have otherwise := otherwiseCode.emits stands
    simp only [emitBranch, emitIf]
    cases exit? with
    | none =>
      exact .cast (.bind .fresh (conditionCode.emits.bind (body.bind (Emits.instr.bind
        (Emits.line.bind (otherwise.bind .line)))))) (by simp [LabelCounters.nextCond])
    | some exit =>
      exact .cast (.bind .fresh (conditionCode.emits.bind (body.bind (Emits.instr.bind
        (Emits.line.bind (otherwise.bind .pure)))))) (by simp [LabelCounters.nextCond])
  | .loop conditionCode bodyCode => by
    have body := bodyCode.emits stands
    simp only [emitBranch, emitLoop]
    exact .cast (.bind .fresh (.bind .line (conditionCode.emits.bind (body.bind
      (Emits.instr.bind .line))))) (by simp [LabelCounters.nextLoop])
  | .call callee _ argsCode => emitCall_emits callee argsCode
  | .ret own caller valuesCode => by
    subst own
    obtain ⟨f', -, frame⟩ := stands
    exact emitReturn_emits (by rw [frame]; rfl) caller valuesCode
  | .read used place scans => emitRead_emits used place scans
  | .write _ valueCode => .cast (.bind .instr (valueCode.emits.bind .instr)) (by simp)

/-- The code of statements is what is emitted for them. -/
theorem StmtsCode.emits (stands : ctx.StandsIn s) {c c' : LabelCounters} {nodes : List Node}
    {lines : List Line} :
    StmtsCode ctx s c nodes lines c' → Emits (emitStmts ctx nodes) c lines c' ()
  | .nil => .pure
  | .cons first others => (first.emits stands).bind (others.emits stands)

end

end MiniGo
