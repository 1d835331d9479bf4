import MiniGo.Proofs.Simulation.ShortCircuit
import MiniGo.Proofs.Simulation.Value

/-!
# The code of conditions

The meaning of a condition is what short-circuit evaluation finds on the machine. So the code of a
condition goes to the target of its jump if the condition is as the jump says, and to its own end if
not. The main statement is `ConditionCode.runs`.
-/

namespace MiniGo

open Emission (Jump)

variable {P : Platform}

/-! ### Values and data in order -/

theorem intOrder_bool (a b : Bool) :
    intOrder (if a then 1 else 0) (if b then 1 else 0) = compare a.toNat b.toNat := by
  cases a <;> cases b <;> decide

theorem Value.order_datum {ty : Ty} {x y : Value P} {order : Option Ordering}
    (h : Value.order ty x y = some order) : Datum.order ty x.datum y.datum = some order := by
  cases ty with
  | bool =>
    cases x <;> cases y <;> cases h
    simp only [Value.datum, Datum.order, intOrder_bool]
  | _ => cases x <;> cases y <;> cases h <;> rfl

/-! ### Evaluation on the machine -/

/-- Short-circuit evaluation on the machine finds the meaning of a condition. -/
def ConditionFound (cls : ClassFile) (ctx : Context) (s : Scope) (call : Call P) (n : Node) :
    Prop :=
  ∀ ⦃floor σ locals mem b w⦄, evalCondition ctx.tables call σ.locals n σ.world = some (b, w) →
    Matches ctx s floor σ locals mem →
    ∃ mem', Matches ctx s floor ⟨σ.locals, w⟩ locals mem' ∧ Keeps ctx mem.heap.length mem mem' ∧
      ∀ stk, ShortCircuit cls ctx locals stk n mem b mem'

section

variable {cls : ClassFile} {ctx : Context} {s : Scope} {call : Call P} {ty : Ty}
  {n left right : Node}
  {is l r : List Instr}

theorem ConditionFound.value (valueRuns : ValueRuns cls ctx s call n is)
    (valueCode : ValueCode ctx s n is) (truth : n.ty = .bool) :
    ConditionFound cls ctx s call n := by
  intro floor σ locals mem b w eval inv
  have leaf := valueCode.kind_ne_op truth
  obtain ⟨mem', inv', keeps, -, does⟩ := valueRuns (evalCondition_value leaf eval) inv
  refine ⟨mem', inv', keeps, fun stk => ?_⟩
  have pushes : Pushes cls ctx locals n .bool stk mem (Value.bool b).datum mem' := by
    refine .of_does valueCode ?_
    rw [truth, show convertCode .bool .bool = [] from rfl, List.append_nil]
    exact does stk
  cases b <;> exact .value leaf pushes

/-- The code of an operand pushes its value, converted to the type of the operation. -/
theorem ValueRuns.pushes (runs : ValueRuns cls ctx s call n is) (valueCode : ValueCode ctx s n is)
    (takes : ty.Takes n.ty) {floor : Nat} {σ : Store P} {locals : Nat → Option (Datum P)}
    {mem : Memory P} {v u : Value P} {w : World P}
    (eval : evalValue ctx.tables call σ.locals n σ.world = some (v, w))
    (converted : v.convert n.ty ty = some u) (inv : Matches ctx s floor σ locals mem) :
    ∃ mem', Matches ctx s floor ⟨σ.locals, w⟩ locals mem' ∧ Keeps ctx mem.heap.length mem mem' ∧
      ∀ stk, Pushes cls ctx locals n ty stk mem u.datum mem' := by
  obtain ⟨mem', inv', keeps, typed, does⟩ := runs eval inv
  obtain ⟨-, converts⟩ := typed.convert cls takes converted
  exact ⟨mem', inv', keeps,
    fun stk => .of_does valueCode ((does stk).append (converts stk locals mem'))⟩

theorem ConditionFound.comparison {o : BinaryOp} {code : CondCode}
    (family : o.condCode? = some code) (takesLeft : ty.Takes left.ty)
    (takesRight : ty.Takes right.ty) (leftCode : ValueCode ctx s left l)
    (rightCode : ValueCode ctx s right r) (leftRuns : ValueRuns cls ctx s call left l)
    (rightRuns : ValueRuns cls ctx s call right r) :
    ConditionFound cls ctx s call (.mk (.op o) ty [left, right]) := by
  intro floor σ locals mem b w eval inv
  obtain ⟨x, y, order, evalOperands, ordered, rfl⟩ :=
    evalCondition_comparison (isLogical_of_condCode? family) eval
  obtain ⟨_, w₁, _, _, evalLeft, convertLeft, evalOthers, same⟩ := evalArguments_cons evalOperands
  obtain ⟨_, w₂, _, _, evalRight, convertRight, evalNone, rest⟩ := evalArguments_cons evalOthers
  obtain ⟨rfl, rfl⟩ := evalArguments_nil evalNone
  cases same
  cases rest
  obtain ⟨mem₁, inv₁, keeps₁, pushesLeft⟩ :=
    leftRuns.pushes leftCode takesLeft evalLeft convertLeft inv
  obtain ⟨mem₂, inv₂, keeps₂, pushesRight⟩ :=
    rightRuns.pushes rightCode takesRight evalRight convertRight inv₁
  exact ⟨mem₂, inv₂, keeps₁.append keeps₂, fun stk => .comparison (isComparison_of_condCode? family)
    (pushesLeft stk) (pushesRight _) (Value.order_datum ordered)⟩

theorem ConditionFound.logical {o : BinaryOp} (family : o.isLogical = true)
    (leftFound : ConditionFound cls ctx s call left)
    (rightFound : ConditionFound cls ctx s call right) :
    ConditionFound cls ctx s call (.mk (.op o) ty [left, right]) := by
  intro floor σ locals mem b w eval inv
  obtain ⟨b₁, w₁, evalLeft, result⟩ := evalCondition_logical family eval
  obtain ⟨mem₁, inv₁, keeps₁, found₁⟩ := leftFound evalLeft inv
  by_cases decides : b₁ = (o == .or)
  · rw [if_pos decides] at result
    obtain ⟨rfl, rfl⟩ := result
    subst decides
    exact ⟨mem₁, inv₁, keeps₁, fun stk => .decided family (found₁ stk)⟩
  · rw [if_neg decides] at result
    obtain ⟨mem₂, inv₂, keeps₂, found₂⟩ := rightFound result inv₁
    obtain rfl : b₁ = (o != .or) := Bool.eq_not_of_ne decides
    exact ⟨mem₂, inv₂, keeps₁.append keeps₂, fun stk => .undecided family (found₁ stk) (found₂ stk)⟩

/-- Short-circuit evaluation finds the meaning of every condition that has code. -/
theorem ConditionCode.found (linked : Linked cls ctx) (calls : CallRuns cls ctx call) {jump : Jump}
    {c c' : LabelCounters} {lines : List Line} (h : ConditionCode ctx s jump c n lines c') :
    ConditionFound cls ctx s call n := by
  induction h with
  | value truth valueCode => exact .value (valueCode.runs linked calls) valueCode truth
  | comparison family comparable takesLeft takesRight leftCode rightCode =>
    exact .comparison family takesLeft takesRight leftCode rightCode (leftCode.runs linked calls)
      (rightCode.runs linked calls)
  | both family _ _ ihl ihr => exact .logical (by rw [family]; split <;> rfl) ihl ihr
  | skip family _ _ ihl ihr => exact .logical (by rw [family]; split <;> rfl) ihl ihr

/-! ### Runs -/

/-- Lines jump if a condition is as the jump says, and go to their end if not. -/
def ConditionRuns (cls : ClassFile) (ctx : Context) (s : Scope) (call : Call P) (jump : Jump)
    (n : Node) (lines : List Line) : Prop :=
  ∀ ⦃floor σ locals mem b w⦄, evalCondition ctx.tables call σ.locals n σ.world = some (b, w) →
    Matches ctx s floor σ locals mem →
    ∃ mem', Matches ctx s floor ⟨σ.locals, w⟩ locals mem' ∧ Keeps ctx mem.heap.length mem mem' ∧
      ∀ ⦃code pc target⦄ callers, LabelsUnique code → Seg code pc lines →
        code[target]? = some (.label jump.target) →
        Reaches cls (Work.at ⟨[], locals, mem⟩ code pc callers)
          (Work.at ⟨[], locals, mem'⟩ code (if b = jump.onTrue then target
            else pc + lines.length) callers)

/-- The code of a condition jumps or falls through as the condition says. -/
theorem ConditionCode.runs (linked : Linked cls ctx) (calls : CallRuns cls ctx call) {jump : Jump}
    {c c' : LabelCounters} {lines : List Line} (h : ConditionCode ctx s jump c n lines c') :
    ConditionRuns cls ctx s call jump n lines := by
  intro floor σ locals mem b w eval inv
  obtain ⟨mem', inv', keeps, found⟩ := h.found linked calls eval inv
  refine ⟨mem', inv', keeps, fun code pc target callers unique seg placed => ?_⟩
  exact h.branches_shortCircuit (found []) callers seg (.of_unique unique seg)
    (unique.findIdx? placed)

end

end MiniGo
