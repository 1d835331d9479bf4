import MiniGo.Proofs.Code.Emission
import MiniGo.Proofs.Code.Typed
import MiniGo.Proofs.Machine.Run

/-!
# Short-circuit evaluation

The code of a condition evaluates its operands from left to right and leaves the stack as it was.
The right operand of a logical operator is left out if the left one decides. Then the code goes to
the target of its jump if the condition is as the jump says, and to its own end if not.

* `Pushes`: what the code of an operand does, in any state of the machine.
* `ShortCircuit`: the truth value of a condition, said operand by operand.
* `ConditionCode.branches_shortCircuit`: the code of a condition goes where its truth value says.
* `emitCondition_branches`: this is so for what code generation writes, for each typed condition and
  each jump.
-/

namespace MiniGo

open Emission (Jump emitCondition emitValueAs)

variable {P : Platform}

/-! ### Conditions of jumps -/

theorem CondCode.holds_negate (code : CondCode) (o : Ordering) :
    code.negate.holds o = !code.holds o := by
  cases code <;> cases o <;> rfl

/-- The condition of a comparison says the same as its operator. -/
theorem BinaryOp.holds_condCode {o : BinaryOp} {code : CondCode} (h : o.condCode? = some code)
    (order : Ordering) : code.holds order = o.holds (some order) := by
  cases o <;> cases h <;> cases order <;> rfl

/-- If two floats have no order, only `!=` holds. -/
theorem BinaryOp.holds_unordered {o : BinaryOp} {code : CondCode} (h : o.condCode? = some code) :
    code.holds (if o == .lt || o == .le then .gt else .lt) = o.holds none := by
  cases o <;> cases h <;> rfl

theorem intOrder_word (o : Ordering) : intOrder (Ordering.word o) 0 = o := by
  cases o <;> decide

theorem Emission.Jump.holds_code (jump : Jump) (code : CondCode) (o : Ordering) :
    (jump.code code).holds o = (code.holds o == jump.onTrue) := by
  obtain ⟨onTrue, target⟩ := jump
  cases onTrue <;> simp [Jump.code, CondCode.holds_negate]

/-- A truth value is true unless it is zero. -/
theorem Emission.Jump.holds_truth (onTrue : Bool) (i : BitVec 32) :
    (if onTrue then CondCode.ne else .eq).holds (intOrder i 0) = ((i != 0) == onTrue) := by
  by_cases zero : i = 0
  · subst zero
    cases onTrue <;> decide
  · have order : (intOrder i 0 == .eq) = false := beq_eq_false_iff_ne.2 fun same =>
      zero (BitVec.eq_of_toInt_eq (Std.LawfulEqOrd.compare_eq_iff_eq.1 same))
    have truth : (i != 0) = true := bne_iff_ne.2 zero
    rw [truth]
    cases onTrue with
    | true => exact congrArg not order
    | false => exact order

/-! ### Operands and conditions -/

/-- The order of two data that are compared in a type. It may be undefined for floats. -/
def Datum.order : Ty → Datum P → Datum P → Option (Option Ordering)
  | .int, .int i, .int j | .bool, .int i, .int j => some (some (intOrder i j))
  | .float, .float x, .float y => some (P.floatOrder x y)
  | .string, .text s, .text t => some (some (intOrder (P.compareTo s t) 0))
  | _, _, _ => none

/-- The code of a node as a value of a type, wherever it stands, leads from one memory to another
and pushes a datum. -/
def Pushes (cls : ClassFile) (ctx : Context) (locals : Nat → Option (Datum P)) (n : Node) (ty : Ty)
    (stk : List (Datum P)) (mem : Memory P) (d : Datum P) (mem' : Memory P) : Prop :=
  ∃ code, (∀ c, Emits (emitValueAs ctx n ty) c (asLines code) c ()) ∧
    Does cls code ⟨stk, locals, mem⟩ ⟨d :: stk, locals, mem'⟩

/-- The truth value of a condition, and the memory behind all operands that it needs. -/
inductive ShortCircuit (cls : ClassFile) (ctx : Context) (locals : Nat → Option (Datum P))
    (stk : List (Datum P)) : Node → Memory P → Bool → Memory P → Prop
  | value {n : Node} {mem mem' : Memory P} {i : BitVec 32} (leaf : ∀ o, n.kind ≠ .op o)
      (pushes : Pushes cls ctx locals n .bool stk mem (.int i) mem') :
      ShortCircuit cls ctx locals stk n mem (i != 0) mem'
  | comparison {o : BinaryOp} {ty : Ty} {left right : Node} {mem mem₁ mem₂ : Memory P}
      {x y : Datum P} {order : Option Ordering} (family : o.isComparison = true)
      (leftPushes : Pushes cls ctx locals left ty stk mem x mem₁)
      (rightPushes : Pushes cls ctx locals right ty (x :: stk) mem₁ y mem₂)
      (ordered : Datum.order ty x y = some order) :
      ShortCircuit cls ctx locals stk (.mk (.op o) ty [left, right]) mem (o.holds order) mem₂
  | decided {o : BinaryOp} {ty : Ty} {left right : Node} {mem mem' : Memory P}
      (family : o.isLogical = true)
      (leftValue : ShortCircuit cls ctx locals stk left mem (o == .or) mem') :
      ShortCircuit cls ctx locals stk (.mk (.op o) ty [left, right]) mem (o == .or) mem'
  | undecided {o : BinaryOp} {ty : Ty} {left right : Node} {mem mem₁ mem₂ : Memory P} {b : Bool}
      (family : o.isLogical = true)
      (leftValue : ShortCircuit cls ctx locals stk left mem (o != .or) mem₁)
      (rightValue : ShortCircuit cls ctx locals stk right mem₁ b mem₂) :
      ShortCircuit cls ctx locals stk (.mk (.op o) ty [left, right]) mem b mem₂

/-! ### Labels in place -/

/-- The labels of lines that stand at a position are found there: none of them stands further up. -/
def LabelsFound (code : List Line) (pc : Nat) (lines : List Line) : Prop :=
  ∀ ⦃k : Nat⦄ ⦃l : Label⦄, lines[k]? = some (.label l) →
    code.findIdx? (Activation.isLabel l) = some (pc + k)

namespace LabelsFound

variable {code ls ms : List Line} {pc : Nat}

theorem left (h : LabelsFound code pc (ls ++ ms)) : LabelsFound code pc ls := by
  intro k l found
  exact h (by rw [List.getElem?_append_left (List.getElem?_eq_some_iff.1 found).1, found])

theorem right (h : LabelsFound code pc (ls ++ ms)) : LabelsFound code (pc + ls.length) ms := by
  intro k l found
  rw [Nat.add_assoc]
  refine h ?_
  rw [List.getElem?_append_right (Nat.le_add_right _ _), Nat.add_sub_cancel_left, found]

theorem head {l : Label} (h : LabelsFound code pc (.label l :: ls)) :
    code.findIdx? (Activation.isLabel l) = some pc := h (k := 0) rfl

theorem of_unique (unique : LabelsUnique code) (seg : Seg code pc ls) : LabelsFound code pc ls := by
  intro k l found
  refine unique.findIdx? ?_
  rw [← List.getElem?_drop]
  exact getElem?_of_isPrefix seg found

/-- Labels that stand once among lines are found there if they do not stand further up. -/
theorem of_fresh {c c' : LabelCounters} (fresh : FreshLabels c c' ls) (seg : Seg code pc ls)
    (free : ∀ l ∈ labelsOf ls, ∀ l', .label l' ∈ code.take pc → l'.text ≠ l.text) :
    LabelsFound code pc ls := by
  intro k l found
  obtain ⟨rest, here⟩ := seg
  have bound := (List.getElem?_eq_some_iff.1 found).1
  have length : (code.take pc).length = pc := by
    have := congrArg List.length here
    simp only [List.length_append, List.length_drop] at this
    rw [List.length_take]
    omega
  have above : (code.take pc).findIdx? (Activation.isLabel l) = none := by
    refine List.findIdx?_eq_none_iff.2 fun line mem => ?_
    cases line with
    | label l' =>
      have listed : l ∈ labelsOf ls := List.mem_filterMap.2 ⟨_, List.mem_of_getElem? found, rfl⟩
      simpa [Activation.isLabel] using free l listed l' mem
    | _ => rfl
  rw [← List.take_append_drop pc code, ← here, List.findIdx?_append, above, List.findIdx?_append,
    fresh.unique.findIdx? found, length]
  simp [Nat.add_comm]

end LabelsFound

/-! ### Tests -/

section

variable {cls : ClassFile} {ctx : Context} {s : Scope} {jump : Jump} {n left right : Node} {ty : Ty}
  {locals : Nat → Option (Datum P)} {stk : List (Datum P)} {mem mem' : Memory P} {b : Bool}

/-- An instruction jumps if `b` is as the jump says, and goes to the next line if not. -/
def Tests (cls : ClassFile) (jump : Jump) (b : Bool) (i : Instr) (before after : Work P) : Prop :=
  ∀ ⦃code pc target⦄ callers, code[pc]? = some (.instr i) →
    code.findIdx? (Activation.isLabel jump.target) = some target →
    Reaches cls (before.at code pc callers)
      (after.at code (if b = jump.onTrue then target else pc + 1) callers)

theorem Tests.ifZero {condition : CondCode} {i : BitVec 32}
    (holds : condition.holds (intOrder i 0) = (b == jump.onTrue)) :
    Tests cls jump b (.ifZero condition jump.target) ⟨.int i :: stk, locals, mem⟩
      ⟨stk, locals, mem⟩ := by
  intro code pc target callers line found
  have tested : Reaches cls (Work.at ⟨.int i :: stk, locals, mem⟩ code pc callers)
      (Work.at ⟨stk, locals, mem⟩ code (if condition.holds (intOrder i 0) then target
        else pc + 1) callers) :=
    Reaches.ifZero line found
  rw [holds] at tested
  simpa using tested

theorem Tests.ifCompare {condition : CondCode} {i j : BitVec 32}
    (holds : condition.holds (intOrder i j) = (b == jump.onTrue)) :
    Tests cls jump b (.ifCompare condition jump.target) ⟨.int j :: .int i :: stk, locals, mem⟩
      ⟨stk, locals, mem⟩ := by
  intro code pc target callers line found
  have tested : Reaches cls (Work.at ⟨.int j :: .int i :: stk, locals, mem⟩ code pc callers)
      (Work.at ⟨stk, locals, mem⟩ code (if condition.holds (intOrder i j) then target
        else pc + 1) callers) :=
    Reaches.ifCompare line found
  rw [holds] at tested
  simpa using tested

/-- Instructions before a test. -/
theorem Tests.after_does {is : List Instr} {i : Instr} {start before after : Work P}
    {code : List Line} {pc target : Nat} (tests : Tests cls jump b i before after)
    (does : Does cls is start before) (callers : List (Activation P))
    (seg : Seg code pc (asLines (is ++ [i])))
    (found : code.findIdx? (Activation.isLabel jump.target) = some target) :
    Reaches cls (start.at code pc callers)
      (after.at code (if b =
        jump.onTrue then target else pc + (asLines (is ++ [i])).length) callers) := by
  rw [asLines, List.map_append] at seg
  have line := seg.right.line
  rw [List.length_map] at line
  have tested := tests callers line found
  rw [List.length_map, List.length_append, List.length_singleton, ← Nat.add_assoc]
  exact (does callers seg.left).trans tested

variable (cls jump) in
/-- The code of a comparison of two data compares them and tests the result. -/
theorem compareCode_tests {o : BinaryOp} {code : CondCode} (family : o.condCode? = some code)
    (comparable : ty.isComparable = true) {x y : Datum P} {order : Option Ordering}
    (ordered : Datum.order ty x y = some order) (stk : List (Datum P))
    (locals : Nat → Option (Datum P)) (mem : Memory P) :
    ∃ is i before, compareCode o ty (jump.code code) jump.target = is ++ [i] ∧
      Does cls is ⟨y :: x :: stk, locals, mem⟩ before ∧
      Tests cls jump (o.holds order) i before ⟨stk, locals, mem⟩ := by
  cases ty with
  | int | bool =>
    cases x <;> cases y <;> cases ordered
    refine ⟨[], _, _, rfl, .nil, .ifCompare ?_⟩
    rw [Jump.holds_code, BinaryOp.holds_condCode family]
  | float =>
    cases x <;> cases y <;> cases ordered
    refine ⟨[_], _, _, rfl, .effect rfl, .ifZero ?_⟩
    rw [Jump.holds_code, intOrder_word]
    cases P.floatOrder _ _ with
    | some order => rw [Option.getD_some, BinaryOp.holds_condCode family]
    | none => rw [Option.getD_none, BinaryOp.holds_unordered family]
  | string =>
    cases x <;> cases y <;> cases ordered
    refine ⟨[_], _, _, rfl, .effect rfl, .ifZero ?_⟩
    rw [Jump.holds_code, BinaryOp.holds_condCode family]
  | array | null | noType => cases comparable

theorem isLogical_of_condCode? {o : BinaryOp} {code : CondCode} (h : o.condCode? = some code) :
    o.isLogical = false := by
  cases o <;> cases h <;> rfl

theorem isComparison_of_condCode? {o : BinaryOp} {code : CondCode} (h : o.condCode? = some code) :
    o.isComparison = true := by
  cases o <;> cases h <;> rfl

/-- The code of a truth value belongs to no operation. -/
theorem ValueCode.kind_ne_op {code : List Instr} (h : ValueCode ctx s n code)
    (truth : n.ty = .bool) :
    ∀ o, n.kind ≠ .op o := by
  intro o same
  cases h with
  | arithmetic _ number =>
    rw [Node.ty_mk] at truth
    rw [truth] at number
    cases number
  | concat => cases truth
  | _ => cases same

/-! ### Conditions -/

theorem asLines_injective {is js : List Instr} (h : asLines is = asLines js) : is = js :=
  List.map_injective_iff.2 (fun _ _ same => Line.instr.inj same) h

/-- The code that an operand has is what pushes its datum. -/
theorem Pushes.does {d : Datum P} {code : List Instr}
    (h : Pushes cls ctx locals n ty stk mem d mem') (valueCode : ValueCode ctx s n code) :
    Does cls (code ++ convertCode n.ty ty) ⟨stk, locals, mem⟩ ⟨d :: stk, locals, mem'⟩ := by
  obtain ⟨is, emits, does⟩ := h
  have same := (emits {}).symm.trans (emitValueAs_emits valueCode)
  obtain rfl := asLines_injective (congrArg Emission.lines same)
  exact does

theorem Pushes.of_does {d : Datum P} {code : List Instr} (valueCode : ValueCode ctx s n code)
    (does : Does cls (code ++ convertCode n.ty ty) ⟨stk, locals, mem⟩ ⟨d :: stk, locals, mem'⟩) :
    Pushes cls ctx locals n ty stk mem d mem' :=
  ⟨_, fun _ => emitValueAs_emits valueCode, does⟩

section Branches

variable {c c' c'' : LabelCounters} {lines l r : List Line} {code : List Line} {pc target : Nat}

/-- Lines go to the target of a jump if `b` is as the jump says, and to their end if not. -/
def Branches (cls : ClassFile) (jump : Jump) (lines : List Line) (b : Bool)
    (before after : Work P) : Prop :=
  ∀ ⦃code pc target⦄ callers, Seg code pc lines → LabelsFound code pc lines →
    code.findIdx? (Activation.isLabel jump.target) = some target →
    Reaches cls (before.at code pc callers)
      (after.at code (if b = jump.onTrue then target else pc + lines.length) callers)

variable {start middle done : Work P} {b₁ : Bool} {join : Label}

/-- The first lines jump. -/
theorem Branches.jumped (first : Branches cls jump l b start done) (jumps : b = jump.onTrue) :
    Branches cls jump (l ++ r) b start done := by
  intro code pc target callers seg labels found
  have went := first callers seg.left labels.left found
  rw [if_pos jumps] at went ⊢
  exact went

/-- The first lines do not jump, and the next ones follow. -/
theorem Branches.passed (first : Branches cls jump l b₁ start middle) (passes : b₁ ≠ jump.onTrue)
    (second : Branches cls jump r b middle done) : Branches cls jump (l ++ r) b start done := by
  intro code pc target callers seg labels found
  have went := first callers seg.left labels.left found
  rw [if_neg passes] at went
  rw [List.length_append, ← Nat.add_assoc]
  exact went.trans (second callers seg.right labels.right found)

/-- The first lines jump to a label at the end, behind the lines that are left out. -/
theorem Branches.skipped (first : Branches cls ⟨!jump.onTrue, join⟩ l b start done)
    (jumps : b = !jump.onTrue) : Branches cls jump (l ++ r ++ [.label join]) b start done := by
  intro code pc target callers seg labels found
  have went := first callers seg.left.left labels.left.left labels.right.head
  rw [if_pos jumps] at went
  rw [if_neg (by rw [jumps]; simp), List.length_append, List.length_singleton, ← Nat.add_assoc]
  exact went.trans (.label seg.right.line)

/-- The first lines do not jump to the label at the end. The next ones jump as they should, or pass
this label. -/
theorem Branches.joined (first : Branches cls ⟨!jump.onTrue, join⟩ l b₁ start middle)
    (passes : b₁ = jump.onTrue) (second : Branches cls jump r b middle done) :
    Branches cls jump (l ++ r ++ [.label join]) b start done := by
  intro code pc target callers seg labels found
  have went := first callers seg.left.left labels.left.left labels.right.head
  rw [if_neg (by rw [passes]; simp)] at went
  have wentOn := second callers seg.left.right labels.left.right found
  rw [Nat.add_assoc, ← List.length_append] at wentOn
  refine went.trans ?_
  rw [List.length_append, List.length_singleton, ← Nat.add_assoc]
  by_cases jumps : b = jump.onTrue
  · rw [if_pos jumps] at wentOn ⊢
    exact wentOn
  · rw [if_neg jumps] at wentOn ⊢
    exact wentOn.trans (.label seg.right.line)

/-- The right operand of a logical operator is left out exactly if the left one is what decides. -/
theorem ShortCircuit.logical {o : BinaryOp} (family : o.isLogical = true)
    (h : ShortCircuit cls ctx locals stk (.mk (.op o) ty [left, right]) mem b mem') :
    (b = (o == .or) ∧ ShortCircuit cls ctx locals stk left mem b mem') ∨
      ∃ mem₁, ShortCircuit cls ctx locals stk left mem (o != .or) mem₁ ∧
        ShortCircuit cls ctx locals stk right mem₁ b mem' := by
  cases h with
  | value leaf => exact absurd rfl (leaf o)
  | comparison comparison =>
    cases o with
    | and | or => cases comparison
    | _ => cases family
  | decided _ leftValue => exact .inl ⟨rfl, leftValue⟩
  | undecided _ leftValue rightValue => exact .inr ⟨_, leftValue, rightValue⟩

/-- The code of a condition goes where its truth value says. -/
theorem ConditionCode.branches_shortCircuit (h : ConditionCode ctx s jump c n lines c')
    (value : ShortCircuit cls ctx locals stk n mem b mem') :
    Branches cls jump lines b ⟨stk, locals, mem⟩ ⟨stk, locals, mem'⟩ := by
  -- By induction on the code; the shape of the node leaves one kind of value in each case.
  induction h generalizing mem b mem' with
  | value truth valueCode =>
    cases value with
    | value leaf pushes =>
      have does := pushes.does valueCode
      rw [truth, show convertCode .bool .bool = [] from rfl, List.append_nil] at does
      intro code pc target callers seg labels found
      exact (Tests.ifZero (Jump.holds_truth _ _)).after_does does callers seg found
    | comparison => exact absurd rfl (valueCode.kind_ne_op truth _)
    | decided => exact absurd rfl (valueCode.kind_ne_op truth _)
    | undecided => exact absurd rfl (valueCode.kind_ne_op truth _)
  | comparison family comparable takesLeft takesRight leftCode rightCode =>
    cases value with
    | value leaf => exact absurd rfl (leaf _)
    | comparison _ leftPushes rightPushes ordered =>
      obtain ⟨js, i, before, split, compares, tests⟩ :=
        compareCode_tests cls _ family comparable ordered stk locals mem'
      intro code pc target callers seg labels found
      have operands := (leftPushes.does leftCode).append (rightPushes.does rightCode)
      rw [split, ← List.append_assoc] at seg ⊢
      rw [← List.append_assoc] at operands
      exact tests.after_does (operands.append compares) callers seg found
    | decided logical => exact absurd logical (by simp [isLogical_of_condCode? family])
    | undecided logical => exact absurd logical (by simp [isLogical_of_condCode? family])
  | @both jump _ _ _ o _ _ _ _ family _ _ ihl ihr =>
    have decides : (o == .or) = jump.onTrue ∧ o.isLogical = true := by
      rw [family]
      cases jump.onTrue <;> exact ⟨rfl, rfl⟩
    rcases value.logical decides.2 with ⟨rfl, leftValue⟩ | ⟨mem₁, leftValue, rightValue⟩
    · exact (ihl leftValue).jumped decides.1
    · exact (ihl leftValue).passed (by simp [bne, decides.1]) (ihr rightValue)
  -- The left operand may skip the jump: then it goes on behind the code of the right one.
  | @skip jump _ _ _ o _ _ _ _ family _ _ ihl ihr =>
    have decides : (o == .or) = !jump.onTrue ∧ o.isLogical = true := by
      rw [family]
      cases jump.onTrue <;> exact ⟨rfl, rfl⟩
    rcases value.logical decides.2 with ⟨rfl, leftValue⟩ | ⟨mem₁, leftValue, rightValue⟩
    · exact (ihl leftValue).skipped decides.1
    · exact (ihl leftValue).joined (by simp [bne, decides.1]) (ihr rightValue)

end Branches

/-! ### Emitted conditions -/

/-- The labels of a condition are joins with new numbers. -/
theorem ConditionCode.labels {c c' : LabelCounters} {lines : List Line}
    (h : ConditionCode ctx s jump c n lines c') :
    ∀ l ∈ labelsOf lines, ∃ k, c.joins ≤ k ∧ l = .join k := by
  induction h with
  | value => simp
  | comparison => simp
  | both _ leftCode _ ihl ihr =>
    intro l mem
    rw [labelsOf_append, List.mem_append] at mem
    rcases mem with mem | mem
    · exact ihl l mem
    · obtain ⟨k, new, rfl⟩ := ihr l mem
      exact ⟨k, leftCode.freshLabels.le.joins.trans new, rfl⟩
  | @skip _ c _ _ _ _ _ _ _ _ leftCode _ ihl ihr =>
    intro l mem
    have taken := c.le_nextJoin.joins
    simp only [labelsOf_append, labelsOf_label, labelsOf_nil, List.mem_append,
      List.mem_singleton] at mem
    rcases mem with (mem | mem) | rfl
    · obtain ⟨k, new, rfl⟩ := ihl l mem
      exact ⟨k, taken.trans new, rfl⟩
    · obtain ⟨k, new, rfl⟩ := ihr l mem
      exact ⟨k, taken.trans (leftCode.freshLabels.le.joins.trans new), rfl⟩
    · exact ⟨c.joins, le_rfl, rfl⟩

end

/-- Code generation succeeds for every typed condition and every jump. In a method that has no label
further up which is still to be taken for a join, the lines that are written evaluate the condition
from left to right, with no operand that is not needed. They end at the target of the jump if the
condition is as the jump says, and at their own end if not, with the stack as it was. -/
theorem emitCondition_branches {ctx : Context} {s : Scope} {n : Node}
    (typed : ConditionTyped ctx.tables s n) (jump : Jump) (c : LabelCounters) :
    ∃ lines c', emitCondition ctx jump n c = ⟨lines, c', .ok ()⟩ ∧
      ∀ {P : Platform} (cls : ClassFile) (callers : List (Activation P)) {code : List Line}
          {pc target : Nat}, Seg code pc lines →
        (∀ k, c.joins ≤ k → ∀ l, .label l ∈ code.take pc → l.text ≠ (Label.join k).text) →
        code.findIdx? (Activation.isLabel jump.target) = some target →
        ∀ {stk locals mem b mem'}, ShortCircuit cls ctx locals stk n mem b mem' →
          Reaches cls (Work.at ⟨stk, locals, mem⟩ code pc callers)
            (Work.at ⟨stk, locals, mem'⟩ code
              (if b = jump.onTrue then target else pc + lines.length) callers) := by
  obtain ⟨lines, c', conditionCode⟩ := typed.hasCode jump c
  refine ⟨lines, c', conditionCode.emits, ?_⟩
  intro P cls callers code pc target seg free found stk locals mem b mem' value
  refine conditionCode.branches_shortCircuit value callers seg
    (.of_fresh conditionCode.freshLabels seg ?_) found
  intro l listed l' mem
  obtain ⟨k, new, rfl⟩ := conditionCode.labels l listed
  exact free k new l' mem

/-- Tables with a function that gives a truth value. -/
def skippedCallContext : Context := { tables := ⟨{}, ⟨[⟨"f", 1, [], [.bool], {}⟩]⟩⟩ }

/-- The condition `1 < 2 || f()`. -/
def skippedCall : Node :=
  .mk (.op .or) .bool
    [.mk (.op .lt) .int [.leaf (.intVal 1) .int, .leaf (.intVal 2) .int], .mk (.call 0) .bool []]

/-- The call is left out: the class has no method at all. The jump is not taken, since the condition
is true. -/
theorem skippedCall_branches : ConditionTyped skippedCallContext.tables .globals skippedCall ∧
    ∃ lines c', emitCondition skippedCallContext ⟨false, .elseOf 0⟩ skippedCall {} =
      ⟨lines, c', .ok ()⟩ ∧
      ∀ {P : Platform} (mem : Memory P),
        Reaches ⟨"Main", [], []⟩
          ⟨[⟨lines ++ [.instr .ret, .label (.elseOf 0)], 0, [.null], fun _ => none⟩], mem⟩
          ⟨[⟨lines ++ [.instr .ret, .label (.elseOf 0)], lines.length, [.null], fun _ => none⟩],
            mem⟩ := by
  have typed : ConditionTyped skippedCallContext.tables .globals skippedCall :=
    .logical rfl (.comparison rfl rfl (.int rfl rfl) (.int rfl rfl) (.inl rfl) (.inl rfl))
      (.value (.call rfl (by simp) rfl rfl) rfl)
  obtain ⟨lines, c', emitted, branches⟩ := emitCondition_branches typed ⟨false, .elseOf 0⟩ {}
  obtain rfl : _ = lines := congrArg Emission.lines emitted
  refine ⟨typed, _, c', emitted, fun {P} mem => ?_⟩
  have one : Pushes ⟨"Main", [], []⟩ skippedCallContext (fun _ => none)
      (.leaf (.intVal 1) .int) .int [.null] mem (.int 1) mem :=
    ⟨[.ldc (.int 1)], fun _ => rfl, .effect rfl⟩
  have two : Pushes ⟨"Main", [], []⟩ skippedCallContext (fun _ => none)
      (.leaf (.intVal 2) .int) .int [.int 1, .null] mem (.int 2) mem :=
    ⟨[.ldc (.int 2)], fun _ => rfl, .effect rfl⟩
  have goes := @branches P ⟨"Main", [], []⟩ [] (_ ++ [.instr .ret, .label (.elseOf 0)]) 0 8
    ⟨_, rfl⟩ (by simp) rfl
    _ _ _ _ _ (.decided rfl (.comparison rfl one two rfl))
  rw [Nat.zero_add] at goes
  exact goes

end MiniGo
