import MiniGo.Proofs.Simulation.Value
import MiniGo.Proofs.Widening.Code

/-!
# Integer expressions

An expression over int literals, variables, array elements, signs and arithmetic operators computes
in words of 32 bits. The analysis folds signs into literals, makes subtractions of the others and
fixes the indices of elements; code generation writes what is left in postfix order. Together they
give what the expression says when it is evaluated as it is written.

* `Expr.isIntegral`: the expressions in question.
* `Expr.evalInt`: their value, by recursion on the syntax tree.
* `IntStore.HeldBy`: the machine keeps the ints of a store in the places of its variables.
* `DividesByZero`: instructions lead to a division that has no result.
* `lowerExpr_computes`: what the code of an integer expression does, by induction on the expression.
* `lowerValue_computes`: the code pushes the value of the expression, or comes to a division by zero
  if it has none.
-/

namespace MiniGo

open Analysis Report
open Emission (emitValue)

variable {P : Platform}

/-! ### Integer expressions and their values -/

/-- The ints that variables and elements of arrays hold, by name. -/
structure IntStore where
  scalar : String → BitVec 32
  element : String → Nat → BitVec 32

mutual

/-- Whether an expression is made of int literals, variables, array elements, signs and arithmetic
operators. -/
def Expr.isIntegral : Expr → Bool
  | .binary op _ left right => op.isArithmetic && left.isIntegral && right.isIntegral
  | .operand _ primary _ => primary.isIntegral
termination_by structural e => e

/-- Whether an operand is an int literal, a variable, an array element or an integer expression in
parentheses. -/
def Primary.isIntegral : Primary → Bool
  | .literal lit => lit.kind == .int
  | .name _ => true
  | .index _ index => index.isIntegral
  | .paren inner => inner.isIntegral
  | .call .. => false
termination_by structural primary => primary

end

/-- An operator on words, as numbers in two's complement. Quotients are truncated, and there is none
for zero. -/
def BinaryOp.evalInt (op : BinaryOp) (i j : BitVec 32) : Option (BitVec 32) :=
  match op with
  | add => some (i + j)
  | sub => some (i - j)
  | mul => some (i * j)
  | div => if j = 0 then none else some (i.sdiv j)
  | mod => if j = 0 then none else some (i.srem j)
  | _ => none

example : BinaryOp.div.evalInt (.intMin 32) (-1) = some (.intMin 32) := by decide

/-- The operators compute as the machine does. -/
theorem BinaryOp.evalInt_eq {o : BinaryOp} {op : ArithOp} (family : o.arith? = some op)
    (i j : BitVec 32) :
    o.evalInt i j = intArith op i j := by
  cases o <;> cases family <;> rfl

theorem BinaryOp.evalInt_eq_none {op : BinaryOp} (arithmetic : op.isArithmetic = true)
    {i j : BitVec 32} :
    op.evalInt i j = none ↔ (op = .div ∨ op = .mod) ∧ j = 0 := by
  cases op <;> simp [BinaryOp.evalInt, isArithmetic] at arithmetic ⊢

/-- The number that an int literal denotes. -/
def Literal.intValue (lit : Literal) : Int := (readInteger? lit.text).getD 0

mutual

/-- The value of an integer expression as it is written, in words of 32 bits. It has none if it
divides by zero. -/
def Expr.evalInt (ρ : IntStore) : Expr → Option (BitVec 32)
  | .binary op _ left right => do
    let i ← left.evalInt ρ
    let j ← right.evalInt ρ
    op.evalInt i j
  | .operand sign primary _ =>
    (primary.evalInt ρ).map fun i =>
      match sign with
      | some .minus => -i
      | some .plus | none => i
termination_by structural e => e

/-- The value of an operand without its sign. -/
def Primary.evalInt (ρ : IntStore) : Primary → Option (BitVec 32)
  | .literal lit => some (.ofInt 32 lit.intValue)
  | .name id => some (ρ.scalar id.name)
  | .index array index => (index.evalInt ρ).map fun i => ρ.element array.name i.toNat
  | .paren inner => inner.evalInt ρ
  | .call .. => none
termination_by structural primary => primary

end

mutual

/-- The names of the variables that an expression reads. An index is a constant and reads none. -/
def Expr.names : Expr → List String
  | .binary _ _ left right => left.names ++ right.names
  | .operand _ primary _ => primary.names
termination_by structural e => e

/-- The names of the variables that an operand reads. -/
def Primary.names : Primary → List String
  | .name id => [id.name]
  | .index array _ => [array.name]
  | .paren inner => inner.names
  | .literal _ | .call .. => []
termination_by structural primary => primary

end

mutual

/-- An expression has a division or remainder whose divisor is zero. -/
def Expr.DividesByZero (ρ : IntStore) : Expr → Prop
  | .binary op _ left right => left.DividesByZero ρ ∨ right.DividesByZero ρ ∨
      (op = .div ∨ op = .mod) ∧ right.evalInt ρ = some 0
  | .operand _ primary _ => primary.DividesByZero ρ
termination_by structural e => e

/-- An operand has a division or remainder whose divisor is zero. -/
def Primary.DividesByZero (ρ : IntStore) : Primary → Prop
  | .index _ index => index.DividesByZero ρ
  | .paren inner => inner.DividesByZero ρ
  | .literal _ | .name _ | .call .. => False
termination_by structural primary => primary

end

mutual

/-- An integer expression has a value unless it divides by zero. -/
theorem evalInt_eq_none (ρ : IntStore) :
    ∀ e : Expr, e.isIntegral = true → (e.evalInt ρ = none ↔ e.DividesByZero ρ)
  | .binary op _ left right, integral => by
    simp only [Expr.isIntegral, Bool.and_eq_true] at integral
    obtain ⟨⟨arithmetic, leftIntegral⟩, rightIntegral⟩ := integral
    have ihl := evalInt_eq_none ρ left leftIntegral
    have ihr := evalInt_eq_none ρ right rightIntegral
    simp only [Expr.evalInt, Expr.DividesByZero, ← ihl, ← ihr]
    cases left.evalInt ρ with
    | none => simp
    | some i =>
      cases right.evalInt ρ with
      | none => simp
      | some j => simp [BinaryOp.evalInt_eq_none arithmetic]
  | .operand sign primary _, integral => by
    simp only [Expr.isIntegral] at integral
    simp [Expr.evalInt, Expr.DividesByZero, evalIntPrimary_eq_none ρ primary integral]

/-- An integer operand has a value unless it divides by zero. -/
theorem evalIntPrimary_eq_none (ρ : IntStore) :
    ∀ primary : Primary, primary.isIntegral = true →
      (primary.evalInt ρ = none ↔ primary.DividesByZero ρ)
  | .literal _, _ | .name _, _ => by simp [Primary.evalInt, Primary.DividesByZero]
  | .call .., integral => by simp [Primary.isIntegral] at integral
  | .index _ index, integral => by
    simp only [Primary.isIntegral] at integral
    simp [Primary.evalInt, Primary.DividesByZero, evalInt_eq_none ρ index integral]
  | .paren inner, integral => by
    simp only [Primary.isIntegral] at integral
    simp [Primary.evalInt, Primary.DividesByZero, evalInt_eq_none ρ inner integral]

end

/-! ### Stores in the machine -/

/-- The place of a variable holds the int of its name, or an array of the ints of its name. -/
structure IntStore.HeldIn (ρ : IntStore) (ctx : Context) (locals : Nat → Option (Datum P))
    (mem : Memory P) (name : String) (v : VarRef) (x : Variable) : Prop where
  scalar : x.ty = .int → ctx.place mem locals v x = some (.int (ρ.scalar name))
  array : ∀ shape, x.array? = some shape → shape.element = .int →
    ∃ a, ctx.place mem locals v x = some (.array a) ∧ shape.length < arrayLimit ∧
      mem.heap[a]? =
        some ⟨Ty.int.arrayType, (List.range shape.length).map fun k => .int (ρ.element name k)⟩

/-- The variables that some names mean in a scope hold the ints of a store. -/
def IntStore.HeldBy (ρ : IntStore) (t : Tables) (s : Scope) (ctx : Context)
    (locals : Nat → Option (Datum P)) (mem : Memory P) (names : List String) : Prop :=
  ∀ name ∈ names, ∀ {v x}, t.resolve? name s = some v → t.var? v = some x →
    ρ.HeldIn ctx locals mem name v x

theorem IntStore.HeldBy.append {ρ : IntStore} {t : Tables} {s : Scope} {ctx : Context}
    {locals : Nat → Option (Datum P)} {mem : Memory P} {names names' : List String}
    (h : ρ.HeldBy t s ctx locals mem (names ++ names')) :
    ρ.HeldBy t s ctx locals mem names ∧ ρ.HeldBy t s ctx locals mem names' :=
  ⟨fun name mem => h name (List.mem_append_left _ mem),
    fun name mem => h name (List.mem_append_right _ mem)⟩

/-! ### Division by zero -/

section

variable {cls : ClassFile} {is js : List Instr} {start s s' : Work P}

/-- Instructions lead to an integer division or remainder with a zero as the divisor. -/
def DividesByZero (cls : ClassFile) (is : List Instr) (start : Work P) : Prop :=
  ∃ before op after i stack locals mem, is = before ++ .arith .int op :: after ∧
    (op = .div ∨ op = .rem) ∧ Does cls before start ⟨.int 0 :: .int i :: stack, locals, mem⟩

theorem DividesByZero.append (h : DividesByZero cls is start) :
    DividesByZero cls (is ++ js) start := by
  obtain ⟨before, op, after, i, stack, locals, mem, rfl, divides, does⟩ := h
  exact ⟨before, op, after ++ js, i, stack, locals, mem, by simp, divides, does⟩

theorem Does.dividesByZero (h : Does cls is start s) (h' : DividesByZero cls js s) :
    DividesByZero cls (is ++ js) start := by
  obtain ⟨before, op, after, i, stack, locals, mem, rfl, divides, does⟩ := h'
  exact ⟨is ++ before, op, after, i, stack, locals, mem, by simp, divides, h.append does⟩

theorem Datum.arith_int {op : ArithOp} {i j : BitVec 32} :
    Datum.arith (P := P) .int op (.int i) (.int j) = (intArith op i j).map .int := by
  simp [Datum.arith]

theorem intArith_eq_none {op : ArithOp} {i j : BitVec 32} :
    intArith op i j = none ↔ (op = .div ∨ op = .rem) ∧ j = 0 := by
  cases op <;> simp [intArith]

/-- A division by zero has no next state. -/
theorem step_divideByZero {op : ArithOp} (divides : op = .div ∨ op = .rem) {i : BitVec 32}
    {code : List Line} {pc : Nat} {stack : List (Datum P)} {locals : Nat → Option (Datum P)}
    {mem : Memory P} {callers : List (Activation P)}
    (line : code[pc]? = some (.instr (.arith .int op))) :
    step cls (Work.at ⟨.int 0 :: .int i :: stack, locals, mem⟩ code pc callers) = none := by
  have undefined : intArith op i 0 = none := intArith_eq_none.2 ⟨divides, rfl⟩
  simp only [step, Work.at, line, Instr.step, Instr.effect, Datum.arith_int, undefined]
  rfl

/-- Instructions do not both reach their end and divide by zero. -/
theorem Does.not_dividesByZero (h : Does cls is start s) : ¬ DividesByZero cls is start := by
  rintro ⟨before, op, after, i, stack, locals, mem, rfl, divides, does⟩
  -- With no other lines around them, both states are without a next one.
  have alone : Seg (asLines (before ++ .arith .int op :: after)) 0
      (asLines (before ++ .arith .int op :: after)) :=
    List.prefix_rfl
  have first : Seg (asLines (before ++ .arith .int op :: after)) 0 (asLines before) := by
    rw [asLines, List.map_append]
    exact Seg.left List.prefix_rfl
  have line : (asLines (before ++ .arith .int op :: after))[0 + before.length]? =
      some (.instr (.arith .int op)) := by
    simp
  have outside :
      (asLines (before ++ .arith .int op :: after))[0 +
        (before ++ .arith .int op :: after).length]? = none :=
    List.getElem?_eq_none (by simp)
  have stops : step cls (s.at (asLines (before ++ .arith .int op :: after))
      (0 + (before ++ .arith .int op :: after).length) []) = none := by
    simp only [Work.at, step, outside]
  have same := Reaches.unique (h [] alone) (does [] first) stops (step_divideByZero divides line)
  simp [Work.at] at same

end

/-! ### Constants -/

mutual

/-- The value of a constant is that of the expression, modulo `2 ^ 32`. -/
theorem evalInt_of_constantInt? (ρ : IntStore) :
    ∀ (e : Expr) {i : Int}, constantInt? e = some i → e.evalInt ρ = some (.ofInt 32 i)
  | .binary .., i, h => by simp [constantInt?] at h
  | .operand sign primary _, i, h => by
    simp only [constantInt?, Option.map_eq_some_iff] at h
    obtain ⟨i, constant, rfl⟩ := h
    simp only [Expr.evalInt, evalInt_of_constantPrimary? ρ primary constant, Option.map_some]
    rcases sign with _ | _ | _
    · rfl
    · rfl
    · simp [BitVec.ofInt_neg]

/-- The value of a constant operand is that of the operand, modulo `2 ^ 32`. -/
theorem evalInt_of_constantPrimary? (ρ : IntStore) :
    ∀ (primary : Primary) {i : Int}, constantPrimary? primary = some i →
      primary.evalInt ρ = some (.ofInt 32 i)
  | .literal ⟨.int, text, _⟩, i, h => by
    simp only [constantPrimary?] at h
    simp [Primary.evalInt, Literal.intValue, h]
  | .literal ⟨.float, _, _⟩, i, h | .literal ⟨.string, _, _⟩, i, h
  | .literal ⟨.bool, _, _⟩, i, h => by
    simp [constantPrimary?] at h
  | .name _, i, h | .call .., i, h | .index .., i, h => by simp [constantPrimary?] at h
  | .paren inner, i, h => by
    simp only [constantPrimary?] at h
    exact evalInt_of_constantInt? ρ inner h

end

/-! ### The code of integer expressions -/

section

variable {cls : ClassFile} {ctx : Context} {t : Tables} {s : Scope} {n left right : Node}
  {l r code : List Instr}
  {i j : BitVec 32} {value? : Option (BitVec 32)} {locals : Nat → Option (Datum P)} {mem : Memory P}

/-- Instructions push a value, or divide by zero if there is none. Nothing else changes. -/
def Computes (cls : ClassFile) (locals : Nat → Option (Datum P)) (mem : Memory P)
    (code : List Instr) (value? : Option (BitVec 32)) : Prop :=
  ∀ stk, match value? with
    | some i => Does cls code ⟨stk, locals, mem⟩ ⟨.int i :: stk, locals, mem⟩
    | none => DividesByZero cls code ⟨stk, locals, mem⟩

/-- The value is pushed exactly if there is one, and there is a division by zero exactly if not. -/
theorem Computes.iff (h : Computes cls locals mem code value?) (stk : List (Datum P)) :
    (∀ after, Does cls code ⟨stk, locals, mem⟩ after ↔ ∃ i, value? = some i ∧
      after = ⟨.int i :: stk, locals, mem⟩) ∧
      (DividesByZero cls code ⟨stk, locals, mem⟩ ↔ value? = none) := by
  have computes := h stk
  cases value? with
  | some i =>
    refine ⟨fun after => ⟨fun does => ⟨i, rfl, does.unique computes⟩, ?_⟩, ?_⟩
    · rintro ⟨_, same, rfl⟩
      cases same
      exact computes
    · simpa using computes.not_dividesByZero
  | none =>
    refine ⟨fun after => ⟨fun does => absurd computes does.not_dividesByZero, ?_⟩, ?_⟩
    · rintro ⟨_, same, -⟩
      cases same
    · simpa using computes

theorem Computes.constant (i : Int) :
    Computes cls locals mem [.ldc (.int i)] (some (.ofInt 32 i)) :=
  fun _ => .effect rfl

/-- An operation on two values. -/
theorem Computes.arithmetic {op : ArithOp} {l? r? : Option (BitVec 32)}
    (left : Computes cls locals mem l l?) (right : Computes cls locals mem r r?) :
    Computes cls locals mem (l ++ r ++ [.arith .int op])
      (l?.bind fun i => r?.bind fun j => intArith op i j) := by
  intro stk
  have leftRuns := left stk
  cases l? with
  | none => exact leftRuns.append.append
  | some i =>
    have rightRuns := right (.int i :: stk)
    cases r? with
    | none => exact (leftRuns.dividesByZero rightRuns).append
    | some j =>
      have operands := leftRuns.append rightRuns
      simp only [Option.bind_some]
      cases result : intArith op i j with
      | some k => exact operands.append (.effect (by simp [Instr.effect, Datum.arith_int, result]))
      | none =>
        obtain ⟨divides, rfl⟩ := intArith_eq_none.1 result
        exact operands.dividesByZero ⟨[], op, [], i, stk, locals, mem, rfl, divides, .nil⟩

/-- The code of an operation on ints. -/
theorem ValueCode.int_operation {o : BinaryOp} {op : ArithOp} (family : o.arith? = some op)
    (leftInt : left.ty = .int) (rightInt : right.ty = .int) (leftCode : ValueCode ctx s left l)
    (rightCode : ValueCode ctx s right r) :
    ValueCode ctx s (.mk (.op o) .int [left, right]) (l ++ r ++ [.arith .int op]) := by
  have code := ValueCode.arithmetic family rfl (.inl leftInt) (.inl rightInt) leftCode rightCode
  rw [leftInt, rightInt] at code
  simpa [convertCode, Ty.valueKind] using code

/-! ### Ints in the tree -/

/-- An operation with an int as its value has two ints as operands. -/
theorem lowerExpr_int_operation {op : BinaryOp} {line : Nat} {left right : Expr}
    (plain : op.isLogical = false) (h : (lowerExpr t s (.binary op line left right)).value = some n)
    (int : n.ty = .int) :
    ∃ l r, (lowerExpr t s left).value = some l ∧ (lowerExpr t s right).value = some r ∧
      l.ty = .int ∧ r.ty = .int ∧
      n = .mk (.op op) .int [l, r] := by
  obtain ⟨l, r, hl, hr, -, operation⟩ := value_lowerExpr_binary.1 h
  obtain ⟨ty, found, node⟩ := value_lowerOperation.1 operation
  obtain rfl : ty = .int := by
    rw [node] at int
    exact int
  have meet := unify_of_binaryTy? plain found
  rcases Ty.unify_eq_some meet with ⟨leftInt, rightInt⟩ | ⟨float, -⟩
  · refine ⟨l, r, hl, hr, leftInt, rightInt, ?_⟩
    rw [node, meet, if_neg (by simp)]
  · cases float

/-- A minus makes a subtraction from zero. -/
theorem lowerSigned_int {sign : Sign} {line : Nat} {m : Node}
    (h : (lowerSigned sign line m).value = some n) (int : n.ty = .int) :
    m.ty = .int ∧ n = if sign =
      .plus then m else .mk (.op .sub) .int [.mk (.intVal 0) .int [], m] := by
  obtain ⟨-, -, rfl⟩ := value_lowerSigned.1 h
  cases sign with
  | plus => exact ⟨int, rfl⟩
  | minus =>
    have operand : m.ty = .int := int
    simp [zeroNode, operand, Node.leaf]

/-- The node of an int literal, with or without a minus. -/
theorem lowerLiteral_int {lit : Literal} {negate : Bool} (kind : lit.kind = .int)
    (h : (lowerLiteral lit negate).value = some n) :
    ∃ i, readInteger? lit.text = some i ∧ fitsInt (if negate then -i else i) = true ∧
      n = .mk (.intVal (if negate then -i else i)) .int [] := by
  have node := lowerLiteral_eq_some h
  rwa [kind] at node

/-! ### Names and elements -/

/-- The code of an int variable pushes the int that it holds. -/
theorem loadInstr_computes (linked : Linked cls ctx) {v : VarRef} {x : Variable} {ρ : IntStore}
    {name : String} (entry : ctx.tables.var? v = some x) (int : x.ty = .int)
    (held : ρ.HeldIn ctx locals mem name v x) :
    Computes cls locals mem [ctx.loadInstr v x] (some (ρ.scalar name)) :=
  fun _ => .effect (loadInstr_effect linked entry (held.scalar int) (by rw [int]; rfl))

/-- The code of an element of an int array pushes the int that it holds. -/
theorem elementLoad_computes (linked : Linked cls ctx) {v : VarRef} {x : Variable}
    {shape : ArrayShape} {ρ : IntStore} {name : String} {k : Nat}
    (entry : ctx.tables.var? v = some x) (array : x.array? = some shape)
    (int : shape.element = .int) (bound : k < shape.length)
    (held : ρ.HeldIn ctx locals mem name v x) :
    Computes cls locals mem (ctx.addressCode v x k ++ [.elementLoad shape.element.elementKind])
      (some (ρ.element name k)) := by
  intro stk
  obtain ⟨a, place, short, object⟩ := held.array shape array int
  refine (addressCode_does linked entry array place).append (.effect ?_)
  have found :
      ((List.range shape.length).map fun k => (Datum.int (ρ.element name k) : Datum P))[k]? =
        some (.int (ρ.element name k)) := by
    simp [bound]
  simp only [Instr.effect, toNat_ofInt (bound.trans short), object, int, found, Option.bind_eq_bind,
    Option.bind_some, elementKind_arrayType, if_true]

/-! ### Induction on the expression -/

/-- The code of a node computes a value, wherever the variables behind some names hold the ints of a
store. -/
def HasIntCode (cls : ClassFile) (ctx : Context) (t : Tables) (s : Scope) (P : Platform)
    (names : List String) (n : Node) (value? : IntStore → Option (BitVec 32)) : Prop :=
  ∃ code, ValueCode ctx s n code ∧
    ∀ (ρ : IntStore) (locals : Nat → Option (Datum P)) (mem : Memory P),
    ρ.HeldBy t s ctx locals mem names → Computes cls locals mem code (value? ρ)

theorem HasIntCode.constant {i : Int} {names : List String} (fits : fitsInt i = true) :
    HasIntCode cls ctx t s P names (.mk (.intVal i) .int []) fun _ => some (.ofInt 32 i) :=
  ⟨_, .int fits rfl, fun _ _ _ _ => .constant i⟩

theorem HasIntCode.operation {o : BinaryOp} {op : ArithOp} {names names' : List String}
    {l? r? : IntStore → Option (BitVec 32)} (family : o.arith? = some op) (leftInt : left.ty = .int)
    (rightInt : right.ty = .int) (leftCode : HasIntCode cls ctx t s P names left l?)
    (rightCode : HasIntCode cls ctx t s P names' right r?) :
    HasIntCode cls ctx t s P (names ++ names') (.mk (.op o) .int [left, right])
      fun ρ => (l? ρ).bind fun i => (r? ρ).bind fun j => intArith op i j := by
  obtain ⟨l, hl, leftComputes⟩ := leftCode
  obtain ⟨r, hr, rightComputes⟩ := rightCode
  refine ⟨_, .int_operation family leftInt rightInt hl hr, fun ρ locals mem held => ?_⟩
  obtain ⟨heldLeft, heldRight⟩ := held.append
  exact (leftComputes ρ locals mem heldLeft).arithmetic (rightComputes ρ locals mem heldRight)

/-- A minus in front of an operand that is no literal. -/
theorem HasIntCode.negation {names : List String} {value? : IntStore → Option (BitVec 32)}
    (int : n.ty = .int) (h : HasIntCode cls ctx t s P names n value?) :
    HasIntCode cls ctx t s P names (.mk (.op .sub) .int [.mk (.intVal 0) .int [], n])
      fun ρ => (value? ρ).map fun i => -i := by
  have zero : HasIntCode cls ctx t s P [] (.mk (.intVal 0) .int []) _ := .constant (by decide)
  have difference : HasIntCode cls ctx t s P names _ _ := .operation (o := .sub) rfl rfl int zero h
  have same (value? : Option (BitVec 32)) :
      ((some (BitVec.ofInt 32 0)).bind fun i => value?.bind fun j => intArith .sub i j) =
        value?.map fun i => -i := by
    cases value? <;> simp [intArith]
  simpa only [same] using difference

mutual

/-- An integer expression has code that computes its value. -/
theorem lowerExpr_computes (linked : Linked cls ctx) (le : t.Extends ctx.tables) :
    ∀ (e : Expr) {n : Node}, e.isIntegral = true → (lowerExpr t s e).value = some n → n.ty = .int →
      HasIntCode cls ctx t s P e.names n fun ρ => e.evalInt ρ
  | .binary op line left right, n, integral, h, int => by
    have ihl := @lowerExpr_computes linked le left
    have ihr := @lowerExpr_computes linked le right
    simp only [Expr.isIntegral, Bool.and_eq_true] at integral
    obtain ⟨⟨arithmetic, leftIntegral⟩, rightIntegral⟩ := integral
    obtain ⟨o, family⟩ := BinaryOp.arith?_of_isArithmetic arithmetic
    have plain : op.isLogical = false := by cases op <;> first | rfl | cases arithmetic
    obtain ⟨l, r, hl, hr, leftInt, rightInt, rfl⟩ := lowerExpr_int_operation plain h int
    have code := HasIntCode.operation family leftInt rightInt (ihl leftIntegral hl leftInt)
      (ihr rightIntegral hr rightInt)
    simpa [Expr.names, Expr.evalInt, BinaryOp.evalInt_eq family] using code
  | .operand sign primary line, n, integral, h, int => by
    have ih := @lowerPrimary_computes linked le line primary
    simp only [Expr.isIntegral] at integral
    rcases lowerExpr_operand_eq_some h with ⟨lit, negated, literal⟩ | ⟨-, m, lowered, node⟩
    · -- The minus belongs to a literal.
      obtain ⟨rfl, rfl⟩ := negatedLiteral?_eq_some negated
      obtain ⟨i, read, fits, rfl⟩ :=
        lowerLiteral_int (by simpa [Primary.isIntegral] using integral) literal
      have code : HasIntCode cls ctx t s P (Primary.literal lit).names _ _ := .constant fits
      simpa [Expr.names, Expr.evalInt, Primary.evalInt, Literal.intValue, read,
        BitVec.ofInt_neg] using code
    · cases sign with
      | none =>
        obtain rfl : n = m := node
        simpa [Expr.names, Expr.evalInt] using ih integral lowered int
      | some sign =>
        obtain ⟨operandInt, rfl⟩ := lowerSigned_int node int
        cases sign with
        | plus => simpa [Expr.names, Expr.evalInt] using ih integral lowered operandInt
        | minus =>
          simpa [Expr.names, Expr.evalInt]
            using (ih integral lowered operandInt).negation operandInt

/-- An integer operand has code that computes its value. -/
theorem lowerPrimary_computes (linked : Linked cls ctx) (le : t.Extends ctx.tables) (line : Nat) :
    ∀ (primary : Primary) {n : Node}, primary.isIntegral = true →
      (lowerPrimary t s line primary).value = some n →
      n.ty = .int → HasIntCode cls ctx t s P primary.names n fun ρ => primary.evalInt ρ
  | .literal lit, n, integral, h, int => by
    obtain ⟨i, read, fits, rfl⟩ := lowerLiteral_int (by simpa [Primary.isIntegral] using integral) h
    simp only [Primary.evalInt, Literal.intValue, read, Option.getD_some]
    exact .constant fits
  | .name id, n, integral, h, int => by
    obtain ⟨v, x, found, entry, rfl⟩ := value_lowerVariable.1 h
    have isInt : x.ty = .int := int
    refine ⟨_, .name (Tables.sees_of_resolve? found) (le.var? entry) (by rw [isInt]; rfl),
      fun ρ locals mem held => ?_⟩
    exact loadInstr_computes linked (le.var? entry) isInt
      (held id.name (by simp [Primary.names]) found entry)
  | .call .., n, integral, h, int => by simp [Primary.isIntegral] at integral
  | .index array index, n, integral, h, int => by
    obtain ⟨v, x, shape, i, found, entry, isArray, constant, ⟨nonneg, bound⟩, rfl⟩ :=
      value_lowerIndex.1 h
    have inBounds : i.toNat < shape.length := by omega
    refine ⟨_, .element (Tables.sees_of_resolve? found) (le.var? entry) isArray inBounds,
      fun ρ locals mem held => ?_⟩
    have heldArray := held array.name (by simp [Primary.names]) found entry
    obtain ⟨-, -, short, -⟩ := heldArray.array shape isArray int
    have computes := elementLoad_computes linked (le.var? entry) isArray int inBounds heldArray
    -- The index is a constant within the bounds, so it is the same as a word.
    have word : (BitVec.ofInt 32 i).toNat = i.toNat := by
      rw [← Int.toNat_of_nonneg nonneg]
      exact toNat_ofInt (inBounds.trans short)
    simpa [Primary.evalInt, evalInt_of_constantInt? ρ index constant, word] using computes
  | .paren inner, n, integral, h, int => by
    simp only [Primary.isIntegral] at integral
    simp only [lowerPrimary] at h
    simpa [Primary.names, Primary.evalInt] using lowerExpr_computes linked le inner integral h int

end

/-- The code of an integer expression pushes its value, from any stack and for any ints in its
variables. It comes to a division by zero exactly if the expression does. -/
theorem lowerValue_computes (linked : Linked cls ctx) (le : t.Extends ctx.tables) {e : Expr}
    (integral : e.isIntegral = true) (lowered : (lowerValue t s e).value = some n)
    (int : n.ty = .int) :
    ∃ code, (∀ c, Emits (emitValue ctx n) c (asLines code) c ()) ∧
      ∀ (ρ : IntStore) (locals : Nat → Option (Datum P)) (mem : Memory P),
        ρ.HeldBy t s ctx locals mem e.names →
        ∀ stk, (∀ after, Does cls code ⟨stk, locals, mem⟩ after ↔
            ∃ i, e.evalInt ρ = some i ∧ after = ⟨.int i :: stk, locals, mem⟩) ∧
          (DividesByZero cls code ⟨stk, locals, mem⟩ ↔ e.DividesByZero ρ) := by
  simp only [lowerValue, value_bind, value_continueWith, value_asValue] at lowered
  obtain ⟨n, found, rfl, -⟩ := lowered
  obtain ⟨code, valueCode, computes⟩ := lowerExpr_computes (P := P) linked le e integral found int
  refine ⟨code, fun _ => valueCode.emits, fun ρ locals mem held stk => ?_⟩
  rw [← evalInt_eq_none ρ e integral]
  exact (computes ρ locals mem held).iff stk

end

/-- The expression `-(a[+1] - -2147483648) % x`. -/
def remainder : Expr :=
  .binary .mod 1
    (.operand (some .minus) (.paren (.binary .sub 1
      (.operand none (.index ⟨"a", 1⟩ (.operand (some .plus) (.literal ⟨.int, "1", 1⟩) 1)) 1)
      (.operand (some .minus) (.literal ⟨.int, "2147483648", 1⟩) 1))) 1)
    (.operand none (.name ⟨"x", 1⟩) 1)

/-- A function with the variable `x`, beside a global array `a` of two ints. -/
def remainderContext : Context :=
  { tables := ⟨⟨[⟨"a", 1, .array, some ⟨.int, 2⟩⟩]⟩,
    ⟨[⟨"f", 2, [], [], ⟨[⟨"x", 3, .int, none⟩]⟩⟩]⟩⟩, frame := .ofFunction 0 false }

/-- The array `a` holds `0` and `5`. -/
def remainderMemory : Memory .rounding := ⟨fun _ => .array 0, [⟨.int, [.int 0, .int 5]⟩], (), []⟩

/-- The store with a value of `x`. -/
def remainderStore (x : BitVec 32) : IntStore := ⟨fun _ => x, fun _ k => if k = 0 then 0 else 5⟩

/-- With `5` in `a[1]`, the difference and its negation wrap around. The remainder is `4` if `x` is
`7`, and there is none if `x` is zero. -/
theorem remainder_computes : remainder.isIntegral = true ∧
    ∃ n code, (lowerValue remainderContext.tables (.function 0) remainder).value = some n ∧
      n.ty = .int ∧
      (∀ c, Emits (emitValue remainderContext n) c (asLines code) c ()) ∧ ∀ stk,
        Does ⟨"GoProgram", [("a", .array .int)], []⟩ code
          ⟨stk, fun _ => some (.int 7), remainderMemory⟩
          ⟨.int 4 :: stk, fun _ => some (.int 7), remainderMemory⟩ ∧
        DividesByZero ⟨"GoProgram", [("a", .array .int)], []⟩ code
          ⟨stk, fun _ => some (.int 0), remainderMemory⟩ := by
  have linked : Linked ⟨"GoProgram", [("a", .array .int)], []⟩ remainderContext := by
    refine ⟨⟨⟨?_, ?_⟩, ?_, ?_⟩, ?_, ?_, ?_⟩
    · decide
    · simpa [remainderContext] using .array rfl
    · simpa [remainderContext] using ⟨by simp, by simp, ⟨by simp, by simpa using .scalar rfl⟩⟩
    · decide
    · decide
    · decide
    · simp [remainderContext]
  have held (x : BitVec 32) : (remainderStore x).HeldBy remainderContext.tables
      (.function 0) remainderContext (fun _ => some (.int x)) remainderMemory remainder.names := by
    intro name mem v y found entry
    obtain rfl | rfl : name = "a" ∨ name = "x" := by
      simpa [remainder, Expr.names, Primary.names] using mem
    · cases found
      cases entry
      refine ⟨fun int => (nomatch int), fun shape array _ => ⟨0, rfl, ?_⟩⟩
      cases array
      exact ⟨by decide, rfl⟩
    · cases found
      cases entry
      exact ⟨fun _ => rfl, fun shape array _ => (nomatch array)⟩
  obtain ⟨code, emits, computes⟩ :=
    lowerValue_computes (t := remainderContext.tables) (s := .function 0) (e := remainder) linked
      (.refl _) rfl rfl rfl
  refine ⟨rfl, _, code, rfl, rfl, emits, fun stk => ⟨?_, ?_⟩⟩
  · exact ((computes _ _ _ (held 7) stk).1 _).2 ⟨4, by decide, rfl⟩
  · refine (computes _ _ _ (held 0) stk).2.2 (.inr (.inr ⟨.inr rfl, rfl⟩))

end MiniGo
