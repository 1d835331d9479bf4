import MiniGo.Proofs.Simulation.ShortCircuit
import MiniGo.Proofs.Widening.Position

/-!
# The code of widened values

An int in place of a float is converted. A reference is converted after it is loaded, and a literal
is written as a float. Of a value that an operator computes, only the type is another one: the
operation is done in floats, and its operands are converted before it.

* `TakenAs.hasCode`: where the code of an expression stands in that of its place.
* `Pushes.unique`: the code of a value pushes one datum only.
* `Platform.RoundsInts`: what the conversion of an int gives.
* `Pushes.widen`, `Pushes.widen_operation`: what the code of a widened value pushes.
* `TakenAs.pushes_float`: this is so for each int expression in each place that takes it for a
  float.
-/

namespace MiniGo

open Analysis
open Emission (emitValueAs)

variable {P : Platform} {cls : ClassFile} {ctx : Context} {t : Tables} {s : Scope} {ty : Ty}
  {e : Expr}
  {n m parent left right : Node} {locals : Nat → Option (Datum P)} {stk : List (Datum P)}
  {mem mem₁ mem₂ mem' : Memory P} {d x y : Datum P} {lines : List Line}

/-! ### Code in its place -/

/-- The lines of a node in any position. -/
inductive NodeCode (ctx : Context) (s : Scope) (n : Node) : List Line → Prop
  | value {code : List Instr} (h : ValueCode ctx s n code) : NodeCode ctx s n (asLines code)
  | condition {jump : Emission.Jump} {c c' : LabelCounters} {lines : List Line}
      (h : ConditionCode ctx s jump c n lines c') : NodeCode ctx s n lines
  | statement {exit? : Option Label} {c c' : LabelCounters} {lines : List Line}
      (h : StmtCode ctx s exit? c n lines c') : NodeCode ctx s n lines

/-- The code of a value in place of a type stands among lines. -/
def ContainsValue (ctx : Context) (s : Scope) (n : Node) (ty : Ty) (lines : List Line) : Prop :=
  ∃ code, ValueCode ctx s n code ∧ asLines (code ++ convertCode n.ty ty) <:+: lines

theorem ContainsValue.mono {lines' : List Line} (h : ContainsValue ctx s n ty lines)
    (part : lines <:+: lines') :
    ContainsValue ctx s n ty lines' := by
  obtain ⟨code, valueCode, stands⟩ := h
  exact ⟨code, valueCode, stands.trans part⟩

/-- The code of an operation on values contains that of its operands. -/
theorem NodeCode.operands {o : BinaryOp} (plain : o.isLogical = false)
    (h : NodeCode ctx s (.mk (.op o) ty [left, right]) lines) :
    ContainsValue ctx s left ty lines ∧ ContainsValue ctx s right ty lines := by
  cases h with
  | value valueCode =>
    cases valueCode with
    | @arithmetic _ op _ _ _ l r _ _ _ _ leftCode rightCode =>
      refine ⟨⟨l, leftCode, [],
        asLines (r ++ convertCode right.ty ty ++ [.arith ty.valueKind op]), by simp⟩, ?_⟩
      exact ⟨r, rightCode, asLines (l ++ convertCode left.ty ty),
        asLines [.arith ty.valueKind op], by simp⟩
    | @concat _ _ l r leftString rightString leftCode rightCode =>
      have same {value : Ty} : convertCode value .string = [] := by simp [convertCode]
      refine ⟨⟨l, leftCode, [], asLines (r ++ [.invokeVirtual Library.concat]), by simp [same]⟩, ?_⟩
      exact ⟨r, rightCode, asLines l, asLines [.invokeVirtual Library.concat], by simp [same]⟩
  | @condition jump _ _ _ conditionCode =>
    -- A logical operation would take conditions.
    have other (b : Bool) : o ≠ if b then .or else .and := by
      rintro rfl
      cases b <;> cases plain
    cases conditionCode with
    | value truth valueCode => exact absurd rfl (valueCode.kind_ne_op truth o)
    | @comparison _ _ _ code _ _ _ l r _ _ _ _ leftCode rightCode =>
      refine ⟨⟨l, leftCode, [],
        asLines (r ++ convertCode right.ty ty ++ compareCode o ty (jump.code code) jump.target),
        by simp⟩, ?_⟩
      exact ⟨r, rightCode, asLines (l ++ convertCode left.ty ty),
        asLines (compareCode o ty (jump.code code) jump.target), by simp⟩
    | both family => exact absurd family (other _)
    | skip family =>
      refine absurd family ?_
      rw [show (if jump.onTrue then BinaryOp.and else .or) = if !jump.onTrue then .or else .and by
        cases jump.onTrue <;> rfl]
      exact other _
  | statement stmtCode => cases stmtCode

/-- The code of an assignment of a single value contains that of the value. -/
theorem NodeCode.assigned {target value : Node} (single : target.kind ≠ .varList)
    (h : NodeCode ctx s (.statement .assign [target, value]) lines) :
    ContainsValue ctx s value target.ty lines := by
  cases h with
  | value valueCode => cases valueCode
  | condition conditionCode =>
    cases conditionCode with
    | value truth valueCode => cases valueCode
  | statement stmtCode =>
    cases stmtCode with
    | @assign _ _ _ _ before code after _ _ valueCode =>
      exact ⟨code, valueCode, asLines before, asLines after, by simp⟩
    | assignResults => exact absurd rfl single

theorem ArgumentsCode.contains {values : List Node} {tys : List Ty} {code : List Instr} {i : Nat}
    (value : values[i]? = some n) (type : tys[i]? = some ty)
    (h : ArgumentsCode ctx s values tys code) :
    ContainsValue ctx s n ty (asLines code) := by
  induction values generalizing i tys code with
  | nil => cases value
  | cons first values ih =>
    cases h with
    | @cons _ _ ty' _ code rest _ firstCode others =>
      cases i with
      | zero =>
        obtain rfl := Option.some.inj value
        obtain rfl := Option.some.inj type
        exact ⟨code, firstCode, [], asLines rest, by simp⟩
      | succ i =>
        exact (ih value type others).mono ⟨asLines (code ++ convertCode first.ty ty'), [], by simp⟩

/-- The code of a return statement contains that of its values. -/
theorem NodeCode.returned {f : Function} {values : List Node} {i k : Nat} (own : s = .function k)
    (caller : ctx.tables.functions.get? k = some f) (value : values[i]? = some n)
    (result : f.returns[i]? = some ty) (h : NodeCode ctx s (.statement .ret values) lines) :
    ContainsValue ctx s n ty lines := by
  cases h with
  | value valueCode => cases valueCode
  | condition conditionCode =>
    cases conditionCode with
    | value truth valueCode => cases valueCode
  | statement stmtCode =>
    cases stmtCode with
    | @ret _ _ k' f' _ code own' caller' valuesCode =>
      obtain rfl : k = k' := by
        rw [own] at own'
        injection own'
      obtain rfl : f = f' := Option.some.inj (caller.symm.trans caller')
      exact (valuesCode.contains value result).mono
        ⟨[], asLines (resultStores ctx f f.returns ++ [.ret]), by simp⟩

/-- The code of a node contains that of an expression in one of its places. -/
theorem TakenAs.hasCode (le : t.Extends ctx.tables) (h : TakenAs t s ty e parent m)
    (written : NodeCode ctx s parent lines) : ContainsValue ctx s m ty lines := by
  cases h with
  | left plain => exact (written.operands plain).1
  | right plain => exact (written.operands plain).2
  | declared _ _ single _ _ type => exact type ▸ written.assigned single
  | assigned _ single _ _ type => exact type ▸ written.assigned single
  | returned own caller _ _ node result =>
    obtain ⟨f', caller', ext⟩ := le.functions caller
    exact written.returned own caller' node (ext.returns ▸ result)

/-! ### What the code pushes -/

/-- Instructions lead from one state to one state only. -/
theorem Does.unique {is : List Instr} {start end₁ end₂ : Work P} (h₁ : Does cls is start end₁)
    (h₂ : Does cls is start end₂) : end₁ = end₂ := by
  -- With no other lines around them, there is no next step at their end.
  have stops (w : Work P) : step cls (w.at (asLines is) (0 + is.length) []) = none := by
    have outside : (asLines is)[0 + is.length]? = none := List.getElem?_eq_none (by simp)
    simp only [Work.at, step, outside]
  have alone : Seg (asLines is) 0 (asLines is) := List.prefix_rfl
  have same := Reaches.unique (h₁ [] alone) (h₂ [] alone) (stops _) (stops _)
  obtain ⟨stack₁, locals₁, memory₁⟩ := end₁
  obtain ⟨stack₂, locals₂, memory₂⟩ := end₂
  simp only [Work.at, MachineState.mk.injEq, List.cons.injEq, Activation.mk.injEq, true_and,
    and_true] at same
  rw [Work.mk.injEq]
  exact ⟨same.1.1, same.1.2, same.2⟩

/-- The code of a value pushes one datum only. -/
theorem Pushes.unique {d₁ d₂ : Datum P} (typed : ValueTyped ctx.tables s n)
    (h₁ : Pushes cls ctx locals n ty stk mem d₁ mem₁)
    (h₂ : Pushes cls ctx locals n ty stk mem d₂ mem₂) :
    d₁ = d₂ ∧ mem₁ = mem₂ := by
  obtain ⟨code, valueCode⟩ := typed.hasCode
  have same := (h₁.does valueCode).unique (h₂.does valueCode)
  injection same with stack _ memory
  injection stack with datum
  exact ⟨datum, memory⟩

/-- An int in place of a float is converted. -/
theorem Pushes.convert {i : BitVec 32} (typed : ValueTyped ctx.tables s n) (int : n.ty = .int)
    (h : Pushes cls ctx locals n .int stk mem (.int i) mem') :
    Pushes cls ctx locals n .float stk mem (.float (P.floatOfInt i)) mem' := by
  obtain ⟨code, valueCode⟩ := typed.hasCode
  have does := h.does valueCode
  rw [int, show convertCode .int .int = [] from rfl, List.append_nil] at does
  refine .of_does valueCode ?_
  rw [int]
  exact does.append (.effect rfl)

/-- An operation computes in its type. -/
theorem Pushes.arithmetic {o : BinaryOp} {op : ArithOp} (family : o.arith? = some op)
    (number : ty.isNumeric = true) (leftTyped : ValueTyped ctx.tables s left)
    (rightTyped : ValueTyped ctx.tables s right) (takesLeft : ty.Takes left.ty)
    (takesRight : ty.Takes right.ty) (leftPushes : Pushes cls ctx locals left ty stk mem x mem₁)
    (rightPushes : Pushes cls ctx locals right ty (x :: stk) mem₁ y mem₂)
    (result : Datum.arith ty.valueKind op x y = some d) :
    Pushes cls ctx locals (.mk (.op o) ty [left, right]) ty stk mem d mem₂ := by
  obtain ⟨l, leftCode⟩ := leftTyped.hasCode
  obtain ⟨r, rightCode⟩ := rightTyped.hasCode
  refine .of_does (.arithmetic family number takesLeft takesRight leftCode rightCode) ?_
  have same : convertCode ty ty = [] := if_neg fun ⟨int, float⟩ => by rw [int] at float; cases float
  have operands := (leftPushes.does leftCode).append (rightPushes.does rightCode)
  have computes : Does cls [.arith ty.valueKind op] ⟨y :: x :: stk, locals, mem₂⟩
      ⟨d :: stk, locals, mem₂⟩ :=
    .effect (by simp [Instr.effect, result])
  rw [Node.ty_mk, same, List.append_nil]
  simpa using operands.append computes

/-! ### Widened values -/

/-- The conversion of an int gives the float nearest to it. -/
def Platform.RoundsInts (P : Platform) : Prop :=
  ∀ i : BitVec 32, P.floatOfInt i = P.floatConstant (.ofInt i.toInt)

theorem toInt_ofInt_of_fitsInt {i : Int} (fits : fitsInt i = true) :
    (BitVec.ofInt 32 i).toInt = i := by
  have range : -(Nat.pow 2 31 : Int) ≤ i ∧ i < Nat.pow 2 31 := of_decide_eq_true fits
  rw [BitVec.toInt_ofInt]
  exact Int.bmod_eq_of_le (by simpa using range.1) (by simpa using range.2)

/-- An int that no operator computes is converted as a whole. -/
theorem Pushes.widen {i : BitVec 32} (rounds : P.RoundsInts) (typed : ValueTyped ctx.tables s n)
    (int : n.ty = .int) (leaf : ∀ o, n.kind ≠ .op o)
    (h : Pushes cls ctx locals n .int stk mem (.int i) mem') :
    Pushes cls ctx locals n.widen .float stk mem (.float (P.floatOfInt i)) mem' := by
  by_cases reference : n.isReference = true
  · rw [Node.widen_eq_self (.inr reference)]
    exact h.convert typed int
  · cases typed with
    | @int value ty fits number =>
      rw [Node.ty_mk] at int
      subst int
      -- The literal is written as a float, and the nearest one is what the conversion of the int
      -- gives.
      have pushes : Pushes cls ctx locals (.mk (.intVal value) .int []) .int stk mem
          (.int (.ofInt 32 value)) mem :=
        .of_does (s := .globals) (.int fits number) (.effect rfl)
      obtain ⟨same, rfl⟩ := h.unique (s := .globals) (.int fits number) pushes
      obtain rfl := Datum.int.inj same
      rw [rounds, toInt_ofInt_of_fitsInt fits]
      exact .of_does (s := .globals) (.int fits rfl) (.effect rfl)
    | arithmetic => exact absurd rfl (leaf _)
    | name | element | call => exact absurd rfl reference
    | float | bool | string => cases int

/-- An operation that is computed in floats converts its operands, which are ints, before it. -/
theorem Pushes.widen_operation {o : BinaryOp} {op : ArithOp} {i j : BitVec 32}
    (family : o.arith? = some op) (leftTyped : ValueTyped ctx.tables s left)
    (rightTyped : ValueTyped ctx.tables s right) (leftInt : left.ty = .int)
    (rightInt : right.ty = .int)
    (leftPushes : Pushes cls ctx locals left .int stk mem (.int i) mem₁)
    (rightPushes : Pushes cls ctx locals right .int
      (.float (P.floatOfInt i) :: stk) mem₁ (.int j) mem₂) :
    Pushes cls ctx locals (Node.mk (.op o) .int [left, right]).widen .float stk mem
      (.float (P.floatArith op (P.floatOfInt i) (P.floatOfInt j))) mem₂ :=
  .arithmetic family rfl leftTyped rightTyped (.inr ⟨rfl, leftInt⟩) (.inr ⟨rfl, rightInt⟩)
    (leftPushes.convert leftTyped leftInt) (rightPushes.convert rightTyped rightInt) rfl

/-- An operation of type int has two operands of this type. -/
theorem ValueTyped.operands {o : BinaryOp} (h : ValueTyped ctx.tables s n) (int : n.ty = .int)
    (kind : n.kind = .op o) :
    ∃ op left right, n = .mk (.op o) .int [left, right] ∧ o.arith? = some op ∧
      ValueTyped ctx.tables s left ∧
      ValueTyped ctx.tables s right ∧ left.ty = .int ∧ right.ty = .int := by
  cases h with
  | arithmetic family _ leftTyped rightTyped takesLeft takesRight =>
    rw [Node.ty_mk] at int
    obtain rfl := NodeKind.op.inj kind
    subst int
    obtain ⟨op, arith⟩ := BinaryOp.arith?_of_isArithmetic family
    refine ⟨op, _, _, rfl, arith, leftTyped, rightTyped, ?_, ?_⟩
    · exact takesLeft.resolve_right fun widens => by cases widens.1
    · exact takesRight.resolve_right fun widens => by cases widens.1
  | _ => cases kind

/-- The node of an expression with a scalar type is a value. -/
theorem lowerValue_typed (wf : t.WellFormed) (lowered : (lowerValue t s e).value = some n)
    (scalar : n.ty.isScalar = true) : ValueTyped t s n :=
  (lowerValue_operand wf lowered).typed scalar

/-- An int expression in a place where the analysis takes it for a float. Where no operator computes
it, the code in this place pushes the conversion of the int that the code of the expression pushes
as an int. Where an operator computes it, only this operation is done in floats: the code converts
the ints that the code of its two operands pushes. -/
theorem TakenAs.pushes_float {ctx : Context} {t : Tables} {s : Scope} {e : Expr} {n parent m : Node}
    (wf : t.WellFormed) (le : t.Extends ctx.tables) (lowered : (lowerValue t s e).value = some n)
    (int : n.ty = .int) (taken : TakenAs t s .float e parent m) {P : Platform}
    (rounds : P.RoundsInts) (cls : ClassFile) (locals : Nat → Option (Datum P)) :
    (∀ lines, NodeCode ctx s parent lines → ContainsValue ctx s m .float lines) ∧
    (e.isComputed = false → ∀ {stk mem i mem'}, Pushes cls ctx locals n .int stk mem (.int i) mem' →
      Pushes cls ctx locals m .float stk mem (.float (P.floatOfInt i)) mem') ∧
    (e.isComputed = true → ∃ o op left right, n = .mk (.op o) .int [left, right] ∧
      o.arith? = some op ∧
      ∀ {stk mem i mem₁ j mem₂}, Pushes cls ctx locals left .int stk mem (.int i) mem₁ →
        (∀ d, Pushes cls ctx locals right .int (d :: stk) mem₁ (.int j) mem₂) →
        Pushes cls ctx locals m .float stk mem
          (.float (P.floatArith op (P.floatOfInt i) (P.floatOfInt j))) mem₂ ∧
          ∀ k, intArith op i j = some k → Pushes cls ctx locals n .int stk mem (.int k) mem₂) := by
  obtain ⟨n', lowered', rfl⟩ := taken.node
  obtain rfl : n = n' := Option.some.inj (lowered.symm.trans lowered')
  have typed : ValueTyped ctx.tables s n := (lowerValue_typed wf lowered (by rw [int]; rfl)).mono le
  have computed := (lowerValue_becomes lowered).isComputed
  refine ⟨fun lines written => taken.hasCode le written, fun plain stk mem i mem' pushes => ?_,
    fun operator => ?_⟩
  · -- A value that is not computed is converted; an operation gets another type, and its operands are
    -- converted.
    refine pushes.widen rounds typed int fun o kind => ?_
    rw [computed.2 ⟨o, kind⟩] at plain
    cases plain
  · obtain ⟨o, kind⟩ := computed.1 operator
    obtain ⟨op, left, right, rfl, family, leftTyped, rightTyped, leftInt, rightInt⟩ :=
      typed.operands int kind
    refine ⟨o, op, left, right, rfl, family, fun leftPushes rightPushes => ⟨?_, fun k result => ?_⟩⟩
    · exact .widen_operation family leftTyped rightTyped leftInt rightInt leftPushes (rightPushes _)
    · exact .arithmetic family rfl leftTyped rightTyped (.inl leftInt) (.inl rightInt) leftPushes
        (rightPushes _) (by simp [Datum.arith, Ty.valueKind, result])

/-! ### A quotient -/

/-- The multiple of `2 ^ (-149)` that a finite number is. -/
def Binary32.signedUnits (x : Binary32) : Int :=
  if x.isNegative then -units x.magnitude else units x.magnitude

/-- The number nearest to a ratio. -/
def Binary32.ofRatio (num : Int) (den : Nat) : Binary32 :=
  ofMagnitude (decide (num < 0)) (roundRatio num.natAbs den)

/-- Floats of 32 bits, whose operations round the exact result for finite operands, and strings
without input. -/
def Platform.rounding : Platform where
  Float := Binary32
  Text := String
  Input := Unit
  floatConstant x := x
  floatOfInt i := .ofInt i.toInt
  floatArith op x y :=
    let u := x.signedUnits
    let v := y.signedUnits
    match op with
    | .add => .ofRatio (u + v) (Nat.pow 2 149)
    | .sub => .ofRatio (u - v) (Nat.pow 2 149)
    | .mul => .ofRatio (u * v) (Nat.pow 2 298)
    | .div =>
      if v = 0 then .ofMagnitude (decide (u < 0)) Binary32.infinityBits
        else .ofRatio (u * v.sign) v.natAbs
    | .rem => .ofRatio (u.tmod v) (Nat.pow 2 149)
  floatOrder x y := some (compare x.signedUnits y.signedUnits)
  textConstant text := text
  concat s t := s ++ t
  compareTo s t := Ordering.word (compare s t)
  nextInt _ := none
  nextFloat _ := none
  nextBool _ := none
  nextLine _ := none

instance : DecidableEq Platform.rounding.Float := inferInstanceAs (DecidableEq Binary32)

/-- The expression `7`. -/
def seven : Expr := .operand none (.literal ⟨.int, "7", 1⟩) 1

/-- The expression `7 / 2`. -/
def quotient : Expr := .binary .div 1 seven (.operand none (.literal ⟨.int, "2", 1⟩) 1)

/-- The node of `7 / 2` in a type. -/
def quotientNode (ty : Ty) : Node :=
  .mk (.op .div) ty [.leaf (.intVal 7) .int, .leaf (.intVal 2) .int]

/-- Tables with the variable `f` of type float. -/
def quotientContext : Context := { tables := ⟨⟨[⟨"f", 1, .float, none⟩]⟩, {}⟩ }

/-- The declaration `var f float64 = 7 / 2`. -/
theorem quotient_taken : TakenAs {} .globals .float quotient
    (.statement .assign [.leaf (.varDecl ⟨0, .globals⟩) .float, quotientNode .float])
      (quotientNode .float) :=
  @TakenAs.declared {} .globals .float quotient [⟨"f", 1⟩] (some .float)
    [quotient] "=" 1 0 _ quotientContext.tables
    _ _ rfl rfl (by simp [Node.leaf]) rfl rfl rfl

/-- The sum `7 + f`. -/
theorem seven_taken : TakenAs quotientContext.tables .globals .float seven
    (.mk (.op .add) .float [.leaf (.intVal 7) .float, .leaf (.varUse ⟨0, .globals⟩) .float])
    (.leaf (.intVal 7) .float) :=
  @TakenAs.left _ _ _ _ .add 1 (.operand none (.name ⟨"f", 1⟩) 1) _ _ rfl rfl

section

variable (mem : Memory .rounding) (stk : List (Datum .rounding))

theorem seven_pushes :
    Pushes ⟨"Main", [], []⟩ quotientContext (fun _ => none)
      (.leaf (.intVal 7) .int) .int stk mem (.int 7) mem :=
  ⟨[.ldc (.int 7)], fun _ => rfl, .effect rfl⟩

theorem two_pushes :
    Pushes ⟨"Main", [], []⟩ quotientContext (fun _ => none)
      (.leaf (.intVal 2) .int) .int stk mem (.int 2) mem :=
  ⟨[.ldc (.int 2)], fun _ => rfl, .effect rfl⟩

end

/-- The literal `7` is pushed as `7.0`. The quotient is computed in floats: `3` alone, and `3.5` in
the declaration. -/
theorem quotient_pushes_float : Platform.rounding.RoundsInts ∧
    (lowerValue {} .globals quotient).value = some (quotientNode .int) ∧
    TakenAs {} .globals .float quotient
      (.statement .assign [.leaf (.varDecl ⟨0, .globals⟩) .float, quotientNode .float])
        (quotientNode .float) ∧
    ∀ (mem : Memory .rounding),
      Pushes ⟨"Main", [], []⟩ quotientContext (fun _ => none)
        (.leaf (.intVal 7) .float) .float [] mem
        (.float (Platform.rounding.floatConstant ⟨0x40e00000⟩)) mem ∧
      Pushes ⟨"Main", [], []⟩ quotientContext (fun _ => none) (quotientNode .float) .float [] mem
        (.float (Platform.rounding.floatConstant ⟨0x40600000⟩)) mem ∧
      Pushes ⟨"Main", [], []⟩ quotientContext (fun _ => none) (quotientNode .int) .int
        [] mem (.int 3) mem := by
  have rounds : Platform.rounding.RoundsInts := fun _ => rfl
  have wf : Tables.WellFormed {} := ⟨⟨by simp, by simp⟩, by simp, by simp⟩
  have wf' : quotientContext.tables.WellFormed :=
    ⟨⟨by simp [quotientContext], by simpa [quotientContext] using .scalar rfl⟩,
      by simp [quotientContext], by simp [quotientContext]⟩
  have le : Tables.Extends {} quotientContext.tables := ⟨List.nil_prefix, by simp [FuncTable.get?]⟩
  refine ⟨rounds, rfl, quotient_taken, fun mem => ?_⟩
  have converts := (TakenAs.pushes_float wf' (.refl _) rfl rfl seven_taken rounds _ _).2.1 rfl
    (seven_pushes mem [])
  obtain ⟨o, op, left, right, node, family, computes⟩ :=
    (TakenAs.pushes_float wf le rfl rfl quotient_taken rounds ⟨"Main", [], []⟩
      fun _ => none).2.2 rfl
  obtain ⟨rfl, rfl, rfl⟩ : o = .div ∧ left = .leaf (.intVal 7) .int ∧
      right = .leaf (.intVal 2) .int := by
    injection node with kind _ children
    injection kind with same
    injection children with first rest
    injection rest with second
    exact ⟨same.symm, first.symm, second.symm⟩
  obtain rfl := Option.some.inj family
  obtain ⟨asFloat, asInt⟩ := computes (seven_pushes mem []) fun d => two_pushes mem [d]
  have sevenHalves : Platform.rounding.floatArith .div (Platform.rounding.floatOfInt 7)
      (Platform.rounding.floatOfInt 2) = Platform.rounding.floatConstant ⟨0x40600000⟩ := by
        decide +kernel
  have seven : Platform.rounding.floatOfInt 7 = Platform.rounding.floatConstant ⟨0x40e00000⟩ := by
    decide +kernel
  rw [sevenHalves] at asFloat
  rw [seven] at converts
  exact ⟨converts, asFloat, asInt 3 (by decide)⟩

/-- In the declaration `var f float64 = 7 / 2` the code of the quotient does not push the conversion
of the int `3`, which the quotient pushes as an int. -/
theorem quotient_not_converted :
    (lowerValue {} .globals quotient).value = some (quotientNode .int) ∧
    TakenAs {} .globals .float quotient
      (.statement .assign [.leaf (.varDecl ⟨0, .globals⟩) .float, quotientNode .float])
        (quotientNode .float) ∧
    ∀ (mem : Memory .rounding),
      Pushes ⟨"Main", [], []⟩ quotientContext (fun _ => none) (quotientNode .int) .int
        [] mem (.int 3) mem ∧
      ¬ Pushes ⟨"Main", [], []⟩ quotientContext (fun _ => none) (quotientNode .float) .float [] mem
        (.float (Platform.rounding.floatOfInt 3)) mem := by
  have number (i : Int) (fits : fitsInt i = true) :
      ValueTyped quotientContext.tables .globals (.leaf (.intVal i) .int) := .int fits rfl
  have typed : ValueTyped quotientContext.tables .globals (quotientNode .float) :=
    .arithmetic rfl (.inl rfl) (number 7 rfl) (number 2 rfl) (.inr ⟨rfl, rfl⟩) (.inr ⟨rfl, rfl⟩)
  refine ⟨rfl, quotient_taken, fun mem => ⟨?_, fun converted => ?_⟩⟩
  · exact .arithmetic rfl rfl (number 7 rfl) (number 2 rfl) (.inl rfl) (.inl rfl)
      (seven_pushes mem []) (two_pushes mem _) rfl
  · have pushes := Pushes.widen_operation (o := .div) rfl (number 7 rfl) (number 2 rfl) rfl rfl
      (seven_pushes mem []) (two_pushes mem _)
    have same := (pushes.unique typed converted).1
    injection same with same
    exact absurd same (by decide +kernel)

end MiniGo
