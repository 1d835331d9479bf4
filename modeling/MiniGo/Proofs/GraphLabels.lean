import MiniGo.Proofs.Assembly.Reading
import MiniGo.Proofs.Shortest
import MiniGo.Typed.Dot

/-!
# Labels of nodes

The label of a node says what the node is. It is read by its delimiters: a type in round brackets
comes first, and the slot of a variable or the index of a function is behind the last at sign.

* `readType?`, `readSlot?`, `readElement?`: reading the parts of a label.
* `NodeKind.ofName?`: the operator or the statement with a given name.
* `NodeKind.Shows`: what the text of a kind says about it.
* `Node.shown_dotLabel`: what the label of a node says.
-/

namespace MiniGo

/-! ### Reading labels -/

/-- Reads a type in round brackets, and gives what is behind the blank after it. -/
def readType? (label : List Char) : Option (Ty × List Char) := do
  let (front, behind) ← cutFirst? ')' label
  let name ← front.dropPrefix? ['(']
  let shown ← behind.dropPrefix? [' ']
  let ty ← [Ty.bool, .int, .float, .string, .array, .null].find? (·.name.toList == name)
  return (ty, shown)

/-- Reads a name and the number behind its last at sign. -/
def readSlot? (shown : List Char) : Option (List Char × Nat) := do
  let (name, number) ← cutLast? '@' shown
  return (name, ← readNat? number)

/-- Reads a name and the number in square brackets behind it. -/
def readElement? (shown : List Char) : Option (List Char × Nat) := do
  let (name, behind) ← cutLast? '[' shown
  let (number, _) ← cutFirst? ']' behind
  return (name, ← readNat? number)

namespace NodeKind

/-- The kinds that are shown by their names alone. -/
def named : List NodeKind :=
  [assign, block, cond, repeat_, program, read, write, varList, ret] ++
    [.eq, .ne, .lt, .gt, .le, .ge, .add, .sub, .mul, .div, .mod, .and, .or].map op

/-- The operator or the statement with a given name. -/
def ofName? (name : List Char) : Option NodeKind := named.find? (·.name.toList == name)

/-- What the text of a kind says about it: the name and the number of a variable or a function, the
value of a literal, or the operator or statement itself. -/
def Shows (t : Tables) (shown : List Char) : NodeKind → Prop
  | varDecl v | varUse v => ∃ name, readSlot? shown = some (name, v.slot) ∧
      ∀ x, t.var? v = some x → String.ofList name = x.name
  | arrayUse v offset => ∃ element name, readSlot? shown = some (element, v.slot) ∧
      readElement? element = some (name, offset) ∧ ∀ x, t.var? v = some x →
        String.ofList name = x.name
  | function index | call index => ∃ name, readSlot? shown = some (name, index) ∧
      ∀ f, t.functions.get? index = some f → String.ofList name = f.name
  | intVal value => readInt? shown = some value
  | boolVal value => shown = "true".toList ↔ value = true
  | strVal text => String.ofList shown = text
  -- Two places behind the point do not tell a number, but it is not far away.
  | floatVal x =>
    x.isFinite = true → ∃ text q, shown = (if x.isNegative then '-' :: text else text) ∧
      Binary32.PointedDenotes text q ∧ Binary32.distance q x.magnitude ≤ 1 / 200
  | kind => ofName? shown = some kind

end NodeKind

/-! ### What a label says -/

variable {t : Tables}

theorem dropPrefix?_append (word rest : List Char) : (word ++ rest).dropPrefix? word = some rest :=
  List.dropPrefix?_eq_some_iff.2 ⟨word, rfl, beq_self_eq_true word⟩

theorem readSlot?_append (name : String) (n : Nat) :
    readSlot? (name ++ "@" ++ toString n).toList = some (name.toList, n) := by
  have digits : '@' ∉ Nat.toDigits 10 n := fun mem => by
    have digit := Nat.isDigit_of_mem_toDigits (by decide) (by decide) mem
    cases digit
  have characters : (name ++ "@" ++ toString n).toList = name.toList ++
      '@' :: Nat.toDigits 10 n := by
    simp [Nat.toString_eq_repr, Nat.toList_repr]
  rw [readSlot?, characters, cutLast?_append digits]
  simp

theorem readElement?_append (name : String) (n : Nat) :
    readElement? (name ++ "[" ++ toString n ++ "]").toList = some (name.toList, n) := by
  have digits {c : Char} (other : c.isDigit = false) : c ∉ Nat.toDigits 10 n := fun mem => by
    rw [Nat.isDigit_of_mem_toDigits (by decide) (by decide) mem] at other
    cases other
  have characters : (name ++ "[" ++ toString n ++ "]").toList =
      name.toList ++ '[' :: (Nat.toDigits 10 n ++ [']']) := by
    simp [Nat.toString_eq_repr, Nat.toList_repr]
  have open_ : '[' ∉ Nat.toDigits 10 n ++ [']'] := by simp [digits (c := '[') rfl]
  rw [readElement?, characters, cutLast?_append open_]
  simp [cutFirst?_append (digits (c := ']') rfl)]

theorem readType?_append {ty : Ty} (typed : ty ≠ .noType) (shown : List Char) :
    readType? ('(' :: (ty.name.toList ++ ')' :: ' ' :: shown)) = some (ty, shown) := by
  have close : ')' ∉ '(' :: ty.name.toList := by cases ty <;> decide
  have listed : [Ty.bool, .int, .float, .string, .array, .null].find?
      (·.name.toList == ty.name.toList) = some ty := by
    cases ty <;> first | rfl | exact absurd rfl typed
  have name : ('(' :: ty.name.toList).dropPrefix? ['('] = some ty.name.toList :=
    dropPrefix?_append ['('] _
  have rest : (' ' :: shown).dropPrefix? [' '] = some shown := dropPrefix?_append [' '] _
  rw [readType?, ← List.cons_append, cutFirst?_append close]
  simp only [Option.bind_eq_bind, Option.bind_some, name, rest, listed]
  rfl

/-- A number with two places is at most one half of a hundredth away. -/
theorem Binary32.exists_fixedTwo {x : Binary32} (finite : x.isFinite = true) :
    ∃ text q, x.fixedTwo.toList = (if x.isNegative then '-' :: text else text) ∧
      PointedDenotes text q ∧ distance q x.magnitude ≤ 1 / 200 := by
  obtain ⟨whole, fraction, text, someWhole, places, all, value⟩ :=
    toList_pointedText (roundDiv (units x.magnitude * 100) (Nat.pow 2 149)) two_pos
  have denotes := PointedDenotes.intro someWhole (List.ne_nil_of_length_pos (places ▸ two_pos)) all
  rw [value, places, ← text] at denotes
  refine ⟨_, _, toList_textWith _ finite, denotes, ?_⟩
  obtain ⟨near, -⟩ := @roundDiv_half (units x.magnitude * 100) (2 ^ 149) (Nat.two_pow_pos 149)
  have scaled : (roundDiv (units x.magnitude * 100) (Nat.pow 2 149) : ℚ) /
      10 ^ 2 - units x.magnitude / 2 ^ 149 = -(((units x.magnitude * 100 : ℕ) : ℚ) /
        (2 ^ 149 : ℕ) - roundDiv (units x.magnitude * 100) (2 ^ 149)) / 100 := by
    push_cast
    ring
  rw [distance, scaled, abs_div, abs_neg]
  linarith

/-- An operator or a statement is known by its name. -/
theorem NodeKind.ofName?_name {kind : NodeKind} (mem : kind ∈ named) :
    ofName? kind.name.toList = some kind := by
  have all : ∀ kind ∈ named, ofName? kind.name.toList = some kind := by decide +kernel
  exact all kind mem

/-- The text of a kind shows it. -/
theorem NodeKind.shows_dotLabel (kind : NodeKind) : kind.Shows t (kind.dotLabel t).toList := by
  cases kind with
  | varDecl v | varUse v =>
    refine ⟨_, readSlot?_append _ _, fun x found => ?_⟩
    rw [String.ofList_toList, Tables.variableName, found]
    rfl
  | arrayUse v offset =>
    have label : (arrayUse v offset).dotLabel t =
        t.variableName v ++ "[" ++ toString offset ++ "]" ++ "@" ++ toString v.slot := by
      show t.variableName v ++ "[" ++ toString offset ++ "]@" ++ toString v.slot = _
      rw [show "]@" = "]" ++ "@" from rfl, ← String.append_assoc]
    rw [label]
    refine ⟨_, _, readSlot?_append _ _, readElement?_append _ _, fun x found => ?_⟩
    rw [String.ofList_toList, Tables.variableName, found]
    rfl
  | function index | call index =>
    refine ⟨_, readSlot?_append (t.functionName index) index, fun f found => ?_⟩
    rw [String.ofList_toList, Tables.functionName, found]
    rfl
  | intVal value => exact readInt?_repr value
  | boolVal value =>
    show (if value then "true" else "false").toList = "true".toList ↔ value = true
    cases value <;> decide
  | strVal text =>
    show String.ofList text.toList = text
    exact String.ofList_toList
  | floatVal x => exact Binary32.exists_fixedTwo
  | op o => exact ofName?_name (by cases o <;> simp [named])
  | assign | block | cond | repeat_ | program | read | write | varList | ret =>
    exact ofName?_name (by simp [named])

/-- What a label says about a node: its type, unless it has none, and what is shown of its kind. -/
def Node.Shown (t : Tables) (n : Node) (label : String) : Prop :=
  ∃ shown, n.kind.Shows t shown ∧ (n.ty = .noType → label.toList = shown) ∧
    (n.ty ≠ .noType → readType? label.toList = some (n.ty, shown))

theorem Node.shown_dotLabel (n : Node) : n.Shown t (n.dotLabel t) := by
  refine ⟨_, n.kind.shows_dotLabel, fun untyped => ?_, fun typed => ?_⟩
  · rw [dotLabel, if_pos untyped, String.empty_append]
  · have characters : (n.dotLabel t).toList =
        '(' :: (n.ty.name.toList ++ ')' :: ' ' :: (n.kind.dotLabel t).toList) := by
      rw [dotLabel, if_neg typed]
      simp only [String.toList_append, List.append_assoc]
      rfl
    rw [characters, readType?_append typed]

end MiniGo
