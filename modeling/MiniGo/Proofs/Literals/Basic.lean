import MiniGo.Analysis.Program
import MiniGo.Proofs.Names.Grammar
import MiniGo.Proofs.WellTyped.Origins

/-!
# Literals and their range

The range of a literal is checked twice: when the source text is cut into tokens, and when the
literal is typed. The first check does not know the sign, so an integer may have the magnitude of
the least integer. This is the only literal that the second check may refuse, if there is no minus.
A minus is taken into a number only if it stands directly in front of it; in front of parentheses it
is an operation.

* `SignedLiteral`, `Expr.literals`, `File.literals`: literals with their own signs.
* `SignedLiteral.TooLarge`, `SignedLiteral.value`: integers of the one magnitude that has no value,
  and the values of the others.
* `Literal.Legal`: literals whose texts are those of tokens, such as all literals of a file.
* `SignedLiteral.Checked`, `Analysis.checked_of_legal`: what becomes of a literal when it is typed.
* `Report.Rejects`, `Analysis.lowerExpr_rejects`: the literals of an expression that are reported.
-/

namespace MiniGo

open Binary32

/-! ### Literals with their signs -/

/-- A literal with its own sign, which is the one directly in front of it. -/
structure SignedLiteral where
  sign : Option Sign
  literal : Literal
deriving DecidableEq, Repr

namespace SignedLiteral

/-- Whether the own sign is a minus. -/
def isNegative (l : SignedLiteral) : Bool := decide (l.sign = some .minus)

/-- The value of an integer with its sign. -/
def value (l : SignedLiteral) : ℤ := signedValue l.isNegative l.literal.text.toList

/-- An integer has the magnitude of the least integer, but no minus. -/
def TooLarge (l : SignedLiteral) : Prop :=
  l.literal.kind = .int ∧ digitsValue l.literal.text.toList = 2 ^ 31 ∧ l.isNegative = false

instance : DecidablePred TooLarge := fun _ => inferInstanceAs (Decidable (_ ∧ _ ∧ _))

end SignedLiteral

/-- The literals that are too large, as they are reported. -/
def tooLarge (ls : List SignedLiteral) : List (String × Nat) :=
  (ls.filter (·.TooLarge)).map fun l => (l.literal.text, l.literal.line)

@[simp] theorem tooLarge_nil : tooLarge [] = [] := rfl

@[simp] theorem tooLarge_append (ls ms : List SignedLiteral) :
    tooLarge (ls ++ ms) = tooLarge ls ++ tooLarge ms := by
  rw [tooLarge, List.filter_append, List.map_append]
  rfl

mutual

/-- The literals in an expression that stand for values, from left to right. An index is a part of
the name of an element. -/
def Expr.literals : Expr → List SignedLiteral
  | .binary _ _ left right => left.literals ++ right.literals
  | .operand sign primary _ => primary.literals sign
termination_by structural e => e

/-- The literals in an operand with a sign. -/
def Primary.literals (sign : Option Sign) : Primary → List SignedLiteral
  | .literal literal => [⟨sign, literal⟩]
  | .name _ => []
  | .call _ args => Expr.allLiterals args
  | .index _ _ => []
  | .paren inner => inner.literals
termination_by structural primary => primary

/-- The literals in expressions, in order. -/
def Expr.allLiterals : List Expr → List SignedLiteral
  | [] => []
  | e :: es => e.literals ++ Expr.allLiterals es
termination_by structural es => es

end

/-- The literals in the initial values of a declaration. -/
def VarDecl.literals (decl : VarDecl) : List SignedLiteral :=
  decl.specs.flatMap fun spec => Expr.allLiterals spec.values

mutual

/-- The literals in a statement. -/
def Stmt.literals : Stmt → List SignedLiteral
  | .var decl => decl.literals
  | .define _ values _ | .assign _ values _ | .ret values _ => Expr.allLiterals values
  | .cond stmt => stmt.literals
  | .loop condition body _ => condition.literals ++ body.literals
  | .call _ args _ => Expr.allLiterals args
  | .block body => body.literals
termination_by structural stmt => stmt

/-- The literals in a block. -/
def Block.literals : Block → List SignedLiteral
  | .mk statements _ _ => Stmt.allLiterals statements
termination_by structural block => block

/-- The literals in statements, in order. -/
def Stmt.allLiterals : List Stmt → List SignedLiteral
  | [] => []
  | stmt :: stmts => stmt.literals ++ Stmt.allLiterals stmts
termination_by structural stmts => stmts

/-- The literals in a conditional statement. -/
def IfStmt.literals : IfStmt → List SignedLiteral
  | .mk condition body otherwise _ => condition.literals ++ (body.literals ++ otherwise.literals)
termination_by structural stmt => stmt

/-- The literals in an else branch. -/
def ElseBranch.literals : ElseBranch → List SignedLiteral
  | .absent => []
  | .block body => body.literals
  | .elseIf stmt => stmt.literals
termination_by structural branch => branch

end

/-- The literals in a file, in the order in which it is typed: the variables come before the
functions. -/
def File.literals (file : File) : List SignedLiteral :=
  file.varDecls.flatMap VarDecl.literals ++ file.funcDecls.flatMap fun func => func.body.literals

/-! ### Literals are leaves -/

mutual

theorem Expr.leaf_mem_leaves {l : SignedLiteral} :
    ∀ {e : Expr}, l ∈ e.literals → l.literal.leaf ∈ e.leaves
  | .binary op line left right, mem => by
    simp only [Expr.leaves, List.mem_append, List.mem_cons]
    rcases List.mem_append.1 mem with mem | mem
    · exact .inl (Expr.leaf_mem_leaves mem)
    · exact .inr (.inr (Expr.leaf_mem_leaves mem))
  | .operand _ _ _, mem => List.mem_append_right _ (Primary.leaf_mem_leaves mem)

theorem Primary.leaf_mem_leaves {l : SignedLiteral} {sign : Option Sign} :
    ∀ {primary : Primary}, l ∈ primary.literals sign → l.literal.leaf ∈ primary.leaves
  | .literal _, mem => by
    obtain rfl := List.mem_singleton.1 mem
    exact .head _
  | .call _ _, mem => .tail _ (Expr.leaf_mem_leavesAll mem)
  | .paren _, mem => Expr.leaf_mem_leaves mem

theorem Expr.leaf_mem_leavesAll {l : SignedLiteral} :
    ∀ {es : List Expr}, l ∈ Expr.allLiterals es → l.literal.leaf ∈ Expr.leavesAll es
  | _ :: _, mem => by
    rcases List.mem_append.1 mem with mem | mem
    · exact List.mem_append_left _ (Expr.leaf_mem_leaves mem)
    · exact List.mem_append_right _ (Expr.leaf_mem_leavesAll mem)

end

theorem VarDecl.leaf_mem_leaves {l : SignedLiteral} {decl : VarDecl} (mem : l ∈ decl.literals) :
    l.literal.leaf ∈ decl.leaves := by
  obtain ⟨spec, listed, mem⟩ := List.mem_flatMap.1 mem
  refine List.mem_flatMap.2 ⟨spec, listed, ?_⟩
  exact List.mem_append_right _ (List.mem_append_right _ (Expr.leaf_mem_leavesAll mem))

mutual

theorem Stmt.leaf_mem_leaves {l : SignedLiteral} :
    ∀ {stmt : Stmt}, l ∈ stmt.literals → l.literal.leaf ∈ stmt.leaves
  | .var _, mem => VarDecl.leaf_mem_leaves mem
  | .define _ _ _, mem => List.mem_append_right _ (Expr.leaf_mem_leavesAll mem)
  | .assign _ _ _, mem => List.mem_append_right _ (Expr.leaf_mem_leavesAll mem)
  | .cond _, mem => IfStmt.leaf_mem_leaves mem
  | .loop _ _ _, mem =>
    List.mem_append.2 ((List.mem_append.1 mem).imp Expr.leaf_mem_leaves Block.leaf_mem_leaves)
  | .ret _ _, mem => Expr.leaf_mem_leavesAll mem
  | .call _ _ _, mem => .tail _ (Expr.leaf_mem_leavesAll mem)
  | .block _, mem => Block.leaf_mem_leaves mem

theorem Block.leaf_mem_leaves {l : SignedLiteral} :
    ∀ {block : Block}, l ∈ block.literals → l.literal.leaf ∈ block.leaves
  | .mk _ _ _, mem => Stmt.leaf_mem_leavesAll mem

theorem Stmt.leaf_mem_leavesAll {l : SignedLiteral} :
    ∀ {stmts : List Stmt}, l ∈ Stmt.allLiterals stmts → l.literal.leaf ∈ Stmt.leavesAll stmts
  | _ :: _, mem =>
    List.mem_append.2 ((List.mem_append.1 mem).imp Stmt.leaf_mem_leaves Stmt.leaf_mem_leavesAll)

theorem IfStmt.leaf_mem_leaves {l : SignedLiteral} :
    ∀ {stmt : IfStmt}, l ∈ stmt.literals → l.literal.leaf ∈ stmt.leaves
  | .mk _ _ _ _, mem => by
    refine List.mem_append.2 ((List.mem_append.1 mem).imp Expr.leaf_mem_leaves fun mem => ?_)
    exact List.mem_append.2
      ((List.mem_append.1 mem).imp Block.leaf_mem_leaves ElseBranch.leaf_mem_leaves)

theorem ElseBranch.leaf_mem_leaves {l : SignedLiteral} :
    ∀ {branch : ElseBranch}, l ∈ branch.literals → l.literal.leaf ∈ branch.leaves
  | .block _, mem => Block.leaf_mem_leaves mem
  | .elseIf _, mem => IfStmt.leaf_mem_leaves mem

end

/-- The literals of a file are among its leaves. -/
theorem File.leaf_mem_leaves {file : File} {l : SignedLiteral} (mem : l ∈ file.literals) :
    l.literal.leaf ∈ file.leaves := by
  rcases List.mem_append.1 mem with mem | mem
  · obtain ⟨decl, declared, mem⟩ := List.mem_flatMap.1 mem
    exact mem_leaves_of_varDecl declared (VarDecl.leaf_mem_leaves mem)
  · obtain ⟨func, declared, mem⟩ := List.mem_flatMap.1 mem
    have inBody := List.mem_append_right (func.results.map Ident.leaf) (Block.leaf_mem_leaves mem)
    exact mem_leaves_of_funcDecl declared (.tail _ (List.mem_append_right _ inBody))

/-! ### Numbers that can be read -/

/-- The text of a literal is one that a token of its kind can have. -/
def Literal.Legal (lit : Literal) : Prop := lit.leaf.Legal

theorem File.legal_of_mem_literals {source : String} {file : File}
    (h : File.parse source = .ok file) :
    ∀ l ∈ file.literals, l.literal.Legal :=
  fun _ mem => leaves_legal h _ (leaf_mem_leaves mem)

namespace Analysis

variable {t : Tables} {s : Scope} {line : Nat}

/-- An integer has a node if it fits into 32 bits with its sign. -/
theorem lowerLiteral_integer {text : String} (legal : (Token.integer text).Legal) (line : Nat)
    (negative : Bool) :
    lowerLiteral ⟨.int, text, line⟩ negative =
      if digitsValue text.toList = 2 ^ 31 ∧
      negative = false then .reject (.invalidLiteral text line)
      else pure (some (.leaf (.intVal (signedValue negative text.toList)) .int)) := by
  have range : digitsValue text.toList ≤ 2 ^ 31 := legal.2
  have fits : fitsInt (signedValue negative text.toList) = true ↔
      ¬ (digitsValue text.toList = 2 ^ 31 ∧ negative = false) := by
    rw [fitsInt, decide_eq_true_iff, signedValue, Nat.pow_eq]
    cases negative <;> simp <;> omega
  have node : intLiteral? text negative = if fitsInt (signedValue negative text.toList) = true then
      some (.leaf (.intVal (signedValue negative text.toList)) .int) else none := by
    rw [intLiteral?, readInteger?_of_legal legal]
    rfl
  simp only [lowerLiteral, node]
  by_cases large : digitsValue text.toList = 2 ^ 31 ∧ negative = false
  · rw [if_neg (fun h => fits.1 h large), if_pos large]
  · rw [if_pos (fits.2 large), if_neg large]

/-- A decimal has the node of the finite number that is nearest to its value, with its sign. -/
theorem lowerLiteral_decimal {text : String} (legal : (Token.decimal text).Legal) :
    ∃ q m, DecimalDenotes text.toList q ∧ NearestMagnitude q m ∧ m < infinityBits ∧
      ∀ line negative, lowerLiteral ⟨.float, text, line⟩ negative =
        pure (some (.leaf (.floatVal (.ofMagnitude negative m)) .float)) := by
  obtain ⟨q, x, denotes, finite, m, nearest, rfl⟩ := legal.2
  have below := (isFinite_ofMagnitude nearest.bound).1 finite
  obtain ⟨positive, magnitude⟩ := ofMagnitude_spec false (below.trans (by decide))
  have read := (readFinite?_eq_some_iff denotes).2 ⟨finite, m, nearest, rfl⟩
  refine ⟨q, m, denotes, nearest, below, fun line negative => ?_⟩
  have node : floatLiteral? text negative =
      some (.leaf (.floatVal (.ofMagnitude negative m)) .float) := by
    rw [floatLiteral?, read]
    cases negative
    · rfl
    · simp [neg, positive, magnitude]
  simp only [lowerLiteral, node]

end Analysis

/-! ### Reports of literals -/

/-- The literal that an error is about, with its line. -/
def SemanticError.literal? : SemanticError → Option (String × Nat)
  | .invalidLiteral text line => some (text, line)
  | _ => none

namespace Report

variable {α β : Type}

/-- The literals that a report calls invalid. -/
def invalidLiterals (r : Report α) : List (String × Nat) :=
  r.errors.filterMap SemanticError.literal?

@[simp] theorem invalidLiterals_pure (a : α) : (pure a : Report α).invalidLiterals = [] := rfl

@[simp] theorem invalidLiterals_bind (r : Report α) (f : α → Report β) :
    (r >>= f).invalidLiterals = r.invalidLiterals ++ (f r.value).invalidLiterals :=
  List.filterMap_append

/-- A report is not about literals. -/
def Quiet (r : Report α) : Prop := r.invalidLiterals = []

theorem Quiet.pure {a : α} : Quiet (Pure.pure a) := rfl

theorem Quiet.reject {e : SemanticError} (other : e.literal? = none) :
    Quiet (.reject e : Report (Option α)) := by
  simp [Quiet, invalidLiterals, Report.reject, other]

theorem Quiet.bind {r : Report α} {f : α → Report β} (h : Quiet r) (h' : ∀ a, Quiet (f a)) :
    Quiet (r >>= f) := by
  rw [Quiet, invalidLiterals_bind, h, h', List.append_nil]

theorem Quiet.continueWith {a? : Option α} {f : α → Report (Option β)} (h : ∀ a, Quiet (f a)) :
    Quiet (Analysis.continueWith a? f) := by
  cases a? with
  | none => rfl
  | some a => exact h a

/-- A step that keeps the value adds nothing. -/
theorem andThen_eq_self {r : Report (Option α)} {f : α → Report (Option α)}
    (keeps : ∀ a, r.value = some a → f a = Pure.pure (some a)) :
    (r >>= fun a? => Analysis.continueWith a? f) = r := by
  obtain ⟨value, errors⟩ := r
  have same : Analysis.continueWith value f = Pure.pure value := by
    cases value with
    | none => rfl
    | some a => exact keeps a rfl
  show (⟨(Analysis.continueWith value f).value,
    errors ++ (Analysis.continueWith value f).errors⟩ : Report _) = _
  rw [same, value_pure, errors_pure, List.append_nil]

theorem Quiet.ite {c : Prop} [Decidable c] {r r' : Report α} (h : Quiet r) (h' : Quiet r') :
    Quiet (if c then r else r') := by
  split
  · exact h
  · exact h'

/-- The literals that a report calls invalid are those of a list that are too large. -/
def Rejects (r : Report α) (ls : List SignedLiteral) : Prop := r.invalidLiterals = tooLarge ls

variable {ls ms : List SignedLiteral} {r : Report α} {f : α → Report β}

theorem Rejects.bind (h : r.Rejects ls) (h' : ∀ a, (f a).Rejects ms) :
    (r >>= f).Rejects (ls ++ ms) := by
  rw [Rejects, invalidLiterals_bind, h, h', tooLarge_append]

theorem Rejects.andThen (h : r.Rejects ls) (h' : ∀ a, (f a).Quiet) : (r >>= f).Rejects ls := by
  rw [Rejects, invalidLiterals_bind, h, h', List.append_nil]

theorem Quiet.andThen (h : r.Quiet) (h' : ∀ a, (f a).Rejects ms) : (r >>= f).Rejects ms := by
  rw [Rejects, invalidLiterals_bind, h, h', List.nil_append]

theorem Rejects.ite {c : Prop} [Decidable c] {r r' : Report α} (h : r.Rejects ls)
    (h' : r'.Rejects ls) :
    (if c then r else r').Rejects ls := by
  split
  · exact h
  · exact h'

end Report

open Report

namespace Analysis

variable {t : Tables} {s : Scope} {line : Nat}

theorem asValue_quiet (n : Node) : Quiet (asValue line n) := .ite (.reject rfl) .pure

theorem lowerSigned_quiet (sign : Sign) (n : Node) : Quiet (lowerSigned sign line n) :=
  .bind (asValue_quiet n) fun _ => .continueWith fun _ => .ite .pure (.reject rfl)

theorem lowerOperation_quiet (op : BinaryOp) (left right : Node) :
    Quiet (lowerOperation op line left right) := by
  refine .bind ?_ fun _ => .continueWith fun _ => .pure
  unfold binaryTy
  split
  · exact .pure
  · exact .reject rfl

theorem lowerVariable_quiet (name : Ident) : Quiet (lowerVariable t s name) := by
  unfold lowerVariable
  split
  · exact .reject rfl
  · exact .pure

theorem lowerIndex_quiet (array : Ident) (index : Expr) : Quiet (lowerIndex t s array index) := by
  unfold lowerIndex
  split
  · exact .reject rfl
  · refine .continueWith fun entry => ?_
    split
    · exact .reject rfl
    · split
      · exact .reject rfl
      · exact .ite .pure (.reject rfl)

theorem matchArguments_quiet {callee : Ident} {position : Nat} (args : List (Option Node))
    (params : List Ty) :
    Quiet (matchArguments callee line position args params) := by
  induction args generalizing position params with
  | nil => exact .pure
  | cons arg args ih =>
    cases params with
    | nil => exact .pure
    | cons param params =>
      exact .bind (.continueWith fun _ => .ite .pure (.reject rfl)) fun _ =>
        .bind (ih _) fun _ => .pure

theorem lowerCall_quiet (callee : Ident) (args : List (Option Node)) :
    Quiet (lowerCall t callee args line) := by
  unfold lowerCall
  split
  · exact .reject rfl
  · refine .continueWith fun f => .ite ?_ (.reject rfl)
    exact .bind (matchArguments_quiet _ _) fun _ => .continueWith fun _ => .pure

theorem asCallValue_quiet (callee : Ident) (call : Node) : Quiet (asCallValue callee line call) :=
  .ite (.reject rfl) .pure

/-! ### Operands -/

/-- A number takes its own minus in, and a plus leaves it as it is. -/
theorem lowerExpr_number {lit : Literal} (number : lit.kind = .int ∨ lit.kind = .float)
    (sign : Option Sign) :
    lowerExpr t s (.operand sign (.literal lit) line) =
      lowerLiteral lit (decide (sign = some .minus)) := by
  obtain ⟨kind, text, own⟩ := lit
  rcases sign with - | - | -
  · rcases number with rfl | rfl <;> exact bind_pure _
  · have keeps : ∀ node, (lowerLiteral ⟨kind, text, own⟩ false).value = some node →
        lowerSigned .plus line node = pure (some node) := by
      intro node found
      have shape := lowerLiteral_eq_some found
      rcases number with rfl | rfl
      · obtain ⟨_, _, _, rfl⟩ := shape
        rfl
      · obtain ⟨_, _, rfl⟩ := shape
        rfl
    exact andThen_eq_self keeps
  · rcases number with rfl | rfl <;> rfl

/-- A literal that is no number is never invalid. If there is a sign in front of it, the sign is
wrong. -/
theorem lowerExpr_noNumber {lit : Literal} (noNumber : lit.kind = .string ∨ lit.kind = .bool)
    (sign : Option Sign) :
    Quiet (lowerExpr t s (.operand sign (.literal lit) line)) := by
  obtain ⟨kind, text, own⟩ := lit
  have literal : ∃ node, lowerLiteral ⟨kind, text, own⟩ false = pure (some node) := by
    rcases noNumber with rfl | rfl <;> exact ⟨_, rfl⟩
  obtain ⟨node, literal⟩ := literal
  have plain : negatedLiteral? sign (.literal ⟨kind, text, own⟩) = none := by
    rcases noNumber with rfl | rfl <;> rcases sign with - | - | - <;> rfl
  rw [lowerExpr, plain]
  simp only [lowerPrimary, literal, pure_bind]
  cases sign with
  | none => exact .pure
  | some sign => exact .continueWith fun _ => lowerSigned_quiet _ _

/-- The literal of an operand is reported if it is too large. -/
theorem lowerExpr_literal {l : SignedLiteral} (legal : l.literal.Legal) :
    (lowerExpr t s (.operand l.sign (.literal l.literal) line)).invalidLiterals = tooLarge [l] := by
  obtain ⟨sign, kind, text, own⟩ := l
  cases kind with
  | int =>
    have legal : (Token.integer text).Legal := legal
    rw [lowerExpr_number (.inl rfl), lowerLiteral_integer legal]
    by_cases large : digitsValue text.toList = 2 ^ 31 ∧ decide (sign = some .minus) = false
    · rw [if_pos large]
      have large : SignedLiteral.TooLarge ⟨sign, .int, text, own⟩ := ⟨rfl, large⟩
      simp [tooLarge, large, invalidLiterals, Report.reject, SemanticError.literal?]
    · rw [if_neg large]
      have fits : ¬ SignedLiteral.TooLarge ⟨sign, .int, text, own⟩ := fun h => large h.2
      simp [tooLarge, fits]
  | float =>
    have legal : (Token.decimal text).Legal := legal
    obtain ⟨q, m, denotes, nearest, below, node⟩ := lowerLiteral_decimal legal
    rw [lowerExpr_number (.inr rfl), node]
    have fits : ¬ SignedLiteral.TooLarge ⟨sign, .float, text, own⟩ := by rintro ⟨⟨⟩, -⟩
    simp [tooLarge, fits]
  | string =>
    have fits : ¬ SignedLiteral.TooLarge ⟨sign, .string, text, own⟩ := by rintro ⟨⟨⟩, -⟩
    rw [lowerExpr_noNumber (.inl rfl)]
    simp [tooLarge, fits]
  | bool =>
    have fits : ¬ SignedLiteral.TooLarge ⟨sign, .bool, text, own⟩ := by rintro ⟨⟨⟩, -⟩
    rw [lowerExpr_noNumber (.inr rfl)]
    simp [tooLarge, fits]

end Analysis

/-- What becomes of a literal when the operand that it is with its own sign is typed. -/
structure SignedLiteral.Checked (l : SignedLiteral) (r : Report (Option Node)) : Prop where
  /-- The literal is reported exactly if it is too large. -/
  recorded : (∃ text line, .invalidLiteral text line ∈ r.errors) ↔ l.TooLarge
  /-- It is reported with its text and its line, there is no other error, and there is no node. -/
  large : l.TooLarge → r = .reject (.invalidLiteral l.literal.text l.literal.line)
  /-- Any other integer has the node of its value, with its sign. -/
  integer : l.literal.kind = .int → ¬ l.TooLarge → r = pure (some (.leaf (.intVal l.value) .int))
  /-- Each decimal has the node of the number that its value is rounded to, with its sign, and this
  number is finite. -/
  decimal : l.literal.kind = .float → ∃ q m, DecimalDenotes l.literal.text.toList q ∧
      NearestMagnitude q m ∧
    (ofMagnitude l.isNegative m).isFinite = true ∧ (ofMagnitude l.isNegative m).isNegative =
    l.isNegative ∧ r = pure (some (.leaf (.floatVal (ofMagnitude l.isNegative m)) .float))

theorem Report.mem_invalidLiterals {α : Type} {r : Report α} {text : String} {line : Nat} :
    (text, line) ∈ r.invalidLiterals ↔ .invalidLiteral text line ∈ r.errors := by
  rw [invalidLiterals, List.mem_filterMap]
  constructor
  · rintro ⟨e, mem, literal⟩
    cases e <;> cases literal
    exact mem
  · intro mem
    exact ⟨_, mem, rfl⟩

theorem exists_mem_tooLarge {l : SignedLiteral} :
    (∃ text line, (text, line) ∈ tooLarge [l]) ↔ l.TooLarge := by
  by_cases large : l.TooLarge <;> simp [tooLarge, large]

namespace Analysis

/-- Both checks of a literal agree. -/
theorem checked_of_legal {l : SignedLiteral} (legal : l.literal.Legal) (t : Tables) (s : Scope)
    (line : Nat) :
    l.Checked (lowerExpr t s (.operand l.sign (.literal l.literal) line)) := by
  have recorded := @lowerExpr_literal t s line l legal
  refine ⟨?_, ?_, ?_, ?_⟩
  · simp only [← mem_invalidLiterals, recorded, exists_mem_tooLarge]
  · obtain ⟨sign, kind, text, own⟩ := l
    rintro ⟨rfl, large⟩
    exact (lowerExpr_number (.inl rfl) sign).trans
      ((lowerLiteral_integer legal _ _).trans (if_pos large))
  · obtain ⟨sign, kind, text, own⟩ := l
    rintro rfl fits
    have node := (lowerLiteral_integer legal own (decide (sign = some .minus))).trans
      (if_neg fun h => fits ⟨rfl, h⟩)
    exact (lowerExpr_number (.inl rfl) sign).trans node
  · obtain ⟨sign, kind, text, own⟩ := l
    rintro rfl
    obtain ⟨q, m, denotes, nearest, below, node⟩ := lowerLiteral_decimal legal
    obtain ⟨same, -⟩ := ofMagnitude_spec (decide (sign = some .minus)) (below.trans (by decide))
    exact ⟨q, m, denotes, nearest, (isFinite_ofMagnitude nearest.bound).2 below, same,
      (lowerExpr_number (.inr rfl) sign).trans (node own _)⟩

/-! ### Expressions -/

/-- An operand that must have a value, unless its operator is a logical one, and what comes behind
it. -/
theorem value_rejects {logical : Bool} {ls ms : List SignedLiteral} {r : Report (Option Node)}
    {f : Option Node → Report (Option Node)} (h : r.Rejects ls) (h' : ∀ n?, (f n?).Rejects ms) :
    (r >>= fun n? => if logical then pure n? >>= f else continueWith n?
      (asValue line) >>= f).Rejects (ls ++ ms) := by
  refine h.bind fun n? => .ite ?_ ?_
  · exact Quiet.pure.andThen h'
  · exact (Quiet.continueWith asValue_quiet).andThen h'

/-- A sign in front of anything but a number is not about literals. -/
theorem operand_rejects {sign : Option Sign} {primary : Primary} {ls : List SignedLiteral}
    (other : ∀ lit, primary ≠ .literal lit) (h : (lowerPrimary t s line primary).Rejects ls) :
    (lowerExpr t s (.operand sign primary line)).Rejects ls := by
  have plain : negatedLiteral? sign primary = none := by
    by_contra! taken
    obtain ⟨lit, taken⟩ := Option.ne_none_iff_exists'.1 taken
    exact other lit (negatedLiteral?_eq_some taken).2
  rw [lowerExpr, plain]
  refine h.andThen fun node? => ?_
  cases sign with
  | none => exact .pure
  | some sign => exact .continueWith fun _ => lowerSigned_quiet _ _

mutual

/-- The literals of an expression that are reported are those that are too large, in order. -/
theorem lowerExpr_rejects :
    ∀ {e : Expr}, (∀ l ∈ e.literals, l.literal.Legal) → (lowerExpr t s e).Rejects e.literals
  | .binary op line left right, legal => by
    obtain ⟨legalLeft, legalRight⟩ := List.forall_mem_append.1 legal
    have operation (l? r? : Option Node) :
        (continueWith l? fun l => continueWith r? fun r => lowerOperation op line l r).Rejects [] :=
      Quiet.continueWith fun _ => .continueWith fun _ => lowerOperation_quiet _ _ _
    refine value_rejects (lowerExpr_rejects legalLeft) fun l? => ?_
    rw [← right.literals.append_nil]
    exact value_rejects (lowerExpr_rejects legalRight) (operation l?)
  | .operand sign (.literal lit) line, legal =>
    lowerExpr_literal (l := ⟨sign, lit⟩) (legal ⟨sign, lit⟩ (.head _))
  | .operand sign (.name id) line, legal => operand_rejects nofun (lowerVariable_quiet id)
  | .operand sign (.call callee args) line, legal => by
    refine operand_rejects nofun ((lowerValues_rejects legal).andThen fun args => ?_)
    exact .bind (lowerCall_quiet _ _) fun _ => .continueWith fun _ => asCallValue_quiet _ _
  | .operand sign (.index array index) line, legal => operand_rejects nofun (lowerIndex_quiet _ _)
  | .operand sign (.paren inner) line, legal =>
    operand_rejects nofun (lowerExpr_rejects (e := inner) legal)

theorem lowerValues_rejects : ∀ {es : List Expr}, (∀ l ∈ Expr.allLiterals es, l.literal.Legal) →
    (lowerValues t s es).Rejects (Expr.allLiterals es)
  | [], _ => Quiet.pure
  | e :: es, legal => by
    obtain ⟨legalFirst, legalRest⟩ := List.forall_mem_append.1 legal
    refine (lowerExpr_rejects legalFirst).bind fun _ =>
      (Quiet.continueWith asValue_quiet).andThen fun _ => ?_
    exact (lowerValues_rejects legalRest).andThen fun _ => .pure

end

end Analysis

end MiniGo
