import MiniGo.Proofs.Syntax.ReadingBack

/-!
# How operators are grouped

An expression is read by climbing precedences. What comes out is spelled by the tokens that were
read, in order, with line breaks only where a line can go on. Its operators are nested as they bind,
and those outside of all brackets bind at least as tightly as the bound that was given; an operator
behind it binds less tightly. No other tree that is nested so has the same tokens.

* `Expr.SpelledBy`: the tokens of an expression, with the line breaks that may stand between them.
* `Expr.outerOperators`: the operators of an expression outside of its operands.
* `Expr.Grouped`: what is true of an expression that was read between two places.
* `Expr.parseBinary_grouped`: so it is for all expressions that are read.
-/

namespace MiniGo

/-! ### Spelling -/

mutual

/-- Tokens spell an expression. Line breaks may stand behind a binary operator, but not behind a
sign. -/
inductive Expr.SpelledBy : Expr → List Token → Prop
  | binary {op : BinaryOp} {line : Nat} {left right : Expr} {l r : List Token} (breaks : Nat)
      (spellsLeft : Expr.SpelledBy left l) (spellsRight : Expr.SpelledBy right r) :
      Expr.SpelledBy (.binary op line left right) (l ++ .op op :: (lineBreaks breaks ++ r))
  | operand {sign : Option Sign} {primary : Primary} {line : Nat} {ts : List Token}
      (spells : Primary.SpelledBy primary ts) :
      Expr.SpelledBy (.operand sign primary line) (sign.toList.map Sign.token ++ ts)

/-- Tokens spell an operand. Line breaks may stand behind an opening bracket and in front of a
closing one. -/
inductive Primary.SpelledBy : Primary → List Token → Prop
  | literal (lit : Literal) : Primary.SpelledBy (.literal lit) [lit.token]
  | name (id : Ident) : Primary.SpelledBy (.name id) [id.token]
  | call {callee : Ident} {args : List Expr} {ts : List Token} (breaks : Nat)
      (spells : Expr.AllSpelledBy args ts) :
      Primary.SpelledBy (.call callee args)
        (callee.token :: .punct .leftParen :: (lineBreaks breaks ++ (ts ++ [.punct .rightParen])))
  | index {array : Ident} {position : Expr} {ts : List Token} (breaks breaks' : Nat)
      (spells : Expr.SpelledBy position ts) :
      Primary.SpelledBy (.index array position)
        (array.token :: .punct .leftBracket ::
          (lineBreaks breaks ++ (ts ++ (lineBreaks breaks' ++ [.punct .rightBracket]))))
  | paren {inner : Expr} {ts : List Token} (breaks breaks' : Nat)
      (spells : Expr.SpelledBy inner ts) :
      Primary.SpelledBy (.paren inner)
        (.punct .leftParen ::
          (lineBreaks breaks ++ (ts ++ (lineBreaks breaks' ++ [.punct .rightParen]))))

/-- Tokens spell arguments. Line breaks may stand on both sides of a comma and behind the last
argument. -/
inductive Expr.AllSpelledBy : List Expr → List Token → Prop
  | nil : Expr.AllSpelledBy [] []
  | last {e : Expr} {ts : List Token} (breaks : Nat) (spells : Expr.SpelledBy e ts) :
      Expr.AllSpelledBy [e] (ts ++ lineBreaks breaks)
  | cons {e e' : Expr} {es : List Expr} {ts us : List Token} (breaks breaks' : Nat)
      (spells : Expr.SpelledBy e ts) (others : Expr.AllSpelledBy (e' :: es) us) :
      Expr.AllSpelledBy (e :: e' :: es)
        (ts ++ (lineBreaks breaks ++ .punct .comma :: (lineBreaks breaks' ++ us)))

end

/-- The tokens of a stream that are no line breaks. -/
def withoutBreaks (ts : List Token) : List Token := ts.filter (· != .newline)

section

variable {ts us : List Token} {t : Token}

@[simp] theorem withoutBreaks_append :
    withoutBreaks (ts ++ us) = withoutBreaks ts ++ withoutBreaks us :=
  List.filter_append ..

@[simp] theorem withoutBreaks_lineBreaks (n : Nat) : withoutBreaks (lineBreaks n) = [] := by
  simp [withoutBreaks, lineBreaks]

@[simp] theorem withoutBreaks_nil : withoutBreaks [] = [] := rfl

@[simp] theorem withoutBreaks_cons (h : t ≠ .newline) :
    withoutBreaks (t :: ts) = t :: withoutBreaks ts :=
  List.filter_cons_of_pos (by simpa using h)

theorem Literal.token_ne_newline (lit : Literal) : lit.token ≠ .newline := by
  unfold Literal.token
  split <;> simp

theorem withoutBreaks_sign (sign : Option Sign) :
    withoutBreaks (sign.toList.map Sign.token) = sign.toList.map Sign.token := by
  rcases sign with _ | _ | _ <;> rfl

end

mutual

/-- Without its line breaks, a spelling has the tokens of the expression. -/
theorem Expr.SpelledBy.tokens_eq {e : Expr} {ts : List Token} :
    e.SpelledBy ts → withoutBreaks ts = e.tokens
  | .binary _ spellsLeft spellsRight =>
    by simp [spellsLeft.tokens_eq, spellsRight.tokens_eq, Expr.tokens]
  | .operand spells =>
    by simp only [withoutBreaks_append, withoutBreaks_sign, spells.tokens_eq, Expr.tokens]

theorem Primary.SpelledBy.tokens_eq {primary : Primary} {ts : List Token} :
    primary.SpelledBy ts → withoutBreaks ts = primary.tokens
  | .literal lit => withoutBreaks_cons lit.token_ne_newline
  | .name id => rfl
  | .call _ spells => by simp [Ident.token, spells.tokens_eq, Primary.tokens, Expr.listTokens]
  | .index _ _ spells => by simp [Ident.token, spells.tokens_eq, Primary.tokens]
  | .paren _ _ spells => by simp [spells.tokens_eq, Primary.tokens]

theorem Expr.AllSpelledBy.tokens_eq {es : List Expr} {ts : List Token} :
    Expr.AllSpelledBy es ts → withoutBreaks ts = Expr.listTokens es
  | .nil => rfl
  | .last _ spells => by simp [spells.tokens_eq, Expr.listTokens, Expr.parts, commaSeparated]
  | .cons _ _ spells others => by
    simp [spells.tokens_eq, others.tokens_eq, Expr.listTokens, Expr.parts, commaSeparated]

end

/-! ### Operators outside of brackets -/

/-- The operators of an expression that stand in none of its operands. -/
def Expr.outerOperators : Expr → List BinaryOp
  | .binary op _ left right => left.outerOperators ++ op :: right.outerOperators
  | .operand .. => []

theorem BinaryOp.precedence_le (op : BinaryOp) : op.precedence ≤ 5 := by
  cases op <;> decide

/-- An expression whose operators bind at least as tightly as a bound does so itself. -/
theorem Expr.le_precedence {e : Expr} {min : Nat}
    (tight : ∀ op ∈ e.outerOperators, min ≤ op.precedence) (le : min ≤ 6) : min ≤ e.precedence := by
  cases e with
  | binary op line left right => exact tight op (by simp [Expr.outerOperators])
  | operand sign primary line => exact le

/-! ### Reading -/

/-- Between two places there are lexemes with given tokens. -/
def Cursor.Reads (c : Cursor) (ts : List Token) (after : Cursor) : Prop :=
  ∃ read : List Lexeme, c.rest = read ++ after.rest ∧ read.map Lexeme.token = ts

/-- The next token is no operator that binds as tightly as a bound. -/
def Cursor.NextBelow (c : Cursor) (min : Nat) : Prop :=
  ∀ op, c.token? = some (.op op) → op.precedence < min

namespace Cursor

variable {c c' c'' : Cursor} {ts us : List Token}

theorem Reads.refl : c.Reads [] c := ⟨[], rfl, rfl⟩

theorem Reads.trans (h : c.Reads ts c') (h' : c'.Reads us c'') : c.Reads (ts ++ us) c'' := by
  obtain ⟨read, rest, rfl⟩ := h
  obtain ⟨read', rest', rfl⟩ := h'
  exact ⟨read ++ read', by rw [rest, rest', List.append_assoc], List.map_append⟩

theorem Reads.of_view {x : Lexeme} {le : c'.size + 1 = c.size} (view : c.view = .next x c' le) :
    c.Reads [x.token] c' :=
  ⟨[x], rest_of_view view, rfl⟩

theorem token?_of_view {x : Lexeme} {le : c'.size + 1 = c.size} (view : c.view = .next x c' le) :
    c.token? = some x.token :=
  (token?_eq rfl).trans (head?_of_view rfl view)

end Cursor

open Reply

theorem Cursor.skipNewlines_reads (c : Cursor) :
    c.skipNewlines.Ensures fun _ after => ∃ breaks, c.Reads (lineBreaks breaks) after := by
  unfold Cursor.skipNewlines
  fun_induction Cursor.skipWhile (· == .newline) c with
  | case1 c x after _ view found ih =>
    refine Ensures.relax (ih.mono fun _ c' rest => ?_)
    obtain ⟨breaks, reads⟩ := rest
    have first := Cursor.Reads.of_view view
    rw [show x.token = .newline by simpa using found] at first
    exact ⟨breaks + 1, first.trans reads⟩
  | case2 => exact ⟨0, .refl⟩
  | case3 => exact ⟨0, .refl⟩

theorem Cursor.expect_reads (t : Token) (message : String) (c : Cursor) :
    (c.expect t message).Ensures fun _ after => c.Reads [t] after := by
  unfold Cursor.expect
  split
  · rename_i x after _ view
    split
    · rename_i found
      exact found ▸ Cursor.Reads.of_view view
    · trivial
  · trivial

theorem Sign.parse?_reads (c : Cursor) :
    (Sign.parse? c).Ensures fun sign after => c.Reads (sign.toList.map Sign.token) after := by
  unfold Sign.parse?
  split
  · rename_i view
    exact Cursor.Reads.of_view view
  · rename_i view
    exact Cursor.Reads.of_view view
  · exact Cursor.Reads.refl

/-! ### Climbing -/

/-- An expression was read between two places. Its operators are nested as they bind, and those
outside of brackets bind at least as tightly as a bound. -/
structure Expr.Grouped (min : Nat) (c : Cursor) (e : Expr) (after : Cursor) : Prop where
  spelled : ∃ ts, c.Reads ts after ∧ e.SpelledBy ts
  shaped : e.isShaped = true
  tight : ∀ op ∈ e.outerOperators, min ≤ op.precedence

/-- An operator with a grouped expression on both sides. The one on the left binds at least as
tightly, the one on the right more tightly. -/
theorem Expr.Grouped.binary {min breaks : Nat} {op : BinaryOp} (line : Nat) {left right : Expr}
    {c c1 c2 c3 after : Cursor} (groupedLeft : left.Grouped min c c1)
    (readOp : c1.Reads [.op op] c2) (readBreaks : c2.Reads (lineBreaks breaks) c3)
    (groupedRight : right.Grouped (op.precedence + 1) c3 after) (bound : min ≤ op.precedence)
    (leftTight : op.precedence ≤ left.precedence) :
    (Expr.binary op line left right).Grouped min c after where
  spelled := by
    obtain ⟨l, readLeft, spellsLeft⟩ := groupedLeft.spelled
    obtain ⟨r, readRight, spellsRight⟩ := groupedRight.spelled
    refine ⟨_, ((readLeft.trans readOp).trans readBreaks).trans readRight, ?_⟩
    have spells : (Expr.binary op line left right).SpelledBy _ :=
      .binary breaks spellsLeft spellsRight
    simpa using spells
  shaped := by
    have rightTight := Expr.le_precedence groupedRight.tight (Nat.succ_le_succ op.precedence_le)
    simp only [Expr.isShaped, Bool.and_eq_true, decide_eq_true_eq]
    exact ⟨⟨leftTight, rightTight⟩, groupedLeft.shaped, groupedRight.shaped⟩
  tight := by
    intro other mem
    rw [Expr.outerOperators, List.mem_append, List.mem_cons] at mem
    rcases mem with mem | rfl | mem
    · exact groupedLeft.tight other mem
    · exact bound
    · have := groupedRight.tight other mem
      omega

/-- Tokens that spell an operand of the shape of the grammar are read. -/
def Primary.Read (c : Cursor) (primary : Primary) (after : Cursor) : Prop :=
  (∃ ts, c.Reads ts after ∧ primary.SpelledBy ts) ∧ primary.isShaped = true

/-- Tokens that spell arguments of the shapes of the grammar are read, with the closing
parenthesis. -/
def Expr.AllRead (c : Cursor) (args : List Expr) (after : Cursor) : Prop :=
  (∃ ts, c.Reads (ts ++ [.punct .rightParen]) after ∧ Expr.AllSpelledBy args ts) ∧
    Expr.areShaped args = true

mutual

/-- What is read is grouped, and no operator is left that could have been read on. -/
theorem Expr.parseBinary_ensures (min : Nat) (c : Cursor) :
    (Expr.parseBinary min c).Ensures fun e after =>
      e.Grouped min c after ∧ after.NextBelow min := by
  rw [Expr.parseBinary]
  refine (Expr.parseUnary_ensures min c).andThen fun left c1 _ read => ?_
  obtain ⟨grouped, operand⟩ := read
  refine (Expr.parseOperators_ensures min left c c1 grouped fun op _ => ?_).relax
  have := op.precedence_le
  omega
termination_by 4 * c.size + 2
decreasing_by all_goals omega

/-- The operators that are read on take all that was read before as their left operand. -/
theorem Expr.parseOperators_ensures (min : Nat) (left : Expr) (start c : Cursor)
    (grouped : left.Grouped min start c) (next : c.NextBelow (left.precedence + 1)) :
    (Expr.parseOperators min left c).Ensures fun e after =>
      e.Grouped min start after ∧ after.NextBelow min := by
  rw [Expr.parseOperators]
  split
  · rename_i op _ line c1 _ view
    have first : c.token? = some (.op op) := Cursor.token?_of_view view
    split
    · rename_i less
      refine ⟨grouped, fun other eq => ?_⟩
      rw [first] at eq
      cases eq
      exact less
    · rename_i bound
      refine c1.skipNewlines_reads.andThen fun _ c2 _ ⟨breaks, readBreaks⟩ => ?_
      refine (Expr.parseBinary_ensures (op.precedence + 1) c2).andThen
        fun right c3 _ ⟨groupedRight, below⟩ => ?_
      -- The next operator binds no tighter than the left operand, so it groups to the left.
      have leftTight : op.precedence ≤ left.precedence := Nat.le_of_lt_succ (next op first)
      have operation := Expr.Grouped.binary line grouped (.of_view view) readBreaks groupedRight
        (Nat.le_of_not_lt bound) leftTight
      exact (Expr.parseOperators_ensures min _ start c3 operation below).relax
  · rename_i other
    refine ⟨grouped, fun op eq => ?_⟩
    obtain ⟨ts, tokens⟩ := List.head?_eq_some_iff.1 ((Cursor.token?_eq rfl).symm.trans eq)
    obtain ⟨span, line, c1, le, view, -⟩ := Cursor.exists_view tokens
    exact (other _ _ _ _ _ view).elim
termination_by 4 * c.size
decreasing_by all_goals omega

theorem Expr.parseUnary_ensures (min : Nat) (c : Cursor) :
    (Expr.parseUnary c).Ensures fun e after => e.Grouped min c after ∧ e.precedence = 6 := by
  rw [Expr.parseUnary]
  refine (Sign.parse?_reads c).andThen fun sign c1 _ readSign => ?_
  refine (Primary.parse_ensures c1).andThen fun primary c2 _ ⟨⟨ts, read, spells⟩, shaped⟩ => ?_
  exact ⟨⟨⟨_, readSign.trans read, .operand spells⟩, shaped, by simp [Expr.outerOperators]⟩, rfl⟩
termination_by 4 * c.size + 1
decreasing_by all_goals omega

theorem Primary.parse_ensures (c : Cursor) : (Primary.parse c).Ensures (Primary.Read c) := by
  rw [Primary.parse]
  split
  · trivial
  · rename_i x c1 _ view
    -- Each kind of token begins one kind of operand.
    have first {t : Token} (eq : x.token = t) : c.Reads [t] c1 := eq ▸ .of_view view
    split
    · rename_i text eq
      exact ⟨⟨_, first eq, .literal ⟨.int, text, x.line⟩⟩, rfl⟩
    · rename_i text eq
      exact ⟨⟨_, first eq, .literal ⟨.float, text, x.line⟩⟩, rfl⟩
    · rename_i text eq
      exact ⟨⟨_, first eq, .literal ⟨.string, text, x.line⟩⟩, rfl⟩
    · rename_i eq
      exact ⟨⟨_, first eq, .literal ⟨.bool, "true", x.line⟩⟩, rfl⟩
    · rename_i eq
      exact ⟨⟨_, first eq, .literal ⟨.bool, "false", x.line⟩⟩, rfl⟩
    · rename_i name eq
      have first : c.Reads [Ident.token ⟨name, x.line⟩] c1 := first eq
      split
      · rename_i c2 _ view
        have opening := first.trans (.of_view view)
        refine (Expr.parseArguments_ensures c2).andThen fun args c3 _ arguments => ?_
        obtain ⟨breaks, c', readBreaks, ⟨ts, read, spells⟩, shaped⟩ := arguments
        exact ⟨⟨_, opening.trans (readBreaks.trans read), .call breaks spells⟩, shaped⟩
      · rename_i c2 _ view
        have opening := first.trans (.of_view view)
        refine c2.skipNewlines_reads.andThen fun _ c3 _ ⟨breaks, readBreaks⟩ => ?_
        refine (Expr.parseBinary_ensures 1 c3).andThen fun position c4 _ ⟨grouped, _⟩ => ?_
        refine c4.skipNewlines_reads.andThen fun _ c5 _ ⟨breaks', readBreaks'⟩ => ?_
        refine (c5.expect_reads _ _).andThen fun _ c6 _ closing => ?_
        obtain ⟨ts, read, spells⟩ := grouped.spelled
        exact ⟨⟨_, opening.trans (readBreaks.trans (read.trans (readBreaks'.trans closing))),
          .index breaks breaks' spells⟩, grouped.shaped⟩
      · exact ⟨⟨_, first, .name _⟩, rfl⟩
    · rename_i eq
      have opening := first eq
      refine c1.skipNewlines_reads.andThen fun _ c2 _ ⟨breaks, readBreaks⟩ => ?_
      refine (Expr.parseBinary_ensures 1 c2).andThen fun inner c3 _ ⟨grouped, _⟩ => ?_
      refine c3.skipNewlines_reads.andThen fun _ c4 _ ⟨breaks', readBreaks'⟩ => ?_
      refine (c4.expect_reads _ _).andThen fun _ c5 _ closing => ?_
      obtain ⟨ts, read, spells⟩ := grouped.spelled
      exact ⟨⟨_, opening.trans (readBreaks.trans (read.trans (readBreaks'.trans closing))),
        .paren breaks breaks' spells⟩, grouped.shaped⟩
    · trivial
termination_by 4 * c.size
decreasing_by all_goals omega

theorem Expr.parseArguments_ensures (c : Cursor) :
    (Expr.parseArguments c).Ensures fun args after =>
      ∃ breaks c', c.Reads (lineBreaks breaks) c' ∧ Expr.AllRead c' args after := by
  rw [Expr.parseArguments]
  refine c.skipNewlines_reads.andThen fun _ c1 _ ⟨breaks, readBreaks⟩ => ?_
  split
  · rename_i view
    exact ⟨breaks, c1, readBreaks, ⟨[], .of_view view, .nil⟩, rfl⟩
  · exact Ensures.relax ((Expr.parseArgumentList_ensures c1).mono fun args after read =>
      ⟨breaks, c1, readBreaks, read.1⟩)
termination_by 4 * c.size + 4
decreasing_by all_goals omega

theorem Expr.parseArgumentList_ensures (c : Cursor) :
    (Expr.parseArgumentList c).Ensures fun args after => Expr.AllRead c args after ∧ args ≠ [] := by
  rw [Expr.parseArgumentList]
  refine (Expr.parseBinary_ensures 1 c).andThen fun arg c1 _ ⟨grouped, _⟩ => ?_
  obtain ⟨ts, read, spells⟩ := grouped.spelled
  refine c1.skipNewlines_reads.andThen fun _ c2 _ ⟨breaks, readBreaks⟩ => ?_
  split
  · rename_i c3 _ view
    refine c3.skipNewlines_reads.andThen fun _ c4 _ ⟨breaks', readBreaks'⟩ => ?_
    refine (Expr.parseArgumentList_ensures c4).andThen fun args c5 _ others => ?_
    obtain ⟨⟨⟨us, readOthers, spellsOthers⟩, shaped⟩, nonempty⟩ := others
    have all :=
      read.trans
        (readBreaks.trans ((Cursor.Reads.of_view view).trans (readBreaks'.trans readOthers)))
    cases args with
    | nil => exact absurd rfl nonempty
    | cons e es =>
      refine ⟨⟨⟨_, ?_, .cons breaks breaks' spells spellsOthers⟩, ?_⟩, by simp⟩
      · simpa using all
      · rw [Expr.areShaped, grouped.shaped, shaped]
        rfl
  · refine (c2.expect_reads _ _).andThen fun _ c3 _ closing => ?_
    refine ⟨⟨⟨_, ?_, .last breaks spells⟩, ?_⟩, by simp⟩
    · simpa using read.trans (readBreaks.trans closing)
    · rw [Expr.areShaped, grouped.shaped]
      rfl
termination_by 4 * c.size + 3
decreasing_by all_goals omega

end

/-! ### The tree of the tokens -/

/-- Expressions of the shapes of the grammar with the same tokens are the same, up to the line
numbers. -/
theorem Expr.unlined_eq_of_tokens {e e' : Expr} (shaped : e.isShaped = true)
    (shaped' : e'.isShaped = true) (same : e'.tokens = e.tokens) : e'.unlined = e.unlined := by
  -- Both are what is read from the same tokens, on whatever lines these stand.
  let c : Cursor := ⟨⟨0, 0⟩, 1, e.tokens.map fun t => ⟨t, ⟨0, 0⟩, 1⟩⟩
  have tokens : c.tokens = e.tokens ++ [] := by simp [c, Cursor.tokens, Function.comp_def]
  have read := (e.readsBack shaped).parse (by simp [Follows]) tokens
  have read' := (e'.readsBack shaped').parse (by simp [Follows]) (same ▸ tokens)
  cases reply : Expr.parseBinary 1 c with
  | error =>
    rw [reply] at read
    exact read.elim
  | ok value after =>
    rw [reply] at read read'
    exact read'.1.symm.trans read.1

/-- An expression that is read is spelled by the tokens that were taken, and no other tree of the
shape of the grammar has these tokens. Its operators are nested as they bind, those outside of
brackets bind at least as tightly as the bound, and the next token is no operator that does. -/
theorem Expr.parseBinary_grouped {min : Nat} {c after : Cursor} {e : Expr}
    {le : after.size + 1 ≤ c.size} (h : Expr.parseBinary min c = .ok e after le) :
    ∃ read : List Lexeme, c.rest = read ++ after.rest ∧
      e.SpelledBy (read.map Lexeme.token) ∧ withoutBreaks (read.map Lexeme.token) = e.tokens ∧
      e.isShaped = true ∧ (∀ op ∈ e.outerOperators, min ≤ op.precedence) ∧
      (∀ op, after.token? = some (.op op) → op.precedence < min) ∧
      ∀ e' : Expr, e'.isShaped = true → e'.tokens = e.tokens → e'.unlined = e.unlined := by
  have ensures := Expr.parseBinary_ensures min c
  rw [h] at ensures
  obtain ⟨⟨⟨_, ⟨read, rest, rfl⟩, spells⟩, shaped, tight⟩, below⟩ := ensures
  exact ⟨read, rest, spells, spells.tokens_eq, shaped, tight, below,
    fun e' shaped' same => Expr.unlined_eq_of_tokens shaped shaped' same⟩

/-- Differences, a product, a sign, brackets and line breaks, in front of a comparison. -/
def groupedSource : String := "x - y *\n-z[\n1\n] - f(\na,\nb < 2\n) < 3"

/-- With the bound of a sum, the operators outside of brackets are read up to the comparison. -/
theorem groupedSource_grouped : ∃ tokens, tokenize groupedSource = .ok tokens ∧ ∃ e after le,
    Expr.parseBinary 4 (Cursor.start groupedSource tokens) = .ok e after le ∧
      e.outerOperators = [.sub, .mul, .sub] ∧ after.token? = some (.op .lt) ∧
      ∃ read : List Lexeme, (Cursor.start groupedSource tokens).rest = read ++ after.rest ∧
        e.SpelledBy (read.map Lexeme.token) ∧ withoutBreaks (read.map Lexeme.token) = e.tokens ∧
        e.isShaped = true ∧ (∀ op ∈ e.outerOperators, 4 ≤ op.precedence) ∧
        (∀ op, after.token? = some (.op op) → op.precedence < 4) ∧
        ∀ e' : Expr, e'.isShaped = true → e'.tokens = e.tokens → e'.unlined = e.unlined := by
  have reads : (tokenize groupedSource).toOption.any (fun tokens =>
      match Expr.parseBinary 4 (Cursor.start groupedSource tokens) with
      | .ok e after _ => e.outerOperators = [.sub, .mul, .sub] && after.token? = some (.op .lt)
      | .error .. => false) = true := by
    decide +kernel
  cases tokenized : tokenize groupedSource with
  | error e =>
    rw [tokenized] at reads
    cases reads
  | ok tokens =>
    simp only [tokenized, Except.toOption, Option.any_some] at reads
    cases reply : Expr.parseBinary 4 (Cursor.start groupedSource tokens) with
    | error =>
      rw [reply] at reads
      cases reads
    | ok e after le =>
      rw [reply] at reads
      simp only [Bool.and_eq_true, decide_eq_true_eq] at reads
      exact ⟨tokens, rfl, e, after, le, reply, reads.1, reads.2, Expr.parseBinary_grouped reply⟩

end MiniGo
