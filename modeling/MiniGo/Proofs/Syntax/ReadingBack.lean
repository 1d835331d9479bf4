import MiniGo.Proofs.Syntax.Leaves
import MiniGo.Proofs.Syntax.Printing

/-!
# Reading the tokens of expressions and declarations

The tokens of an expression or a declaration of the shapes of the grammar are read as the same tree,
up to the line numbers, whatever spans they have. The parser stops right behind them.

* `Reply.Gives`: a parser succeeds, and leaves given tokens behind.
* `Follows`: what may stand behind an expression.
* `Expr.ReadsBack`, `Expr.readsBack`: an expression is read, and the operators behind it are read
  on.
* `VarDecl.parse_gives`, `ParamGroup.parseList_gives`: the same for declarations and for parameters.

An expression that is read becomes the left operand of the operators behind it. So the statement
about expressions is about all that `Expr.parseBinary` does: it succeeds if reading on from the
expression does.
-/

namespace MiniGo

/-! ### Places in the tokens of a tree -/

/-- The tokens that follow. -/
def Cursor.tokens (c : Cursor) : List Token := c.rest.map Lexeme.token

namespace Reply

variable {α β : Type} {m n j k : Nat}

/-- A reply is a success, and something is true of its value and of the place after it. -/
def Succeeds (post : α → Cursor → Prop) : Reply n k α → Prop
  | ok value after _ => post value after
  | error _ _ _ => False

/-- A reply is a success with a value such that `same`, and leaves the tokens `rest` behind. -/
def Gives (same : α → Prop) (rest : List Token) (r : Reply n k α) : Prop :=
  r.Succeeds fun value after => same value ∧ after.tokens = rest

/-- A reply without a value is a success, and leaves the tokens `rest` behind. -/
def Skips (rest : List Token) (r : Reply n k Unit) : Prop :=
  r.Succeeds fun _ after => after.tokens = rest

theorem Succeeds.andThen {post : α → Cursor → Prop} {post' : β → Cursor → Prop} {r : Reply m k α}
    {f : (value : α) → (after : Cursor) → after.size + k ≤ m → Reply n j β} {h : m ≤ n}
    (first : r.Succeeds post)
    (second : ∀ value after le, post value after → (f value after le).Succeeds post') :
    (r.andThen f h).Succeeds post' := by
  cases r with
  | ok value after le => exact second value after le first
  | error => exact first.elim

theorem Succeeds.mono {post post' : α → Cursor → Prop} {r : Reply m k α} (first : r.Succeeds post)
    (h : ∀ value after, post value after → post' value after) : r.Succeeds post' := by
  cases r with
  | ok value after => exact h value after first
  | error => exact first.elim

theorem Succeeds.relax {post : α → Cursor → Prop} {r : Reply m k α} {h : m ≤ n} {h' : m + j ≤ n + k}
    (first : r.Succeeds post) : (r.relax h h').Succeeds post := by
  cases r with
  | ok => exact first
  | error => exact first.elim

end Reply

/-- The first token of a stream is none that a test refuses. -/
theorem head?_ne {p : Token → Bool} {t : Token} {ts : List Token}
    (first : ∀ t ∈ ts.head?, p t = true) (other : p t = false) : ts.head? ≠ some t := by
  intro eq
  rw [first t eq] at other
  cases other

/-- A stream does not begin with what stands between statements. -/
def StartsLine (ts : List Token) : Prop := ∀ t ∈ ts.head?, t ≠ .newline ∧ t ≠ .punct .semicolon

theorem StartsLine.of_head {t : Token} {ts : List Token} (first : ts.head? = some t)
    (noNewline : t ≠ .newline) (noSemicolon : t ≠ .punct .semicolon) : StartsLine ts := by
  intro t' first'
  rw [first] at first'
  cases first'
  exact ⟨noNewline, noSemicolon⟩

namespace Cursor

variable {c : Cursor} {t : Token} {ts : List Token}

theorem tokens_of_view {after : Cursor} {x : Lexeme} {le : after.size + 1 = c.size}
    (next : c.view = .next x after le) :
    c.tokens = x.token :: after.tokens := by
  rw [tokens, rest_of_view next]
  rfl

theorem tokens_of_done (done : c.view = .done) : c.tokens = [] := by
  unfold view at done
  split at done
  · rename_i rest
    rw [tokens, rest]
    rfl
  · cases done

/-- The first of the tokens that follow is the next one. -/
theorem exists_view (h : c.tokens = t :: ts) :
    ∃ span line after, ∃ le : after.size + 1 = c.size, c.view = .next ⟨t, span, line⟩ after le ∧
      after.tokens = ts := by
  cases looked : c.view with
  | done =>
    rw [tokens_of_done looked] at h
    cases h
  | next x after le =>
    rw [tokens_of_view looked] at h
    obtain ⟨rfl, rfl⟩ := List.cons.inj h
    exact ⟨x.span, x.line, after, le, rfl, rfl⟩

/-- The next token is the first of those that follow. -/
theorem head?_of_view {after : Cursor} {x : Lexeme} {le : after.size + 1 = c.size}
    (h : c.tokens = ts) (next : c.view = .next x after le) : ts.head? = some x.token := by
  rw [← h, tokens_of_view next, List.head?_cons]

theorem token?_eq (h : c.tokens = ts) : c.token? = ts.head? := by
  rw [token?, ← h, tokens, List.head?_map]

theorem expect_skips (message : String) (h : c.tokens = t :: ts) :
    (c.expect t message).Skips ts := by
  obtain ⟨span, line, after, le, next, rest⟩ := exists_view h
  rw [expect, next]
  simp only [if_true]
  exact rest

theorem expectIdent_gives {id : Ident} (what : String) (h : c.tokens = id.token :: ts) :
    (c.expectIdent what).Gives (·.unlined = id.unlined) ts := by
  obtain ⟨span, line, after, le, next, rest⟩ := exists_view h
  rw [expectIdent, next]
  exact ⟨rfl, rest⟩

theorem skipWhile_skips (p : Token → Bool) (c : Cursor) :
    (c.skipWhile p).Skips (c.tokens.dropWhile p) := by
  fun_induction Cursor.skipWhile p c with
  | case1 c x after _ next found ih =>
    rw [tokens_of_view next, List.dropWhile_cons_of_pos found]
    exact ih.relax
  | case2 c x after _ next other =>
    rw [tokens_of_view next, List.dropWhile_cons_of_neg other]
    exact tokens_of_view next
  | case3 c done =>
    rw [tokens_of_done done]
    exact tokens_of_done done

/-- No newline is read where there is none. -/
theorem skipNewlines_skips (h : c.tokens = ts) (other : ts.head? ≠ some .newline) :
    c.skipNewlines.Skips ts := by
  have skips := c.skipWhile_skips (· == .newline)
  rw [h] at skips
  cases ts with
  | nil => exact skips
  | cons t ts => rwa [List.dropWhile_cons_of_neg (by simpa using other)] at skips

/-- Line breaks are read up to the start of a line. -/
theorem skipSeparators_skips (breaks : Nat) (h : c.tokens = lineBreaks breaks ++ ts)
    (starts : StartsLine ts) :
    c.skipSeparators.Skips ts := by
  have skips := c.skipWhile_skips fun t => t == .newline || t == .punct .semicolon
  rw [h, List.dropWhile_append_of_pos (by simp [lineBreaks])] at skips
  cases ts with
  | nil => exact skips
  | cons t ts =>
    obtain ⟨noNewline, noSemicolon⟩ := starts t rfl
    rwa [List.dropWhile_cons_of_neg (by simp [noNewline, noSemicolon])] at skips

theorem expectTerminator_skips (h : c.tokens = .newline :: ts) : c.expectTerminator.Skips ts := by
  obtain ⟨span, line, after, le, next, rest⟩ := exists_view h
  rw [expectTerminator, next]
  exact rest

end Cursor

open Reply

/-! ### Expressions -/

/-- Whether a token can stand behind an expression that binds as tightly as `p`: an operator that
binds no more tightly, and nothing that would make a call or an array element out of a name. -/
def Token.follows (p : Nat) : Token → Bool
  | .op operator => decide (operator.precedence ≤ p)
  | .punct .leftParen | .punct .leftBracket => false
  | _ => true

/-- What may stand behind an expression that binds as tightly as `p`. -/
def Follows (p : Nat) (rest : List Token) : Prop := ∀ t ∈ rest.head?, t.follows p = true

theorem Follows.mono {p q : Nat} {rest : List Token} (h : Follows p rest) (le : p ≤ q) :
    Follows q rest := by
  intro t first
  have follows := h t first
  unfold Token.follows at follows ⊢
  split
  · simp only [decide_eq_true_eq] at follows ⊢
    omega
  · cases follows
  · cases follows
  · rfl

theorem Follows.cons {p : Nat} {t : Token} {ts : List Token} (h : t.follows p = true) :
    Follows p (t :: ts) := by
  intro t' first
  cases first
  exact h

theorem Expr.precedence_pos (e : Expr) : 0 < e.precedence := by
  cases e with
  | binary op line left right => cases op <;> exact Nat.zero_lt_succ _
  | operand sign primary line => exact Nat.zero_lt_succ _

theorem Expr.starts (e : Expr) (rest : List Token) :
    ∀ t ∈ (e.tokens ++ rest).head?, t.startsExpr = true := by
  obtain ⟨t, ts, eq, starts⟩ := e.tokens_head
  intro t' first
  rw [eq] at first
  cases first
  exact starts

theorem Primary.starts (primary : Primary) (rest : List Token) :
    ∀ t ∈ (primary.tokens ++ rest).head?, t.startsPrimary = true := by
  obtain ⟨t, ts, eq, starts⟩ := primary.tokens_head
  intro t' first
  rw [eq] at first
  cases first
  exact starts

/-- Behind an expression that binds less tightly than `min`, nothing is read on. -/
theorem Expr.parseOperators_gives {min p : Nat} {e : Expr} {c : Cursor} {rest : List Token}
    (lt : p < min) (follows : Follows p rest) (h : c.tokens = rest) :
    (Expr.parseOperators min e c).Gives (· = e) rest := by
  rw [Expr.parseOperators]
  split
  · rename_i op _ _ c1 _ next
    have first := follows (.op op) (Cursor.head?_of_view h next)
    simp only [Token.follows, decide_eq_true_eq] at first
    rw [if_pos (by omega)]
    exact ⟨rfl, h⟩
  · exact ⟨rfl, h⟩

/-- An expression is read back: `Expr.parseBinary` succeeds on its tokens if it succeeds in reading
on behind it. -/
def Expr.ReadsBack (e : Expr) : Prop :=
  ∀ ⦃min : Nat⦄ ⦃rest : List Token⦄ ⦃post : Expr → Cursor → Prop⦄ ⦃c : Cursor⦄, min ≤ e.precedence →
    Follows e.precedence rest → c.tokens = e.tokens ++ rest →
    (∀ e' c', e'.unlined = e.unlined → c'.tokens = rest →
      (Expr.parseOperators min e' c').Succeeds post) → (Expr.parseBinary min c).Succeeds post

/-- An operand is read back. -/
def Primary.ReadsBack (primary : Primary) : Prop :=
  ∀ ⦃rest : List Token⦄ ⦃c : Cursor⦄, Follows 6 rest → c.tokens = primary.tokens ++ rest →
    (Primary.parse c).Gives (·.unlined = primary.unlined) rest

/-- Behind a whole expression there is no operator. -/
theorem Expr.ReadsBack.parse {e : Expr} (read : e.ReadsBack) {rest : List Token} {c : Cursor}
    (follows : Follows 0 rest) (h : c.tokens = e.tokens ++ rest) :
    (Expr.parseBinary 1 c).Gives (·.unlined = e.unlined) rest := by
  refine read e.precedence_pos (follows.mono (Nat.zero_le _)) h fun e' c' same h' => ?_
  refine (Expr.parseOperators_gives Nat.zero_lt_one follows h').mono ?_
  rintro _ after ⟨rfl, left⟩
  exact ⟨same, left⟩

theorem Expr.ReadsBack.binary {op : BinaryOp} {left right : Expr} (line : Nat)
    (readLeft : left.ReadsBack) (readRight : right.ReadsBack)
    (leftTight : op.precedence ≤ left.precedence) (rightTight : op.precedence < right.precedence) :
    (Expr.binary op line left right).ReadsBack := by
  intro min rest post c le follows h readOn
  rw [Expr.precedence] at le follows
  rw [Expr.tokens, List.append_assoc, List.cons_append] at h
  have behindLeft : Follows left.precedence (.op op :: (right.tokens ++ rest)) :=
    .cons (by simpa [Token.follows] using leftTight)
  refine readLeft (Nat.le_trans le leftTight) behindLeft h fun left' c1 sameLeft h1 => ?_
  obtain ⟨span, line', c2, _, next, h2⟩ := Cursor.exists_view h1
  rw [Expr.parseOperators, next]
  simp only
  rw [if_neg (Nat.not_lt.2 le)]
  refine (Cursor.skipNewlines_skips h2 (head?_ne (right.starts rest) rfl)).andThen
    fun _ c3 _ h3 => ?_
  -- The operator behind the right operand binds too weakly to belong to it.
  have right : (Expr.parseBinary (op.precedence + 1) c3).Gives
      (·.unlined = right.unlined) rest := by
    refine readRight rightTight (follows.mono (Nat.le_of_lt rightTight)) h3
      fun right' c4 sameRight h4 => ?_
    refine (Expr.parseOperators_gives (Nat.lt_succ_self _) follows h4).mono ?_
    rintro _ after ⟨rfl, left⟩
    exact ⟨sameRight, left⟩
  refine right.andThen ?_
  rintro right' c4 - ⟨sameRight, h4⟩
  refine (readOn _ c4 ?_ h4).relax
  rw [Expr.unlined, Expr.unlined, sameLeft, sameRight]

theorem Sign.parse?_gives {sign : Option Sign} {c : Cursor} {ts : List Token}
    (h : c.tokens = sign.toList.map Sign.token ++ ts)
    (starts : ∀ t ∈ ts.head?, t.startsPrimary = true) :
    (Sign.parse? c).Gives (· = sign) ts := by
  cases sign with
  | none =>
    have plus : ts.head? ≠ some (.op .add) := head?_ne starts rfl
    have minus : ts.head? ≠ some (.op .sub) := head?_ne starts rfl
    unfold Sign.parse?
    split
    · rename_i next
      exact absurd (Cursor.head?_of_view h next) minus
    · rename_i next
      exact absurd (Cursor.head?_of_view h next) plus
    · exact ⟨rfl, h⟩
  | some sign =>
    obtain ⟨span, line, c1, _, next, h1⟩ := Cursor.exists_view h
    rw [Sign.parse?, next]
    cases sign <;> exact ⟨rfl, h1⟩

theorem Expr.parseUnary_gives {primary : Primary} (sign : Option Sign) (line : Nat)
    (read : primary.ReadsBack) {rest : List Token} {c : Cursor} (follows : Follows 6 rest)
    (h : c.tokens = (Expr.operand sign primary line).tokens ++ rest) :
    (Expr.parseUnary c).Gives (·.unlined = (Expr.operand sign primary line).unlined) rest := by
  rw [Expr.tokens, List.append_assoc] at h
  rw [Expr.parseUnary]
  refine (Sign.parse?_gives h (primary.starts rest)).andThen ?_
  rintro sign' c1 - ⟨sameSign, h1⟩
  refine (read follows h1).andThen ?_
  rintro primary' c2 - ⟨same, h2⟩
  refine ⟨?_, h2⟩
  simp only [Expr.unlined, sameSign, same]

theorem Expr.ReadsBack.operand {primary : Primary} (sign : Option Sign) (line : Nat)
    (read : primary.ReadsBack) :
    (Expr.operand sign primary line).ReadsBack := by
  intro min rest post c le follows h readOn
  rw [Expr.parseBinary]
  refine (Expr.parseUnary_gives sign line read follows h).andThen ?_
  rintro e c1 - ⟨same, h1⟩
  exact (readOn e c1 same h1).relax

namespace Primary.ReadsBack

theorem literal {lit : Literal} (shaped : lit.isShaped = true) :
    (Primary.literal lit).ReadsBack := by
  intro rest c follows h
  obtain ⟨span, line, c1, _, next, h1⟩ := Cursor.exists_view h
  rw [Primary.parse, next]
  obtain ⟨kind, text, line'⟩ := lit
  cases kind with
  | int => exact ⟨rfl, h1⟩
  | float => exact ⟨rfl, h1⟩
  | string => exact ⟨rfl, h1⟩
  | bool =>
    have texts : text = "true" ∨ text = "false" := by
      simpa [Literal.isShaped, Keyword.text] using shaped
    rcases texts with rfl | rfl
    · exact ⟨rfl, h1⟩
    · exact ⟨rfl, h1⟩

theorem name (id : Ident) : (Primary.name id).ReadsBack := by
  intro rest c follows h
  obtain ⟨span, line, c1, _, next, h1⟩ := Cursor.exists_view h
  rw [Primary.parse, next]
  simp only [Ident.token]
  split
  · rename_i next
    exact absurd (Cursor.head?_of_view h1 next) (head?_ne follows rfl)
  · rename_i next
    exact absurd (Cursor.head?_of_view h1 next) (head?_ne follows rfl)
  · exact ⟨rfl, h1⟩

theorem index {position : Expr} (array : Ident) (read : position.ReadsBack) :
    (Primary.index array position).ReadsBack := by
  intro rest c follows h
  simp only [Primary.tokens, List.cons_append, List.append_assoc, List.nil_append] at h
  obtain ⟨span, line, c1, _, next, h1⟩ := Cursor.exists_view h
  rw [Primary.parse, next]
  simp only [Ident.token]
  obtain ⟨span, line, c2, _, next, h2⟩ := Cursor.exists_view h1
  rw [next]
  simp only
  refine (Cursor.skipNewlines_skips h2 (head?_ne (position.starts _) rfl)).andThen
    fun _ c3 _ h3 => ?_
  refine (read.parse (.cons rfl) h3).andThen ?_
  rintro position' c4 - ⟨same, h4⟩
  refine (Cursor.skipNewlines_skips h4 (by simp)).andThen fun _ c5 _ h5 => ?_
  refine (Cursor.expect_skips _ h5).andThen fun _ c6 _ h6 => ?_
  exact ⟨by simp only [Primary.unlined, same, Ident.unlined], h6⟩

theorem paren {inner : Expr} (read : inner.ReadsBack) : (Primary.paren inner).ReadsBack := by
  intro rest c follows h
  simp only [Primary.tokens, List.cons_append, List.append_assoc, List.nil_append] at h
  obtain ⟨span, line, c1, _, next, h1⟩ := Cursor.exists_view h
  rw [Primary.parse, next]
  simp only
  refine (Cursor.skipNewlines_skips h1 (head?_ne (inner.starts _) rfl)).andThen fun _ c2 _ h2 => ?_
  refine (read.parse (.cons rfl) h2).andThen ?_
  rintro inner' c3 - ⟨same, h3⟩
  refine (Cursor.skipNewlines_skips h3 (by simp)).andThen fun _ c4 _ h4 => ?_
  refine (Cursor.expect_skips _ h4).andThen fun _ c5 _ h5 => ?_
  exact ⟨by simp only [Primary.unlined, same], h5⟩

end Primary.ReadsBack

/-- The tokens of the first of several expressions stand in front. -/
theorem Expr.starts_list (e : Expr) (es : List Expr) (rest : List Token) :
    ∀ t ∈ (Expr.listTokens (e :: es) ++ rest).head?, t.startsExpr = true := by
  rw [Expr.listTokens, Expr.parts, commaSeparated, List.append_assoc]
  exact e.starts _

theorem Expr.listTokens_cons_cons (e e' : Expr) (es : List Expr) (rest : List Token) :
    Expr.listTokens (e :: e' :: es) ++ rest =
      e.tokens ++ .punct .comma :: (Expr.listTokens (e' :: es) ++ rest) := by
  simp [Expr.listTokens, Expr.parts, commaSeparated]

theorem Expr.listTokens_singleton (e : Expr) : Expr.listTokens [e] = e.tokens := by
  simp [Expr.listTokens, Expr.parts, commaSeparated]

/-- What was read and what was written are the same without lines. -/
abbrev SameExprs (written read : List Expr) : Prop :=
  read.map Expr.unlined = written.map Expr.unlined

theorem Expr.parseArgumentList_gives {e : Expr} {es : List Expr}
    (read : ∀ e' ∈ e :: es, e'.ReadsBack) {rest : List Token} {c : Cursor}
    (h : c.tokens = Expr.listTokens (e :: es) ++ .punct .rightParen :: rest) :
    (Expr.parseArgumentList c).Gives (SameExprs (e :: es)) rest := by
  -- The induction is on the arguments behind the first one.
  induction es generalizing e c with
  | nil =>
    rw [Expr.listTokens_singleton] at h
    rw [Expr.parseArgumentList]
    refine ((read e (.head _)).parse (.cons rfl) h).andThen ?_
    rintro e' c1 - ⟨same, h1⟩
    refine (Cursor.skipNewlines_skips h1 (by simp)).andThen fun _ c2 _ h2 => ?_
    split
    · rename_i next
      exact absurd (Cursor.head?_of_view h2 next) (by simp)
    · refine (Cursor.expect_skips _ h2).andThen fun _ c3 _ h3 => ?_
      exact ⟨by simp [SameExprs, same], h3⟩
  | cons e2 es ih =>
    rw [Expr.listTokens_cons_cons] at h
    rw [Expr.parseArgumentList]
    refine ((read e (.head _)).parse (.cons rfl) h).andThen ?_
    rintro e' c1 - ⟨same, h1⟩
    refine (Cursor.skipNewlines_skips h1 (by simp)).andThen fun _ c2 _ h2 => ?_
    obtain ⟨span, line, c3, _, next, h3⟩ := Cursor.exists_view h2
    rw [next]
    simp only
    refine (Cursor.skipNewlines_skips h3 (head?_ne (e2.starts_list es _) rfl)).andThen
      fun _ c4 _ h4 => ?_
    refine (ih (fun e' mem => read e' (.tail _ mem)) h4).andThen ?_
    rintro es' c5 - ⟨sameRest, h5⟩
    exact ⟨by simp_all [SameExprs], h5⟩

theorem Primary.ReadsBack.call {args : List Expr} (callee : Ident)
    (read : ∀ e ∈ args, e.ReadsBack) :
    (Primary.call callee args).ReadsBack := by
  intro rest c follows h
  simp only [Primary.tokens, List.cons_append, List.append_assoc, List.nil_append] at h
  obtain ⟨span, line, c1, _, next, h1⟩ := Cursor.exists_view h
  rw [Primary.parse, next]
  simp only [Ident.token]
  obtain ⟨span, line, c2, _, next, h2⟩ := Cursor.exists_view h1
  rw [next]
  simp only
  -- A name with an opening parenthesis behind it is a call; its arguments may be missing.
  have arguments : (Expr.parseArguments c2).Gives (SameExprs args) rest := by
    rw [Expr.parseArguments]
    cases args with
    | nil =>
      refine (Cursor.skipNewlines_skips h2 (by simp [Expr.parts, commaSeparated])).andThen
        fun _ c3 _ h3 => ?_
      obtain ⟨span, line, c4, _, next, h4⟩ := Cursor.exists_view h3
      rw [next]
      exact ⟨rfl, h4⟩
    | cons e es =>
      have starts := e.starts_list es (.punct .rightParen :: rest)
      refine (Cursor.skipNewlines_skips h2 (head?_ne starts rfl)).andThen fun _ c3 _ h3 => ?_
      split
      · rename_i next
        exact absurd (Cursor.head?_of_view h3 next) (head?_ne starts rfl)
      · exact (Expr.parseArgumentList_gives read h3).relax
  refine arguments.andThen ?_
  rintro args' c3 - ⟨same, h3⟩
  exact ⟨by simp_all [Primary.unlined, Ident.unlined], h3⟩

mutual

/-- Expressions of the shapes of the grammar are read back. -/
theorem Expr.readsBack (e : Expr) (shaped : e.isShaped = true) : e.ReadsBack := by
  match e with
  | .binary op line left right =>
    simp only [Expr.isShaped, Bool.and_eq_true, decide_eq_true_eq] at shaped
    obtain ⟨⟨leftTight, rightTight⟩, leftShaped, rightShaped⟩ := shaped
    exact .binary line (left.readsBack leftShaped)
      (right.readsBack rightShaped) leftTight rightTight
  | .operand sign primary line => exact .operand sign line (primary.readsBack shaped)

theorem Primary.readsBack (primary : Primary) (shaped : primary.isShaped = true) :
    primary.ReadsBack := by
  match primary with
  | .literal lit => exact .literal shaped
  | .name id => exact .name id
  | .call callee args => exact .call callee (Expr.readsBack_of_mem args shaped)
  | .index array position => exact .index array (position.readsBack shaped)
  | .paren inner => exact .paren (inner.readsBack shaped)

theorem Expr.readsBack_of_mem (es : List Expr) (shaped : Expr.areShaped es = true) :
    ∀ e ∈ es, e.ReadsBack := by
  match es with
  | [] => exact fun e mem => nomatch mem
  | e :: es =>
    simp only [Expr.areShaped, Bool.and_eq_true] at shaped
    exact List.forall_mem_cons.2 ⟨e.readsBack shaped.1, Expr.readsBack_of_mem es shaped.2⟩

end

theorem Expr.parse_gives {e : Expr} (shaped : e.isShaped = true) {rest : List Token} {c : Cursor}
    (follows : Follows 0 rest) (h : c.tokens = e.tokens ++ rest) :
    (Expr.parse c).Gives (·.unlined = e.unlined) rest :=
  (e.readsBack shaped).parse follows h

/-- What may stand behind a list of expressions. -/
structure FollowsList (rest : List Token) : Prop where
  follows : Follows 0 rest
  noComma : rest.head? ≠ some (.punct .comma)

theorem FollowsList.cons {t : Token} {ts : List Token} (h : t.follows 0 = true)
    (other : t ≠ .punct .comma) :
    FollowsList (t :: ts) :=
  ⟨.cons h, by simpa using other⟩

/-- What comes behind the first of several expressions. -/
theorem Expr.follows_more (es : List Expr) {rest : List Token} (behind : FollowsList rest) :
    Follows 0 ((Expr.parts es).flatMap (.punct .comma :: ·) ++ rest) := by
  cases es with
  | nil => exact behind.follows
  | cons => exact .cons rfl

theorem Expr.parseMore_gives {es : List Expr} (shaped : Expr.areShaped es = true)
    {rest : List Token} {c : Cursor} (behind : FollowsList rest)
    (h : c.tokens = (Expr.parts es).flatMap (.punct .comma :: ·) ++ rest) :
    (Expr.parseMore c).Gives (SameExprs es) rest := by
  induction es generalizing c with
  | nil =>
    rw [Expr.parseMore]
    split
    · rename_i next
      exact absurd (Cursor.head?_of_view h next) behind.noComma
    · exact ⟨rfl, h⟩
  | cons e es ih =>
    simp only [Expr.areShaped, Bool.and_eq_true] at shaped
    simp only [Expr.parts, List.flatMap_cons, List.cons_append, List.append_assoc] at h
    obtain ⟨span, line, c1, _, next, h1⟩ := Cursor.exists_view h
    rw [Expr.parseMore, next]
    simp only
    refine (Cursor.skipNewlines_skips h1 (head?_ne (e.starts _) rfl)).andThen fun _ c2 _ h2 => ?_
    refine (Expr.parse_gives shaped.1 (Expr.follows_more es behind) h2).andThen ?_
    rintro e' c3 - ⟨same, h3⟩
    refine (ih shaped.2 h3).andThen ?_
    rintro es' c4 - ⟨sameRest, h4⟩
    exact ⟨by simp_all [SameExprs], h4⟩

theorem Expr.parseList_gives {es : List Expr} (nonempty : es ≠ [])
    (shaped : Expr.areShaped es = true) {rest : List Token} {c : Cursor} (behind : FollowsList rest)
    (h : c.tokens = Expr.listTokens es ++ rest) :
    (Expr.parseList c).Gives (SameExprs es) rest := by
  cases es with
  | nil => exact absurd rfl nonempty
  | cons e es =>
    simp only [Expr.areShaped, Bool.and_eq_true] at shaped
    rw [Expr.listTokens, Expr.parts, commaSeparated, List.append_assoc] at h
    refine (Expr.parse_gives shaped.1 (Expr.follows_more es behind) h).andThen ?_
    rintro e' c1 - ⟨same, h1⟩
    refine (Expr.parseMore_gives shaped.2 behind h1).andThen ?_
    rintro es' c2 - ⟨sameRest, h2⟩
    exact ⟨by simp_all [SameExprs], h2⟩

/-! ### Declarations -/

/-- What was read and what was written are the same without lines. -/
abbrev SameIdents (written read : List Ident) : Prop :=
  read.map Ident.unlined = written.map Ident.unlined

theorem Ident.parseMore_gives (what : String) {ids : List Ident} {rest : List Token} {c : Cursor}
    (noComma : rest.head? ≠ some (.punct .comma))
    (h : c.tokens = (ids.map ([·.token])).flatMap (.punct .comma :: ·) ++ rest) :
    (Ident.parseMore what c).Gives (SameIdents ids) rest := by
  induction ids generalizing c with
  | nil =>
    rw [Ident.parseMore]
    split
    · rename_i next
      exact absurd (Cursor.head?_of_view h next) noComma
    · exact ⟨rfl, h⟩
  | cons id ids ih =>
    simp only [List.map_cons, List.flatMap_cons, List.cons_append, List.nil_append] at h
    obtain ⟨span, line, c1, _, next, h1⟩ := Cursor.exists_view h
    rw [Ident.parseMore, next]
    simp only
    refine (Cursor.expectIdent_gives what h1).andThen ?_
    rintro id' c2 - ⟨same, h2⟩
    refine (ih h2).andThen ?_
    rintro ids' c3 - ⟨sameRest, h3⟩
    exact ⟨by simp_all [SameIdents], h3⟩

theorem Ident.parseList_gives (what : String) {ids : List Ident} (nonempty : ids ≠ [])
    {rest : List Token} {c : Cursor} (noComma : rest.head? ≠ some (.punct .comma))
    (h : c.tokens = Ident.listTokens ids ++ rest) :
    (Ident.parseList what c).Gives (SameIdents ids) rest := by
  cases ids with
  | nil => exact absurd rfl nonempty
  | cons id ids =>
    rw [Ident.listTokens, List.map_cons, commaSeparated, List.append_assoc] at h
    refine (Cursor.expectIdent_gives what h).andThen ?_
    rintro id' c1 - ⟨same, h1⟩
    refine (Ident.parseMore_gives what noComma h1).andThen ?_
    rintro ids' c2 - ⟨sameRest, h2⟩
    exact ⟨by simp_all [SameIdents], h2⟩

theorem TypeSpec.parseName_gives {id : Ident} {rest : List Token} {c : Cursor}
    (h : c.tokens = id.token :: rest) :
    (TypeSpec.parseName c).Gives (·.unlined = id.unlined) rest := by
  rw [TypeSpec.parseName, Cursor.token?_eq h]
  exact Cursor.expectIdent_gives _ h

theorem TypeSpec.parse_gives {type : TypeSpec} (shaped : type.isShaped = true) {rest : List Token}
    {c : Cursor} (h : c.tokens = type.tokens ++ rest) :
    (TypeSpec.parse c).Gives (·.unlined = type.unlined) rest := by
  cases type with
  | named id =>
    obtain ⟨span, line, c1, _, next, h1⟩ := Cursor.exists_view h
    rw [TypeSpec.parse, next]
    refine (TypeSpec.parseName_gives h).andThen ?_
    rintro id' c1 - ⟨same, h1⟩
    exact ⟨by simp only [TypeSpec.unlined, same], h1⟩
  | array length element line =>
    simp only [TypeSpec.tokens, List.cons_append, List.append_assoc, List.nil_append] at h
    obtain ⟨span, line, c1, _, next, h1⟩ := Cursor.exists_view h
    rw [TypeSpec.parse, next]
    refine (Expr.parse_gives shaped (.cons rfl) h1).andThen ?_
    rintro length' c2 - ⟨sameLength, h2⟩
    refine (Cursor.expect_skips _ h2).andThen fun _ c3 _ h3 => ?_
    refine (TypeSpec.parseName_gives h3).andThen ?_
    rintro element' c4 - ⟨sameElement, h4⟩
    exact ⟨by simp only [TypeSpec.unlined, sameLength, sameElement], h4⟩

theorem TypeSpec.parseNames_gives {id : Ident} {ids : List Ident} {rest : List Token} {c : Cursor}
    (noComma : rest.head? ≠ some (.punct .comma))
    (h : c.tokens = Ident.listTokens (id :: ids) ++ rest) :
    (TypeSpec.parseNames c).Gives (SameIdents (id :: ids)) rest := by
  induction ids generalizing id c with
  | nil =>
    rw [TypeSpec.parseNames]
    refine (TypeSpec.parseName_gives h).andThen ?_
    rintro id' c1 - ⟨same, h1⟩
    split
    · rename_i next
      exact absurd (Cursor.head?_of_view h1 next) noComma
    · exact ⟨by simp [SameIdents, same], h1⟩
  | cons id2 ids ih =>
    rw [TypeSpec.parseNames]
    refine (TypeSpec.parseName_gives h).andThen ?_
    rintro id' c1 - ⟨same, h1⟩
    obtain ⟨span, line, c2, _, next, h2⟩ := Cursor.exists_view h1
    rw [next]
    simp only
    refine (ih h2).andThen ?_
    rintro ids' c3 - ⟨sameRest, h3⟩
    exact ⟨by simp_all [SameIdents], h3⟩

/-- The body of a function stands behind its results. -/
theorem TypeSpec.parseResults_gives {ids : List Ident} {rest : List Token} {c : Cursor}
    (h : c.tokens = resultTokens ids ++ .punct .leftBrace :: rest) :
    (TypeSpec.parseResults c).Gives (SameIdents ids) (.punct .leftBrace :: rest) := by
  match ids with
  | [] =>
    obtain ⟨span, line, c1, _, next, h1⟩ := Cursor.exists_view h
    rw [TypeSpec.parseResults, next]
    exact ⟨rfl, h⟩
  | [id] =>
    obtain ⟨span, line, c1, _, next, h1⟩ := Cursor.exists_view h
    rw [TypeSpec.parseResults, next]
    refine (TypeSpec.parseName_gives h).andThen ?_
    rintro id' c2 - ⟨same, h2⟩
    exact ⟨by simp [SameIdents, same], h2⟩
  | id :: id2 :: ids =>
    simp only [resultTokens, List.cons_append, List.append_assoc, List.nil_append] at h
    obtain ⟨span, line, c1, _, next, h1⟩ := Cursor.exists_view h
    rw [TypeSpec.parseResults, next]
    simp only
    split
    · rename_i next
      exact absurd (Cursor.head?_of_view h1 next)
        (by simp [Ident.listTokens, commaSeparated, Ident.token])
    · refine (TypeSpec.parseNames_gives (by simp) h1).andThen ?_
      rintro ids' c2 - ⟨same, h2⟩
      refine (Cursor.expect_skips _ h2).andThen fun _ c3 _ h3 => ?_
      exact ⟨same, h3⟩

/-- A specification begins with a name. -/
theorem VarSpec.starts {spec : VarSpec} (shaped : spec.isShaped = true) (rest : List Token) :
    ∃ name, (spec.tokens ++ rest).head? = some (.ident name) := by
  have nonempty : spec.names ≠ [] := by
    intro none
    simp [VarSpec.isShaped, none] at shaped
  obtain ⟨name, ts, eq⟩ := Ident.listTokens_head nonempty
  exact ⟨name, by rw [VarSpec.tokens, eq]; rfl⟩

theorem VarSpec.parseType?_gives {type? : Option TypeSpec} {values : List Expr}
    (either : type?.isSome = true ∨ values ≠ []) (shaped : type?.all TypeSpec.isShaped = true)
    {rest : List Token} {c : Cursor}
    (h : c.tokens = type?.toList.flatMap TypeSpec.tokens ++ (VarSpec.valueTokens values ++ rest)) :
    (VarSpec.parseType? c).Gives (·.map TypeSpec.unlined = type?.map TypeSpec.unlined)
      (VarSpec.valueTokens values ++ rest) := by
  cases type? with
  | none =>
    cases values with
    | nil => simp at either
    | cons e es =>
      rw [VarSpec.parseType?, Cursor.token?_eq h]
      exact ⟨rfl, h⟩
  | some type =>
    have h : c.tokens = type.tokens ++ (VarSpec.valueTokens values ++ rest) := by simpa using h
    rw [VarSpec.parseType?, Cursor.token?_eq h]
    have noMark : (type.tokens ++ (VarSpec.valueTokens values ++ rest)).head? ≠
        some (.punct .assign) := by
      cases type <;> simp [TypeSpec.tokens, Ident.token]
    split
    · rename_i mark
      exact absurd mark noMark
    · refine (TypeSpec.parse_gives shaped h).andThen ?_
      rintro type' c1 - ⟨same, h1⟩
      exact ⟨by simp [same], h1⟩

theorem VarSpec.parseValues_gives {values : List Expr} (shaped : Expr.areShaped values = true)
    {rest : List Token} {c : Cursor}
    (h : c.tokens = VarSpec.valueTokens values ++ .newline :: rest) :
    (VarSpec.parseValues c).Gives (SameExprs values) (.newline :: rest) := by
  cases values with
  | nil =>
    obtain ⟨span, line, c1, _, next, h1⟩ := Cursor.exists_view h
    rw [VarSpec.parseValues, next]
    exact ⟨rfl, h⟩
  | cons e es =>
    obtain ⟨span, line, c1, _, next, h1⟩ := Cursor.exists_view h
    rw [VarSpec.parseValues, next]
    simp only
    refine (Cursor.skipNewlines_skips h1 (head?_ne (e.starts_list es _) rfl)).andThen
      fun _ c2 _ h2 => ?_
    exact (Expr.parseList_gives (by simp) shaped (.cons rfl (by simp)) h2).relax

theorem VarSpec.parse_gives {spec : VarSpec} (shaped : spec.isShaped = true) {rest : List Token}
    {c : Cursor} (h : c.tokens = spec.tokens ++ .newline :: rest) :
    (VarSpec.parse c).Gives (·.unlined = spec.unlined) (.newline :: rest) := by
  simp only [VarSpec.isShaped, Bool.and_eq_true, Bool.or_eq_true, Bool.not_eq_true',
    List.isEmpty_eq_false_iff] at shaped
  obtain ⟨⟨⟨nonempty, either⟩, typeShaped⟩, valuesShaped⟩ := shaped
  rw [VarSpec.tokens, List.append_assoc, List.append_assoc] at h
  have noComma : (spec.type?.toList.flatMap TypeSpec.tokens ++
      (VarSpec.valueTokens spec.values ++ .newline :: rest)).head? ≠ some (.punct .comma) := by
    obtain ⟨names, type?, values, line⟩ := spec
    rcases type? with _ | _ | _ <;> cases values <;>
      simp [TypeSpec.tokens, Ident.token, VarSpec.valueTokens]
  refine (Ident.parseList_gives _ nonempty noComma h).andThen ?_
  rintro names c1 - ⟨sameNames, h1⟩
  refine (VarSpec.parseType?_gives either typeShaped h1).andThen ?_
  rintro type? c2 - ⟨sameType, h2⟩
  refine (VarSpec.parseValues_gives valuesShaped h2).andThen ?_
  rintro values c3 - ⟨sameValues, h3⟩
  exact ⟨by simp only [VarSpec.unlined, sameNames, sameType, sameValues], h3⟩

/-- The specifications of a group up to its closing parenthesis begin with a name, or there are
none. -/
theorem VarSpec.startsLine_group {specs : List VarSpec}
    (shaped : ∀ spec ∈ specs, spec.isShaped = true) (rest : List Token) :
    StartsLine (specs.flatMap (·.tokens ++ [.newline]) ++ .punct .rightParen :: rest) := by
  cases specs with
  | nil => exact .of_head rfl (by simp) (by simp)
  | cons spec specs =>
    rw [List.flatMap_cons, List.append_assoc, List.append_assoc]
    obtain ⟨name, first⟩ := VarSpec.starts (shaped spec (.head _)) _
    exact .of_head first (by simp) (by simp)

theorem VarSpec.parseGroup_gives {specs : List VarSpec}
    (shaped : ∀ spec ∈ specs, spec.isShaped = true) {rest : List Token} {c : Cursor}
    (h : c.tokens = specs.flatMap (·.tokens ++ [.newline]) ++ .punct .rightParen :: rest) :
    (VarSpec.parseGroup c).Gives (·.map VarSpec.unlined = specs.map VarSpec.unlined)
      (.punct .rightParen :: rest) := by
  induction specs generalizing c with
  | nil =>
    rw [VarSpec.parseGroup, Cursor.token?_eq h]
    exact ⟨rfl, h⟩
  | cons spec specs ih =>
    rw [List.forall_mem_cons] at shaped
    rw [List.flatMap_cons, List.append_assoc, List.append_assoc] at h
    obtain ⟨name, first⟩ := VarSpec.starts shaped.1 _
    rw [VarSpec.parseGroup, Cursor.token?_eq h, first]
    refine (VarSpec.parse_gives shaped.1 h).andThen ?_
    rintro spec' c1 - ⟨same, h1⟩
    refine (Cursor.expectTerminator_skips h1).andThen fun _ c2 _ h2 => ?_
    refine (Cursor.skipSeparators_skips 0 h2 (VarSpec.startsLine_group shaped.2 rest)).andThen
      fun _ c3 _ h3 => ?_
    refine (ih shaped.2 h3).andThen ?_
    rintro specs' c4 - ⟨sameRest, h4⟩
    exact ⟨by simp only [List.map_cons, same, sameRest], h4⟩

theorem VarDecl.parse_gives {breaks : Nat} {decl : VarDecl} (shaped : decl.isShaped = true)
    {rest : List Token} {c : Cursor} (h : c.tokens = decl.tokens breaks ++ .newline :: rest) :
    (VarDecl.parse c).Gives (·.unlined = decl.unlined) (.newline :: rest) := by
  rw [VarDecl.isShaped, List.all_eq_true] at shaped
  obtain ⟨specs, line⟩ := decl
  rw [VarDecl.tokens, List.cons_append] at h
  refine (Cursor.expect_skips _ h).andThen fun _ c1 _ h1 => ?_
  split at h1
  · -- One specification.
    rename_i spec one
    obtain rfl : specs = [spec] := one
    obtain ⟨name, first⟩ := VarSpec.starts (shaped spec (.head _)) (.newline :: rest)
    split
    · rename_i next
      rw [Cursor.head?_of_view h1 next] at first
      cases first
    · refine (VarSpec.parse_gives (shaped spec (.head _)) h1).andThen ?_
      rintro spec' c2 - ⟨same, h2⟩
      exact ⟨by simp only [VarDecl.unlined, List.map_cons, List.map_nil, same], h2⟩
  · -- A group.
    simp only [List.cons_append, List.append_assoc, List.nil_append] at h1
    obtain ⟨span, line, c2, _, next, h2⟩ := Cursor.exists_view h1
    rw [next]
    have starts := VarSpec.startsLine_group shaped (.newline :: rest)
    refine (Cursor.skipSeparators_skips breaks h2 starts).andThen fun _ c3 _ h3 => ?_
    refine (VarSpec.parseGroup_gives shaped h3).andThen ?_
    rintro specs' c4 - ⟨same, h4⟩
    refine (Cursor.expect_skips _ h4).andThen fun _ c5 _ h5 => ?_
    exact ⟨by simp only [VarDecl.unlined, same], h5⟩

theorem ParamGroup.parse_gives {group : ParamGroup} (nonempty : group.names ≠ [])
    {rest : List Token} {c : Cursor} (h : c.tokens = group.tokens ++ rest) :
    (ParamGroup.parse c).Gives (·.unlined = group.unlined) rest := by
  rw [ParamGroup.tokens, List.append_assoc] at h
  refine (Ident.parseList_gives _ nonempty (by simp [Ident.token]) h).andThen ?_
  rintro names c1 - ⟨sameNames, h1⟩
  refine (TypeSpec.parseName_gives h1).andThen ?_
  rintro type c2 - ⟨sameType, h2⟩
  exact ⟨by simp only [ParamGroup.unlined, sameNames, sameType], h2⟩

/-- Parameters begin with a name. -/
theorem ParamGroup.starts {group : ParamGroup} (nonempty : group.names ≠ [])
    (groups : List ParamGroup) (rest : List Token) :
    ∃ name, (commaSeparated ((group :: groups).map ParamGroup.tokens) ++ rest).head? =
      some (.ident name) := by
  obtain ⟨name, ts, eq⟩ := Ident.listTokens_head nonempty
  exact ⟨name, by rw [List.map_cons, commaSeparated, ParamGroup.tokens, eq]; rfl⟩

theorem ParamGroup.parseGroups_gives {groups : List ParamGroup}
    (nonempty : ∀ group ∈ groups, group.names ≠ []) {rest : List Token} {c : Cursor}
    (h : c.tokens = commaSeparated (groups.map ParamGroup.tokens) ++ .punct .rightParen :: rest) :
    (ParamGroup.parseGroups c).Gives (·.map ParamGroup.unlined = groups.map ParamGroup.unlined)
      (.punct .rightParen :: rest) := by
  induction groups generalizing c with
  | nil =>
    rw [ParamGroup.parseGroups, Cursor.token?_eq h]
    exact ⟨rfl, h⟩
  | cons group groups ih =>
    rw [List.forall_mem_cons] at nonempty
    obtain ⟨name, first⟩ := ParamGroup.starts nonempty.1 groups (.punct .rightParen :: rest)
    rw [ParamGroup.parseGroups, Cursor.token?_eq h, first]
    rw [List.map_cons, commaSeparated, List.append_assoc] at h
    refine (ParamGroup.parse_gives nonempty.1 h).andThen ?_
    rintro group' c1 - ⟨same, h1⟩
    cases groups with
    | nil =>
      refine (Cursor.skipNewlines_skips h1 (by simp)).andThen fun _ c2 _ h2 => ?_
      obtain ⟨span, line, c3, _, next, h3⟩ := Cursor.exists_view h2
      rw [next]
      exact ⟨by simp only [List.map_cons, List.map_nil, same], h2⟩
    | cons group2 groups =>
      refine (Cursor.skipNewlines_skips h1 (by simp)).andThen fun _ c2 _ h2 => ?_
      obtain ⟨span, line, c3, _, next, h3⟩ := Cursor.exists_view h2
      rw [next]
      obtain ⟨name, first⟩ :=
        ParamGroup.starts (nonempty.2 group2 (.head _)) groups (.punct .rightParen :: rest)
      have h3 : c3.tokens = commaSeparated ((group2 :: groups).map ParamGroup.tokens) ++
          .punct .rightParen :: rest :=
        h3
      refine (Cursor.skipNewlines_skips h3 (by rw [first]; simp)).andThen fun _ c4 _ h4 => ?_
      refine (ih nonempty.2 h4).andThen ?_
      rintro groups' c5 - ⟨sameRest, h5⟩
      exact ⟨by simp_all, h5⟩

theorem ParamGroup.parseList_gives {groups : List ParamGroup}
    (nonempty : ∀ group ∈ groups, group.names ≠ []) {rest : List Token} {c : Cursor}
    (h : c.tokens = commaSeparated (groups.map ParamGroup.tokens) ++ .punct .rightParen :: rest) :
    (ParamGroup.parseList c).Gives (·.map ParamGroup.unlined = groups.map ParamGroup.unlined)
      (.punct .rightParen :: rest) := by
  have other : (commaSeparated (groups.map ParamGroup.tokens) ++ .punct .rightParen :: rest).head? ≠
      some .newline := by
    cases groups with
    | nil => simp [commaSeparated]
    | cons group groups =>
      obtain ⟨name, first⟩ :=
        ParamGroup.starts (nonempty group (.head _)) groups (.punct .rightParen :: rest)
      rw [first]
      simp
  refine (Cursor.skipNewlines_skips h other).andThen fun _ c1 _ h1 => ?_
  exact (ParamGroup.parseGroups_gives nonempty h1).relax

end MiniGo
