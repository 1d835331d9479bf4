import MiniGo.Proofs.Syntax.ReadingBack

/-!
# Reading the tokens of a tree gives the tree back

A file of the shapes of the grammar is written as tokens and read again. What is read is the same
file, up to the line numbers.

* `Stmt.ReadsBack`, `Block.ReadsBack`: a statement, and a block, is read back.
* `Stmt.readsBack`: all statements of the shapes of the grammar are, by their structure.
* `File.parseTokens_tokens`: the same for a whole file.
-/

namespace MiniGo

open Reply

/-! ### Simple statements -/

/-- Something that an expression stands for is found again in an expression that is the same without
lines. -/
theorem mapM_of_same {α : Type} {f : Expr → Option α} {expr : α → Expr} {unlined : α → α}
    (stands : ∀ a, f (expr a) = some a) (lines : ∀ e, f e.unlined = (f e).map unlined) {as : List α}
    {es : List Expr} (same : SameExprs (as.map expr) es) :
    ∃ as', es.mapM f = some as' ∧ as'.map unlined = as.map unlined := by
  induction as generalizing es with
  | nil =>
    obtain rfl : es = [] := by simpa [SameExprs] using same
    exact ⟨[], rfl, rfl⟩
  | cons a as ih =>
    cases es with
    | nil => simp [SameExprs] at same
    | cons e es =>
      simp only [SameExprs, List.map_cons, List.cons.injEq] at same
      obtain ⟨as', found, sameRest⟩ := ih same.2
      have first : (f e).map unlined = some (unlined a) := by
        rw [← lines, same.1, lines, stands, Option.map_some]
      obtain ⟨a', found', same'⟩ := Option.map_eq_some_iff.1 first
      refine ⟨a' :: as', ?_, by rw [List.map_cons, List.map_cons, same', sameRest]⟩
      simp [List.mapM_cons, found, found']

theorem Expr.name?_unlined (e : Expr) : e.unlined.name? = e.name?.map Ident.unlined := by
  rcases e with _ | ⟨_ | _, _ | _ | _ | _ | _, _⟩ <;> rfl

theorem Expr.target?_unlined (e : Expr) : e.unlined.target? = e.target?.map Target.unlined := by
  rcases e with _ | ⟨_ | _, _ | _ | _ | _ | _, _⟩ <;> rfl

theorem Expr.call?_unlined (e : Expr) :
    e.unlined.call? = e.call?.map fun (callee, args) =>
      (callee.unlined, args.map Expr.unlined) := by
  rcases e with _ | ⟨_ | _, _ | _ | _ | _ | _, _⟩ <;>
    simp [Expr.unlined, Expr.call?, Primary.unlined]

theorem Ident.name?_expr (id : Ident) : id.expr.name? = some id := rfl

theorem Target.target?_expr (target : Target) : target.expr.target? = some target := by
  cases target <;> rfl

theorem Ident.listTokens_eq (ids : List Ident) :
    Ident.listTokens ids = Expr.listTokens (ids.map Ident.expr) := by
  rw [Ident.listTokens, Expr.listTokens]
  congr 1
  induction ids with
  | nil => rfl
  | cons id ids ih => exact congrArg _ ih

theorem Ident.areShaped_expr (ids : List Ident) : Expr.areShaped (ids.map Ident.expr) = true := by
  induction ids with
  | nil => rfl
  | cons id ids ih => exact ih

theorem Target.areShaped_expr {targets : List Target}
    (shaped : targets.all Target.isShaped = true) :
    Expr.areShaped (targets.map Target.expr) = true := by
  induction targets with
  | nil => rfl
  | cons target targets ih =>
    simp only [List.all_cons, Bool.and_eq_true] at shaped
    rw [List.map_cons, Expr.areShaped, ih shaped.2, Bool.and_true]
    cases target with
    | name id => rfl
    | index array position => exact shaped.1

/-- A statement is read back, with a newline behind it. -/
def Stmt.ReadsBack (breaks : Nat) (stmt : Stmt) : Prop :=
  ∀ ⦃rest : List Token⦄ ⦃c : Cursor⦄, c.tokens = stmt.tokens breaks ++ .newline :: rest →
    (Stmt.parse c).Gives (·.unlined = stmt.unlined) (.newline :: rest)

theorem Stmt.parseValues_gives {values : List Expr} (nonempty : values ≠ [])
    (shaped : Expr.areShaped values = true) {rest : List Token} {c : Cursor}
    (h : c.tokens = Expr.listTokens values ++ .newline :: rest) :
    (Stmt.parseValues c).Gives (SameExprs values) (.newline :: rest) := by
  cases values with
  | nil => exact absurd rfl nonempty
  | cons e es =>
    refine (Cursor.skipNewlines_skips h (head?_ne (e.starts_list es _) rfl)).andThen
      fun _ c1 _ h1 => ?_
    exact (Expr.parseList_gives nonempty shaped (.cons rfl (by simp)) h1).relax

/-- A statement that begins with a name is a simple one. -/
theorem Stmt.parse_of_ident {name : String} {c : Cursor} (first : c.token? = some (.ident name)) :
    Stmt.parse c = Stmt.parseSimple c := by
  rw [Stmt.parse, first]

/-- A statement cannot end where an expression begins. -/
theorem Cursor.not_atTerminator {c : Cursor} {t : Token} (first : c.token? = some t)
    (starts : t.startsExpr = true) :
    c.atTerminator = false := by
  rw [Cursor.atTerminator, first]
  split <;> simp_all [Token.startsExpr, Token.startsPrimary]

namespace Stmt.ReadsBack

variable {breaks : Nat}

theorem define {names : List Ident} {values : List Expr} (line : Nat) (someNames : names ≠ [])
    (someValues : values ≠ []) (shaped : Expr.areShaped values = true) :
    (Stmt.define names values line).ReadsBack breaks := by
  intro rest c h
  rw [Stmt.tokens, List.append_assoc, List.cons_append] at h
  obtain ⟨name, ts, eq⟩ := Ident.listTokens_head someNames
  rw [Stmt.parse_of_ident (by rw [Cursor.token?_eq h, eq]; rfl)]
  rw [Ident.listTokens_eq] at h
  refine (Expr.parseList_gives (by simpa using someNames) (Ident.areShaped_expr names)
    (.cons rfl (by simp)) h).andThen ?_
  rintro left c1 - ⟨same, h1⟩
  obtain ⟨span, line', c2, _, next, h2⟩ := Cursor.exists_view h1
  obtain ⟨names', found, sameNames⟩ := mapM_of_same Ident.name?_expr Expr.name?_unlined same
  simp only [next, found]
  refine (Stmt.parseValues_gives someValues shaped h2).andThen ?_
  rintro values' c3 - ⟨sameValues, h3⟩
  exact ⟨by simp only [Stmt.unlined, sameNames, sameValues], h3⟩

theorem assign {targets : List Target} {values : List Expr} (line : Nat)
    (someTargets : targets ≠ []) (someValues : values ≠ [])
    (targetsShaped : targets.all Target.isShaped = true) (shaped : Expr.areShaped values = true) :
    (Stmt.assign targets values line).ReadsBack breaks := by
  intro rest c h
  rw [Stmt.tokens, List.append_assoc, List.cons_append] at h
  have first : ∃ name, c.token? = some (.ident name) := by
    cases targets with
    | nil => exact absurd rfl someTargets
    | cons target targets =>
      obtain ⟨name, ts, eq⟩ := target.tokens_head
      refine ⟨name, ?_⟩
      rw [Cursor.token?_eq h, List.map_cons, Expr.listTokens, Expr.parts, commaSeparated, eq]
      rfl
  obtain ⟨name, first⟩ := first
  rw [Stmt.parse_of_ident first]
  refine (Expr.parseList_gives (by simpa using someTargets) (Target.areShaped_expr targetsShaped)
    (.cons rfl (by simp)) h).andThen ?_
  rintro left c1 - ⟨same, h1⟩
  obtain ⟨span, line', c2, _, next, h2⟩ := Cursor.exists_view h1
  obtain ⟨targets', found, sameTargets⟩ :=
    mapM_of_same Target.target?_expr Expr.target?_unlined same
  simp only [next, found]
  refine (Stmt.parseValues_gives someValues shaped h2).andThen ?_
  rintro values' c3 - ⟨sameValues, h3⟩
  exact ⟨by simp only [Stmt.unlined, sameTargets, sameValues], h3⟩

theorem call {args : List Expr} (callee : Ident) (line : Nat)
    (shaped : Expr.areShaped args = true) :
    (Stmt.call callee args line).ReadsBack breaks := by
  intro rest c h
  rw [Stmt.tokens, ← Expr.listTokens_singleton] at h
  rw [Stmt.parse_of_ident (Cursor.token?_eq h)]
  have shaped : Expr.areShaped [.operand none (.call callee args) line] = true := by
    simpa [Expr.areShaped, Expr.isShaped, Primary.isShaped] using shaped
  refine (Expr.parseList_gives (by simp) shaped (.cons rfl (by simp)) h).andThen ?_
  rintro left c1 - ⟨same, h1⟩
  obtain ⟨span, line', c2, _, next, h2⟩ := Cursor.exists_view h1
  rw [next]
  match left, same with
  | [], same => simp [SameExprs] at same
  | [e], same =>
    simp only [SameExprs, List.map_cons, List.map_nil, List.cons.injEq, and_true] at same
    have found : e.call?.map (fun (callee, args) => (callee.unlined, args.map Expr.unlined)) =
        some (callee.unlined, args.map Expr.unlined) := by
      rw [← Expr.call?_unlined, same, Expr.call?_unlined]
      rfl
    obtain ⟨⟨callee', args'⟩, eq, same⟩ := Option.map_eq_some_iff.1 found
    simp only [eq]
    simp only [Prod.mk.injEq] at same
    exact ⟨by simp only [Stmt.unlined, same], h1⟩
  | _ :: _ :: _, same => simp [SameExprs] at same

theorem ret {values : List Expr} (line : Nat) (shaped : Expr.areShaped values = true) :
    (Stmt.ret values line).ReadsBack breaks := by
  intro rest c h
  rw [Stmt.tokens, List.cons_append] at h
  rw [Stmt.parse, Cursor.token?_eq h]
  refine (Cursor.expect_skips _ h).andThen fun _ c1 _ h1 => ?_
  cases values with
  | nil =>
    have stops : c1.atTerminator = true := by
      rw [Cursor.atTerminator, Cursor.token?_eq h1]
      rfl
    rw [if_pos stops]
    exact ⟨rfl, h1⟩
  | cons e es =>
    have goesOn : ¬ c1.atTerminator = true := by
      obtain ⟨t, ts, eq, starts⟩ := e.tokens_head
      have first : c1.token? = some t := by
        rw [Cursor.token?_eq h1, Expr.listTokens, Expr.parts, commaSeparated, eq]
        rfl
      rw [Cursor.not_atTerminator first starts]
      simp
    rw [if_neg goesOn]
    refine (Expr.parseList_gives (by simp) shaped (.cons rfl (by simp)) h1).andThen ?_
    rintro values' c2 - ⟨same, h2⟩
    exact ⟨by simp only [Stmt.unlined, same], h2⟩

theorem var {decl : VarDecl} (shaped : decl.isShaped = true) :
    (Stmt.var decl).ReadsBack breaks := by
  intro rest c h
  rw [Stmt.parse, Cursor.token?_eq h]
  refine (VarDecl.parse_gives shaped h).andThen ?_
  rintro decl' c1 - ⟨same, h1⟩
  exact ⟨by simp only [Stmt.unlined, same], h1⟩

end Stmt.ReadsBack

/-! ### Blocks -/

/-- A block is read back, whatever stands behind it. -/
def Block.ReadsBack (breaks : Nat) (body : Block) : Prop :=
  ∀ ⦃rest : List Token⦄ ⦃c : Cursor⦄, c.tokens = body.tokens breaks ++ rest →
    (Block.parse c).Gives (·.unlined = body.unlined) rest

/-- A conditional statement is read back, with a newline behind it. -/
def IfStmt.ReadsBack (breaks : Nat) (stmt : IfStmt) : Prop :=
  ∀ ⦃rest : List Token⦄ ⦃c : Cursor⦄, c.tokens = stmt.tokens breaks ++ .newline :: rest →
    (IfStmt.parse c).Gives (·.unlined = stmt.unlined) (.newline :: rest)

/-- An else branch is read back, with a newline behind it. -/
def ElseBranch.ReadsBack (breaks : Nat) (branch : ElseBranch) : Prop :=
  ∀ ⦃rest : List Token⦄ ⦃c : Cursor⦄, c.tokens = branch.tokens breaks ++ .newline :: rest →
    (ElseBranch.parse c).Gives (·.unlined = branch.unlined) (.newline :: rest)

theorem Block.follows (breaks : Nat) (body : Block) (rest : List Token) :
    Follows 0 (body.tokens breaks ++ rest) := by
  cases body
  exact .cons rfl

/-- What a statement begins with. -/
theorem Stmt.starts (breaks : Nat) {stmt : Stmt} (shaped : stmt.isShaped = true)
    (rest : List Token) :
    ∃ t, (stmt.tokens breaks ++ rest).head? = some t ∧ t.startsStmt = true := by
  match stmt with
  | .var decl => exact ⟨_, rfl, rfl⟩
  | .define [] values line => simp [Stmt.isShaped] at shaped
  | .define (name :: names) values line => exact ⟨_, rfl, rfl⟩
  | .assign [] values line => simp [Stmt.isShaped] at shaped
  | .assign (.name id :: targets) values line => exact ⟨_, rfl, rfl⟩
  | .assign (.index array position :: targets) values line => exact ⟨_, rfl, rfl⟩
  | .cond (.mk condition body otherwise line) => exact ⟨_, rfl, rfl⟩
  | .loop condition body line => exact ⟨_, rfl, rfl⟩
  | .ret values line => exact ⟨_, rfl, rfl⟩
  | .call callee args line => exact ⟨_, rfl, rfl⟩
  | .block (.mk statements line endLine) => exact ⟨_, rfl, rfl⟩

/-- The statements of a block up to its closing brace begin a line, or there are none. -/
theorem Stmt.startsLine_lines {breaks : Nat} {stmts : List Stmt}
    (shaped : Stmt.areShaped stmts = true) (rest : List Token) :
    StartsLine (Stmt.linesTokens breaks stmts ++ .punct .rightBrace :: rest) := by
  cases stmts with
  | nil => exact .of_head rfl (by simp) (by simp)
  | cons stmt stmts =>
    simp only [Stmt.areShaped, Bool.and_eq_true] at shaped
    rw [Stmt.linesTokens, List.append_assoc]
    obtain ⟨t, first, starts⟩ := Stmt.starts breaks shaped.1 _
    exact .of_head first (by rintro rfl; cases starts) (by rintro rfl; cases starts)

theorem Block.parseStatements_gives {breaks : Nat} {stmts : List Stmt}
    (shaped : Stmt.areShaped stmts = true) (read : ∀ stmt ∈ stmts, stmt.ReadsBack breaks)
    {rest : List Token} {c : Cursor}
    (h : c.tokens = Stmt.linesTokens breaks stmts ++ .punct .rightBrace :: rest) :
    (Block.parseStatements c).Gives (Stmt.unlinedAll · = Stmt.unlinedAll stmts)
      (.punct .rightBrace :: rest) := by
  induction stmts generalizing c with
  | nil =>
    rw [Block.parseStatements, Cursor.token?_eq h]
    exact ⟨rfl, h⟩
  | cons stmt stmts ih =>
    simp only [Stmt.areShaped, Bool.and_eq_true] at shaped
    rw [List.forall_mem_cons] at read
    rw [Stmt.linesTokens, List.append_assoc, List.cons_append] at h
    -- A statement begins with a token, which is not the end of the block.
    have notDone : c.token? ≠ none ∧ c.token? ≠ some (.punct .rightBrace) := by
      obtain ⟨t, first, starts⟩ := Stmt.starts breaks shaped.1
        (.newline :: (Stmt.linesTokens breaks stmts ++ .punct .rightBrace :: rest))
      rw [Cursor.token?_eq h, first]
      refine ⟨by simp, ?_⟩
      rintro eq
      cases eq
      cases starts
    rw [Block.parseStatements]
    split
    · rename_i eq
      exact absurd eq notDone.1
    · rename_i eq
      exact absurd eq notDone.2
    · refine (read.1 h).andThen ?_
      rintro stmt' c1 - ⟨same, h1⟩
      refine (Cursor.expectTerminator_skips h1).andThen fun _ c2 _ h2 => ?_
      refine (Cursor.skipSeparators_skips 0 h2 (Stmt.startsLine_lines shaped.2 rest)).andThen
        fun _ c3 _ h3 => ?_
      refine (ih shaped.2 read.2 h3).andThen ?_
      rintro stmts' c4 - ⟨sameRest, h4⟩
      exact ⟨by simp only [Stmt.unlinedAll, same, sameRest], h4⟩

theorem Block.ReadsBack.mk {breaks : Nat} {stmts : List Stmt} (line endLine : Nat)
    (shaped : Stmt.areShaped stmts = true) (read : ∀ stmt ∈ stmts, stmt.ReadsBack breaks) :
    (Block.mk stmts line endLine).ReadsBack breaks := by
  intro rest c h
  simp only [Block.tokens, List.cons_append, List.append_assoc, List.nil_append] at h
  rw [Block.parse]
  refine (Cursor.expect_skips _ h).andThen fun _ c1 _ h1 => ?_
  refine (Cursor.skipSeparators_skips breaks h1 (Stmt.startsLine_lines shaped rest)).andThen
    fun _ c2 _ h2 => ?_
  refine (Block.parseStatements_gives shaped read h2).andThen ?_
  rintro stmts' c3 - ⟨same, h3⟩
  refine (Cursor.expect_skips _ h3).andThen fun _ c4 _ h4 => ?_
  exact ⟨by simp only [Block.unlined, same], h4⟩

theorem IfStmt.ReadsBack.mk {breaks : Nat} {condition : Expr} {body : Block}
    {otherwise : ElseBranch} (line : Nat) (shaped : condition.isShaped = true)
    (readBody : body.ReadsBack breaks) (readElse : otherwise.ReadsBack breaks) :
    (IfStmt.mk condition body otherwise line).ReadsBack breaks := by
  intro rest c h
  simp only [IfStmt.tokens, List.cons_append, List.append_assoc] at h
  rw [IfStmt.parse]
  refine (Cursor.expect_skips _ h).andThen fun _ c1 _ h1 => ?_
  refine (Expr.parse_gives shaped (body.follows breaks _) h1).andThen ?_
  rintro condition' c2 - ⟨sameCondition, h2⟩
  refine (readBody h2).andThen ?_
  rintro body' c3 - ⟨sameBody, h3⟩
  refine (readElse h3).andThen ?_
  rintro otherwise' c4 - ⟨sameElse, h4⟩
  exact ⟨by simp only [IfStmt.unlined, sameCondition, sameBody, sameElse], h4⟩

namespace ElseBranch.ReadsBack

variable {breaks : Nat}

theorem absent : ElseBranch.absent.ReadsBack breaks := by
  intro rest c h
  obtain ⟨span, line, c1, _, next, h1⟩ := Cursor.exists_view h
  rw [ElseBranch.parse, next]
  exact ⟨rfl, h⟩

theorem block {body : Block} (read : body.ReadsBack breaks) :
    (ElseBranch.block body).ReadsBack breaks := by
  intro rest c h
  obtain ⟨span, line, c1, _, next, h1⟩ := Cursor.exists_view h
  have h1 : c1.tokens = body.tokens breaks ++ .newline :: rest := h1
  obtain ⟨ts, eq⟩ := body.tokens_head breaks
  have first : c1.token? = some (.punct .leftBrace) := by
    rw [Cursor.token?_eq h1, eq]
    rfl
  simp only [ElseBranch.parse, next, first]
  refine (read h1).andThen ?_
  rintro body' c2 - ⟨same, h2⟩
  exact ⟨by simp only [ElseBranch.unlined, same], h2⟩

theorem elseIf {stmt : IfStmt} (read : stmt.ReadsBack breaks) :
    (ElseBranch.elseIf stmt).ReadsBack breaks := by
  intro rest c h
  obtain ⟨span, line, c1, _, next, h1⟩ := Cursor.exists_view h
  have h1 : c1.tokens = stmt.tokens breaks ++ .newline :: rest := h1
  obtain ⟨ts, eq⟩ := stmt.tokens_head breaks
  have first : c1.token? = some (.keyword .if_) := by
    rw [Cursor.token?_eq h1, eq]
    rfl
  simp only [ElseBranch.parse, next, first]
  refine (read h1).andThen ?_
  rintro stmt' c2 - ⟨same, h2⟩
  exact ⟨by simp only [ElseBranch.unlined, same], h2⟩

end ElseBranch.ReadsBack

namespace Stmt.ReadsBack

variable {breaks : Nat}

theorem cond {stmt : IfStmt} (read : stmt.ReadsBack breaks) :
    (Stmt.cond stmt).ReadsBack breaks := by
  intro rest c h
  obtain ⟨ts, eq⟩ := stmt.tokens_head breaks
  have first : c.token? = some (.keyword .if_) := by
    rw [Cursor.token?_eq h, Stmt.tokens, eq]
    rfl
  rw [Stmt.parse, first]
  refine (read h).andThen ?_
  rintro stmt' c1 - ⟨same, h1⟩
  exact ⟨by simp only [Stmt.unlined, same], h1⟩

theorem block {body : Block} (read : body.ReadsBack breaks) :
    (Stmt.block body).ReadsBack breaks := by
  intro rest c h
  obtain ⟨ts, eq⟩ := body.tokens_head breaks
  have first : c.token? = some (.punct .leftBrace) := by
    rw [Cursor.token?_eq h, Stmt.tokens, eq]
    rfl
  rw [Stmt.parse, first]
  refine (read h).andThen ?_
  rintro body' c1 - ⟨same, h1⟩
  exact ⟨by simp only [Stmt.unlined, same], h1⟩

theorem loop {condition : Expr} {body : Block} (line : Nat) (shaped : condition.isShaped = true)
    (read : body.ReadsBack breaks) : (Stmt.loop condition body line).ReadsBack breaks := by
  intro rest c h
  rw [Stmt.tokens, List.cons_append, List.append_assoc] at h
  rw [Stmt.parse, Cursor.token?_eq h]
  simp only [List.head?_cons, Stmt.parseLoop]
  refine (Cursor.expect_skips _ h).andThen fun _ c1 _ h1 => ?_
  refine (Expr.parse_gives shaped (body.follows breaks _) h1).andThen ?_
  rintro condition' c2 - ⟨sameCondition, h2⟩
  refine (read h2).andThen ?_
  rintro body' c3 - ⟨sameBody, h3⟩
  exact ⟨by simp only [Stmt.unlined, sameCondition, sameBody], h3⟩

end Stmt.ReadsBack

mutual

/-- Statements of the shapes of the grammar are read back. -/
theorem Stmt.readsBack (breaks : Nat) (stmt : Stmt) (shaped : stmt.isShaped = true) :
    stmt.ReadsBack breaks := by
  match stmt with
  | .var decl => exact .var shaped
  | .define names values line =>
    simp only [Stmt.isShaped, Bool.and_eq_true, Bool.not_eq_true',
      List.isEmpty_eq_false_iff] at shaped
    exact .define line shaped.1.1 shaped.1.2 shaped.2
  | .assign targets values line =>
    simp only [Stmt.isShaped, Bool.and_eq_true, Bool.not_eq_true',
      List.isEmpty_eq_false_iff] at shaped
    exact .assign line shaped.1.1.1 shaped.1.1.2 shaped.1.2 shaped.2
  | .cond stmt => exact .cond (stmt.readsBack breaks shaped)
  | .loop condition body line =>
    simp only [Stmt.isShaped, Bool.and_eq_true] at shaped
    exact .loop line shaped.1 (body.readsBack breaks shaped.2)
  | .ret values line => exact .ret line shaped
  | .call callee args line => exact .call callee line shaped
  | .block body => exact .block (body.readsBack breaks shaped)

theorem Block.readsBack (breaks : Nat) (body : Block) (shaped : body.isShaped = true) :
    body.ReadsBack breaks := by
  match body with
  | .mk stmts line endLine =>
    exact .mk line endLine shaped (Stmt.readsBack_of_mem breaks stmts shaped)

theorem Stmt.readsBack_of_mem (breaks : Nat) (stmts : List Stmt)
    (shaped : Stmt.areShaped stmts = true) :
    ∀ stmt ∈ stmts, stmt.ReadsBack breaks := by
  match stmts with
  | [] => exact fun stmt mem => nomatch mem
  | stmt :: stmts =>
    simp only [Stmt.areShaped, Bool.and_eq_true] at shaped
    exact List.forall_mem_cons.2 ⟨stmt.readsBack breaks shaped.1,
      Stmt.readsBack_of_mem breaks stmts shaped.2⟩

theorem IfStmt.readsBack (breaks : Nat) (stmt : IfStmt) (shaped : stmt.isShaped = true) :
    stmt.ReadsBack breaks := by
  match stmt with
  | .mk condition body otherwise line =>
    simp only [IfStmt.isShaped, Bool.and_eq_true] at shaped
    exact .mk line shaped.1.1 (body.readsBack breaks shaped.1.2)
      (otherwise.readsBack breaks shaped.2)

theorem ElseBranch.readsBack (breaks : Nat) (branch : ElseBranch)
    (shaped : branch.isShaped = true) :
    branch.ReadsBack breaks := by
  match branch with
  | .absent => exact .absent
  | .block body => exact .block (body.readsBack breaks shaped)
  | .elseIf stmt => exact .elseIf (stmt.readsBack breaks shaped)

end

/-! ### Files -/

theorem FuncDecl.parse_gives {breaks : Nat} {decl : FuncDecl} (shaped : decl.isShaped = true)
    {rest : List Token} {c : Cursor} (h : c.tokens = decl.tokens breaks ++ rest) :
    (FuncDecl.parse c).Gives (·.unlined = decl.unlined) rest := by
  simp only [FuncDecl.isShaped, Bool.and_eq_true, List.all_eq_true, Bool.not_eq_true',
    List.isEmpty_eq_false_iff] at shaped
  obtain ⟨nonempty, bodyShaped⟩ := shaped
  simp only [FuncDecl.tokens, List.cons_append, List.append_assoc] at h
  refine (Cursor.expect_skips _ h).andThen fun _ c1 _ h1 => ?_
  refine (Cursor.expectIdent_gives _ h1).andThen ?_
  rintro name c2 - ⟨sameName, h2⟩
  refine (Cursor.expect_skips _ h2).andThen fun _ c3 _ h3 => ?_
  refine (ParamGroup.parseList_gives nonempty h3).andThen ?_
  rintro params c4 - ⟨sameParams, h4⟩
  refine (Cursor.expect_skips _ h4).andThen fun _ c5 _ h5 => ?_
  obtain ⟨ts, eq⟩ := decl.body.tokens_head breaks
  rw [eq, List.cons_append] at h5
  refine (TypeSpec.parseResults_gives h5).andThen ?_
  rintro results c6 - ⟨sameResults, h6⟩
  rw [← List.cons_append, ← eq] at h6
  refine (decl.body.readsBack breaks bodyShaped h6).andThen ?_
  rintro body c7 - ⟨sameBody, h7⟩
  exact ⟨by simp only [FuncDecl.unlined, sameName, sameParams, sameResults, sameBody], h7⟩

theorem Decl.parse_gives {breaks : Nat} {decl : Decl} (shaped : decl.isShaped = true)
    {rest : List Token} {c : Cursor} (h : c.tokens = decl.tokens breaks ++ .newline :: rest) :
    (Decl.parse c).Gives (·.unlined = decl.unlined) (.newline :: rest) := by
  rw [Decl.parse, Cursor.token?_eq h]
  cases decl with
  | var decl =>
    refine (VarDecl.parse_gives shaped h).andThen ?_
    rintro decl' c1 - ⟨same, h1⟩
    exact ⟨by simp only [Decl.unlined, same], h1⟩
  | func decl =>
    refine (FuncDecl.parse_gives shaped h).andThen ?_
    rintro decl' c1 - ⟨same, h1⟩
    exact ⟨by simp only [Decl.unlined, same], h1⟩

namespace File

/-- The tokens of declarations, each with a newline behind it, begin with a keyword, or there are
none. -/
theorem declTokens_head (breaks : Nat) (decls : List Decl) :
    ∀ t ∈ (decls.flatMap (·.tokens breaks ++ [.newline])).head?, t = .keyword .var ∨
      t = .keyword .func := by
  match decls with
  | [] => exact fun t first => nomatch first
  | .var decl :: decls => simp [Decl.tokens, VarDecl.tokens]
  | .func decl :: decls => simp [Decl.tokens, FuncDecl.tokens]

theorem startsLine_declTokens (breaks : Nat) (decls : List Decl) :
    StartsLine (decls.flatMap (·.tokens breaks ++ [.newline])) := by
  intro t first
  rcases declTokens_head breaks decls t first with rfl | rfl <;> exact ⟨by simp, by simp⟩

theorem parseDecls_gives {breaks : Nat} {decls : List Decl}
    (shaped : ∀ decl ∈ decls, decl.isShaped = true) (before : Nat) {c : Cursor}
    (h : c.tokens = lineBreaks before ++ decls.flatMap (·.tokens breaks ++ [.newline])) :
    (parseDecls c).Gives (·.map Decl.unlined = decls.map Decl.unlined) [] := by
  induction decls generalizing before c with
  | nil =>
    rw [parseDecls]
    refine (Cursor.skipSeparators_skips before h (startsLine_declTokens breaks [])).andThen
      fun _ c1 _ h1 => ?_
    rw [Cursor.token?_eq h1]
    exact ⟨rfl, h1⟩
  | cons decl decls ih =>
    rw [List.forall_mem_cons] at shaped
    rw [parseDecls]
    refine (Cursor.skipSeparators_skips before h (startsLine_declTokens breaks _)).andThen
      fun _ c1 _ h1 => ?_
    rw [List.flatMap_cons, List.append_assoc] at h1
    split
    · rename_i none
      rw [Cursor.token?_eq h1] at none
      cases decl <;> cases none
    · refine (Decl.parse_gives shaped.1 h1).andThen ?_
      rintro decl' c2 - ⟨same, h2⟩
      refine (Cursor.expectTerminator_skips h2).andThen fun _ c3 _ h3 => ?_
      refine (ih shaped.2 0 h3).andThen ?_
      rintro decls' c4 - ⟨sameRest, h4⟩
      exact ⟨by simp only [List.map_cons, same, sameRest], h4⟩

theorem parsePackage?_gives {package? : Option Ident} {rest : List Token} {c : Cursor}
    (other : rest.head? ≠ some (.keyword .package))
    (h : c.tokens = package?.toList.flatMap (fun id => [.keyword .package, id.token, .newline]) ++
      rest) :
    (parsePackage? c).Gives (·.map Ident.unlined = package?.map Ident.unlined) rest := by
  cases package? with
  | none =>
    unfold parsePackage?
    split
    · rename_i next
      exact absurd (Cursor.head?_of_view h next) other
    · exact ⟨rfl, h⟩
  | some id =>
    obtain ⟨span, line, c1, _, next, h1⟩ := Cursor.exists_view h
    rw [parsePackage?, next]
    refine (Cursor.expectIdent_gives _ h1).andThen ?_
    rintro id' c2 - ⟨same, h2⟩
    refine (Cursor.expectTerminator_skips h2).andThen fun _ c3 _ h3 => ?_
    exact ⟨by simp only [Option.map_some, same], h3⟩

theorem parseTokens_gives {breaks : Nat} {file : File} (shaped : file.isShaped = true) {c : Cursor}
    (h : c.tokens = file.tokens breaks) : (parseTokens c).Gives (·.unlined = file.unlined) [] := by
  rw [File.isShaped, List.all_eq_true] at shaped
  have keyword := declTokens_head breaks file.decls
  have starts := startsLine_declTokens breaks file.decls
  have startsFile : StartsLine (file.tokens breaks) := by
    rw [File.tokens]
    cases file.package? with
    | none => exact starts
    | some id => exact .of_head rfl (by simp) (by simp)
  refine (Cursor.skipSeparators_skips 0 h startsFile).andThen fun _ c1 _ h1 => ?_
  have noPackage : (file.decls.flatMap (·.tokens breaks ++ [.newline])).head? ≠
      some (.keyword .package) := by
    intro first
    rcases keyword _ first with eq | eq <;> cases eq
  refine (parsePackage?_gives noPackage h1).andThen ?_
  rintro package? c2 - ⟨samePackage, h2⟩
  refine (Cursor.skipSeparators_skips 0 h2 starts).andThen fun _ c3 _ h3 => ?_
  have imports : (skipImports c3).Skips (file.decls.flatMap (·.tokens breaks ++ [.newline])) := by
    rw [skipImports]
    split
    · rename_i next
      rcases keyword _ (Cursor.head?_of_view h3 next) with eq | eq <;> cases eq
    · exact h3
  refine imports.andThen fun _ c4 _ h4 => ?_
  refine (parseDecls_gives shaped 0 h4).andThen ?_
  rintro decls c5 - ⟨sameDecls, h5⟩
  exact ⟨by simp only [File.unlined, samePackage, sameDecls], h5⟩

theorem tokens_start (source : String) (tokens : List SpannedToken) :
    (Cursor.start source tokens).tokens = tokens.map SpannedToken.token := by
  rw [Cursor.tokens, Cursor.start, List.map_map]
  rfl

/-- Parsing undoes printing: the tokens of a file of the shapes of the grammar, wherever they stand
in a source text, are read as the same file up to line numbers. -/
theorem parseTokens_tokens {breaks : Nat} {file : File} (shaped : file.isShaped = true)
    (source : String) {tokens : List SpannedToken}
    (printed : tokens.map SpannedToken.token = file.tokens breaks) :
    ∃ file', (parseTokens (Cursor.start source tokens)).result = .ok file' ∧
      file'.unlined = file.unlined := by
  have gives := parseTokens_gives shaped ((tokens_start source tokens).trans printed)
  cases reply : parseTokens (Cursor.start source tokens) with
  | ok file' after =>
    rw [reply] at gives
    exact ⟨file', rfl, gives.1⟩
  | error e at_ =>
    rw [reply] at gives
    exact gives.elim

/-- A file with a group of specifications, parameters in groups, two results, operators of several
precedences on both sides of each other, and a conditional statement with all its branches. -/
def nestedFile : File :=
  let x : Expr := Ident.expr ⟨"x", 4⟩
  let one : Expr := .operand (some .minus) (.literal ⟨.int, "1", 2⟩) 2
  let sum : Expr :=
    .binary .add 2 (.binary .sub 2 x one) (.binary .mul 3 one (.operand none (.paren x) 3))
  { package? := some ⟨"p", 1⟩
    decls :=
      [.var ⟨[⟨[⟨"x", 2⟩, ⟨"y", 2⟩], none, [sum, one], 2⟩,
       ⟨[⟨"z", 3⟩], some (.array one ⟨"int", 3⟩ 3), [], 3⟩], 2⟩, .func
        { name := ⟨"f", 5⟩
          params := [⟨[⟨"a", 5⟩, ⟨"b", 5⟩], ⟨"int", 5⟩⟩, ⟨[⟨"s", 5⟩], ⟨"string", 5⟩⟩]
          results := [⟨"int", 5⟩, ⟨"string", 5⟩]
          line := 5
          body := .mk
            [.cond (.mk
              (.binary .or 6 (.binary .lt 6 sum x) (.operand none (.literal ⟨.bool, "true", 6⟩) 6))
              (.mk [.assign [.index ⟨"z", 7⟩ sum, .name ⟨"x", 7⟩] [x, sum] 7, .ret [one, x] 8] 6 9)
              (.elseIf (.mk x (.mk [] 9 10) (.block (.mk [.call ⟨"f", 11⟩ [sum, x] 11] 10 12)) 9))
              6),
             .loop x
              (.mk [.define [⟨"w", 13⟩] [.operand none (.index ⟨"z", 13⟩ one) 13] 13] 13 14) 13,
             .ret [] 15] 5 16 }] }

theorem nestedFile_parse : nestedFile.isShaped = true ∧ (nestedFile.tokens 1).length = 154 ∧
    ∃ file', (parseTokens (Cursor.start "" ((nestedFile.tokens 1).map (⟨·, ⟨0, 1⟩⟩)))).result =
      .ok file' ∧ file'.unlined = nestedFile.unlined :=
  ⟨rfl, rfl, parseTokens_tokens rfl "" (List.map_map.trans (List.map_id _))⟩

end File

end MiniGo
