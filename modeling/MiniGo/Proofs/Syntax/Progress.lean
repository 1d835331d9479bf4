import MiniGo.Proofs.Syntax.Termination

/-!
# Progress of the parser

A method of the parser is run at a position in a stream of tokens. It always ends, at a position
that is not before the first one and not behind the last token, and this is so for errors too. What
makes a loop end is that a turn behind which the loop goes on has read a token. A turn may end in
front of a closing brace or parenthesis without reading it, but then the next turn fails on it, or
the loop stops.

* `Cursor.behind`: the place behind the first tokens of a stream.
* `Reading.Leads`: where a method ends and what holds there, with rules for the steps of a method.
* `Reading.Loop.turn_leads`: a loop goes on only behind a turn that has read a token.
* `Reading.progresses`: all methods and turns end, those that have to read a token do, and a file is
  read to its end.
-/

namespace MiniGo

/-! ### Positions -/

namespace Cursor

variable {tokens : List Lexeme} {p : Nat} {c d : Cursor} {t : Token}

/-- The place behind the first `p` tokens of a stream. -/
def behind (tokens : List Lexeme) (p : Nat) : Cursor :=
  { lastSpan := ((tokens.take p).getLast?.map Lexeme.span).getD ⟨0, 0⟩
    lastLine := ((tokens.take p).getLast?.map Lexeme.line).getD 1
    rest := tokens.drop p }

theorem size_behind : (behind tokens p).size = tokens.length - p := List.length_drop

theorem Next.eq_behind (next : (behind tokens p).Next d) :
    p < tokens.length ∧ d = behind tokens (p + 1) := by
  obtain ⟨x, rest, span, line⟩ := next
  have less : p < tokens.length := by
    have := congrArg List.length rest
    simp [behind] at this
    omega
  have split := (List.drop_eq_getElem_cons less).symm.trans rest
  obtain ⟨rfl, rest⟩ := List.cons.inj split
  refine ⟨less, ?_⟩
  obtain ⟨lastSpan, lastLine, tail⟩ := d
  simp_all [behind, List.getLast?_take]

theorem Reaches.eq_behind (within : p ≤ tokens.length) (h : (behind tokens p).Reaches d) :
    ∃ q, p ≤ q ∧ q ≤ tokens.length ∧ d = behind tokens q := by
  induction h with
  | refl => exact ⟨p, Nat.le_refl _, within, rfl⟩
  | tail _ next ih =>
    obtain ⟨q, le, -, rfl⟩ := ih
    obtain ⟨less, rfl⟩ := next.eq_behind
    exact ⟨q + 1, by omega, less, rfl⟩

theorem reaches_advanced (c : Cursor) : c.Reaches c.advanced := by
  unfold advanced
  split
  · exact .refl
  · rename_i x rest eq
    exact .single ⟨x, eq, rfl, rfl⟩

theorem size_advanced_lt (token : c.token? = some t) : c.advanced.size < c.size := by
  obtain ⟨span, line, after, le, view⟩ := exists_view_of_token? token
  rw [(looks_of_view view).2.2]
  omega

theorem take?_tracks (t : Token) (c : Cursor) : (c.take? t).Tracks c := by
  unfold take?
  split
  · exact c.reaches_advanced
  · exact .refl

end Cursor

namespace Reply

variable {α : Type} {n k : Nat} {b : Cursor} {r : Reply n k α}

theorem Tracks.reaches_stop (h : r.Tracks b) : b.Reaches r.stop := by
  cases r with
  | ok => exact h
  | error => exact h.1

theorem size_stop_of_ok {value : α} (h : r.result = .ok value) : r.stop.size + k ≤ n := by
  cases r with
  | ok value after le => exact le
  | error => cases h

end Reply

namespace Reading

open Cursor

/-! ### Places of replies -/

theorem Loop.reply_tracks (l : Loop) (c : Cursor) : (l.reply c).Tracks c := by
  cases l with
  | skip => exact skipWhile_tracks .refl
  | operators min left => exact Expr.parseOperators_tracks min left .refl
  | arguments => exact Expr.parseArgumentList_tracks .refl
  | values => exact Expr.parseMore_tracks .refl
  | names => exact Ident.parseMore_tracks .refl
  | types => exact TypeSpec.parseNames_tracks .refl
  | specs => exact VarSpec.parseGroup_tracks .refl
  | params => exact ParamGroup.parseGroups_tracks .refl
  | statements => exact Block.parseStatements_tracks .refl
  | paths => exact File.skipPaths_tracks .refl
  | imports => exact File.skipImports_tracks .refl
  | decls => exact File.parseDecls_tracks .refl

theorem Method.reply_tracks (m : Method) (c : Cursor) : (m.reply c).Tracks c := by
  cases m with
  | loop l => exact l.reply_tracks c
  | advance => exact c.reaches_advanced
  | take? t => exact take?_tracks t c
  | expect => exact expect_tracks .refl
  | expectString => exact expectString_tracks .refl
  | expectIdent => exact expectIdent_tracks .refl
  | skipNewlines => exact skipNewlines_tracks .refl
  | skipSeparators => exact skipSeparators_tracks .refl
  | expectTerminator => exact expectTerminator_tracks .refl
  | expression => exact Expr.parseBinary_tracks 1 .refl
  | binary min => exact Expr.parseBinary_tracks min .refl
  | unary => exact Expr.parseUnary_tracks .refl
  | primary => exact Primary.parse_tracks .refl
  | arguments => exact Expr.parseArguments_tracks .refl
  | expressionList => exact Expr.parseList_tracks .refl
  | typeName => exact TypeSpec.parseName_tracks .refl
  | type => exact TypeSpec.parse_tracks .refl
  | resultTypes => exact TypeSpec.parseResults_tracks .refl
  | varSpec => exact VarSpec.parse_tracks .refl
  | varDecl => exact VarDecl.parse_tracks .refl
  | paramGroups => exact ParamGroup.parseList_tracks .refl
  | simple => exact Stmt.parseSimple_tracks .refl
  | returnStmt => exact Stmt.parseReturn_tracks .refl
  | statement => exact Stmt.parse_tracks .refl
  | block => exact Block.parse_tracks .refl
  | ifStmt => exact IfStmt.parse_tracks .refl
  | forStmt => exact Stmt.parseLoop_tracks .refl
  | funcDecl => exact FuncDecl.parse_tracks .refl
  | decl => exact Decl.parse_tracks .refl
  | skipImports => exact File.skipImports_tracks .refl
  | file => exact File.parseTokens_tracks c

/-! ### Rules for where a method ends -/

variable {α β : Type} {n j k : Nat} {c : Cursor}

section Leads

variable {p : Reading α} {post : α → Cursor → Prop} {post' : β → Cursor → Prop}

/-- A method ends at a place behind the one where it began, and something is true there if it
succeeds, provided that the calls below a bound do what their parsers do. -/
def Leads (p : Reading α) (k : Nat) (c : Cursor) (post : α → Cursor → Prop) : Prop :=
  ∃ result d, (∀ calls : Calls, calls.Sound k → Run.on (p calls) c = some (result, d)) ∧
    c.Reaches d ∧ ∀ value, result = .ok value → post value d

theorem leads_pure {value : α} (h : post value c) : (pure value : Reading α).Leads k c post := by
  refine ⟨.ok value, c, fun _ _ => rfl, .refl, fun _ same => ?_⟩
  obtain rfl := Except.ok.inj same
  exact h

theorem Leads.bind {f : α → Reading β} (first : p.Leads k c post)
    (second : ∀ value d, post value d → (f value).Leads k d post') : (p >>= f).Leads k c post' := by
  obtain ⟨result, d, run, reached, holds⟩ := first
  cases result with
  | error e =>
    refine ⟨.error e, d, fun calls sound => ?_, reached, fun _ same => nomatch same⟩
    rw [run_bind, run calls sound]
    rfl
  | ok value =>
    obtain ⟨result', d', run', reached', holds'⟩ := second value d (holds value rfl)
    refine ⟨result', d', fun calls sound => ?_, reached.trans reached', holds'⟩
    rw [run_bind, run calls sound]
    exact run' calls sound

theorem leads_token? {f : Option Token → Reading β} :
    (token? >>= f).Leads k c post' ↔ (f c.token?).Leads k c post' :=
  Iff.rfl

theorem leads_line {f : Nat → Reading β} :
    (line >>= f).Leads k c post' ↔ (f c.line).Leads k c post' := Iff.rfl

theorem leads_check {t : Token} {f : Bool → Reading β} :
    (check t >>= f).Leads k c post' ↔ (f (c.token? = some t)).Leads k c post' := Iff.rfl

theorem leads_of_gives {r : Reply n j α}
    (gives : ∀ {calls : Calls}, calls.Sound k → p.Gives calls c r) (tracks : r.Tracks c) :
    p.Leads k c fun _ d => d.size + j ≤ n :=
  ⟨r.result, r.stop, fun _ sound => gives sound, tracks.reaches_stop,
    fun _ ok => r.size_stop_of_ok ok⟩

theorem advance_leads {t : Token} (token : c.token? = some t) :
    advance.Leads k c fun _ d => d.size < c.size :=
  ⟨.ok (), c.advanced, fun _ _ => rfl, c.reaches_advanced, fun _ _ => size_advanced_lt token⟩

theorem take?_leads (t : Token) (c : Cursor) : (take? t).Leads k c fun _ d => d.size ≤ c.size :=
  leads_of_gives (fun _ => take?_gives t c) (take?_tracks t c)

theorem skipNewlines_leads (c : Cursor) (h : 3 * c.size < k) :
    skipNewlines.Leads k c fun _ d => d.size ≤ c.size :=
  leads_of_gives (fun sound => skipNewlines_gives sound c h) (skipNewlines_tracks .refl)

theorem skipSeparators_leads (c : Cursor) (h : 3 * c.size < k) :
    skipSeparators.Leads k c fun _ d => d.size ≤ c.size :=
  leads_of_gives (fun sound => skipSeparators_gives sound c h) (skipSeparators_tracks .refl)

theorem expectTerminator_leads (c : Cursor) :
    expectTerminator.Leads k c fun _ d => d.size ≤ c.size :=
  leads_of_gives (fun _ => expectTerminator_gives c) (expectTerminator_tracks .refl)

theorem expression_leads (c : Cursor) (h : 3 * c.size ≤ k) :
    expression.Leads k c fun _ d => d.size + 1 ≤ c.size :=
  leads_of_gives (fun sound => expression_gives sound c h) (Expr.parseBinary_tracks 1 .refl)

end Leads

/-! ### Turns -/

/-- A loop goes on behind a turn only if the turn has read a token. -/
def ReadsOn (c : Cursor) : Turn α β → Cursor → Prop
  | .stop _, _ => True
  | .again _, d => d.size < c.size

theorem leads_stop {c d : Cursor} {result : β} :
    (pure (.stop result) : Reading (Turn α β)).Leads k d (ReadsOn c) :=
  leads_pure trivial

theorem leads_again {c d : Cursor} {item : α} (less : d.size < c.size) :
    (pure (.again item) : Reading (Turn α β)).Leads k d (ReadsOn c) :=
  leads_pure less

theorem skipTurn_leads (p : Token → Bool) (c : Cursor) : (skipTurn p).Leads k c (ReadsOn c) := by
  rw [skipTurn, leads_token?]
  split
  · rename_i token
    split
    · exact (advance_leads token).bind fun _ c1 less => leads_again less
    · exact leads_stop
  · exact leads_stop

theorem operatorTurn_leads (min : Nat) (left : Expr) (c : Cursor) (h : 3 * c.size < k) :
    (operatorTurn min left).Leads k c (ReadsOn c) := by
  rw [operatorTurn, leads_token?]
  split
  · rename_i op token
    split
    · exact leads_stop
    · rw [leads_line]
      refine (advance_leads token).bind fun _ c1 less => ?_
      refine (skipNewlines_leads c1 (by omega)).bind fun _ c2 le2 => ?_
      exact (leads_of_gives (fun sound => call_gives sound (.binary _) c2 (by omega))
        (Expr.parseBinary_tracks _ .refl)).bind fun right c3 le3 => leads_again (by omega)
  · exact leads_stop

theorem argumentTurn_leads (c : Cursor) (h : 3 * c.size < k) :
    argumentTurn.Leads k c (ReadsOn c) := by
  rw [argumentTurn]
  refine (expression_leads c (by omega)).bind fun arg c1 le1 => ?_
  refine (skipNewlines_leads c1 (by omega)).bind fun _ c2 le2 => ?_
  refine (take?_leads _ c2).bind fun taken c3 le3 => ?_
  split
  · exact (skipNewlines_leads c3 (by omega)).bind fun _ c4 le4 => leads_again (by omega)
  · exact (leads_of_gives (fun _ => expect_gives _ _ c3) (expect_tracks .refl)).bind fun _ c4 _ =>
      leads_stop

theorem valueTurn_leads (c : Cursor) (h : 3 * c.size < k) : valueTurn.Leads k c (ReadsOn c) := by
  refine (take?_leads _ c).bind fun taken c1 le1 => ?_
  split
  · refine (skipNewlines_leads c1 (by omega)).bind fun _ c2 le2 => ?_
    exact (expression_leads c2 (by omega)).bind fun e c3 le3 => leads_again (by omega)
  · exact leads_stop

theorem nameTurn_leads (what : String) (c : Cursor) : (nameTurn what).Leads k c (ReadsOn c) := by
  refine (take?_leads _ c).bind fun taken c1 le1 => ?_
  split
  · exact (leads_of_gives (fun _ => expectIdent_gives what c1)
      (expectIdent_tracks .refl)).bind fun id c2 le2 => leads_again (by omega)
  · exact leads_stop

theorem typeTurn_leads (c : Cursor) : typeTurn.Leads k c (ReadsOn c) := by
  refine (leads_of_gives (fun _ => typeName_gives c) (TypeSpec.parseName_tracks .refl)).bind
    fun id c1 le1 => ?_
  refine (take?_leads _ c1).bind fun taken c2 le2 => ?_
  split
  · exact leads_again (by omega)
  · exact leads_stop

/-- The end of a specification may be a closing parenthesis that is left in place. The specification
itself is read. -/
theorem specTurn_leads (c : Cursor) (h : 3 * c.size < k) : specTurn.Leads k c (ReadsOn c) := by
  rw [specTurn, leads_token?]
  split
  · exact leads_stop
  · exact leads_stop
  · refine (leads_of_gives (fun sound => varSpec_gives sound c (by omega))
      (VarSpec.parse_tracks .refl)).bind fun spec c1 le1 => ?_
    refine (expectTerminator_leads c1).bind fun _ c2 le2 => ?_
    exact (skipSeparators_leads c2 (by omega)).bind fun _ c3 le3 => leads_again (by omega)

theorem paramTurn_leads (c : Cursor) (h : 3 * c.size < k) : paramTurn.Leads k c (ReadsOn c) := by
  rw [paramTurn, leads_check]
  split
  · exact leads_stop
  · refine (leads_of_gives (fun sound => paramGroup_gives sound c (by omega))
      (ParamGroup.parse_tracks .refl)).bind fun group c1 le1 => ?_
    refine (skipNewlines_leads c1 (by omega)).bind fun _ c2 le2 => ?_
    refine (take?_leads _ c2).bind fun taken c3 le3 => ?_
    split
    · exact (skipNewlines_leads c3 (by omega)).bind fun _ c4 le4 => leads_again (by omega)
    · exact leads_stop

/-- A statement may end in front of a closing parenthesis, which no statement begins with. -/
theorem statementTurn_leads (c : Cursor) (h : 3 * c.size < k) :
    statementTurn.Leads k c (ReadsOn c) := by
  rw [statementTurn, leads_token?]
  split
  · exact leads_stop
  · exact leads_stop
  · refine (leads_of_gives (fun sound => statement_gives sound c (by omega))
      (Stmt.parse_tracks .refl)).bind fun stmt c1 le1 => ?_
    refine (expectTerminator_leads c1).bind fun _ c2 le2 => ?_
    exact (skipSeparators_leads c2 (by omega)).bind fun _ c3 le3 => leads_again (by omega)

theorem pathTurn_leads (c : Cursor) (h : 3 * c.size < k) : pathTurn.Leads k c (ReadsOn c) := by
  rw [pathTurn, leads_token?]
  split
  · rename_i token
    refine (advance_leads token).bind fun _ c1 less => ?_
    exact (skipSeparators_leads c1 (by omega)).bind fun _ c2 le2 => leads_again (by omega)
  · exact leads_stop

theorem importTurn_leads (c : Cursor) (h : 3 * c.size < k) : importTurn.Leads k c (ReadsOn c) := by
  refine (take?_leads _ c).bind fun taken c1 le1 => ?_
  split
  · refine (leads_of_gives (fun sound => importPaths_gives sound c1 (by omega))
      (File.skipPathSpec_tracks .refl)).bind fun _ c2 le2 => ?_
    refine (expectTerminator_leads c2).bind fun _ c3 le3 => ?_
    exact (skipSeparators_leads c3 (by omega)).bind fun _ c4 le4 => leads_again (by omega)
  · exact leads_stop

theorem declTurn_leads (c : Cursor) (h : 3 * c.size < k) : declTurn.Leads k c (ReadsOn c) := by
  refine (skipSeparators_leads c (by omega)).bind fun _ c1 le1 => ?_
  rw [leads_token?]
  split
  · exact leads_stop
  · refine (leads_of_gives (fun sound => decl_gives sound c1 (by omega))
      (Decl.parse_tracks .refl)).bind fun decl c2 le2 => ?_
    exact (expectTerminator_leads c2).bind fun _ c3 le3 => leads_again (by omega)

theorem Loop.turn_leads (l : Loop) (c : Cursor) (h : 3 * c.size + l.rank ≤ k) :
    l.turn.Leads k c (ReadsOn c) := by
  cases l with
  | skip p => exact skipTurn_leads p c
  | operators min left => exact operatorTurn_leads min left c h
  | arguments => exact argumentTurn_leads c h
  | values => exact valueTurn_leads c h
  | names what => exact nameTurn_leads what c
  | types => exact typeTurn_leads c
  | specs => exact specTurn_leads c h
  | params => exact paramTurn_leads c h
  | statements => exact statementTurn_leads c h
  | paths => exact pathTurn_leads c h
  | imports => exact importTurn_leads c h
  | decls => exact declTurn_leads c h

end Reading

/-! ### The end of a file -/

namespace Reply

variable {α β : Type} {m n j k : Nat}

theorem Ensures.of_ok {post : α → Cursor → Prop} {r : Reply n k α} {value : α} (h : r.Ensures post)
    (ok : r.result = .ok value) : post value r.stop := by
  cases r with
  | ok value' after =>
    obtain rfl := Except.ok.inj ok
    exact h
  | error => cases ok

/-- What is true of a last step does not depend on the steps before it. -/
theorem ensures_andThen {post : β → Cursor → Prop} {r : Reply m k α}
    {f : (value : α) → (after : Cursor) → after.size + k ≤ m → Reply n j β} {h : m ≤ n}
    (last : ∀ value after le, (f value after le).Ensures post) : (r.andThen f h).Ensures post := by
  cases r with
  | ok value after le => exact last value after le
  | error => trivial

end Reply

namespace File

open Reply

theorem parseDecls_exhausts (c : Cursor) :
    (parseDecls c).Ensures fun _ after => after.rest = [] := by
  rw [parseDecls]
  refine ensures_andThen fun _ c1 _ => ?_
  split
  · rename_i token
    show c1.rest = []
    simpa [Cursor.token?] using token
  · refine ensures_andThen fun decl c2 _ => ?_
    refine ensures_andThen fun _ c3 _ => ?_
    exact (parseDecls_exhausts c3).andThen fun decls c4 _ rest => rest
termination_by c.size
decreasing_by omega

theorem parseTokens_exhausts (c : Cursor) :
    (parseTokens c).Ensures fun _ after => after.rest = [] := by
  refine ensures_andThen fun _ c1 _ => ?_
  refine ensures_andThen fun package? c2 _ => ?_
  refine ensures_andThen fun _ c3 _ => ?_
  refine ensures_andThen fun _ c4 _ => ?_
  exact (parseDecls_exhausts c4).andThen fun decls c5 _ rest => rest

end File

/-! ### Progress -/

namespace Reading

open Cursor

variable {α : Type} {tokens : List Lexeme} {p : Nat}

/-- A method that is run behind `p` tokens of a stream ends behind `q` tokens, however deep calls
may be nested, if only they may be nested three deep for each token that follows and two deep at the
end. -/
def Ends (method : Reading α) (tokens : List Lexeme) (p : Nat) (result : Except SyntaxError α)
    (q : Nat) : Prop :=
  ∀ depth, 3 * (tokens.length - p) + 2 ≤ depth →
    Run.on (method (Method.within depth)) (behind tokens p) = some (result, behind tokens q)

theorem Method.ends (within : p ≤ tokens.length) (m : Method) :
    ∃ result q, m.body.Ends tokens p result q ∧
    (m.reply (behind tokens p)).result = result ∧
    (m.reply (behind tokens p)).stop = behind tokens q ∧
    p ≤ q ∧ q ≤ tokens.length ∧ ∀ value, result = .ok value → p + m.least ≤ q := by
  obtain ⟨q, le, inside, stop⟩ := (m.reply_tracks (behind tokens p)).reaches_stop.eq_behind within
  refine ⟨_, q, fun depth deep => ?_, rfl, stop, le, inside, fun value ok => ?_⟩
  · have low : 3 * (behind tokens p).size + m.rank ≤ depth := by
      rw [size_behind]
      exact Nat.le_trans (Nat.add_le_add_left m.rank_le _) deep
    exact (m.body_gives (within_sound depth) _ low).trans (by rw [stop])
  · have left := (m.reply (behind tokens p)).size_stop_of_ok ok
    rw [stop, size_behind, size_behind] at left
    omega

theorem Loop.turn_ends (within : p ≤ tokens.length) (l : Loop) :
    ∃ result q, l.turn.Ends tokens p result q ∧
    p ≤ q ∧ q ≤ tokens.length ∧ ∀ item, result = .ok (.again item) → p < q := by
  obtain ⟨result, d, run, reached, holds⟩ := l.turn_leads (behind tokens p) (Nat.le_refl _)
  obtain ⟨q, le, inside, rfl⟩ := reached.eq_behind within
  refine ⟨result, q, fun depth deep => run _ fun m c low => within_sound depth m c ?_, le, inside,
    fun item again => ?_⟩
  · have rank := l.rank_le
    rw [size_behind] at low
    omega
  · have less : (behind tokens q).size < (behind tokens p).size := holds _ again
    rw [size_behind, size_behind] at less
    omega

theorem file_exhausts (within : p ≤ tokens.length) {file : File}
    (ok : (File.parseTokens (behind tokens p)).result = .ok file) :
    (File.parseTokens (behind tokens p)).stop = behind tokens tokens.length := by
  obtain ⟨q, -, inside, stop⟩ :=
    (File.parseTokens_tracks (behind tokens p)).reaches_stop.eq_behind within
  have rest : (behind tokens q).rest = [] :=
    stop ▸ (File.parseTokens_exhausts (behind tokens p)).of_ok ok
  have all : tokens.length ≤ q := List.drop_eq_nil_iff.1 rest
  rw [stop, Nat.le_antisymm inside all]

/-- The parser makes progress. Run anywhere in a stream of tokens, each of its methods ends, with
the reply of the parser that says how many tokens it leaves. It does not go back, it stays within
the stream, and it has read as many tokens as it needs if it succeeds. Each turn of a loop ends too,
and the loop goes on only if the turn has read a token. A file is read to the end of the stream. -/
theorem progresses (tokens : List Lexeme) (p : Nat) (within : p ≤ tokens.length) :
    (∀ m : Method, ∃ result q, m.body.Ends tokens p result q ∧
      (m.reply (behind tokens p)).result = result ∧
      (m.reply (behind tokens p)).stop = behind tokens q ∧
      p ≤ q ∧ q ≤ tokens.length ∧ ∀ value, result = .ok value → p + m.least ≤ q) ∧
    (∀ l : Loop, ∃ result q, l.turn.Ends tokens p result q ∧
      p ≤ q ∧ q ≤ tokens.length ∧ ∀ item, result = .ok (.again item) → p < q) ∧
    ∀ file, (File.parseTokens (behind tokens p)).result = .ok file →
      (File.parseTokens (behind tokens p)).stop = behind tokens tokens.length :=
  ⟨Method.ends within, Loop.turn_ends within, fun _ ok => file_exhausts within ok⟩

/-- The tokens of a call with a closing parenthesis too many behind it. -/
def strayParen : List Lexeme :=
  [⟨.ident "f", ⟨0, 1⟩, 1⟩, ⟨.punct .leftParen, ⟨1, 2⟩, 1⟩, ⟨.punct .rightParen, ⟨2, 3⟩, 1⟩,
    ⟨.punct .rightParen, ⟨3, 4⟩, 1⟩]

theorem strayParen_progresses :
    3 ≤ strayParen.length ∧ ∃ result q, statementTurn.Ends strayParen 3 result q ∧
      3 ≤ q ∧ q ≤ 4 ∧ ∀ item, result = .ok (.again item) → 3 < q :=
  ⟨by decide, (progresses strayParen 3 (by decide)).2.1 .statements⟩

end Reading

end MiniGo
