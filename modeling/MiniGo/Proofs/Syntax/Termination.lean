import MiniGo.Proofs.Syntax.Faults
import MiniGo.Proofs.Syntax.Methods

/-!
# Termination of the parser

The methods of the parser without bounds are run beside the parsers that say how many tokens they
leave. Wherever it is run, a method ends with the reply of its parser, so the bounds are no more
than an account of what the methods do. Each call that a method makes is lower than the method
itself: it has fewer tokens left, or it is made before any token is read and has a lower rank, as a
loop has in a method, and skipping tokens in a loop. So calls that may be nested as deep as this
order allows are enough.

* `Reading.Method.reply`: the parser of each method.
* `Reading.Gives`: a method ends as a reply says, with rules for the steps of a method.
* `Reading.Calls.Sound`: the calls below a bound do what their parsers do.
* `Reading.binary_gives`, `Reading.varDecl_gives`, `Reading.statement_gives`, `Reading.file_gives`
  and others: what the text of a method gives, by sound calls.
* `Reading.within_sound`: calls of a given depth are sound up to this depth.
-/

namespace MiniGo

/-! ### Places -/

namespace Cursor

variable {c after : Cursor} {x : Lexeme} {t : Token}

/-- What is seen at a place whose next token is known. -/
theorem looks_of_view {le : after.size + 1 = c.size} (view : c.view = .next x after le) :
    c.token? = some x.token ∧ c.line = x.line ∧ c.advanced = after := by
  unfold Cursor.view at view
  split at view
  · cases view
  · rename_i rest eq
    cases view
    simp [token?, line, advanced, eq]

theorem token?_of_done (view : c.view = .done) : c.token? = none := by
  unfold Cursor.view at view
  split at view
  · rename_i eq
    simp [token?, eq]
  · cases view

theorem exists_view_of_token? (h : c.token? = some t) :
    ∃ span line after le, c.view = .next ⟨t, span, line⟩ after le := by
  cases view : c.view with
  | done =>
    rw [token?_of_done view] at h
    cases h
  | next x after le =>
    rw [(looks_of_view view).1] at h
    obtain rfl := Option.some.inj h
    exact ⟨_, _, _, _, rfl⟩

/-- The next token is another one if it is not looked at as this one. -/
theorem token?_ne_of_view
    (other : ∀ (span : Span) (line : Nat) (after : Cursor) (le : after.size + 1 = c.size),
    c.view = .next ⟨t, span, line⟩ after le → False) : c.token? ≠ some t := by
  intro h
  obtain ⟨span, line, after, le, view⟩ := exists_view_of_token? h
  exact other span line after le view

theorem size_le (c : Cursor) : c.size + 0 ≤ c.size := Nat.le_refl _

theorem size_advanced_le (c : Cursor) : c.advanced.size + 0 ≤ c.size := by
  unfold advanced
  split
  · exact c.size_le
  · rename_i eq
    simp [size, eq]

/-- Reads the next token, if there is one. -/
def advance (c : Cursor) : Reply c.size 0 Unit := .ok () c.advanced c.size_advanced_le

/-- Reads the next token if it is a given one. -/
def take? (t : Token) (c : Cursor) : Reply c.size 0 Bool :=
  if c.token? = some t then .ok true c.advanced c.size_advanced_le else .ok false c c.size_le

end Cursor

namespace Reading

/-! ### Replies -/

/-- The number of tokens that a loop has read at least if it succeeds. -/
abbrev Loop.least : Loop → Nat
  | arguments | types => 1
  | _ => 0

/-- The parser of a loop, which says how many tokens it leaves. -/
def Loop.reply : (l : Loop) → (c : Cursor) → Reply c.size l.least l.Result
  | skip p, c => c.skipWhile p
  | operators min left, c => Expr.parseOperators min left c
  | arguments, c => Expr.parseArgumentList c
  | values, c => Expr.parseMore c
  | names what, c => Ident.parseMore what c
  | types, c => TypeSpec.parseNames c
  | specs, c => VarSpec.parseGroup c
  | params, c => ParamGroup.parseGroups c
  | statements, c => Block.parseStatements c
  | paths, c => File.skipPaths c
  | imports, c => File.skipImports c
  | decls, c => File.parseDecls c

/-- The number of tokens that a method has read at least if it succeeds. Only what may be left out
altogether needs no token. -/
abbrev Method.least : Method → Nat
  | loop l => l.least
  | advance | take? _ | skipNewlines | skipSeparators | expectTerminator => 0
  | resultTypes | paramGroups | skipImports | file => 0
  | _ => 1

/-- The parser of a method, which says how many tokens it leaves. -/
def Method.reply : (m : Method) → (c : Cursor) → Reply c.size m.least m.Result
  | loop l, c => l.reply c
  | advance, c => c.advance
  | take? t, c => c.take? t
  | expect t message, c => c.expect t message
  | expectString message, c => c.expectString message
  | expectIdent what, c => c.expectIdent what
  | skipNewlines, c => c.skipNewlines
  | skipSeparators, c => c.skipSeparators
  | expectTerminator, c => c.expectTerminator
  | expression, c => Expr.parse c
  | binary min, c => Expr.parseBinary min c
  | unary, c => Expr.parseUnary c
  | primary, c => Primary.parse c
  | arguments, c => Expr.parseArguments c
  | expressionList, c => Expr.parseList c
  | typeName, c => TypeSpec.parseName c
  | type, c => TypeSpec.parse c
  | resultTypes, c => TypeSpec.parseResults c
  | varSpec, c => VarSpec.parse c
  | varDecl, c => VarDecl.parse c
  | paramGroups, c => ParamGroup.parseList c
  | simple, c => Stmt.parseSimple c
  | returnStmt, c => Stmt.parseReturn c
  | statement, c => Stmt.parse c
  | block, c => Block.parse c
  | ifStmt, c => IfStmt.parse c
  | forStmt, c => Stmt.parseLoop c
  | funcDecl, c => FuncDecl.parse c
  | decl, c => Decl.parse c
  | skipImports, c => File.skipImports c
  | file, c => File.parseTokens c

variable {α β : Type} {m n j k depth : Nat} {c after : Cursor} {calls : Calls}

/-- Where a run ends that begins at a place, with a value or an error. -/
def Run.on (run : Run α) (c : Cursor) : Option (Except SyntaxError α × Cursor) :=
  (ExceptT.run run).run c

/-- A method ends as a reply says. -/
def Gives (p : Reading α) (calls : Calls) (c : Cursor) (r : Reply n k α) : Prop :=
  Run.on (p calls) c = some (r.result, r.stop)

/-! ### Rules -/

theorem run_bind (p : Reading α) (f : α → Reading β) : Run.on ((p >>= f) calls) c =
    (Run.on (p calls) c).bind fun (result, after) =>
      match result with
      | .ok value => Run.on (f value calls) after
      | .error e => some (.error e, after) := by
  change ((ExceptT.run (p calls)).run c).bind _ = _
  unfold Run.on
  congr 1
  funext ⟨result, after⟩
  cases result <;> rfl

theorem gives_pure {value : α} {le : c.size + k ≤ n} :
    Gives (pure value) calls c (.ok value c le) := rfl

theorem gives_raise {e : SyntaxError} {le : c.size ≤ n} :
    Gives (raise e : Reading α) calls c (.error e c le : Reply n k α) := rfl

theorem gives_fail {code : ErrorCode} {message : String} {le : c.size ≤ n} :
    Gives (fail code message : Reading α) calls c (c.fail code message le : Reply n k α) := rfl

theorem Gives.bind {p : Reading α} {f : α → Reading β} {r : Reply m k α}
    {g : (value : α) → (after : Cursor) → after.size + k ≤ m → Reply n j β} {h : m ≤ n}
    (first : p.Gives calls c r)
    (second : ∀ value after le, (f value).Gives calls after (g value after le)) :
    (p >>= f).Gives calls c (r.andThen g h) := by
  rw [Gives, run_bind, first]
  cases r with
  | ok value after le => exact second value after le
  | error => rfl

theorem Gives.relax {p : Reading α} {r : Reply m k α} {h : m ≤ n} {h' : m + j ≤ n + k}
    (first : p.Gives calls c r) :
    p.Gives calls c (r.relax h h' : Reply n j α) := by
  cases r <;> exact first

/-! ### Looking at the next token -/

section Look

variable {r : Reply n k β}

theorem gives_get {f : Cursor → Reading β} : Gives (get >>= f) calls c r ↔ (f c).Gives calls c r :=
  Iff.rfl

theorem gives_token? {f : Option Token → Reading β} :
    (token? >>= f).Gives calls c r ↔ (f c.token?).Gives calls c r := Iff.rfl

theorem gives_line {f : Nat → Reading β} :
    (line >>= f).Gives calls c r ↔ (f c.line).Gives calls c r := Iff.rfl

theorem gives_found {f : String → Reading β} :
    (found >>= f).Gives calls c r ↔ (f c.found).Gives calls c r := Iff.rfl

theorem gives_advance {f : Unit → Reading β} :
    (advance >>= f).Gives calls c r ↔ (f ()).Gives calls c.advanced r := Iff.rfl

theorem gives_check {t : Token} {f : Bool → Reading β} :
    (check t >>= f).Gives calls c r ↔ (f (c.token? = some t)).Gives calls c r := Iff.rfl

theorem gives_check_of_view {x : Lexeme} {le : after.size + 1 = c.size}
    (view : c.view = .next x after le) {f : Bool → Reading β} :
    (check x.token >>= f).Gives calls c r ↔ (f true).Gives calls c r := by
  rw [gives_check, decide_eq_true (Cursor.looks_of_view view).1]

theorem gives_check_of_ne {t : Token} (ne : c.token? ≠ some t) {f : Bool → Reading β} :
    (check t >>= f).Gives calls c r ↔ (f false).Gives calls c r := by
  rw [gives_check, decide_eq_false ne]

theorem gives_take?_of_view {x : Lexeme} {le : after.size + 1 = c.size}
    (view : c.view = .next x after le) {f : Bool → Reading β} :
    (take? x.token >>= f).Gives calls c r ↔ (f true).Gives calls after r := by
  obtain ⟨token, -, advanced⟩ := Cursor.looks_of_view view
  rw [take?, bind_assoc, gives_check, decide_eq_true token, if_pos rfl, bind_assoc, gives_advance,
    advanced, pure_bind]

theorem gives_take?_of_ne {t : Token} (ne : c.token? ≠ some t) {f : Bool → Reading β} :
    (take? t >>= f).Gives calls c r ↔ (f false).Gives calls c r := by
  rw [take?, bind_assoc, gives_check, decide_eq_false ne, if_neg Bool.false_ne_true, pure_bind]

end Look

/-! ### The smallest methods -/

theorem take?_gives (t : Token) (c : Cursor) : (take? t).Gives calls c (c.take? t) := by
  rw [take?, gives_check, Cursor.take?]
  by_cases token : c.token? = some t
  · rw [decide_eq_true token, if_pos rfl, if_pos token]
    rfl
  · rw [decide_eq_false token, if_neg Bool.false_ne_true, if_neg token]
    rfl

theorem expect_gives (t : Token) (message : String) (c : Cursor) :
    (expect t message).Gives calls c (c.expect t message) := by
  rw [expect, Cursor.expect]
  cases view : c.view with
  | done =>
    have token := Cursor.token?_of_done view
    have ne : c.token? ≠ some t := by simp [token]
    rw [gives_take?_of_ne ne, if_neg Bool.false_ne_true, gives_found, gives_token?, token]
    exact gives_fail
  | next x after le =>
    obtain ⟨token, -, -⟩ := Cursor.looks_of_view view
    dsimp only
    split
    · rename_i same
      rw [← same, gives_take?_of_view view, if_pos rfl]
      exact gives_pure
    · rename_i other
      have ne : c.token? ≠ some t := by simpa [token] using other
      rw [gives_take?_of_ne ne, if_neg Bool.false_ne_true, gives_found, gives_token?, token]
      exact gives_fail

/-- A token that is seen can be read. -/
theorem gives_expect_of_view {x : Lexeme} {le : after.size + 1 = c.size}
    (view : c.view = .next x after le) {message : String} {f : Unit → Reading β} {r : Reply n k β} :
    (expect x.token message >>= f).Gives calls c r ↔ (f ()).Gives calls after r := by
  rw [expect, bind_assoc, gives_take?_of_view view, if_pos rfl, pure_bind]

theorem expectString_gives (message : String) (c : Cursor) :
    (expectString message).Gives calls c (c.expectString message) := by
  rw [expectString, Cursor.expectString, gives_found, gives_token?]
  cases view : c.view with
  | done =>
    rw [Cursor.token?_of_done view]
    exact gives_fail
  | next x after le =>
    obtain ⟨token, -, advanced⟩ := Cursor.looks_of_view view
    obtain ⟨t, span, line⟩ := x
    rw [token]
    cases t with
    | string text =>
      dsimp only
      rw [gives_advance, advanced]
      exact gives_pure
    | _ => exact gives_fail

theorem expectIdent_gives (what : String) (c : Cursor) :
    (expectIdent what).Gives calls c (c.expectIdent what) := by
  rw [expectIdent, Cursor.expectIdent, gives_line, gives_token?]
  cases view : c.view with
  | done =>
    rw [Cursor.token?_of_done view]
    exact gives_fail
  | next x after le =>
    obtain ⟨token, line, advanced⟩ := Cursor.looks_of_view view
    obtain ⟨t, span, _⟩ := x
    rw [token, line]
    cases t with
    | ident name =>
      dsimp only
      rw [gives_advance, advanced]
      exact gives_pure
    | _ => exact gives_fail

theorem expectTerminator_gives (c : Cursor) :
    expectTerminator.Gives calls c c.expectTerminator := by
  rw [expectTerminator, Cursor.expectTerminator, gives_token?]
  cases view : c.view with
  | done =>
    rw [Cursor.token?_of_done view]
    exact gives_pure
  | next x after le =>
    obtain ⟨token, -, advanced⟩ := Cursor.looks_of_view view
    have read : advance.Gives calls c (.ok () after : Reply c.size 0 Unit) := by
      subst advanced
      rfl
    obtain ⟨t, span, line⟩ := x
    rw [token]
    cases t with
    | newline => exact read
    | punct p =>
      cases p with
      | semicolon => exact read
      | rightBrace | rightParen => exact gives_pure
      | _ => exact gives_fail
    | _ => exact gives_fail

theorem sign?_gives (c : Cursor) : sign?.Gives calls c (Sign.parse? c) := by
  rw [sign?, Sign.parse?]
  split
  · rename_i view
    rw [gives_take?_of_view view]
    exact gives_pure
  · rename_i view
    have ne : c.token? ≠ some (.op .sub) := by simp [(Cursor.looks_of_view view).1]
    rw [gives_take?_of_ne ne, if_neg Bool.false_ne_true, gives_take?_of_view view]
    exact gives_pure
  · rename_i notSub notAdd
    rw [gives_take?_of_ne (Cursor.token?_ne_of_view notSub), if_neg Bool.false_ne_true,
      gives_take?_of_ne (Cursor.token?_ne_of_view notAdd)]
    exact gives_pure

theorem typeName_gives (c : Cursor) : typeName.Gives calls c (TypeSpec.parseName c) := by
  rw [typeName, gives_found, TypeSpec.parseName]
  split
  · rename_i name token
    rw [gives_token?, token]
    exact expectIdent_gives _ c
  · rename_i other
    rw [gives_token?]
    split
    · exact (other _ ‹_›).elim
    · exact gives_fail

theorem package?_gives (c : Cursor) : package?.Gives calls c (File.parsePackage? c) := by
  rw [package?, File.parsePackage?]
  split
  · rename_i c1 _ view
    rw [gives_take?_of_view view, if_pos rfl]
    refine (expectIdent_gives _ c1).bind fun name c2 _ => ?_
    exact (expectTerminator_gives c2).bind fun _ c3 _ => gives_pure
  · rename_i other
    rw [gives_take?_of_ne (Cursor.token?_ne_of_view other), if_neg Bool.false_ne_true]
    exact gives_pure

/-! ### Going on -/

/-- Where there is nothing to put in front of a result, the loop that goes on has the result of this
one. -/
theorem Loop.proceed_skip (p : Token → Bool) : (skip p).proceed (.again ()) = (skip p).begin :=
  bind_pure _

theorem Loop.proceed_operators (min : Nat) (left right : Expr) :
    (operators min left).proceed (.again right) = (operators min right).begin :=
  bind_pure _

theorem Loop.proceed_paths : paths.proceed (.again ()) = paths.begin := bind_pure _

theorem Loop.proceed_imports : imports.proceed (.again ()) = imports.begin := bind_pure _

/-! ### Calls -/

/-- A call at the place where the caller began is of a lower rank. -/
abbrev Loop.rank : Loop → Nat
  | skip _ => 0
  | _ => 1

theorem Loop.rank_le (l : Loop) : l.rank ≤ 1 := by
  unfold rank
  split <;> omega

abbrev Method.rank : Method → Nat
  | loop l => l.rank
  | _ => 2

theorem Method.rank_le (m : Method) : m.rank ≤ 2 := by
  cases m with
  | loop l => exact Nat.le_succ_of_le l.rank_le
  | _ => exact Nat.le_refl 2

/-- The calls below a bound end with the replies of their parsers. A call is lower if fewer tokens
are left, or if none is read yet and its rank is lower. -/
def Calls.Sound (calls : Calls) (k : Nat) : Prop :=
  ∀ m c, 3 * c.size + m.rank < k → (calls m).on c = some ((m.reply c).result, (m.reply c).stop)

section Calls

variable (sound : calls.Sound k)
include sound

theorem begin_gives (l : Loop) (c : Cursor) (h : 3 * c.size + 1 < k) :
    l.begin.Gives calls c (l.reply c) := by
  have rank := l.rank_le
  exact sound (.loop l) c (by show 3 * c.size + l.rank < k; omega)

theorem call_gives (m : Method) (c : Cursor) (h : 3 * c.size + 2 < k) :
    (call m).Gives calls c (m.reply c) := by
  have rank := m.rank_le
  exact sound m c (by omega)

theorem skip_gives (p : Token → Bool) (c : Cursor) (h : 3 * c.size < k) :
    (Loop.skip p).begin.Gives calls c (c.skipWhile p) :=
  sound (.loop (.skip p)) c h

/-! ### Reading tokens in a loop -/

theorem skipNewlines_gives (c : Cursor) (h : 3 * c.size < k) :
    skipNewlines.Gives calls c c.skipNewlines :=
  skip_gives sound _ c h

theorem skipSeparators_gives (c : Cursor) (h : 3 * c.size < k) :
    skipSeparators.Gives calls c c.skipSeparators :=
  skip_gives sound _ c h

theorem skip_body_gives (p : Token → Bool) (c : Cursor) (h : 3 * c.size ≤ k) :
    (Loop.skip p).body.Gives calls c (c.skipWhile p) := by
  show (skipTurn p >>= (Loop.skip p).proceed).Gives calls c _
  rw [skipTurn, bind_assoc, gives_token?, Cursor.skipWhile]
  cases view : c.view with
  | done =>
    rw [Cursor.token?_of_done view]
    exact gives_pure
  | next x after le =>
    obtain ⟨token, -, advanced⟩ := Cursor.looks_of_view view
    rw [token]
    dsimp only
    split
    · rw [bind_assoc, gives_advance, advanced, pure_bind, Loop.proceed_skip]
      exact (skip_gives sound p after (by omega)).relax
    · exact gives_pure

/-! ### Expressions -/

theorem operators_body_gives (min : Nat) (left : Expr) (c : Cursor) (h : 3 * c.size ≤ k) :
    (Loop.operators min left).body.Gives calls c (Expr.parseOperators min left c) := by
  show (operatorTurn min left >>= (Loop.operators min left).proceed).Gives calls c _
  rw [operatorTurn, bind_assoc, gives_token?, Expr.parseOperators]
  cases view : c.view with
  | done =>
    rw [Cursor.token?_of_done view]
    exact gives_pure
  | next x c1 le =>
    obtain ⟨token, line, advanced⟩ := Cursor.looks_of_view view
    obtain ⟨t, span, _⟩ := x
    rw [token]
    cases t with
    | op op =>
      dsimp only
      split
      · exact gives_pure
      · rw [bind_assoc, gives_line, line, bind_assoc, gives_advance, advanced, bind_assoc]
        refine (skipNewlines_gives sound c1 (by omega)).bind fun _ c2 _ => ?_
        rw [bind_assoc]
        refine (call_gives sound (.binary (op.precedence + 1)) c2 (by omega)).bind
          fun right c3 _ => ?_
        rw [pure_bind, Loop.proceed_operators]
        exact (begin_gives sound (.operators min _) c3 (by omega)).relax
    | _ => exact gives_pure

theorem arguments_gives (c : Cursor) (h : 3 * c.size + 1 < k) :
    arguments.Gives calls c (Expr.parseArguments c) := by
  rw [arguments, Expr.parseArguments]
  refine (skipNewlines_gives sound c (by omega)).bind fun _ c1 _ => ?_
  split
  · rename_i view
    rw [gives_check_of_view view, if_pos rfl, gives_expect_of_view view]
    exact gives_pure
  · rename_i other
    rw [gives_check_of_ne (Cursor.token?_ne_of_view other), if_neg Bool.false_ne_true]
    exact (begin_gives sound .arguments c1 (by omega)).relax

theorem primary_gives (c : Cursor) (h : 3 * c.size ≤ k) :
    primary.Gives calls c (Primary.parse c) := by
  rw [primary, gives_line, gives_token?, Primary.parse]
  cases view : c.view with
  | done =>
    rw [Cursor.token?_of_done view]
    exact gives_fail
  | next x c1 le =>
    obtain ⟨token, line, advanced⟩ := Cursor.looks_of_view view
    obtain ⟨t, span, _⟩ := x
    rw [token, line]
    -- An operand of one token: the token is passed, and nothing else is read.
    have read (p : Primary) :
        (advance >>= fun _ => pure p).Gives calls c (.ok p c1 : Reply c.size 1 Primary) := by
      rw [gives_advance, advanced]
      exact gives_pure
    cases t with
    | integer | decimal | string => exact read _
    | keyword word =>
      cases word with
      | true_ | false_ => exact read _
      | _ => exact gives_fail
    | ident name =>
      dsimp only
      rw [gives_advance, advanced]
      split
      · rename_i c2 _ view
        rw [gives_take?_of_view view, if_pos rfl]
        exact (arguments_gives sound c2 (by omega)).bind fun args c3 _ => gives_pure
      · rename_i c2 _ view
        have ne : c1.token? ≠ some (.punct .leftParen) := by simp [(Cursor.looks_of_view view).1]
        rw [gives_take?_of_ne ne, if_neg Bool.false_ne_true, gives_take?_of_view view, if_pos rfl]
        refine (skipNewlines_gives sound c2 (by omega)).bind fun _ c3 _ => ?_
        refine (call_gives sound .expression c3 (by omega)).bind fun index c4 _ => ?_
        refine (skipNewlines_gives sound c4 (by omega)).bind fun _ c5 _ => ?_
        exact (expect_gives _ _ c5).bind fun _ c6 _ => gives_pure
      · rename_i notParen notBracket
        rw [gives_take?_of_ne (Cursor.token?_ne_of_view notParen), if_neg Bool.false_ne_true,
          gives_take?_of_ne (Cursor.token?_ne_of_view notBracket)]
        exact gives_pure
    | punct mark =>
      cases mark with
      | leftParen =>
        dsimp only
        rw [gives_advance, advanced]
        refine (skipNewlines_gives sound c1 (by omega)).bind fun _ c2 _ => ?_
        refine (call_gives sound .expression c2 (by omega)).bind fun inner c3 _ => ?_
        refine (skipNewlines_gives sound c3 (by omega)).bind fun _ c4 _ => ?_
        exact (expect_gives _ _ c4).bind fun _ c5 _ => gives_pure
      | _ => exact gives_fail
    | _ => exact gives_fail

theorem unary_gives (c : Cursor) (h : 3 * c.size ≤ k) :
    unary.Gives calls c (Expr.parseUnary c) := by
  rw [unary, gives_line, Expr.parseUnary]
  refine (sign?_gives c).bind fun sign c1 _ => ?_
  exact (primary_gives sound c1 (by omega)).bind fun primary c2 _ => gives_pure

theorem binary_gives (min : Nat) (c : Cursor) (h : 3 * c.size ≤ k) :
    (binary min).Gives calls c (Expr.parseBinary min c) := by
  rw [binary, Expr.parseBinary]
  refine (unary_gives sound c (by omega)).bind fun left c1 _ => ?_
  exact (begin_gives sound (.operators min left) c1 (by omega)).relax

theorem expression_gives (c : Cursor) (h : 3 * c.size ≤ k) :
    expression.Gives calls c (Expr.parse c) :=
  binary_gives sound 1 c h

theorem arguments_body_gives (c : Cursor) (h : 3 * c.size ≤ k) :
    Loop.arguments.body.Gives calls c (Expr.parseArgumentList c) := by
  show (argumentTurn >>= Loop.arguments.proceed).Gives calls c _
  rw [argumentTurn, bind_assoc, Expr.parseArgumentList]
  refine (expression_gives sound c (by omega)).bind fun arg c1 _ => ?_
  rw [bind_assoc]
  refine (skipNewlines_gives sound c1 (by omega)).bind fun _ c2 _ => ?_
  rw [bind_assoc]
  split
  · rename_i c3 _ view
    rw [gives_take?_of_view view, if_pos rfl, bind_assoc]
    refine (skipNewlines_gives sound c3 (by omega)).bind fun _ c4 _ => ?_
    rw [pure_bind]
    exact (begin_gives sound .arguments c4 (by omega)).bind fun args c5 _ => gives_pure
  · rename_i other
    rw [gives_take?_of_ne (Cursor.token?_ne_of_view other), if_neg Bool.false_ne_true, bind_assoc]
    exact (expect_gives _ _ c2).bind fun _ c3 _ => gives_pure

theorem values_body_gives (c : Cursor) (h : 3 * c.size ≤ k) :
    Loop.values.body.Gives calls c (Expr.parseMore c) := by
  show (valueTurn >>= Loop.values.proceed).Gives calls c _
  rw [valueTurn, bind_assoc, Expr.parseMore]
  split
  · rename_i c1 _ view
    rw [gives_take?_of_view view, if_pos rfl, bind_assoc]
    refine (skipNewlines_gives sound c1 (by omega)).bind fun _ c2 _ => ?_
    rw [bind_assoc]
    refine (expression_gives sound c2 (by omega)).bind fun e c3 _ => ?_
    rw [pure_bind]
    exact (begin_gives sound .values c3 (by omega)).bind fun es c4 _ => gives_pure
  · rename_i other
    rw [gives_take?_of_ne (Cursor.token?_ne_of_view other), if_neg Bool.false_ne_true]
    exact gives_pure

theorem expressionList_gives (c : Cursor) (h : 3 * c.size ≤ k) :
    expressionList.Gives calls c (Expr.parseList c) := by
  refine (expression_gives sound c (by omega)).bind fun e c1 _ => ?_
  exact (begin_gives sound .values c1 (by omega)).bind fun es c2 _ => gives_pure

/-! ### Declarations -/

theorem names_body_gives (what : String) (c : Cursor) (h : 3 * c.size ≤ k) :
    (Loop.names what).body.Gives calls c (Ident.parseMore what c) := by
  show (nameTurn what >>= (Loop.names what).proceed).Gives calls c _
  rw [nameTurn, bind_assoc, Ident.parseMore]
  split
  · rename_i c1 _ view
    rw [gives_take?_of_view view, if_pos rfl, bind_assoc]
    refine (expectIdent_gives what c1).bind fun id c2 _ => ?_
    rw [pure_bind]
    exact (begin_gives sound (.names what) c2 (by omega)).bind fun ids c3 _ => gives_pure
  · rename_i other
    rw [gives_take?_of_ne (Cursor.token?_ne_of_view other), if_neg Bool.false_ne_true]
    exact gives_pure

theorem names_gives (what : String) (c : Cursor) (h : 3 * c.size ≤ k) :
    (names what).Gives calls c (Ident.parseList what c) := by
  refine (expectIdent_gives what c).bind fun id c1 _ => ?_
  exact (begin_gives sound (.names what) c1 (by omega)).bind fun ids c2 _ => gives_pure

theorem type_gives (c : Cursor) (h : 3 * c.size ≤ k) : type.Gives calls c (TypeSpec.parse c) := by
  rw [type, gives_line, TypeSpec.parse]
  split
  · rename_i c1 _ view
    rw [(Cursor.looks_of_view view).2.1, gives_take?_of_view view, if_pos rfl]
    refine (expression_gives sound c1 (by omega)).bind fun length c2 _ => ?_
    refine (expect_gives _ _ c2).bind fun _ c3 _ => ?_
    exact (typeName_gives c3).bind fun element c4 _ => gives_pure
  · rename_i other
    rw [gives_take?_of_ne (Cursor.token?_ne_of_view other), if_neg Bool.false_ne_true]
    exact (typeName_gives c).bind fun id c1 _ => gives_pure

theorem types_body_gives (c : Cursor) (h : 3 * c.size ≤ k) :
    Loop.types.body.Gives calls c (TypeSpec.parseNames c) := by
  show (typeTurn >>= Loop.types.proceed).Gives calls c _
  rw [typeTurn, bind_assoc, TypeSpec.parseNames]
  refine (typeName_gives c).bind fun id c1 _ => ?_
  rw [bind_assoc]
  split
  · rename_i c2 _ view
    rw [gives_take?_of_view view, if_pos rfl, pure_bind]
    exact (begin_gives sound .types c2 (by omega)).bind fun ids c3 _ => gives_pure
  · rename_i other
    rw [gives_take?_of_ne (Cursor.token?_ne_of_view other), if_neg Bool.false_ne_true]
    exact gives_pure

theorem resultTypes_gives (c : Cursor) (h : 3 * c.size ≤ k) :
    resultTypes.Gives calls c (TypeSpec.parseResults c) := by
  rw [resultTypes, TypeSpec.parseResults]
  split
  · rename_i c1 _ view
    rw [gives_take?_of_view view, if_pos rfl]
    split
    · rename_i view
      rw [gives_check_of_view view, if_pos rfl, gives_expect_of_view view]
      exact gives_pure
    · rename_i other
      rw [gives_check_of_ne (Cursor.token?_ne_of_view other), if_neg Bool.false_ne_true]
      refine (begin_gives sound .types c1 (by omega)).bind fun ids c2 _ => ?_
      exact (expect_gives _ _ c2).bind fun _ c3 _ => gives_pure
  · rename_i view
    have token := (Cursor.looks_of_view view).1
    have ne : c.token? ≠ some (.punct .leftParen) := by simp [token]
    rw [gives_take?_of_ne ne, if_neg Bool.false_ne_true, gives_token?, token]
    exact (typeName_gives c).bind fun id c1 _ => gives_pure
  · rename_i notParen notName
    rw [gives_take?_of_ne (Cursor.token?_ne_of_view notParen), if_neg Bool.false_ne_true,
      gives_token?]
    split
    · rename_i token
      obtain ⟨span, line, after, le, view⟩ := Cursor.exists_view_of_token? token
      exact (notName _ _ _ _ _ view).elim
    · exact gives_pure

theorem specType?_gives (c : Cursor) (h : 3 * c.size ≤ k) :
    specType?.Gives calls c (VarSpec.parseType? c) := by
  rw [specType?, VarSpec.parseType?]
  split
  · rename_i token
    rw [gives_check, decide_eq_true token]
    exact gives_pure
  · rename_i other
    rw [gives_check_of_ne other, if_neg Bool.false_ne_true]
    exact (type_gives sound c (by omega)).bind fun type c1 _ => gives_pure

theorem specValues_gives (c : Cursor) (h : 3 * c.size ≤ k) :
    specValues.Gives calls c (VarSpec.parseValues c) := by
  rw [specValues, VarSpec.parseValues]
  split
  · rename_i c1 _ view
    rw [gives_take?_of_view view, if_pos rfl]
    exact (skipNewlines_gives sound c1 (by omega)).bind fun _ c2 _ =>
      (expressionList_gives sound c2 (by omega)).relax
  · rename_i other
    rw [gives_take?_of_ne (Cursor.token?_ne_of_view other), if_neg Bool.false_ne_true]
    exact gives_pure

theorem varSpec_gives (c : Cursor) (h : 3 * c.size ≤ k) :
    varSpec.Gives calls c (VarSpec.parse c) := by
  rw [varSpec, gives_line, VarSpec.parse]
  refine (names_gives sound _ c (by omega)).bind fun names c1 _ => ?_
  refine (specType?_gives sound c1 (by omega)).bind fun type? c2 _ => ?_
  exact (specValues_gives sound c2 (by omega)).bind fun values c3 _ => gives_pure

theorem specs_body_gives (c : Cursor) (h : 3 * c.size ≤ k) :
    Loop.specs.body.Gives calls c (VarSpec.parseGroup c) := by
  show (specTurn >>= Loop.specs.proceed).Gives calls c _
  rw [specTurn, bind_assoc, VarSpec.parseGroup]
  split
  · rename_i token
    rw [gives_token?, token]
    exact gives_pure
  · rename_i token
    rw [gives_token?, token]
    exact gives_pure
  · rename_i notEnd notParen
    rw [gives_token?]
    split
    · exact (notEnd ‹_›).elim
    · exact (notParen ‹_›).elim
    · rw [bind_assoc]
      refine (varSpec_gives sound c (by omega)).bind fun spec c1 _ => ?_
      rw [bind_assoc]
      refine (expectTerminator_gives c1).bind fun _ c2 _ => ?_
      rw [bind_assoc]
      refine (skipSeparators_gives sound c2 (by omega)).bind fun _ c3 _ => ?_
      rw [pure_bind]
      exact (begin_gives sound .specs c3 (by omega)).bind fun specs c4 _ => gives_pure

theorem varDecl_gives (c : Cursor) (h : 3 * c.size ≤ k) :
    varDecl.Gives calls c (VarDecl.parse c) := by
  rw [varDecl, gives_line, VarDecl.parse]
  refine (expect_gives _ _ c).bind fun _ c1 _ => ?_
  split
  · rename_i c2 _ view
    rw [gives_take?_of_view view, if_pos rfl]
    refine (skipSeparators_gives sound c2 (by omega)).bind fun _ c3 _ => ?_
    refine (begin_gives sound .specs c3 (by omega)).bind fun specs c4 _ => ?_
    exact (expect_gives _ _ c4).bind fun _ c5 _ => gives_pure
  · rename_i other
    rw [gives_take?_of_ne (Cursor.token?_ne_of_view other), if_neg Bool.false_ne_true]
    exact (varSpec_gives sound c1 (by omega)).bind fun spec c2 _ => gives_pure

theorem paramGroup_gives (c : Cursor) (h : 3 * c.size ≤ k) :
    paramGroup.Gives calls c (ParamGroup.parse c) := by
  refine (names_gives sound _ c (by omega)).bind fun names c1 _ => ?_
  exact (typeName_gives c1).bind fun type c2 _ => gives_pure

theorem params_body_gives (c : Cursor) (h : 3 * c.size ≤ k) :
    Loop.params.body.Gives calls c (ParamGroup.parseGroups c) := by
  show (paramTurn >>= Loop.params.proceed).Gives calls c _
  rw [paramTurn, bind_assoc, ParamGroup.parseGroups]
  split
  · rename_i token
    rw [gives_check, decide_eq_true token]
    exact gives_pure
  · rename_i other
    rw [gives_check_of_ne other, if_neg Bool.false_ne_true, bind_assoc]
    refine (paramGroup_gives sound c (by omega)).bind fun group c1 _ => ?_
    rw [bind_assoc]
    refine (skipNewlines_gives sound c1 (by omega)).bind fun _ c2 _ => ?_
    rw [bind_assoc]
    split
    · rename_i c3 _ view
      rw [gives_take?_of_view view, if_pos rfl, bind_assoc]
      refine (skipNewlines_gives sound c3 (by omega)).bind fun _ c4 _ => ?_
      rw [pure_bind]
      exact (begin_gives sound .params c4 (by omega)).bind fun groups c5 _ => gives_pure
    · rename_i other
      rw [gives_take?_of_ne (Cursor.token?_ne_of_view other), if_neg Bool.false_ne_true]
      exact gives_pure

theorem paramGroups_gives (c : Cursor) (h : 3 * c.size + 1 < k) :
    paramGroups.Gives calls c (ParamGroup.parseList c) :=
  (skipNewlines_gives sound c (by omega)).bind fun _ c1 _ =>
    (begin_gives sound .params c1 (by omega)).relax

/-! ### Statements -/

/-- The values of a short declaration or an assignment. -/
theorem assigned_gives (c : Cursor) (h : 3 * c.size < k) :
    (skipNewlines >>= fun _ => expressionList).Gives calls c (Stmt.parseValues c) :=
  (skipNewlines_gives sound c (by omega)).bind fun _ c1 _ =>
    (expressionList_gives sound c1 (by omega)).relax

theorem simple_gives (c : Cursor) (h : 3 * c.size ≤ k) :
    simple.Gives calls c (Stmt.parseSimple c) := by
  rw [simple, gives_get, Stmt.parseSimple]
  refine (expressionList_gives sound c (by omega)).bind fun left c1 _ => ?_
  split
  · rename_i c2 _ view
    unfold simpleRest
    rw [gives_take?_of_view view, if_pos rfl]
    cases left.mapM Expr.name? with
    | some names =>
      have rest := (assigned_gives sound c2 (by omega)).bind (n := c.size) (j := 1) (h := by omega)
        (f := fun values => pure (Stmt.define names values c.line))
        (g := fun values c3 _ => .ok (Stmt.define names values c.line) c3)
        fun values c3 _ => gives_pure
      rwa [bind_assoc] at rest
    | none => exact gives_fail
  · rename_i c2 _ view
    have ne : c1.token? ≠ some (.punct .define) := by simp [(Cursor.looks_of_view view).1]
    unfold simpleRest
    rw [gives_take?_of_ne ne, if_neg Bool.false_ne_true, gives_take?_of_view view, if_pos rfl]
    cases left.mapM Expr.target? with
    | some targets =>
      have rest := (assigned_gives sound c2 (by omega)).bind (n := c.size) (j := 1) (h := by omega)
        (f := fun values => pure (Stmt.assign targets values c.line))
        (g := fun values c3 _ => .ok (Stmt.assign targets values c.line) c3)
        fun values c3 _ => gives_pure
      rwa [bind_assoc] at rest
    | none => exact gives_fail
  · rename_i notDefine notAssign
    unfold simpleRest
    rw [gives_take?_of_ne (Cursor.token?_ne_of_view notDefine), if_neg Bool.false_ne_true,
      gives_take?_of_ne (Cursor.token?_ne_of_view notAssign), if_neg Bool.false_ne_true]
    cases left with
    | nil => exact gives_fail
    | cons e es =>
      cases es with
      | nil =>
        dsimp only
        cases e.call? with
        | some call => exact gives_pure
        | none => exact gives_raise
      | cons => exact gives_fail

theorem returnStmt_gives (c : Cursor) (h : 3 * c.size ≤ k) :
    returnStmt.Gives calls c (Stmt.parseReturn c) := by
  rw [returnStmt, gives_line, Stmt.parseReturn]
  refine (expect_gives _ _ c).bind fun _ c1 _ => ?_
  rw [gives_get]
  split
  · exact gives_pure
  · exact (expressionList_gives sound c1 (by omega)).bind fun values c2 _ => gives_pure

theorem block_gives (c : Cursor) (h : 3 * c.size ≤ k) : block.Gives calls c (Block.parse c) := by
  rw [block, gives_line, Block.parse]
  refine (expect_gives _ _ c).bind fun _ c1 _ => ?_
  refine (skipSeparators_gives sound c1 (by omega)).bind fun _ c2 _ => ?_
  refine (begin_gives sound .statements c2 (by omega)).bind fun stmts c3 _ => ?_
  rw [gives_line]
  exact (expect_gives _ _ c3).bind fun _ c4 _ => gives_pure

theorem elseBranch_gives (c : Cursor) (h : 3 * c.size ≤ k) :
    elseBranch.Gives calls c (ElseBranch.parse c) := by
  rw [elseBranch, ElseBranch.parse]
  split
  · rename_i c1 _ view
    rw [gives_take?_of_view view, if_pos rfl, gives_token?]
    cases c1.token? with
    | none => exact gives_fail
    | some t =>
      cases t with
      | keyword k =>
        cases k with
        | if_ => exact (call_gives sound .ifStmt c1 (by omega)).bind fun stmt c2 _ => gives_pure
        | _ => exact gives_fail
      | punct p =>
        cases p with
        | leftBrace => exact (block_gives sound c1 (by omega)).bind fun body c2 _ => gives_pure
        | _ => exact gives_fail
      | _ => exact gives_fail
  · rename_i other
    rw [gives_take?_of_ne (Cursor.token?_ne_of_view other), if_neg Bool.false_ne_true]
    exact gives_pure

theorem ifStmt_gives (c : Cursor) (h : 3 * c.size ≤ k) : ifStmt.Gives calls c (IfStmt.parse c) := by
  rw [ifStmt, gives_line, IfStmt.parse]
  refine (expect_gives _ _ c).bind fun _ c1 _ => ?_
  refine (expression_gives sound c1 (by omega)).bind fun condition c2 _ => ?_
  refine (block_gives sound c2 (by omega)).bind fun body c3 _ => ?_
  exact (elseBranch_gives sound c3 (by omega)).bind fun otherwise c4 _ => gives_pure

theorem forStmt_gives (c : Cursor) (h : 3 * c.size ≤ k) :
    forStmt.Gives calls c (Stmt.parseLoop c) := by
  rw [forStmt, gives_line, Stmt.parseLoop]
  refine (expect_gives _ _ c).bind fun _ c1 _ => ?_
  refine (expression_gives sound c1 (by omega)).bind fun condition c2 _ => ?_
  exact (block_gives sound c2 (by omega)).bind fun body c3 _ => gives_pure

theorem statement_gives (c : Cursor) (h : 3 * c.size ≤ k) :
    statement.Gives calls c (Stmt.parse c) := by
  rw [statement, gives_token?, Stmt.parse]
  cases c.token? with
  | none => exact simple_gives sound c (by omega)
  | some t =>
    cases t with
    | keyword k =>
      cases k with
      | var => exact (varDecl_gives sound c (by omega)).bind fun decl c1 _ => gives_pure
      | if_ => exact (ifStmt_gives sound c (by omega)).bind fun stmt c1 _ => gives_pure
      | for_ => exact forStmt_gives sound c (by omega)
      | return_ => exact returnStmt_gives sound c (by omega)
      | _ => exact simple_gives sound c (by omega)
    | punct p =>
      cases p with
      | leftBrace => exact (block_gives sound c (by omega)).bind fun body c1 _ => gives_pure
      | _ => exact simple_gives sound c (by omega)
    | _ => exact simple_gives sound c (by omega)

theorem statements_body_gives (c : Cursor) (h : 3 * c.size ≤ k) :
    Loop.statements.body.Gives calls c (Block.parseStatements c) := by
  show (statementTurn >>= Loop.statements.proceed).Gives calls c _
  rw [statementTurn, bind_assoc, Block.parseStatements]
  split
  · rename_i token
    rw [gives_token?, token]
    exact gives_pure
  · rename_i token
    rw [gives_token?, token]
    exact gives_pure
  · rename_i notEnd notBrace
    rw [gives_token?]
    split
    · exact (notEnd ‹_›).elim
    · exact (notBrace ‹_›).elim
    · rw [bind_assoc]
      refine (statement_gives sound c (by omega)).bind fun stmt c1 _ => ?_
      rw [bind_assoc]
      refine (expectTerminator_gives c1).bind fun _ c2 _ => ?_
      rw [bind_assoc]
      refine (skipSeparators_gives sound c2 (by omega)).bind fun _ c3 _ => ?_
      rw [pure_bind]
      exact (begin_gives sound .statements c3 (by omega)).bind fun stmts c4 _ => gives_pure

/-! ### Files -/

theorem funcDecl_gives (c : Cursor) (h : 3 * c.size ≤ k) :
    funcDecl.Gives calls c (FuncDecl.parse c) := by
  rw [funcDecl, gives_line, FuncDecl.parse]
  refine (expect_gives _ _ c).bind fun _ c1 _ => ?_
  refine (expectIdent_gives _ c1).bind fun name c2 _ => ?_
  refine (expect_gives _ _ c2).bind fun _ c3 _ => ?_
  refine (paramGroups_gives sound c3 (by omega)).bind fun params c4 _ => ?_
  refine (expect_gives _ _ c4).bind fun _ c5 _ => ?_
  refine (resultTypes_gives sound c5 (by omega)).bind fun results c6 _ => ?_
  exact (block_gives sound c6 (by omega)).bind fun body c7 _ => gives_pure

theorem decl_gives (c : Cursor) (h : 3 * c.size ≤ k) : decl.Gives calls c (Decl.parse c) := by
  rw [decl, gives_token?, Decl.parse]
  cases c.token? with
  | none => exact gives_fail
  | some t =>
    cases t with
    | keyword k =>
      cases k with
      | var => exact (varDecl_gives sound c (by omega)).bind fun decl c1 _ => gives_pure
      | func => exact (funcDecl_gives sound c (by omega)).bind fun decl c1 _ => gives_pure
      | _ => exact gives_fail
    | _ => exact gives_fail

theorem paths_body_gives (c : Cursor) (h : 3 * c.size ≤ k) :
    Loop.paths.body.Gives calls c (File.skipPaths c) := by
  show (pathTurn >>= Loop.paths.proceed).Gives calls c _
  rw [pathTurn, bind_assoc, gives_token?, File.skipPaths]
  cases view : c.view with
  | done =>
    rw [Cursor.token?_of_done view]
    exact gives_pure
  | next x c1 le =>
    obtain ⟨token, -, advanced⟩ := Cursor.looks_of_view view
    obtain ⟨t, span, line⟩ := x
    rw [token]
    cases t with
    | string text =>
      dsimp only
      rw [bind_assoc, gives_advance, advanced, bind_assoc]
      refine (skipSeparators_gives sound c1 (by omega)).bind fun _ c2 _ => ?_
      rw [pure_bind, Loop.proceed_paths]
      exact (begin_gives sound .paths c2 (by omega)).relax
    | _ => exact gives_pure

theorem importPaths_gives (c : Cursor) (h : 3 * c.size ≤ k) :
    importPaths.Gives calls c (File.skipPathSpec c) := by
  rw [importPaths, File.skipPathSpec]
  split
  · rename_i c1 _ view
    rw [gives_take?_of_view view, if_pos rfl]
    refine (skipSeparators_gives sound c1 (by omega)).bind fun _ c2 _ => ?_
    exact (begin_gives sound .paths c2 (by omega)).bind fun _ c3 _ => (expect_gives _ _ c3).relax
  · rename_i other
    rw [gives_take?_of_ne (Cursor.token?_ne_of_view other), if_neg Bool.false_ne_true]
    exact (expectString_gives _ c).bind fun _ c1 _ => gives_pure

theorem imports_body_gives (c : Cursor) (h : 3 * c.size ≤ k) :
    Loop.imports.body.Gives calls c (File.skipImports c) := by
  show (importTurn >>= Loop.imports.proceed).Gives calls c _
  rw [importTurn, bind_assoc, File.skipImports]
  split
  · rename_i c1 _ view
    rw [gives_take?_of_view view, if_pos rfl, bind_assoc]
    refine (importPaths_gives sound c1 (by omega)).bind fun _ c2 _ => ?_
    rw [bind_assoc]
    refine (expectTerminator_gives c2).bind fun _ c3 _ => ?_
    rw [bind_assoc]
    refine (skipSeparators_gives sound c3 (by omega)).bind fun _ c4 _ => ?_
    rw [pure_bind, Loop.proceed_imports]
    exact (begin_gives sound .imports c4 (by omega)).relax
  · rename_i other
    rw [gives_take?_of_ne (Cursor.token?_ne_of_view other), if_neg Bool.false_ne_true]
    exact gives_pure

theorem skipImports_gives (c : Cursor) (h : 3 * c.size + 1 < k) :
    skipImports.Gives calls c (File.skipImports c) :=
  begin_gives sound .imports c h

theorem decls_body_gives (c : Cursor) (h : 3 * c.size < k) :
    Loop.decls.body.Gives calls c (File.parseDecls c) := by
  show (declTurn >>= Loop.decls.proceed).Gives calls c _
  rw [declTurn, bind_assoc, File.parseDecls]
  refine (skipSeparators_gives sound c (by omega)).bind fun _ c1 _ => ?_
  rw [bind_assoc, gives_token?]
  cases c1.token? with
  | none => exact gives_pure
  | some t =>
    dsimp only
    rw [bind_assoc]
    refine (decl_gives sound c1 (by omega)).bind fun decl c2 _ => ?_
    rw [bind_assoc]
    refine (expectTerminator_gives c2).bind fun _ c3 _ => ?_
    rw [pure_bind]
    exact (begin_gives sound .decls c3 (by omega)).bind fun decls c4 _ => gives_pure

theorem file_gives (c : Cursor) (h : 3 * c.size + 1 < k) :
    file.Gives calls c (File.parseTokens c) := by
  refine (skipSeparators_gives sound c (by omega)).bind fun _ c1 _ => ?_
  refine (package?_gives c1).bind fun package? c2 _ => ?_
  refine (skipSeparators_gives sound c2 (by omega)).bind fun _ c3 _ => ?_
  refine (skipImports_gives sound c3 (by omega)).bind fun _ c4 _ => ?_
  exact (begin_gives sound .decls c4 (by omega)).bind fun decls c5 _ => gives_pure

/-! ### Runs -/

theorem Loop.body_gives (l : Loop) (c : Cursor) (h : 3 * c.size + l.rank ≤ k) :
    l.body.Gives calls c (l.reply c) := by
  cases l with
  | skip p => exact skip_body_gives sound p c h
  | operators min left => exact operators_body_gives sound min left c (Nat.le_of_succ_le h)
  | arguments => exact arguments_body_gives sound c (Nat.le_of_succ_le h)
  | values => exact values_body_gives sound c (Nat.le_of_succ_le h)
  | names what => exact names_body_gives sound what c (Nat.le_of_succ_le h)
  | types => exact types_body_gives sound c (Nat.le_of_succ_le h)
  | specs => exact specs_body_gives sound c (Nat.le_of_succ_le h)
  | params => exact params_body_gives sound c (Nat.le_of_succ_le h)
  | statements => exact statements_body_gives sound c (Nat.le_of_succ_le h)
  | paths => exact paths_body_gives sound c (Nat.le_of_succ_le h)
  | imports => exact imports_body_gives sound c (Nat.le_of_succ_le h)
  | decls => exact decls_body_gives sound c h

/-- The text of a method gives the reply of its parser if the lower calls do. -/
theorem Method.body_gives (m : Method) (c : Cursor) (h : 3 * c.size + m.rank ≤ k) :
    m.body.Gives calls c (m.reply c) := by
  -- The bound on the depth covers the tokens that are left, and the calls that read none on their
  -- way.
  cases m with
  | loop l => exact l.body_gives sound c h
  | advance => exact rfl
  | take? t => exact take?_gives t c
  | expect t message => exact expect_gives t message c
  | expectString message => exact expectString_gives message c
  | expectIdent what => exact expectIdent_gives what c
  | skipNewlines => exact skipNewlines_gives sound c (Nat.le_of_succ_le h)
  | skipSeparators => exact skipSeparators_gives sound c (Nat.le_of_succ_le h)
  | expectTerminator => exact expectTerminator_gives c
  | expression => exact expression_gives sound c (by omega)
  | binary min => exact binary_gives sound min c (by omega)
  | unary => exact unary_gives sound c (by omega)
  | primary => exact primary_gives sound c (by omega)
  | arguments => exact arguments_gives sound c h
  | expressionList => exact expressionList_gives sound c (by omega)
  | typeName => exact typeName_gives c
  | type => exact type_gives sound c (by omega)
  | resultTypes => exact resultTypes_gives sound c (by omega)
  | varSpec => exact varSpec_gives sound c (by omega)
  | varDecl => exact varDecl_gives sound c (by omega)
  | paramGroups => exact paramGroups_gives sound c h
  | simple => exact simple_gives sound c (by omega)
  | returnStmt => exact returnStmt_gives sound c (by omega)
  | statement => exact statement_gives sound c (by omega)
  | block => exact block_gives sound c (by omega)
  | ifStmt => exact ifStmt_gives sound c (by omega)
  | forStmt => exact forStmt_gives sound c (by omega)
  | funcDecl => exact funcDecl_gives sound c (by omega)
  | decl => exact decl_gives sound c (by omega)
  | skipImports => exact skipImports_gives sound c h
  | file => exact file_gives sound c h

end Calls

/-- Calls that are nested as deep as there is need for end. -/
theorem within_sound (depth : Nat) : Calls.Sound (Method.within depth) depth := by
  induction depth with
  | zero => exact fun m c h => absurd h (Nat.not_lt_zero _)
  | succ depth ih => exact fun m c h => m.body_gives ih c (Nat.le_of_lt_succ h)

end Reading

end MiniGo
