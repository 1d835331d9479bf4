import Mathlib.Logic.Relation
import MiniGo.Proofs.Syntax.Leaves

/-!
# Where a parser is when it fails

A parser reads tokens one after the other and never goes back. An error is about the place that it
has reached: it has the span of the next token, or of the last token at the end. There is one error
that looks back. An expression that is no statement is found out behind the expression, and its
error has the span of the first token of it.

* `Cursor.Reaches`: a place behind another, after some tokens are read.
* `SyntaxError.Blames`: what the span of an error is.
* `Reply.Tracks`: the places of a reply, with rules for the steps of a parser.
* `File.parseTokens_tracks`: each parser keeps track, up to that of a file.
* `File.exists_token_of_parseTokens`: an error has the span of a token of the stream.
-/

namespace MiniGo

/-! ### Places -/

namespace Cursor

/-- One token is read. -/
def Next (c d : Cursor) : Prop :=
  ∃ x, c.rest = x :: d.rest ∧ d.lastSpan = x.span ∧ d.lastLine = x.line

/-- Tokens are read, one after the other. -/
abbrev Reaches : Cursor → Cursor → Prop := Relation.ReflTransGen Next

variable {b c after : Cursor}

theorem next_of_view {x : Lexeme} {le : after.size + 1 = c.size}
    (view : c.view = .next x after le) : c.Next after := by
  unfold Cursor.view at view
  split at view
  · cases view
  · rename_i rest eq
    cases view
    exact ⟨_, eq, rfl, rfl⟩

theorem Reaches.view {x : Lexeme} {le : after.size + 1 = c.size} (h : b.Reaches c)
    (view : c.view = .next x after le) :
    b.Reaches after :=
  h.tail (next_of_view view)

/-- The tokens that were read are the first of those that followed, and the last of them is the one
that is kept. -/
theorem Reaches.exists_read (h : b.Reaches c) :
    ∃ read, b.rest = read ++ c.rest ∧
      c.lastSpan = (read.getLast?.map Lexeme.span).getD b.lastSpan := by
  induction h with
  | refl => exact ⟨[], rfl, rfl⟩
  | tail _ next ih =>
    obtain ⟨read, rest, -⟩ := ih
    obtain ⟨x, rest', span, -⟩ := next
    exact ⟨read ++ [x], by simp [rest, rest'], by simp [span]⟩

end Cursor

/-! ### Replies -/

/-- An expression that begins at a place, ends at another, and is no statement, since it is no
call. -/
structure Expr.Stray (x : Expr) (first d : Cursor) : Prop where
  read : ∃ less, Expr.parseList first = .ok [x] d less
  noCall : x.call? = none

/-- The span of an error that is met at a place `d` by a parser that began at `b`. -/
inductive SyntaxError.Blames (b : Cursor) (e : SyntaxError) (d : Cursor) : Prop
  | here (span : e.span = d.span)
  | statement {first : Cursor} {x : Expr} (code : e.code = .invalidExpressionStatement)
      (reached : b.Reaches first) (stray : x.Stray first d) (span : e.span = first.span)

namespace Reply

variable {α β : Type} {m n j k : Nat} {b c : Cursor}

/-- A reply of a parser that began at `b`, or behind it. -/
def Tracks (b : Cursor) : Reply n k α → Prop
  | ok _ after _ => b.Reaches after
  | error e at_ _ => b.Reaches at_ ∧ e.Blames b at_

/-- What is done next may depend on what the first parser replied. -/
theorem Tracks.andThen_of_eq {r : Reply m k α}
    {f : (value : α) → (after : Cursor) → after.size + k ≤ m → Reply n j β} {h : m ≤ n}
    (first : r.Tracks b)
    (second : ∀ value after le, r = .ok value after le → b.Reaches after →
      (f value after le).Tracks b) :
    (r.andThen f h).Tracks b := by
  cases r with
  | ok value after le => exact second value after le rfl first
  | error => exact first

theorem Tracks.andThen {r : Reply m k α}
    {f : (value : α) → (after : Cursor) → after.size + k ≤ m → Reply n j β} {h : m ≤ n}
    (first : r.Tracks b)
    (second : ∀ value after le, b.Reaches after → (f value after le).Tracks b) :
    (r.andThen f h).Tracks b :=
  first.andThen_of_eq fun value after le _ => second value after le

theorem Tracks.relax {r : Reply m k α} {h : m ≤ n} {h' : m + j ≤ n + k} (first : r.Tracks b) :
    (r.relax h h' : Reply n j α).Tracks b := by
  cases r <;> exact first

theorem tracks_fail {code : ErrorCode} {message : String} {h : c.size ≤ n} (reached : b.Reaches c) :
    (c.fail code message h : Reply n k α).Tracks b :=
  ⟨reached, .here rfl⟩

/-- What is behind a place is behind all places before it. -/
theorem Tracks.behind {r : Reply n k α} (reached : b.Reaches c) (h : r.Tracks c) : r.Tracks b := by
  cases r with
  | ok => exact reached.trans h
  | error =>
    refine ⟨reached.trans h.1, ?_⟩
    cases h.2 with
    | here span => exact .here span
    | statement code reached' stray span =>
      exact .statement code (reached.trans reached') stray span

end Reply

open Reply

variable {b c : Cursor}

/-! ### The smallest parsers -/

namespace Cursor

theorem expect_tracks {t : Token} {message : String} (h : b.Reaches c) :
    (c.expect t message).Tracks b := by
  unfold Cursor.expect
  split
  · rename_i view
    split
    · exact h.view view
    · exact tracks_fail h
  · exact tracks_fail h

theorem expectString_tracks {message : String} (h : b.Reaches c) :
    (c.expectString message).Tracks b := by
  unfold Cursor.expectString
  split
  · rename_i view
    exact h.view view
  · exact tracks_fail h
  · exact tracks_fail h

theorem expectIdent_tracks {what : String} (h : b.Reaches c) : (c.expectIdent what).Tracks b := by
  unfold Cursor.expectIdent
  split
  · rename_i view
    exact h.view view
  · exact tracks_fail h

theorem skipWhile_tracks {p : Token → Bool} (h : b.Reaches c) : (c.skipWhile p).Tracks b := by
  fun_induction Cursor.skipWhile p c with
  | case1 c x after _ view _ ih => exact (ih (h.view view)).relax
  | case2 => exact h
  | case3 => exact h

theorem skipNewlines_tracks (h : b.Reaches c) : c.skipNewlines.Tracks b := skipWhile_tracks h

theorem skipSeparators_tracks (h : b.Reaches c) : c.skipSeparators.Tracks b := skipWhile_tracks h

theorem expectTerminator_tracks (h : b.Reaches c) : c.expectTerminator.Tracks b := by
  unfold Cursor.expectTerminator
  split
  · exact h
  · rename_i view
    split
    · exact h
    · exact h
    · exact h.view view
    · exact h.view view
    · exact tracks_fail h

end Cursor

open Cursor

/-! ### Expressions -/

theorem Sign.parse?_tracks (h : b.Reaches c) : (Sign.parse? c).Tracks b := by
  unfold Sign.parse?
  split
  · rename_i view
    exact h.view view
  · rename_i view
    exact h.view view
  · exact h

mutual

theorem Expr.parseBinary_tracks {c : Cursor} (min : Nat) (h : b.Reaches c) :
    (Expr.parseBinary min c).Tracks b := by
  rw [Expr.parseBinary]
  refine (Expr.parseUnary_tracks h).andThen fun left c1 _ h => ?_
  exact (Expr.parseOperators_tracks min left h).relax
termination_by 4 * c.size + 2
decreasing_by all_goals omega

theorem Expr.parseOperators_tracks {c : Cursor} (min : Nat) (left : Expr) (h : b.Reaches c) :
    (Expr.parseOperators min left c).Tracks b := by
  rw [Expr.parseOperators]
  split
  · rename_i c1 _ view
    split
    · exact h
    · refine (skipNewlines_tracks (h.view view)).andThen fun _ c2 _ h => ?_
      refine (Expr.parseBinary_tracks _ h).andThen fun right c3 _ h => ?_
      exact (Expr.parseOperators_tracks min _ h).relax
  · exact h
termination_by 4 * c.size
decreasing_by all_goals omega

theorem Expr.parseUnary_tracks {c : Cursor} (h : b.Reaches c) : (Expr.parseUnary c).Tracks b := by
  rw [Expr.parseUnary]
  refine (Sign.parse?_tracks h).andThen fun sign c1 _ h => ?_
  exact (Primary.parse_tracks h).andThen fun primary c2 _ h => h
termination_by 4 * c.size + 1
decreasing_by all_goals omega

theorem Primary.parse_tracks {c : Cursor} (h : b.Reaches c) : (Primary.parse c).Tracks b := by
  rw [Primary.parse]
  split
  · exact tracks_fail h
  · rename_i x c1 _ view
    have next := h.view view
    split
    · exact next
    · exact next
    · exact next
    · exact next
    · exact next
    · split
      · rename_i c2 _ view
        exact (Expr.parseArguments_tracks (next.view view)).andThen fun args c3 _ h => h
      · rename_i c2 _ view
        refine (skipNewlines_tracks (next.view view)).andThen fun _ c3 _ h => ?_
        refine (Expr.parseBinary_tracks 1 h).andThen fun index c4 _ h => ?_
        refine (skipNewlines_tracks h).andThen fun _ c5 _ h => ?_
        exact (expect_tracks h).andThen fun _ c6 _ h => h
      · exact next
    · refine (skipNewlines_tracks next).andThen fun _ c2 _ h => ?_
      refine (Expr.parseBinary_tracks 1 h).andThen fun inner c3 _ h => ?_
      refine (skipNewlines_tracks h).andThen fun _ c4 _ h => ?_
      exact (expect_tracks h).andThen fun _ c5 _ h => h
    · exact tracks_fail h
termination_by 4 * c.size
decreasing_by all_goals omega

theorem Expr.parseArguments_tracks {c : Cursor} (h : b.Reaches c) :
    (Expr.parseArguments c).Tracks b := by
  rw [Expr.parseArguments]
  refine (skipNewlines_tracks h).andThen fun _ c1 _ h => ?_
  split
  · rename_i view
    exact h.view view
  · exact (Expr.parseArgumentList_tracks h).relax
termination_by 4 * c.size + 4
decreasing_by all_goals omega

theorem Expr.parseArgumentList_tracks {c : Cursor} (h : b.Reaches c) :
    (Expr.parseArgumentList c).Tracks b := by
  rw [Expr.parseArgumentList]
  refine (Expr.parseBinary_tracks 1 h).andThen fun arg c1 _ h => ?_
  refine (skipNewlines_tracks h).andThen fun _ c2 _ h => ?_
  split
  · rename_i c3 _ view
    refine (skipNewlines_tracks (h.view view)).andThen fun _ c4 _ h => ?_
    exact (Expr.parseArgumentList_tracks h).andThen fun args c5 _ h => h
  · exact (expect_tracks h).andThen fun _ c3 _ h => h
termination_by 4 * c.size + 3
decreasing_by all_goals omega

end

theorem Expr.parseMore_tracks {c : Cursor} (h : b.Reaches c) : (Expr.parseMore c).Tracks b := by
  rw [Expr.parseMore]
  split
  · rename_i c1 _ view
    refine (skipNewlines_tracks (h.view view)).andThen fun _ c2 _ h => ?_
    refine (Expr.parseBinary_tracks 1 h).andThen fun e c3 _ h => ?_
    exact (Expr.parseMore_tracks h).andThen fun es c4 _ h => h
  · exact h
termination_by c.size
decreasing_by all_goals omega

theorem Expr.parseList_tracks (h : b.Reaches c) : (Expr.parseList c).Tracks b := by
  refine (Expr.parseBinary_tracks 1 h).andThen fun e c1 _ h => ?_
  exact (Expr.parseMore_tracks h).andThen fun es c2 _ h => h

/-! ### Declarations -/

theorem Ident.parseMore_tracks {c : Cursor} {what : String} (h : b.Reaches c) :
    (Ident.parseMore what c).Tracks b := by
  rw [Ident.parseMore]
  split
  · rename_i c1 _ view
    refine (expectIdent_tracks (h.view view)).andThen fun id c2 _ h => ?_
    exact (Ident.parseMore_tracks h).andThen fun ids c3 _ h => h
  · exact h
termination_by c.size
decreasing_by all_goals omega

theorem Ident.parseList_tracks {what : String} (h : b.Reaches c) :
    (Ident.parseList what c).Tracks b := by
  refine (expectIdent_tracks h).andThen fun id c1 _ h => ?_
  exact (Ident.parseMore_tracks h).andThen fun ids c2 _ h => h

namespace TypeSpec

theorem parseName_tracks (h : b.Reaches c) : (parseName c).Tracks b := by
  unfold parseName
  split
  · exact expectIdent_tracks h
  · exact tracks_fail h

theorem parse_tracks (h : b.Reaches c) : (parse c).Tracks b := by
  unfold parse
  split
  · rename_i c1 _ view
    refine (Expr.parseBinary_tracks 1 (h.view view)).andThen fun length c2 _ h => ?_
    refine (expect_tracks h).andThen fun _ c3 _ h => ?_
    exact (parseName_tracks h).andThen fun element c4 _ h => h
  · exact (parseName_tracks h).andThen fun id c1 _ h => h

theorem parseNames_tracks {c : Cursor} (h : b.Reaches c) : (parseNames c).Tracks b := by
  rw [parseNames]
  refine (parseName_tracks h).andThen fun id c1 _ h => ?_
  split
  · rename_i c2 _ view
    exact (parseNames_tracks (h.view view)).andThen fun ids c3 _ h => h
  · exact h
termination_by c.size
decreasing_by all_goals omega

theorem parseResults_tracks (h : b.Reaches c) : (parseResults c).Tracks b := by
  unfold parseResults
  split
  · rename_i c1 _ view
    have next := h.view view
    split
    · rename_i view
      exact next.view view
    · refine (parseNames_tracks next).andThen fun ids c2 _ h => ?_
      exact (expect_tracks h).andThen fun _ c3 _ h => h
  · exact (parseName_tracks h).andThen fun id c1 _ h => h
  · exact h

end TypeSpec

namespace VarSpec

theorem parseType?_tracks (h : b.Reaches c) : (parseType? c).Tracks b := by
  unfold parseType?
  split
  · exact h
  · exact (TypeSpec.parse_tracks h).andThen fun type c1 _ h => h

theorem parseValues_tracks (h : b.Reaches c) : (parseValues c).Tracks b := by
  unfold parseValues
  split
  · rename_i c1 _ view
    refine (skipNewlines_tracks (h.view view)).andThen fun _ c2 _ h => ?_
    exact (Expr.parseList_tracks h).relax
  · exact h

theorem parse_tracks (h : b.Reaches c) : (parse c).Tracks b := by
  refine (Ident.parseList_tracks h).andThen fun names c1 _ h => ?_
  refine (parseType?_tracks h).andThen fun type? c2 _ h => ?_
  exact (parseValues_tracks h).andThen fun values c3 _ h => h

theorem parseGroup_tracks {c : Cursor} (h : b.Reaches c) : (parseGroup c).Tracks b := by
  rw [parseGroup]
  split
  · exact h
  · exact h
  · refine (parse_tracks h).andThen fun spec c1 _ h => ?_
    refine (expectTerminator_tracks h).andThen fun _ c2 _ h => ?_
    refine (skipSeparators_tracks h).andThen fun _ c3 _ h => ?_
    exact (parseGroup_tracks h).andThen fun specs c4 _ h => h
termination_by c.size
decreasing_by all_goals omega

end VarSpec

theorem VarDecl.parse_tracks (h : b.Reaches c) : (VarDecl.parse c).Tracks b := by
  unfold VarDecl.parse
  refine (expect_tracks h).andThen fun _ c1 _ h => ?_
  split
  · rename_i c2 _ view
    refine (skipSeparators_tracks (h.view view)).andThen fun _ c3 _ h => ?_
    refine (VarSpec.parseGroup_tracks h).andThen fun specs c4 _ h => ?_
    exact (expect_tracks h).andThen fun _ c5 _ h => h
  · exact (VarSpec.parse_tracks h).andThen fun spec c2 _ h => h

namespace ParamGroup

theorem parse_tracks (h : b.Reaches c) : (parse c).Tracks b := by
  refine (Ident.parseList_tracks h).andThen fun names c1 _ h => ?_
  exact (TypeSpec.parseName_tracks h).andThen fun type c2 _ h => h

theorem parseGroups_tracks {c : Cursor} (h : b.Reaches c) : (parseGroups c).Tracks b := by
  rw [parseGroups]
  split
  · exact h
  · refine (parse_tracks h).andThen fun group c1 _ h => ?_
    refine (skipNewlines_tracks h).andThen fun _ c2 _ h => ?_
    split
    · rename_i c3 _ view
      refine (skipNewlines_tracks (h.view view)).andThen fun _ c4 _ h => ?_
      exact (parseGroups_tracks h).andThen fun groups c5 _ h => h
    · exact h
termination_by c.size
decreasing_by all_goals omega

theorem parseList_tracks (h : b.Reaches c) : (parseList c).Tracks b := by
  refine (skipNewlines_tracks h).andThen fun _ c1 _ h => ?_
  exact (parseGroups_tracks h).relax

end ParamGroup

/-! ### Statements -/

theorem Stmt.parseValues_tracks (h : b.Reaches c) : (Stmt.parseValues c).Tracks b := by
  refine (skipNewlines_tracks h).andThen fun _ c1 _ h => ?_
  exact (Expr.parseList_tracks h).relax

theorem Stmt.parseSimple_tracks (h : b.Reaches c) : (Stmt.parseSimple c).Tracks b := by
  -- The place where the statement begins is remembered, so it is the beginning here.
  refine Tracks.behind h ?_
  unfold Stmt.parseSimple
  refine (Expr.parseList_tracks .refl).andThen_of_eq fun left c1 le parsed h => ?_
  split
  · rename_i c2 _ view
    have next := h.view view
    split
    · exact (Stmt.parseValues_tracks next).andThen fun values c3 _ h => h
    · exact tracks_fail next
  · rename_i c2 _ view
    have next := h.view view
    split
    · exact (Stmt.parseValues_tracks next).andThen fun values c3 _ h => h
    · exact tracks_fail next
  · split
    · split
      · exact h
      · rename_i noCall
        exact ⟨h, .statement rfl .refl ⟨⟨le, parsed⟩, noCall⟩ rfl⟩
    · exact tracks_fail h

theorem Stmt.parseReturn_tracks (h : b.Reaches c) : (Stmt.parseReturn c).Tracks b := by
  unfold Stmt.parseReturn
  refine (expect_tracks h).andThen fun _ c1 _ h => ?_
  split
  · exact h
  · exact (Expr.parseList_tracks h).andThen fun values c2 _ h => h

mutual

theorem Stmt.parse_tracks {c : Cursor} (h : b.Reaches c) : (Stmt.parse c).Tracks b := by
  rw [Stmt.parse]
  split
  · exact (VarDecl.parse_tracks h).andThen fun decl c1 _ h => h
  · exact (IfStmt.parse_tracks h).andThen fun stmt c1 _ h => h
  · exact Stmt.parseLoop_tracks h
  · exact Stmt.parseReturn_tracks h
  · exact (Block.parse_tracks h).andThen fun body c1 _ h => h
  · exact Stmt.parseSimple_tracks h
termination_by 3 * c.size + 1
decreasing_by all_goals omega

theorem Block.parse_tracks {c : Cursor} (h : b.Reaches c) : (Block.parse c).Tracks b := by
  rw [Block.parse]
  refine (expect_tracks h).andThen fun _ c1 _ h => ?_
  refine (skipSeparators_tracks h).andThen fun _ c2 _ h => ?_
  refine (Block.parseStatements_tracks h).andThen fun statements c3 _ h => ?_
  exact (expect_tracks h).andThen fun _ c4 _ h => h
termination_by 3 * c.size
decreasing_by all_goals omega

theorem Block.parseStatements_tracks {c : Cursor} (h : b.Reaches c) :
    (Block.parseStatements c).Tracks b := by
  rw [Block.parseStatements]
  split
  · exact h
  · exact h
  · refine (Stmt.parse_tracks h).andThen fun stmt c1 _ h => ?_
    refine (expectTerminator_tracks h).andThen fun _ c2 _ h => ?_
    refine (skipSeparators_tracks h).andThen fun _ c3 _ h => ?_
    exact (Block.parseStatements_tracks h).andThen fun stmts c4 _ h => h
termination_by 3 * c.size + 2
decreasing_by all_goals omega

theorem IfStmt.parse_tracks {c : Cursor} (h : b.Reaches c) : (IfStmt.parse c).Tracks b := by
  rw [IfStmt.parse]
  refine (expect_tracks h).andThen fun _ c1 _ h => ?_
  refine (Expr.parseBinary_tracks 1 h).andThen fun condition c2 _ h => ?_
  refine (Block.parse_tracks h).andThen fun body c3 _ h => ?_
  exact (ElseBranch.parse_tracks h).andThen fun otherwise c4 _ h => h
termination_by 3 * c.size
decreasing_by all_goals omega

theorem ElseBranch.parse_tracks {c : Cursor} (h : b.Reaches c) : (ElseBranch.parse c).Tracks b := by
  rw [ElseBranch.parse]
  split
  · rename_i c1 _ view
    have next := h.view view
    split
    · exact (IfStmt.parse_tracks next).andThen fun stmt c2 _ h => h
    · exact (Block.parse_tracks next).andThen fun body c2 _ h => h
    · exact tracks_fail next
  · exact h
termination_by 3 * c.size
decreasing_by all_goals omega

theorem Stmt.parseLoop_tracks {c : Cursor} (h : b.Reaches c) : (Stmt.parseLoop c).Tracks b := by
  rw [Stmt.parseLoop]
  refine (expect_tracks h).andThen fun _ c1 _ h => ?_
  refine (Expr.parseBinary_tracks 1 h).andThen fun condition c2 _ h => ?_
  exact (Block.parse_tracks h).andThen fun body c3 _ h => h
termination_by 3 * c.size
decreasing_by all_goals omega

end

/-! ### Files -/

theorem FuncDecl.parse_tracks (h : b.Reaches c) : (FuncDecl.parse c).Tracks b := by
  refine (expect_tracks h).andThen fun _ c1 _ h => ?_
  refine (expectIdent_tracks h).andThen fun name c2 _ h => ?_
  refine (expect_tracks h).andThen fun _ c3 _ h => ?_
  refine (ParamGroup.parseList_tracks h).andThen fun params c4 _ h => ?_
  refine (expect_tracks h).andThen fun _ c5 _ h => ?_
  refine (TypeSpec.parseResults_tracks h).andThen fun results c6 _ h => ?_
  exact (Block.parse_tracks h).andThen fun body c7 _ h => h

theorem Decl.parse_tracks (h : b.Reaches c) : (Decl.parse c).Tracks b := by
  unfold Decl.parse
  split
  · exact (VarDecl.parse_tracks h).andThen fun decl c1 _ h => h
  · exact (FuncDecl.parse_tracks h).andThen fun decl c1 _ h => h
  · exact tracks_fail h
  · exact tracks_fail h

namespace File

theorem skipPaths_tracks {c : Cursor} (h : b.Reaches c) : (skipPaths c).Tracks b := by
  rw [skipPaths]
  split
  · rename_i c1 _ view
    refine (skipSeparators_tracks (h.view view)).andThen fun _ c2 _ h => ?_
    exact (skipPaths_tracks h).relax
  · exact h
termination_by c.size
decreasing_by all_goals omega

theorem skipPathSpec_tracks (h : b.Reaches c) : (skipPathSpec c).Tracks b := by
  unfold skipPathSpec
  split
  · rename_i c1 _ view
    refine (skipSeparators_tracks (h.view view)).andThen fun _ c2 _ h => ?_
    refine (skipPaths_tracks h).andThen fun _ c3 _ h => ?_
    exact (expect_tracks h).relax
  · exact (expectString_tracks h).andThen fun _ c1 _ h => h

theorem skipImports_tracks {c : Cursor} (h : b.Reaches c) : (skipImports c).Tracks b := by
  rw [skipImports]
  split
  · rename_i c1 _ view
    refine (skipPathSpec_tracks (h.view view)).andThen fun _ c2 _ h => ?_
    refine (expectTerminator_tracks h).andThen fun _ c3 _ h => ?_
    refine (skipSeparators_tracks h).andThen fun _ c4 _ h => ?_
    exact (skipImports_tracks h).relax
  · exact h
termination_by c.size
decreasing_by all_goals omega

theorem parsePackage?_tracks (h : b.Reaches c) : (parsePackage? c).Tracks b := by
  unfold parsePackage?
  split
  · rename_i c1 _ view
    refine (expectIdent_tracks (h.view view)).andThen fun name c2 _ h => ?_
    exact (expectTerminator_tracks h).andThen fun _ c3 _ h => h
  · exact h

theorem parseDecls_tracks {c : Cursor} (h : b.Reaches c) : (parseDecls c).Tracks b := by
  rw [parseDecls]
  refine (skipSeparators_tracks h).andThen fun _ c1 _ h => ?_
  split
  · exact h
  · refine (Decl.parse_tracks h).andThen fun decl c2 _ h => ?_
    refine (expectTerminator_tracks h).andThen fun _ c3 _ h => ?_
    exact (parseDecls_tracks h).andThen fun decls c4 _ h => h
termination_by c.size
decreasing_by all_goals omega

theorem parseTokens_tracks (c : Cursor) : (parseTokens c).Tracks c := by
  refine (skipSeparators_tracks .refl).andThen fun _ c1 _ h => ?_
  refine (parsePackage?_tracks h).andThen fun package? c2 _ h => ?_
  refine (skipSeparators_tracks h).andThen fun _ c3 _ h => ?_
  refine (skipImports_tracks h).andThen fun _ c4 _ h => ?_
  exact (parseDecls_tracks h).andThen fun decls c5 _ h => h

/-! ### Tokens of errors -/

/-- There is no error if there are no tokens. -/
theorem parseTokens_nil {span : Span} {line : Nat} :
    (parseTokens ⟨span, line, []⟩).result = .ok { package? := none, decls := [] } := by
  have done (p : Token → Bool) : Cursor.skipWhile p ⟨span, line, []⟩ = .ok () ⟨span, line, []⟩ := by
    rw [Cursor.skipWhile]
    rfl
  have imports : skipImports ⟨span, line, []⟩ = .ok () ⟨span, line, []⟩ := by
    rw [skipImports]
    rfl
  have decls : parseDecls ⟨span, line, []⟩ = .ok [] ⟨span, line, []⟩ := by
    rw [parseDecls, Cursor.skipSeparators, done]
    rfl
  simp only [parseTokens, Cursor.skipSeparators, done, parsePackage?, Cursor.view, imports, decls,
    Reply.andThen]
  rfl

/-- The span of the next token, or of the last one at the end, if there is any token at all. -/
theorem exists_token_of_reaches {source : String} {tokens : List SpannedToken} {c : Cursor}
    (some : tokens ≠ []) (h : (Cursor.start source tokens).Reaches c) :
    ∃ read t unread, tokens = read ++ t :: unread ∧ c.span = t.span ∧
      (c.rest = (Cursor.start source (t :: unread)).rest ∨ c.size = 0 ∧ unread = []) := by
  obtain ⟨lexemes, rest, last⟩ := h.exists_read
  obtain ⟨read, unread, rfl, rfl, left⟩ := List.map_eq_append_iff.1 rest
  cases unread with
  | cons t unread => exact ⟨read, t, unread, rfl, by simp [Cursor.span, ← left], .inl left.symm⟩
  | nil =>
    rw [List.append_nil] at some
    obtain ⟨read, t, rfl⟩ := (List.eq_nil_or_concat read).resolve_left some
    refine ⟨read, t, [], by simp, ?_, .inr ⟨by simp [Cursor.size, ← left], rfl⟩⟩
    rw [Cursor.span, ← left, List.map_nil, last]
    simp

theorem size_of_rest {source : String} {t : SpannedToken} {unread : List SpannedToken} {c : Cursor}
    (h : c.rest = (Cursor.start source (t :: unread)).rest) : c.size = unread.length + 1 := by
  simp [Cursor.size, h, Cursor.start]

/-- The error of a parser has the span of a token. This is the next one at the place where the
parser is, or the last one at the end, or the first one of an expression that is no statement. -/
theorem exists_token_of_parseTokens {source : String} {tokens : List SpannedToken} {e : SyntaxError}
    (h : (parseTokens (Cursor.start source tokens)).result = .error e) :
    ∃ read t unread, tokens = read ++ t :: unread ∧ e.span = t.span ∧
      ((parseTokens (Cursor.start source tokens)).stop.size = unread.length + 1 ∨
        (parseTokens (Cursor.start source tokens)).stop.size = 0 ∧ unread = [] ∨
        e.code = .invalidExpressionStatement ∧
          (parseTokens (Cursor.start source tokens)).stop.size ≤ unread.length ∧
          ∃ first x, first.rest = (Cursor.start source (t :: unread)).rest ∧
            Expr.Stray x first (parseTokens (Cursor.start source tokens)).stop) := by
  have tracks := parseTokens_tracks (Cursor.start source tokens)
  have some : tokens ≠ [] := by
    rintro rfl
    cases h.symm.trans parseTokens_nil
  generalize parseTokens (Cursor.start source tokens) = reply at h tracks
  cases reply with
  | ok => cases h
  | error e' stop =>
    obtain rfl := Except.error.inj h
    obtain ⟨reached, blames⟩ := tracks
    -- The error is at the place that was reached, or at the beginning of an expression that was
    -- read as a statement.
    cases blames with
    | here span =>
      obtain ⟨read, t, unread, split, same, place⟩ := exists_token_of_reaches some reached
      refine ⟨read, t, unread, split, span.trans same, place.imp size_of_rest .inl⟩
    | @statement first x code reached stray span =>
      obtain ⟨read, t, unread, split, same, place⟩ := exists_token_of_reaches some reached
      obtain ⟨less, -⟩ := stray.read
      have rest : first.rest = (Cursor.start source (t :: unread)).rest :=
        place.resolve_right fun atEnd => by omega
      have size := size_of_rest rest
      refine ⟨read, t, unread, split, span.trans same,
        .inr (.inr ⟨code, ?_, first, x, rest, stray⟩)⟩
      show stop.size ≤ unread.length
      omega

end File

end MiniGo
