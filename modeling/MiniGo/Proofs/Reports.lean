import MiniGo.Proofs.Lexing.Tokens
import MiniGo.Proofs.Syntax.Faults

/-!
# Reports of syntax errors

A report is made from the source text by slices and differences of byte offsets. A slice must begin
and end between characters of the text, and a difference must not be negative. Here both are
checked, and they never fail for the errors of a source text.

* `slice?`, `minus?`: slices and differences, if they can be taken.
* `Location.ofOffset?`, `SyntaxError.render?`: the location of an offset and the report of an error,
  with these.
* `Span.Fits`: a span of some characters of a source text.
* `SyntaxError.render?_eq_some`: the report of an error whose span fits.
* `parse_error_reported`: the errors of every source text.
-/

namespace MiniGo

/-! ### Slices -/

/-- The bytes of a text from one offset to another, if both are between characters and they are in
order. -/
def slice? (start stop : Nat) (cs : List Char) : Option (List Char) :=
  if start ≤ stop ∧ byteSize (takeBytes start cs) = start ∧ byteSize (takeBytes stop cs) = stop then
    some (dropBytes start (takeBytes stop cs))
  else none

/-- A difference that is not negative. -/
def minus? (a b : Nat) : Option Nat := if b ≤ a then some (a - b) else none

section Slices

variable {cs before x after : List Char}

theorem takeBytes_byteSize_append : takeBytes (byteSize before) (before ++ after) = before := by
  induction before with
  | nil =>
    cases after with
    | nil => rfl
    | cons c cs =>
      have := c.utf8Size_pos
      rw [List.nil_append, takeBytes, byteSize_nil, if_neg (by omega)]
  | cons c before ih =>
    rw [List.cons_append, takeBytes, byteSize_cons, if_pos (Nat.le_add_right _ _),
      Nat.add_sub_cancel_left, ih]

theorem dropBytes_byteSize_append : dropBytes (byteSize before) (before ++ after) = after := by
  have whole := takeBytes_append_dropBytes (byteSize before) (before ++ after)
  rwa [takeBytes_byteSize_append, List.append_cancel_left_eq] at whole

/-- An offset is between characters if the characters before it have as many bytes. -/
theorem byteSize_takeBytes_iff {n : Nat} :
    byteSize (takeBytes n cs) = n ↔ ∃ before after, cs = before ++ after ∧ n = byteSize before := by
  constructor
  · intro whole
    exact ⟨_, _, (takeBytes_append_dropBytes n cs).symm, whole.symm⟩
  · rintro ⟨before, after, rfl, rfl⟩
    rw [takeBytes_byteSize_append]

/-- A start of a text with fewer bytes is a start of one with more bytes. -/
theorem isPrefix_of_byteSize_le {y : List Char} (hx : x <+: cs) (hy : y <+: cs)
    (le : byteSize x ≤ byteSize y) :
    x <+: y := by
  rcases List.prefix_or_prefix_of_prefix hx hy with inside | ⟨more, rfl⟩
  · exact inside
  · by_cases none : more = []
    · rw [none, List.append_nil]
    · have := byteSize_pos none
      rw [byteSize_append] at le
      omega

/-- A slice consists of the characters between two offsets. -/
theorem slice?_eq_some_iff {start stop : Nat} :
    slice? start stop cs = some x ↔
      ∃ before after, cs = before ++ (x ++ after) ∧ start = byteSize before ∧
        stop = byteSize (before ++ x) := by
  unfold slice?
  constructor
  · intro h
    split at h
    · rename_i fits
      obtain ⟨le, atStart, atStop⟩ := fits
      obtain ⟨before, rest, rfl, rfl⟩ := byteSize_takeBytes_iff.1 atStart
      obtain ⟨whole, after, split, rfl⟩ := byteSize_takeBytes_iff.1 atStop
      obtain ⟨inside, rfl⟩ :=
        isPrefix_of_byteSize_le (List.prefix_append _ _) ⟨after, split.symm⟩ le
      rw [split, takeBytes_byteSize_append, dropBytes_byteSize_append, Option.some.injEq] at h
      subst h
      exact ⟨before, after, by rw [split, List.append_assoc], rfl, rfl⟩
    · cases h
  · rintro ⟨before, after, rfl, rfl, rfl⟩
    have split : before ++ (x ++ after) = (before ++ x) ++ after := (List.append_assoc _ _ _).symm
    have le : byteSize before ≤ byteSize (before ++ x) := by simp
    rw [if_pos ⟨le, by rw [takeBytes_byteSize_append], by rw [split, takeBytes_byteSize_append]⟩,
      split, takeBytes_byteSize_append, dropBytes_byteSize_append]

end Slices

/-! ### Locations -/

/-- The offset of the first newline. -/
def newline? : List Char → Option Nat
  | [] => none
  | c :: cs => if c = '\n' then some 0 else (newline? cs).map (c.utf8Size + ·)

/-- The offset of the last newline. -/
def lastNewline? : List Char → Option Nat
  | [] => none
  | c :: cs =>
    match lastNewline? cs with
    | some i => some (c.utf8Size + i)
    | none => if c = '\n' then some 0 else none

/-- The location of an offset. The text of its line is what is between the newlines around it. -/
def Location.ofOffset? (source : String) (offset : Nat) : Option Location := do
  let cs := source.toList
  let offset := min offset (byteSize cs)
  let before ← slice? 0 offset cs
  let lineStart := ((lastNewline? before).map (· + 1)).getD 0
  let head ← slice? lineStart (byteSize before) before
  let tail ← slice? offset (byteSize cs) cs
  let lineEnd := ((newline? tail).map (offset + ·)).getD (byteSize cs)
  let content ← slice? lineStart lineEnd cs
  some { line := before.count '\n' + 1, column := head.length + 1, content :=
    String.ofList content }

namespace SyntaxError

/-- The report of an error. -/
def render? (e : SyntaxError) (source file : String) : Option String := do
  let loc ← Location.ofOffset? source e.span.start
  let underline ← minus? loc.column 1
  let length ← minus? e.span.stop e.span.start
  let margin := blanks (toString loc.line).length
  let carets := min (max length 1) (max (loc.content.utf8ByteSize - underline) 1)
  some (String.join
    [ "error[", e.code.text, "]: ", e.message, "\n",
      "  --> ", file, ":", toString loc.line, ":", toString loc.column, "\n",
      margin, " |\n",
      toString loc.line, " | ", loc.content, "\n",
      margin, " | ", blanks underline, String.ofList (List.replicate carets '^'), "\n",
      match e.hint with
      | some hint => margin ++ " = hint: " ++ hint ++ "\n"
      | none => "" ])

end SyntaxError

section Locations

variable {cs before after : List Char}

theorem newline?_getD (n : Nat) :
    ((newline? cs).map (n + ·)).getD (n + byteSize cs) = n + byteSize (firstLine cs) := by
  induction cs generalizing n with
  | nil => rfl
  | cons c cs ih =>
    by_cases here : c = '\n'
    · simp [newline?, firstLine, here]
    · have first : firstLine (c :: cs) = c :: firstLine cs := by simp [firstLine, here]
      have ih := ih (n + c.utf8Size)
      simp only [newline?, if_neg here, Option.map_map, Function.comp_def, first, byteSize_cons,
        ← Nat.add_assoc] at ih ⊢
      exact ih

theorem lastNewline?_eq_none (one : '\n' ∉ cs) : lastNewline? cs = none := by
  induction cs with
  | nil => rfl
  | cons c cs ih =>
    obtain ⟨here, later⟩ : '\n' ≠ c ∧ '\n' ∉ cs := by simpa using one
    rw [lastNewline?, ih later]
    exact if_neg (Ne.symm here)

theorem lastNewline?_append (last : '\n' ∉ after) :
    lastNewline? (before ++ '\n' :: after) = some (byteSize before) := by
  induction before with
  | nil =>
    rw [List.nil_append, lastNewline?, lastNewline?_eq_none last]
    rfl
  | cons c before ih =>
    rw [List.cons_append, lastNewline?, ih]
    rfl

/-- The last line begins behind the last newline, or at the beginning of the text. -/
theorem exists_lines_before (cs : List Char) :
    ∃ lines, cs = lines ++ lastLine cs ∧
      ((lastNewline? cs).map (· + 1)).getD 0 = byteSize lines := by
  have whole : cs = (cs.reverse.dropWhile (· ≠ '\n')).reverse ++ lastLine cs := by
    rw [lastLine, ← List.reverse_append, List.takeWhile_append_dropWhile, List.reverse_reverse]
  have last : '\n' ∉ lastLine cs := by
    intro mem
    have := List.all_eq_true.1 List.all_takeWhile '\n' (List.mem_reverse.1 mem)
    simp at this
  refine ⟨_, whole, ?_⟩
  generalize lastLine cs = line at whole last
  -- Without a line break the search finds nothing; else it finds the last one.
  cases rest : cs.reverse.dropWhile (· ≠ '\n') with
  | nil =>
    rw [rest] at whole
    rw [whole, List.reverse_nil, List.nil_append, lastNewline?_eq_none last]
    rfl
  | cons c lines =>
    have isNewline : c = '\n' := by
      have := List.head?_dropWhile_not (· ≠ '\n') cs.reverse
      rw [rest] at this
      simpa using this
    subst isNewline
    rw [rest] at whole
    have split : cs = lines.reverse ++ '\n' :: line := by simpa using whole
    rw [split, lastNewline?_append last]
    simp
    rfl

theorem Location.ofOffset?_eq_some {source : String} (text : source.toList = before ++ after) :
    Location.ofOffset? source (byteSize before) =
      some (Location.ofOffset source (byteSize before)) := by
  -- Each slice is between places at which the text is cut into whole characters.
  obtain ⟨lines, split, start⟩ := exists_lines_before before
  have inside : min (byteSize before) (byteSize (before ++ after)) = byteSize before := by simp
  have first : slice? 0 (byteSize before) (before ++ after) = some before :=
    slice?_eq_some_iff.2 ⟨[], after, rfl, rfl, rfl⟩
  have head : slice? (byteSize lines) (byteSize before) before = some (lastLine before) :=
    slice?_eq_some_iff.2 ⟨lines, [], by rw [List.append_nil, ← split], rfl, by rw [← split]⟩
  have tail : slice? (byteSize before) (byteSize (before ++ after)) (before ++ after) =
      some after :=
    slice?_eq_some_iff.2 ⟨before, [], by rw [List.append_nil], rfl, rfl⟩
  have content : slice? (byteSize lines) (byteSize before + byteSize (firstLine after))
      (before ++ after) = some (lastLine before ++ firstLine after) := by
    refine slice?_eq_some_iff.2 ⟨lines, after.drop (firstLine after).length, ?_, rfl, ?_⟩
    · have rest : firstLine after ++ after.drop (firstLine after).length = after :=
        append_drop_length (takeWhile_isPrefix _ _)
      rw [List.append_assoc, rest, ← List.append_assoc, ← split]
    · rw [← List.append_assoc, ← split, byteSize_append]
  have stop : ((newline? after).map (byteSize before + ·)).getD (byteSize (before ++ after)) =
      byteSize before + byteSize (firstLine after) := by
    rw [byteSize_append]
    exact newline?_getD (byteSize before)
  simp only [Location.ofOffset?, text, inside, first, Option.bind_eq_bind, Option.bind_some, start,
    head, tail, stop, content, Location.ofOffset, takeBytes_byteSize_append,
    dropBytes_byteSize_append]

end Locations

/-! ### Reports -/

/-- A span of some characters of a source text. -/
def Span.Fits (source : String) (s : Span) : Prop :=
  ∃ before inside after, source.toList = before ++ (inside ++ after) ∧
    s = ⟨byteSize before, byteSize (before ++ inside)⟩

section Reports

variable {source : String} {s : Span} {e : SyntaxError}

theorem Span.Fits.le (h : s.Fits source) : s.start ≤ s.stop := by
  obtain ⟨before, inside, after, -, rfl⟩ := h
  simp

theorem Span.Fits.bounded (h : s.Fits source) : s.stop ≤ source.utf8ByteSize := by
  obtain ⟨before, inside, after, text, rfl⟩ := h
  rw [← String.ofList_toList (s := source), text, utf8ByteSize_ofList]
  simp

theorem Span.Fits.boundaries (h : s.Fits source) :
    String.Pos.Raw.IsValid source ⟨s.start⟩ ∧ String.Pos.Raw.IsValid source ⟨s.stop⟩ := by
  obtain ⟨before, inside, after, text, rfl⟩ := h
  rw [← String.ofList_toList (s := source), text]
  refine ⟨isValid_byteSize before _, ?_⟩
  rw [← List.append_assoc]
  exact isValid_byteSize (before ++ inside) after

/-- The report of an error can be made if its span fits, whatever the name of the file and the hint
are. -/
theorem SyntaxError.render?_eq_some (h : e.span.Fits source) (file : String) :
    e.render? source file = some (e.render source file) := by
  have ordered := h.le
  obtain ⟨before, inside, after, text, span⟩ := h
  have location := Location.ofOffset?_eq_some text
  have column : 1 ≤ (Location.ofOffset source (byteSize before)).column := Nat.le_add_left 1 _
  have start : e.span.start = byteSize before := by rw [span]
  simp only [render?, start, location, Option.bind_eq_bind, Option.bind_some, minus?, if_pos column]
  rw [← start, if_pos ordered]
  rfl

/-! ### Spans of errors -/

/-- The span of a lexical error fits. -/
theorem Stuck.fits {before rest : List Char} (text : source.toList = before ++ rest)
    (h : Stuck (byteSize before) rest e) : e.span.Fits source := by
  have inside {x : List Char} {s : Span} (le : x <+: rest)
      (span : s = ⟨byteSize before, byteSize before + byteSize x⟩) :
      s.Fits source := by
    obtain ⟨after, rfl⟩ := le
    exact ⟨before, x, after, text, by rw [span, byteSize_append]⟩
  cases h with
  | @noRule c after first _ => exact inside (x := [c]) ⟨after, first.symm⟩ rfl
  | openString longest => exact inside longest.isPrefix rfl
  | openComment longest => exact inside longest.isPrefix rfl
  | integer longest => exact inside longest.isPrefix rfl
  | decimal longest => exact inside longest.isPrefix rfl

/-- The span of a token fits. -/
theorem fits_of_mem_tokenize {tokens : List SpannedToken} (h : tokenize source = .ok tokens)
    {t : SpannedToken} (mem : t ∈ tokens) : t.span.Fits source := by
  have munches := tokensFrom_munches 0 source.toList
  rw [show tokensFrom 0 source.toList = .ok tokens from h] at munches
  obtain ⟨parts, whole, munched, rfl⟩ := munches
  obtain ⟨inside, text, after, split, -, span⟩ := @exists_span_of_mem _ _ [] t munched mem
  exact ⟨inside, text, after, by rw [← whole, split], span⟩

theorem fits_of_parse_eq_error (h : File.parse source = .error e) : e.span.Fits source := by
  unfold File.parse at h
  cases tokenized : tokenize source with
  | error e' =>
    rw [tokenized] at h
    obtain rfl := Except.error.inj h
    have munches := tokensFrom_munches 0 source.toList
    rw [show tokensFrom 0 source.toList = .error e' from tokenized] at munches
    obtain ⟨parts, rest, whole, -, stuck⟩ := munches
    rw [Nat.zero_add] at stuck
    exact stuck.fits whole.symm
  | ok tokens =>
    rw [tokenized] at h
    obtain ⟨read, t, unread, rfl, span, -⟩ := File.exists_token_of_parseTokens h
    rw [span]
    exact fits_of_mem_tokenize tokenized (List.mem_append_right _ (.head _))

/-- A syntax error always points into its source, and it can always be reported. Its span begins and
ends between characters. If the error is one of the parser, it is the span of a token: the next one
where the parser is, or the last one at the end, or the first one of an expression that is read up
to where the parser is, and is no statement. So the slices and differences of its report can be
taken, whatever the name of the file and the hint are. -/
theorem parse_error_reported (h : File.parse source = .error e) :
    (e.span.start ≤ e.span.stop ∧ e.span.stop ≤ source.utf8ByteSize) ∧
    (String.Pos.Raw.IsValid source ⟨e.span.start⟩ ∧ String.Pos.Raw.IsValid source ⟨e.span.stop⟩) ∧
    (∀ tokens, tokenize source = .ok tokens → ∃ read t unread, tokens = read ++ t :: unread ∧
      e.span = t.span ∧
      ((File.parseTokens (Cursor.start source tokens)).stop.size = unread.length + 1 ∨
        (File.parseTokens (Cursor.start source tokens)).stop.size = 0 ∧ unread = [] ∨
        e.code = .invalidExpressionStatement ∧
          (File.parseTokens (Cursor.start source tokens)).stop.size ≤ unread.length ∧
          ∃ first x, first.rest = (Cursor.start source (t :: unread)).rest ∧
            Expr.Stray x first (File.parseTokens (Cursor.start source tokens)).stop)) ∧
    ∀ file hint, ({ e with hint } : SyntaxError).render? source file =
      some (({ e with hint } : SyntaxError).render source file) := by
  have fits := fits_of_parse_eq_error h
  refine ⟨⟨fits.le, fits.bounded⟩, fits.boundaries, fun tokens tokenized => ?_, fun file hint => ?_⟩
  · refine File.exists_token_of_parseTokens ?_
    rwa [File.parse, tokenized] at h
  · exact SyntaxError.render?_eq_some (e := { e with hint }) fits file

/-- An expression that is no statement, with characters of more than one byte. -/
theorem parse_error_reported_wide :
    ∃ e, File.parse "func f() \x7b\n\"é→\"\n" = .error e ∧ e.span = ⟨11, 18⟩ ∧
      String.Pos.Raw.IsValid "func f() \x7b\n\"é→\"\n" ⟨e.span.stop⟩ ∧
      ∀ file, e.render? "func f() \x7b\n\"é→\"\n" file =
        some (e.render "func f() \x7b\n\"é→\"\n" file) := by
  have found : (match File.parse "func f() \x7b\n\"é→\"\n" with
      | .error e => some e.span
      | .ok _ => none) = some ⟨11, 18⟩ := by
    decide +kernel
  cases parsed : File.parse "func f() \x7b\n\"é→\"\n" with
  | ok =>
    rw [parsed] at found
    cases found
  | error e =>
    rw [parsed] at found
    obtain ⟨-, boundaries, -, reports⟩ := parse_error_reported parsed
    exact ⟨e, rfl, Option.some.inj found, boundaries.2, fun file => reports file e.hint⟩

end Reports

end MiniGo
