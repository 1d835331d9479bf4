import MiniGo.Proofs.Lines
import MiniGo.Proofs.Strings.Plain

/-!
# Carets

A report shows the line in which the span of an error begins, and carets in the line below it. The
first caret is always right below the character at which the span begins. Their number, however, is
computed from bytes, and a character may have more than one. So there may be more carets than
characters of the span in that line: too many are the further bytes of these characters, and also
those of the characters in front of them if the span goes on behind the line.

* `wide`: the bytes of a text beyond one for each character.
* `SyntaxError.shownLine`, `SyntaxError.caretLine`: the two lines of a report.
* `SyntaxError.Underlined`: a report with a given number of carets under a span.
* `surplus`: the carets that are too many.
* `report_underlined`: the carets of every report.
-/

namespace MiniGo

/-! ### Bytes and characters -/

/-- The bytes of a text beyond one for each character. -/
def wide (cs : List Char) : Nat := byteSize cs - cs.length

section Texts

variable {cs ds before inside after : List Char}

theorem byteSize_eq_add_wide (cs : List Char) : byteSize cs = cs.length + wide cs := by
  have le : cs.length ≤ byteSize cs := by
    induction cs with
    | nil => exact Nat.le_refl 0
    | cons c cs ih =>
      have := c.utf8Size_pos
      rw [List.length_cons, byteSize_cons]
      omega
  rw [wide]
  omega

theorem newline_notMem_firstLine (cs : List Char) : '\n' ∉ firstLine cs := fun mem => by
  simpa using List.all_eq_true.1 List.all_takeWhile _ mem

theorem newline_notMem_lastLine (cs : List Char) : '\n' ∉ lastLine cs := fun mem =>
  newline_notMem_firstLine cs.reverse (List.mem_reverse.1 mem)

theorem firstLine_of_notMem (one : '\n' ∉ cs) : firstLine cs = cs := by
  simpa [firstLine] using firstLine_append one []

theorem firstLine_append_of_mem (some : '\n' ∈ cs) (ds : List Char) :
    firstLine (cs ++ ds) = firstLine cs := by
  obtain ⟨line, rest, rfl, one⟩ := List.eq_append_cons_of_mem some
  rw [List.append_assoc, firstLine_append one, firstLine_append one]
  rfl

/-- A text is its first line and what is behind it. -/
theorem firstLine_append_drop (cs : List Char) :
    firstLine cs ++ cs.drop (firstLine cs).length = cs :=
  append_drop_length (takeWhile_isPrefix _ _)

/-- There is something behind the first line exactly if there is a newline. -/
theorem drop_firstLine_eq_nil_iff : cs.drop (firstLine cs).length = [] ↔ '\n' ∉ cs := by
  constructor
  · intro none
    have whole := firstLine_append_drop cs
    rw [none, List.append_nil] at whole
    exact whole ▸ newline_notMem_firstLine cs
  · intro one
    rw [firstLine_of_notMem one, List.drop_length]

/-! ### The number of carets -/

/-- The carets that are too many under the characters `inside` behind the characters `before`: the
further bytes of those in the first line, and the further bytes of those in front of them in the
line, as far as the span has bytes behind the line. -/
def surplus (before inside : List Char) : Nat :=
  wide (firstLine inside) + min (byteSize (inside.drop (firstLine inside).length))
    (wide (lastLine before))

/-- The number of carets, for a span of the characters `inside`. -/
theorem caretCount_eq (before inside after : List Char) :
    SyntaxError.caretCount (byteSize inside) ((lastLine before).length + 1)
        (String.ofList (lastLine before ++ firstLine (inside ++ after))) =
      max ((firstLine inside).length + surplus before inside) 1 := by
  have whole : byteSize inside = byteSize (firstLine inside) +
      byteSize (inside.drop (firstLine inside).length) := by
    rw [← byteSize_append, firstLine_append_drop]
  have first := byteSize_eq_add_wide (firstLine inside)
  have front := byteSize_eq_add_wide (lastLine before)
  rw [SyntaxError.caretCount, utf8ByteSize_ofList, byteSize_append, surplus]
  by_cases some : '\n' ∈ inside
  · have behind : 0 < byteSize (inside.drop (firstLine inside).length) :=
      byteSize_pos (drop_firstLine_eq_nil_iff.not.2 (not_not.2 some))
    rw [firstLine_append_of_mem some]
    omega
  · have behind : byteSize (inside.drop (firstLine inside).length) = 0 := by
      rw [drop_firstLine_eq_nil_iff.2 some, byteSize_nil]
    rw [firstLine_append some, byteSize_append]
    omega

end Texts

/-! ### The lines of a report -/

namespace SyntaxError

/-- The number of the line of an error, and the bar behind it. -/
def gutter (e : SyntaxError) (source : String) : String :=
  toString (Location.ofOffset source e.span.start).line ++ " | "

/-- The line of a report that shows a line of the source. -/
def shownLine (e : SyntaxError) (source : String) : String :=
  e.gutter source ++ (Location.ofOffset source e.span.start).content

/-- The line of a report with the carets. -/
def caretLine (e : SyntaxError) (source : String) : String :=
  let loc := Location.ofOffset source e.span.start
  blanks (toString loc.line).length ++ " | " ++ blanks (loc.column - 1) ++
    String.ofList (List.replicate (caretCount e.span.length loc.column loc.content) '^')

/-- A report with `n` carets under the characters `inside` of a source text, which are between
`before` and `after`. -/
structure Underlined (e : SyntaxError) (source file : String) (before inside after : List Char)
    (n : Nat) : Prop where
  /-- The caret line is right below the line that is shown. -/
  report : ∃ top bottom, e.render source file =
    top ++ "\n" ++ e.shownLine source ++ "\n" ++ e.caretLine source ++ "\n" ++ bottom
  single : Plain (e.shownLine source) ∧ Plain (e.caretLine source)
  /-- The shown line is the line in which the span begins, behind its number. -/
  shown : e.shownLine source = toString (before.count '\n' + 1) ++ " | " ++
    String.ofList (lastLine before ++ firstLine (inside ++ after))
  /-- In front of the first caret are as many characters as in front of the span. -/
  first : (e.caretLine source).toList.idxOf '^' =
    (toString (before.count '\n' + 1) ++ " | ").length + (lastLine before).length
  carets : (e.caretLine source).toList.drop ((e.caretLine source).toList.idxOf '^') =
      List.replicate n '^'

section Lines

variable {e : SyntaxError} {source file : String} {before inside after : List Char} {n : Nat}

/-- The caret line is right below the shown line. -/
theorem exists_render_eq (e : SyntaxError) (source file : String) :
    ∃ top bottom, e.render source file =
    top ++ "\n" ++ e.shownLine source ++ "\n" ++ e.caretLine source ++ "\n" ++ bottom := by
  let loc := Location.ofOffset source e.span.start
  let margin := blanks (toString loc.line).length
  refine ⟨"error[" ++ e.code.text ++ "]: " ++ e.message ++ "\n" ++ "  --> " ++ file ++ ":" ++
    toString loc.line ++ ":" ++ toString loc.column ++ "\n" ++ margin ++ " |",
    e.hint.elim "" fun hint => margin ++ " = hint: " ++ hint ++ "\n", ?_⟩
  have bar : " |\n" = " |" ++ "\n" := rfl
  cases hint : e.hint <;>
    simp only [render, shownLine, caretLine, gutter, String.join, List.foldl_cons, List.foldl_nil,
      String.append_assoc, String.empty_append, hint, Option.elim, bar, loc, margin]

theorem length_blanks (n : Nat) : (blanks n).length = n := by simp [blanks]

/-- The carets of a report, if its span is of the characters `inside`. -/
theorem underlined (file : String) (text : source.toList = before ++ (inside ++ after))
    (span : e.span = ⟨byteSize before, byteSize (before ++ inside)⟩) :
    e.Underlined source file before inside after
      (max ((firstLine inside).length + surplus before inside) 1) := by
  have place : Location.ofOffset source e.span.start =
      { line := before.count '\n' + 1
        column := (lastLine before).length + 1
        content := String.ofList (lastLine before ++ firstLine (inside ++ after)) } := by
    rw [span, Location.ofOffset, text]
    simp only [takeBytes_byteSize_append, dropBytes_byteSize_append]
  have length : e.span.length = byteSize inside := by
    rw [span, Span.length, byteSize_append, Nat.add_sub_cancel_left]
  have line : e.shownLine source = toString (before.count '\n' + 1) ++ " | " ++
      String.ofList (lastLine before ++ firstLine (inside ++ after)) := by
    rw [shownLine, gutter, place]
  -- What stands before the carets is as wide as the gutter and the characters before the span.
  obtain ⟨front, eq⟩ : ∃ front, front =
      blanks (toString (before.count '\n' + 1)).length ++ " | " ++
        blanks (lastLine before).length := ⟨_, rfl⟩
  have below : e.caretLine source =
      front ++ String.ofList
        (List.replicate (max ((firstLine inside).length + surplus before inside) 1) '^') := by
    rw [caretLine, place, length]
    simp only [caretCount_eq, Nat.add_sub_cancel, eq]
  generalize counted : max ((firstLine inside).length + surplus before inside) 1 = n at below
  -- There is always a caret, so the first one is right behind the front.
  obtain ⟨m, rfl⟩ : ∃ m, n = m + 1 := ⟨n - 1, by omega⟩
  have blank : '^' ∉ front.toList ∧ Plain front := by simp [eq, blanks]
  have width : front.toList.length =
      (toString (before.count '\n' + 1) ++ " | ").length + (lastLine before).length := by
    simp only [eq, String.length_toList, String.length_append, length_blanks]
  have first : (e.caretLine source).toList.idxOf '^' = front.toList.length := by
    rw [below, String.toList_append, List.idxOf_append_of_notMem blank.1, String.toList_ofList,
      List.replicate_succ, List.idxOf_cons_self, Nat.add_zero]
  refine ⟨exists_render_eq e source file, ⟨?_, ?_⟩, line, first.trans width, ?_⟩
  · rw [line]
    simp [newline_notMem_lastLine, newline_notMem_firstLine]
  · rw [below]
    exact plain_append.2 ⟨blank.2, by simp⟩
  · rw [first, below, String.toList_append, List.drop_left, String.toList_ofList]

/-- There is one number of carets. -/
theorem Underlined.unique {m : Nat} (h : e.Underlined source file before inside after m)
    (h' : e.Underlined source file before inside after n) : m = n := by
  simpa using congrArg List.length (h.carets.symm.trans h'.carets)

/-- How long the caret line is, beside the shown line. -/
theorem Underlined.length_eq (some : 0 < n) (h : e.Underlined source file before inside after n) :
    (e.caretLine source).length + (firstLine (inside ++ after)).length =
      (e.shownLine source).length + n := by
  have carets := congrArg List.length h.carets
  rw [List.length_drop, h.first, List.length_replicate, String.length_toList] at carets
  rw [h.shown, String.length_append, String.length_ofList, List.length_append]
  omega

end Lines

end SyntaxError

/-! ### Every report -/

section Reports

variable {source : String} {e : SyntaxError}

/-- A span between characters is one of some characters. -/
theorem Span.fits_of_boundaries {s : Span} (start : String.Pos.Raw.IsValid source ⟨s.start⟩)
    (stop : String.Pos.Raw.IsValid source ⟨s.stop⟩) (ordered : s.start ≤ s.stop) :
    s.Fits source := by
  obtain ⟨before, rest, text, size⟩ := exists_split_of_isValid start
  obtain ⟨upTo, after, text', size'⟩ := exists_split_of_isValid stop
  have le : byteSize before ≤ byteSize upTo := size ▸ size' ▸ ordered
  obtain ⟨inside, rfl⟩ := isPrefix_of_byteSize_le ⟨rest, text.symm⟩ ⟨after, text'.symm⟩ le
  exact ⟨before, inside, after, by rw [text', List.append_assoc], by rw [← size, ← size']⟩

/-- The characters of a span are those between its ends. -/
theorem eq_of_span {s : Span} {before inside after : List Char}
    (text : source.toList = before ++ (inside ++ after))
    (span : s = ⟨byteSize before, byteSize (before ++ inside)⟩) :
    before = takeBytes s.start source.toList ∧
    inside = dropBytes s.start (takeBytes s.stop source.toList) := by
  rw [span, text]
  refine ⟨takeBytes_byteSize_append.symm, ?_⟩
  rw [← List.append_assoc, takeBytes_byteSize_append, dropBytes_byteSize_append]

/-- The carets of a report, for each error whose span is between characters. The first caret is
right below the character at which the span begins. There are as many carets as the span has
characters in that line, or one if it has none there, and `surplus` besides; so their number is
right exactly if there is no surplus, or if the only caret is the surplus. If the span is within its
line, no caret is behind the line exactly if as many characters as the surplus follow the span. -/
theorem report_underlined (start : String.Pos.Raw.IsValid source ⟨e.span.start⟩)
    (stop : String.Pos.Raw.IsValid source ⟨e.span.stop⟩) (ordered : e.span.start ≤ e.span.stop)
    (file : String) :
    ∃ before inside after, source.toList = before ++ (inside ++ after) ∧
      e.span = ⟨byteSize before, byteSize (before ++ inside)⟩ ∧
      e.Underlined source file before inside after
        (max ((firstLine inside).length + surplus before inside) 1) ∧
      (e.Underlined source file before inside after (max (firstLine inside).length 1) ↔
        surplus before inside = 0 ∨ firstLine inside = [] ∧ surplus before inside = 1) ∧
      (inside ≠ [] → '\n' ∉ inside →
        ((e.caretLine source).length ≤ (e.shownLine source).length ↔
          surplus before inside ≤ (firstLine after).length)) := by
  obtain ⟨before, inside, after, text, span⟩ := Span.fits_of_boundaries start stop ordered
  have underlined := SyntaxError.underlined file text span
  -- The number of carets is settled, so the equivalences are left to arithmetic.
  refine ⟨before, inside, after, text, span, underlined, ⟨fun exact => ?_, fun exact => ?_⟩,
    fun some one => ?_⟩
  · have same := exact.unique underlined
    rw [← List.length_eq_zero_iff]
    omega
  · have same : max (firstLine inside).length 1 =
        max ((firstLine inside).length + surplus before inside) 1 := by
      rw [← List.length_eq_zero_iff] at exact
      omega
    rwa [same]
  · have length := underlined.length_eq (by omega)
    have pos := List.length_pos_iff.2 some
    rw [firstLine_of_notMem one] at length
    rw [firstLine_append one, List.length_append] at length
    omega

/-- The span of the error of a source text, and the lines of its report that show the source and the
carets. -/
def reportedLines? (source : String) : Option (Span × String × String) :=
  match File.parse source with
  | .error e => some (e.span, e.shownLine source, e.caretLine source)
  | .ok _ => none

/-- A comment that is not closed, behind a string with a character of two bytes. Its first line has
four characters, and there are five carets. -/
def openCommentSource : String := "\"é\" /*ab\ncd"

theorem openCommentSource_underlined :
    ∃ e, File.parse openCommentSource = .error e ∧
      String.Pos.Raw.IsValid openCommentSource ⟨e.span.start⟩ ∧
      String.Pos.Raw.IsValid openCommentSource ⟨e.span.stop⟩ ∧ e.span.start ≤ e.span.stop ∧
      e.shownLine openCommentSource = "1 | \"é\" /*ab" ∧
      e.caretLine openCommentSource = "  |     ^^^^^" ∧
      ∀ file, ∃ before inside after, openCommentSource.toList = before ++ (inside ++ after) ∧
        e.Underlined openCommentSource file before inside after
          (max ((firstLine inside).length + surplus before inside) 1) := by
  have found : reportedLines? openCommentSource =
      some (⟨5, 12⟩, "1 | \"é\" /*ab", "  |     ^^^^^") := by
    decide +kernel
  unfold reportedLines? at found
  cases parsed : File.parse openCommentSource with
  | ok => simp [parsed] at found
  | error e =>
    have fits := fits_of_parse_eq_error parsed
    simp only [parsed, Option.some.injEq, Prod.mk.injEq] at found
    refine ⟨e, rfl, fits.boundaries.1, fits.boundaries.2, fits.le, found.2.1, found.2.2,
      fun file => ?_⟩
    obtain ⟨before, inside, after, text, -, underlined, -⟩ :=
      report_underlined fits.boundaries.1 fits.boundaries.2 fits.le file
    exact ⟨before, inside, after, text, underlined⟩

/-- A string that is no statement: three characters, and four carets. -/
def accentedSource : String := "func main() \x7b\n\"é\"\n\x7d\n"

/-- There may be more carets than characters of the span, and then one behind the line. -/
theorem accentedSource_not_underlined :
    ∃ e, File.parse accentedSource = .error e ∧
      String.Pos.Raw.IsValid accentedSource ⟨e.span.start⟩ ∧
      String.Pos.Raw.IsValid accentedSource ⟨e.span.stop⟩ ∧ e.span.start ≤ e.span.stop ∧
      (∀ file, ¬ ∃ before inside after, accentedSource.toList = before ++ (inside ++ after) ∧
        e.span = ⟨byteSize before, byteSize (before ++ inside)⟩ ∧
        e.Underlined accentedSource file before inside after (max (firstLine inside).length 1)) ∧
      (e.shownLine accentedSource).length < (e.caretLine accentedSource).length := by
  have found : reportedLines? accentedSource = some (⟨14, 18⟩, "2 | \"é\"", "  | ^^^^") := by
    decide +kernel
  unfold reportedLines? at found
  cases parsed : File.parse accentedSource with
  | ok => simp [parsed] at found
  | error e =>
    have fits := fits_of_parse_eq_error parsed
    simp only [parsed, Option.some.injEq, Prod.mk.injEq] at found
    obtain ⟨span, shown, carets⟩ := found
    refine ⟨e, rfl, fits.boundaries.1, fits.boundaries.2, fits.le,
      ?_, by rw [shown, carets]; decide⟩
    rintro file ⟨before, inside, after, text, cut, exact⟩
    have same := exact.unique (SyntaxError.underlined file text cut)
    obtain ⟨rfl, rfl⟩ := eq_of_span text cut
    rw [span] at same
    revert same
    decide +kernel

end Reports

end MiniGo
