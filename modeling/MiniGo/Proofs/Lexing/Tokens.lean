import MiniGo.Proofs.Lexing.Scan
import MiniGo.Proofs.Rounding
import MiniGo.Token.Lexer

/-!
# The tokens of a source text are its longest matches

A source text is cut into parts, each of which is the longest text that a rule can take off what is
left. The tokens are those of the parts, with the bytes of the parts as spans. If the text cannot be
cut any further, the error is about the first place where this happens.

* `Part`, `Munched`: parts that are longest matches and numbers in range.
* `Stuck`: why a text cannot be cut, with the error.
* `SpansInOrder`: where the tokens of a source text are.
* `tokenize_longest`: both outcomes, for every source text.
-/

namespace MiniGo

/-! ### Numbers in range -/

/-- A number is in range: an integer is at most the magnitude of the least integer of 32 bits, and
the number nearest to a decimal is finite. -/
def Token.InRange : Token → Prop
  | .integer text => digitsValue text.toList ≤ 2 ^ 31
  | .decimal text =>
    ∃ (q : ℚ) (x : Binary32), Binary32.DecimalDenotes text.toList q ∧ x.isFinite = true ∧
      Binary32.Nearest q x
  | _ => True

/-- Each decimal has a value. -/
theorem exists_denotes_of_mem_decimal {text : List Char} (h : text ∈ Rule.decimal.language) :
    ∃ q, Binary32.DecimalDenotes text q := by
  have power {exponent : List Char} (mem : exponent ∈ optionally exponentTexts) :
      ∃ e, Binary32.ExponentDenotes exponent e := by
    rcases mem_optionally.1 mem with rfl | mem
    · exact ⟨_, .absent⟩
    · obtain ⟨mark, sign, digits, isMark, isSign, some, all, rfl⟩ := mem_exponentTexts.1 mem
      exact ⟨_, .present isMark isSign some all⟩
  rcases mem_decimal.1 h with ⟨whole, fraction, exponent, some, all, allFraction, mem, rfl⟩ |
    ⟨whole, exponent, some, all, mem, rfl⟩
  · obtain ⟨e, power⟩ := power mem
    exact ⟨_, .intro some all allFraction (.inl rfl) power⟩
  · obtain ⟨e, power⟩ := power (mem_optionally.2 (.inr mem))
    have denotes :=
      Binary32.DecimalDenotes.intro (by simpa using some) all (by simp) (.inr ⟨rfl, rfl⟩) power
    exact ⟨_, denotes⟩

theorem readFinite?_isSome_iff_inRange {text : List Char} (h : text ∈ Rule.decimal.language) :
    (Binary32.readFinite? (String.ofList text)).isSome = true ↔
      (Token.decimal (String.ofList text)).InRange := by
  obtain ⟨q, denotes⟩ := exists_denotes_of_mem_decimal h
  have denotes : Binary32.DecimalDenotes (String.ofList text).toList q := by
    rwa [String.toList_ofList]
  constructor
  · intro some
    obtain ⟨x, finite, nearest⟩ := (Binary32.readFinite?_isSome_iff denotes).1 some
    exact ⟨q, x, denotes, finite, nearest⟩
  · rintro ⟨q', x, denotes', finite, nearest⟩
    exact (Binary32.readFinite?_isSome_iff denotes').2 ⟨x, finite, nearest⟩

/-! ### Parts of a text -/

/-- A part of a text, with the rule that takes it. -/
structure Part where
  rule : Rule
  text : List Char

/-- The token that a part is, if it is not skipped. -/
def Part.token? (p : Part) : Option Token := p.rule.token? p.text

/-- The text of parts that stand one after the other. -/
def textOf (parts : List Part) : List Char := parts.flatMap Part.text

@[simp] theorem textOf_cons (p : Part) (parts : List Part) :
    textOf (p :: parts) = p.text ++ textOf parts := rfl

/-- Each part is the longest match in front of all that follows it. It is a token or skipped, and if
it is a number, it is in range. -/
def Munched (rest : List Char) : List Part → Prop
  | [] => True
  | p :: parts => Longest (p.text ++ (textOf parts ++ rest)) p.rule p.text ∧ p.rule.isOpen = false ∧
    (∀ t ∈ p.token?, t.InRange) ∧ Munched rest parts

/-- The tokens of parts, with the bytes of the parts from an offset on. -/
def tokensOf (offset : ℕ) : List Part → List SpannedToken
  | [] => []
  | p :: parts =>
    let stop := offset + byteSize p.text
    (p.token?.map fun t => ⟨t, offset, stop⟩).toList ++ tokensOf stop parts

/-- Why a text that begins at an offset cannot be cut, and the error for it. There is no rule that
takes anything, or a string or a comment never ends, or a number is out of range. -/
inductive Stuck (offset : ℕ) (cs : List Char) : SyntaxError → Prop
  | noRule {c : Char} {rest : List Char} (first : cs = c :: rest)
      (none : ∀ r x, x ∈ Rule.language r → ¬ x <+: cs) :
      Stuck offset cs
        { code := .invalidCharacter
          message := "invalid character '" ++ String.ofList [c] ++ "'"
          span := ⟨offset, offset + c.utf8Size⟩ }
  | openString {text : List Char} (longest : Longest cs .openString text) :
      Stuck offset cs
        { code := .unterminatedString
          message := "unterminated string literal"
          span := ⟨offset, offset + byteSize text⟩
          hint := some "strings must end with '\"' on the same line" }
  | openComment {text : List Char} (longest : Longest cs .openComment text) :
      Stuck offset cs
        { code := .unterminatedComment
          message := "unterminated block comment"
          span := ⟨offset, offset + byteSize text⟩
          hint := some "close the comment with '*/'" }
  | integer {text : List Char} (longest : Longest cs .integer text)
      (large : ¬ (Token.integer (String.ofList text)).InRange) :
      Stuck offset cs
        { code := .integerTooLarge
          message := "integer literal '" ++ String.ofList text ++ "' does not fit into 32 bits"
          span := ⟨offset, offset + byteSize text⟩ }
  | decimal {text : List Char} (longest : Longest cs .decimal text)
      (infinite : ¬ (Token.decimal (String.ofList text)).InRange) :
      Stuck offset cs
        { code := .invalidFloatLiteral
          message := "invalid float literal '" ++ String.ofList text ++ "'"
          span := ⟨offset, offset + byteSize text⟩ }

/-! ### Cutting a text -/

/-- A token is in range, or there is a range error for it. -/
theorem inRange_or_stuck {offset : ℕ} {cs text : List Char} {r : Rule} {t : Token}
    (longest : Longest cs r text) (token : r.token? text = some t) :
    (t.rangeError? ⟨offset, offset + byteSize text⟩ = none ∧ t.InRange) ∨
      ∃ e, t.rangeError? ⟨offset, offset + byteSize text⟩ = some e ∧ Stuck offset cs e := by
  -- Only numbers are checked for their range, each with its own rule.
  cases r with
  | integer =>
    obtain rfl := Option.some.inj token
    by_cases le : digitsValue (String.ofList text).toList ≤ maxIntegerLiteral
    · exact .inl ⟨if_pos le, le⟩
    · exact .inr ⟨_, if_neg le, .integer longest le⟩
  | decimal =>
    obtain rfl := Option.some.inj token
    have range := readFinite?_isSome_iff_inRange longest.mem
    by_cases finite : (Binary32.readFinite? (String.ofList text)).isSome = true
    · exact .inl ⟨if_pos finite, range.1 finite⟩
    · exact .inr ⟨_, if_neg finite, .decimal longest (range.not.1 finite)⟩
  | blockComment =>
    rw [Rule.token?] at token
    split at token
    · obtain rfl := Option.some.inj token
      exact .inl ⟨rfl, trivial⟩
    · cases token
  | blanks | lineComment | openString | openComment => cases token
  | string | name | keyword _ | op _ | punct _ | newline =>
    obtain rfl := Option.some.inj token
    exact .inl ⟨rfl, trivial⟩

/-- What the tokens of a text that begins at an offset have to do with the rules. -/
def Munches (offset : ℕ) (cs : List Char) : Except SyntaxError (List SpannedToken) → Prop
  | .ok tokens => ∃ parts, textOf parts = cs ∧ Munched [] parts ∧ tokens = tokensOf offset parts
  | .error e => ∃ parts rest, textOf parts ++ rest = cs ∧ Munched rest parts ∧
    Stuck (offset + byteSize (textOf parts)) rest e

/-- One more part in front. -/
theorem Munches.cons {offset : ℕ} {p : Part} {rest : List Char}
    {result : Except SyntaxError (List SpannedToken)}
    (longest : Longest (p.text ++ rest) p.rule p.text) (ends : p.rule.isOpen = false)
    (range : ∀ t ∈ p.token?, t.InRange) (munches : Munches (offset + byteSize p.text) rest result) :
    Munches offset (p.text ++ rest)
      (result.map ((p.token?.map fun t => ⟨t, offset, offset + byteSize p.text⟩).toList ++ ·)) := by
  cases result with
  | ok tokens =>
    obtain ⟨parts, rfl, munched, rfl⟩ := munches
    exact ⟨p :: parts, rfl, ⟨by rwa [List.append_nil], ends, range, munched⟩, rfl⟩
  | error e =>
    obtain ⟨parts, after, rfl, munched, stuck⟩ := munches
    rw [Nat.add_assoc, ← byteSize_append, ← textOf_cons] at stuck
    exact ⟨p :: parts, after, by simp, ⟨longest, ends, range, munched⟩, stuck⟩

/-- A text that cannot be cut. -/
theorem Munches.stuck {offset : ℕ} {cs : List Char} {e : SyntaxError} (h : Stuck offset cs e) :
    Munches offset cs (.error e) :=
  ⟨[], cs, rfl, trivial, h⟩

/-- The tokens of a text follow the rules, by induction on the number of pieces. -/
theorem tokensFrom_munches (offset : ℕ) (cs : List Char) :
    Munches offset cs (tokensFrom offset cs) := by
  -- The cases are those of one piece: it is skipped, it is a fault, or it is a token whose range is
  -- checked.
  fun_induction tokensFrom offset cs with
  | case1 offset => exact ⟨[], rfl, trivial, rfl⟩
  | case2 offset c cs piece span skipped ih =>
    have obeys := scan_obeys c cs
    rw [Scan.Obeys, skipped] at obeys
    obtain ⟨r, longest, ends, token⟩ := obeys
    rw [← text_append_rest_scan c cs] at longest ⊢
    have munches :=
      Munches.cons (p := ⟨r, (scan c cs).text⟩) longest ends (by simp [Part.token?, token]) ih
    have unchanged : (tokensFrom span.stop piece.rest).map ([] ++ ·) =
        tokensFrom span.stop piece.rest :=
      congrFun Except.map_id _
    rwa [Part.token?, token, Option.map_none, Option.toList_none, unchanged] at munches
  | case3 offset c cs piece span f fault =>
    have obeys := scan_obeys c cs
    rw [Scan.Obeys, fault] at obeys
    cases f with
    | invalidCharacter =>
      obtain ⟨none, text⟩ := obeys
      have one : span = ⟨offset, offset + c.utf8Size⟩ := by simp [span, piece, text]
      rw [ScanFault.toError, show piece.text = [c] from text, one]
      exact .stuck (.noRule rfl none)
    | unterminatedString => exact .stuck (.openString obeys)
    | unterminatedComment => exact .stuck (.openComment obeys)
  | case4 offset c cs piece span t token e error =>
    have obeys := scan_obeys c cs
    rw [Scan.Obeys, token] at obeys
    obtain ⟨r, longest, ends, isToken⟩ := obeys
    rcases @inRange_or_stuck offset _ _ _ _ longest isToken with ⟨none, -⟩ | ⟨e', error', stuck⟩
    · exact absurd (none.symm.trans error) (by simp)
    · obtain rfl := Option.some.inj (error'.symm.trans error)
      exact .stuck stuck
  | case5 offset c cs piece span t token none ih =>
    have obeys := scan_obeys c cs
    rw [Scan.Obeys, token] at obeys
    obtain ⟨r, longest, ends, isToken⟩ := obeys
    rcases @inRange_or_stuck offset _ _ _ _ longest isToken with ⟨-, range⟩ | ⟨e', error, -⟩
    · rw [← text_append_rest_scan c cs] at longest ⊢
      have munches := Munches.cons (p := ⟨r, (scan c cs).text⟩) longest ends
        (by simpa [Part.token?, isToken] using range) ih
      rwa [Part.token?, isToken] at munches
    · exact absurd (error.symm.trans none) (by simp)

/-! ### Spans -/

/-- The tokens of a source text are in order: each has at least one byte, they begin and end between
characters of the source, and none of them overlaps the next. -/
structure SpansInOrder (source : String) (tokens : List SpannedToken) : Prop where
  nonempty : ∀ t ∈ tokens, t.span.start < t.span.stop
  bounded : ∀ t ∈ tokens, t.span.stop ≤ source.utf8ByteSize
  boundaries : ∀ t ∈ tokens,
    String.Pos.Raw.IsValid source ⟨t.span.start⟩ ∧ String.Pos.Raw.IsValid source ⟨t.span.stop⟩
  increasing : tokens.Pairwise fun a b => a.span.start < b.span.start
  apart : tokens.Pairwise fun a b => a.span.stop ≤ b.span.start

theorem utf8ByteSize_ofList (cs : List Char) : (String.ofList cs).utf8ByteSize = byteSize cs := by
  induction cs with
  | nil => rfl
  | cons c cs ih =>
    rw [String.ofList_cons, String.utf8ByteSize_append, String.utf8ByteSize_singleton, ih,
      byteSize_cons]

theorem utf8ByteSize_eq (source : String) : source.utf8ByteSize = byteSize source.toList := by
  rw [← utf8ByteSize_ofList, String.ofList_toList]

theorem byteSize_pos {cs : List Char} (some : cs ≠ []) : 0 < byteSize cs := by
  obtain ⟨c, cs, rfl⟩ := List.exists_cons_of_ne_nil some
  have := c.utf8Size_pos
  rw [byteSize_cons]
  omega

/-- The bytes before a character of a text end at a boundary. -/
theorem isValid_byteSize (before after : List Char) :
    String.Pos.Raw.IsValid (String.ofList (before ++ after)) ⟨byteSize before⟩ := by
  have whole : String.Pos.Raw.IsValid (String.ofList before) (String.ofList before).rawEndPos :=
    String.Pos.Raw.isValid_rawEndPos
  rw [String.ofList_append, ← utf8ByteSize_ofList]
  exact whole.append_right _

/-- A rule takes at least one character. -/
theorem Longest.ne_nil {cs text : List Char} {r : Rule} (h : Longest cs r text) : text ≠ [] := by
  obtain ⟨c, y, rfl, -⟩ := Rule.exists_cons_of_mem h.mem
  exact List.cons_ne_nil _ _

/-- A token stands for characters of the text behind an offset. -/
theorem exists_span_of_mem {parts : List Part} {rest before : List Char} {t : SpannedToken}
    (munched : Munched rest parts) (mem : t ∈ tokensOf (byteSize before) parts) :
    ∃ inside text after, textOf parts = inside ++ (text ++ after) ∧ text ≠ [] ∧
      t.span = ⟨byteSize (before ++ inside), byteSize (before ++ inside ++ text)⟩ := by
  induction parts generalizing before with
  | nil => cases mem
  | cons p parts ih =>
    obtain ⟨longest, -, -, munched⟩ := munched
    rcases List.mem_append.1 mem with first | later
    · obtain ⟨token, -, rfl⟩ : ∃ token, p.token? = some token ∧
          (⟨token, byteSize before, byteSize before + byteSize p.text⟩ : SpannedToken) = t := by
        simpa using first
      exact ⟨[], p.text, textOf parts, rfl, longest.ne_nil, by simp⟩
    · rw [← byteSize_append] at later
      obtain ⟨inside, text, after, eq, some, span⟩ := ih munched later
      exact ⟨p.text ++ inside, text, after, by simp [eq], some, by simpa using span⟩

theorem tokensOf_inRange {parts : List Part} {rest : List Char} {offset : ℕ}
    (munched : Munched rest parts) :
    ∀ t ∈ tokensOf offset parts, t.token.InRange := by
  induction parts generalizing offset with
  | nil => simp [tokensOf]
  | cons p parts ih =>
    obtain ⟨-, -, range, munched⟩ := munched
    refine List.forall_mem_append.2 ⟨fun t mem => ?_, ih munched⟩
    obtain ⟨token, isToken, rfl⟩ : ∃ token, p.token? = some token ∧
        (⟨token, offset, offset + byteSize p.text⟩ : SpannedToken) = t := by
      simpa using mem
    exact range token isToken

/-- Each token ends where the next part begins, or before. -/
theorem tokensOf_apart {parts : List Part} {rest : List Char} (before : List Char)
    (munched : Munched rest parts) :
    (tokensOf (byteSize before) parts).Pairwise fun a b => a.span.stop ≤ b.span.start := by
  induction parts generalizing before with
  | nil => exact .nil
  | cons p parts ih =>
    obtain ⟨-, -, -, munched⟩ := munched
    have later := ih (before ++ p.text) munched
    rw [byteSize_append] at later
    refine List.pairwise_append.2 ⟨by cases p.token? <;> simp, later, fun a memA b memB => ?_⟩
    obtain ⟨token, -, rfl⟩ : ∃ token, p.token? = some token ∧
        (⟨token, byteSize before, byteSize before + byteSize p.text⟩ : SpannedToken) = a := by
      simpa using memA
    rw [← byteSize_append] at memB
    obtain ⟨inside, text, after, -, -, span⟩ := exists_span_of_mem munched memB
    rw [span]
    simp

theorem tokensOf_spansInOrder {source : String} {parts : List Part} (munched : Munched [] parts)
    (whole : textOf parts = source.toList) : SpansInOrder source (tokensOf 0 parts) := by
  have place (t : SpannedToken) (mem : t ∈ tokensOf 0 parts) :=
    @exists_span_of_mem _ _ [] t munched mem
  have size : source.utf8ByteSize = byteSize (textOf parts) := by rw [whole, utf8ByteSize_eq]
  have nonempty : ∀ t ∈ tokensOf 0 parts, t.span.start < t.span.stop := by
    intro t mem
    obtain ⟨inside, text, after, -, some, span⟩ := place t mem
    have := byteSize_pos some
    simp only [span, byteSize_append]
    omega
  have apart := tokensOf_apart [] munched
  refine ⟨nonempty, ?_, ?_, ?_, apart⟩
  · intro t mem
    obtain ⟨inside, text, after, eq, -, span⟩ := place t mem
    simp only [size, eq, span, byteSize_append, byteSize_nil]
    omega
  · intro t mem
    obtain ⟨inside, text, after, eq, -, span⟩ := place t mem
    have text' : source = String.ofList (inside ++ (text ++ after)) := by
      rw [← eq, whole, String.ofList_toList]
    rw [span, text']
    refine ⟨isValid_byteSize inside _, ?_⟩
    rw [← List.append_assoc]
    exact isValid_byteSize (inside ++ text) _
  · exact apart.imp_of_mem fun memA _ le => lt_of_lt_of_le (nonempty _ memA) le

/-- The tokens of a source text are its longest matches. If there is no error, the source is cut
into parts, each of which is the longest text that any rule can take off what is left; the tokens
are those of the parts, in order and with their bytes, and numbers are in range. If there is an
error, it is that of the first place where the source cannot be cut. -/
theorem tokenize_longest (source : String) :
    match tokenize source with
    | .ok tokens => ∃ parts, textOf parts = source.toList ∧ Munched [] parts ∧
      tokens = tokensOf 0 parts ∧
      SpansInOrder source tokens ∧ ∀ t ∈ tokens, t.token.InRange
    | .error e => ∃ parts rest, textOf parts ++ rest = source.toList ∧ Munched rest parts ∧
      Stuck (byteSize (textOf parts)) rest e := by
  have munches := tokensFrom_munches 0 source.toList
  unfold tokenize
  generalize tokensFrom 0 source.toList = result at munches
  cases result with
  | ok tokens =>
    obtain ⟨parts, whole, munched, rfl⟩ := munches
    exact ⟨parts, whole, munched, rfl, tokensOf_spansInOrder munched whole,
      tokensOf_inRange munched⟩
  | error e =>
    obtain ⟨parts, rest, whole, munched, stuck⟩ := munches
    exact ⟨parts, rest, whole, munched, by rwa [Nat.zero_add] at stuck⟩

end MiniGo
