import MiniGo.Token.Basic
import MiniGo.Source.Span

/-!
# Cutting one piece off a text

`scan` takes the longest piece off a nonempty text that is a token, or is skipped, or begins a token
that never ends. The first character decides which rules can apply; each of them takes as many
characters as it can.

* `Scan`: the piece, the characters that it takes and the characters after it.
* `scan`: the piece at the front of a text.
* `text_append_rest_scan`, `text_scan_ne_nil`: a scan loses nothing and takes something.
-/

namespace MiniGo

/-! ### Character classes -/

/-- Blanks that only separate tokens. -/
def isBlank (c : Char) : Bool := c = ' ' || c = '\t' || c = '\r' || c = '\x0c'

/-- Characters that can begin a name. -/
def isNameStart (c : Char) : Bool := c.isAlpha || c = '_'

/-- Characters that can continue a name. -/
def isNameRest (c : Char) : Bool := c.isAlphanum || c = '_'

/-! ### Pieces -/

/-- Why a text does not begin with a token. -/
inductive ScanFault where
  | invalidCharacter
  | unterminatedString
  | unterminatedComment
deriving DecidableEq, Repr

/-- What a piece of text is. -/
inductive Piece where
  | skipped
  | token (t : Token)
  | fault (f : ScanFault)
deriving DecidableEq, Repr

/-- A piece cut off a text: what it is, its characters, and the characters after it. -/
structure Scan where
  piece : Piece
  text : List Char
  rest : List Char
deriving DecidableEq, Repr

/-! ### Numbers -/

/-- The exponent part at the front of a text, if a complete one is there: a mark, an optional sign
and digits. -/
def exponentPart (cs : List Char) : List Char :=
  match cs with
  | [] => []
  | e :: cs =>
    if e = 'e' ∨ e = 'E' then
      match cs with
      | [] => []
      | s :: ds =>
        if s = '+' ∨ s = '-' then
          let digits := ds.takeWhile Char.isDigit
          if digits.isEmpty then [] else e :: s :: digits
        else
          let digits := cs.takeWhile Char.isDigit
          if digits.isEmpty then [] else e :: digits
    else []

/-- The number at the front of a text that begins with a digit, or with a point and a digit, and
whether it is an integer. -/
def numberPart (cs : List Char) : Bool × List Char :=
  let whole := cs.takeWhile Char.isDigit
  match cs.drop whole.length with
  | '.' :: ds =>
    let fraction := ds.takeWhile Char.isDigit
    (false, whole ++ '.' :: (fraction ++ exponentPart (ds.drop fraction.length)))
  | ds =>
    let exponent := exponentPart ds
    (exponent.isEmpty, whole ++ exponent)

/-! ### Strings and comments -/

/-- The elements of a string at the front of a text: plain characters, and pairs of a backslash with
a character. They end before a quote, a newline, the end of the text, and before a backslash in
front of a newline or of the end. -/
def stringElements : List Char → List Char
  | [] => []
  | '\\' :: c :: cs => if c = '\n' then [] else '\\' :: c :: stringElements cs
  | c :: cs => if c = '"' ∨ c = '\n' ∨ c = '\\' then [] else c :: stringElements cs

/-- The text up to and with the first end of a block comment. -/
def commentBody? : List Char → Option (List Char)
  | [] => none
  | '*' :: '/' :: _ => some ['*', '/']
  | c :: cs => (commentBody? cs).map (c :: ·)

/-! ### Cutting -/

/-- The scan that takes `text` off the front of `cs`. -/
def cut (piece : Piece) (text cs : List Char) : Scan :=
  { piece, text, rest := cs.drop text.length }

/-- A name or a keyword at the front of a text. -/
def scanWord (c : Char) (cs : List Char) : Scan :=
  let text := c :: cs.takeWhile isNameRest
  let word := String.ofList text
  let token := match Keyword.ofText? word with
    | some k => Token.keyword k
    | none => Token.ident word
  cut (.token token) text (c :: cs)

/-- A number at the front of a text. -/
def scanNumber (cs : List Char) : Scan :=
  let (isInteger, text) := numberPart cs
  let word := String.ofList text
  cut (.token (if isInteger then .integer word else .decimal word)) text cs

/-- A string after its opening quote. -/
def scanString (cs : List Char) : Scan :=
  let body := stringElements cs
  match cs.drop body.length with
  | '"' :: _ => cut (.token (.string (String.ofList body))) ('"' :: (body ++ ['"'])) ('"' :: cs)
  | _ => cut (.fault .unterminatedString) ('"' :: body) ('"' :: cs)

/-- A block comment after its opening mark. A comment that spans lines counts as a newline. -/
def scanComment (cs : List Char) : Scan :=
  match commentBody? cs with
  | some body =>
    cut (if body.contains '\n' then .token .newline else .skipped)
      ('/' :: '*' :: body) ('/' :: '*' :: cs)
  | none => cut (.fault .unterminatedComment) ('/' :: '*' :: cs) ('/' :: '*' :: cs)

/-- The operator, the punctuation or the newline that one character is. -/
def oneCharacter? : Char → Option Token
  | '\n' => some .newline
  | '+' => some (.op .add)
  | '-' => some (.op .sub)
  | '*' => some (.op .mul)
  | '/' => some (.op .div)
  | '%' => some (.op .mod)
  | '<' => some (.op .lt)
  | '>' => some (.op .gt)
  | '=' => some (.punct .assign)
  | '(' => some (.punct .leftParen)
  | ')' => some (.punct .rightParen)
  | '\x7b' => some (.punct .leftBrace)
  | '\x7d' => some (.punct .rightBrace)
  | '[' => some (.punct .leftBracket)
  | ']' => some (.punct .rightBracket)
  | ',' => some (.punct .comma)
  | ';' => some (.punct .semicolon)
  | _ => none

/-- The operator or the punctuation that two characters are. -/
def twoCharacters? : Char → Char → Option Token
  | '=', '=' => some (.op .eq)
  | '!', '=' => some (.op .ne)
  | '<', '=' => some (.op .le)
  | '>', '=' => some (.op .ge)
  | '&', '&' => some (.op .and)
  | '|', '|' => some (.op .or)
  | ':', '=' => some (.punct .define)
  | _, _ => none

/-- An operator, punctuation, a newline, or a character that is none of these. -/
def scanSymbol (c : Char) (cs : List Char) : Scan :=
  match cs.head?.bind (twoCharacters? c) with
  | some t => cut (.token t) (c :: cs.take 1) (c :: cs)
  | none =>
    match oneCharacter? c with
    | some t => cut (.token t) [c] (c :: cs)
    | none => cut (.fault .invalidCharacter) [c] (c :: cs)

/-- The longest piece at the front of the text `c :: cs`. -/
def scan (c : Char) (cs : List Char) : Scan :=
  if isBlank c then cut .skipped (c :: cs.takeWhile isBlank) (c :: cs)
  else if isNameStart c then scanWord c cs
  else if c.isDigit || (c == '.' && (cs.head?.any Char.isDigit)) then scanNumber (c :: cs)
  else if c = '"' then scanString cs
  else if c = '/' && cs.head? == some '/' then
    cut .skipped (c :: cs.takeWhile (· ≠ '\n')) (c :: cs)
  else if c = '/' && cs.head? == some '*' then scanComment (cs.drop 1)
  else scanSymbol c cs

/-! ### What a scan takes -/

theorem append_drop_length {xs cs : List Char} (h : xs <+: cs) :
    xs ++ cs.drop xs.length = cs := by
  obtain ⟨ys, rfl⟩ := h
  simp

theorem takeWhile_isPrefix (p : Char → Bool) (cs : List Char) : cs.takeWhile p <+: cs :=
  List.takeWhile_prefix p

theorem exponentPart_isPrefix (cs : List Char) : exponentPart cs <+: cs := by
  unfold exponentPart
  split
  · exact List.nil_prefix
  split
  · split
    · exact List.nil_prefix
    split
    · dsimp only
      split
      · exact List.nil_prefix
      · simp [takeWhile_isPrefix]
    · dsimp only
      split
      · exact List.nil_prefix
      · simp [takeWhile_isPrefix]
  · exact List.nil_prefix

theorem numberPart_isPrefix (cs : List Char) : (numberPart cs).2 <+: cs := by
  have whole := append_drop_length (takeWhile_isPrefix Char.isDigit cs)
  unfold numberPart
  dsimp only
  split
  · rename_i ds h
    rw [h] at whole
    have fraction := append_drop_length (takeWhile_isPrefix Char.isDigit ds)
    have exponent := exponentPart_isPrefix (ds.drop (ds.takeWhile Char.isDigit).length)
    conv => rhs; rw [← whole, ← fraction]
    simpa using exponent
  · have exponent := exponentPart_isPrefix (cs.drop (cs.takeWhile Char.isDigit).length)
    conv => rhs; rw [← whole]
    simpa using exponent

theorem numberPart_ne_nil {c : Char} {cs : List Char}
    (h : c.isDigit || (c == '.' && (cs.head?.any Char.isDigit))) :
    (numberPart (c :: cs)).2 ≠ [] := by
  by_cases hd : c.isDigit
  · simp only [numberPart, List.takeWhile_cons, hd, if_true]
    split <;> simp
  · have hc : c = '.' := by simp_all
    subst hc
    simp [numberPart, hd]

theorem stringElements_isPrefix (cs : List Char) : stringElements cs <+: cs := by
  fun_induction stringElements cs with
  | case1 => exact List.nil_prefix
  | case2 => exact List.nil_prefix
  | case3 => simpa
  | case4 => exact List.nil_prefix
  | case5 => simpa

theorem commentBody?_isPrefix {cs body : List Char} (h : commentBody? cs = some body) :
    body <+: cs := by
  fun_induction commentBody? cs generalizing body with
  | case1 => simp at h
  | case2 =>
    obtain rfl := Option.some.inj h
    simp
  | case3 c cs _ ih =>
    obtain ⟨tail, htail, rfl⟩ := Option.map_eq_some_iff.1 h
    simpa using ih htail

theorem text_append_rest_cut (p : Piece) {text cs : List Char} (h : text <+: cs) :
    (cut p text cs).text ++ (cut p text cs).rest = cs :=
  append_drop_length h

/-- A scan loses nothing: what it takes and what it leaves make up the text. -/
theorem text_append_rest_scan (c : Char) (cs : List Char) :
    (scan c cs).text ++ (scan c cs).rest = c :: cs := by
  unfold scan
  split
  · exact text_append_rest_cut _ (by simp [takeWhile_isPrefix])
  split
  · exact text_append_rest_cut _ (by simp [takeWhile_isPrefix])
  split
  · exact text_append_rest_cut _ (numberPart_isPrefix _)
  split
  · rename_i hc
    subst hc
    have body := stringElements_isPrefix cs
    unfold scanString
    dsimp only
    split
    · rename_i rest h
      refine text_append_rest_cut _ ?_
      have whole := append_drop_length body
      rw [h] at whole
      conv => rhs; rw [← whole]
      simp
    · exact text_append_rest_cut _ (by simpa using body)
  split
  · exact text_append_rest_cut _ (by simp [takeWhile_isPrefix])
  split
  · rename_i hc
    obtain ⟨rfl, rest, rfl⟩ : c = '/' ∧ ∃ rest, cs = '*' :: rest := by
      cases cs <;> simp_all
    unfold scanComment
    split
    · rename_i body h
      exact text_append_rest_cut _ (by simpa using commentBody?_isPrefix h)
    · exact text_append_rest_cut _ (by simp)
  · unfold scanSymbol
    split
    · exact text_append_rest_cut _ (by simp [ List.take_prefix])
    · split <;> exact text_append_rest_cut _ (by simp)

/-- A scan always takes something. -/
theorem text_scan_ne_nil (c : Char) (cs : List Char) : (scan c cs).text ≠ [] := by
  unfold scan
  split
  · simp [cut]
  split
  · simp [scanWord, cut]
  split
  · rename_i h
    exact numberPart_ne_nil h
  split
  · unfold scanString
    dsimp only
    split <;> simp [cut]
  split
  · simp [cut]
  split
  · unfold scanComment
    split <;> simp [cut]
  · unfold scanSymbol
    split
    · simp [cut]
    · split <;> simp [cut]

/-- What a scan leaves is shorter than the text. -/
theorem length_rest_lt (c : Char) (cs : List Char) :
    (scan c cs).rest.length < cs.length + 1 := by
  have whole := congrArg List.length (text_append_rest_scan c cs)
  have taken := List.length_pos_iff.2 (text_scan_ne_nil c cs)
  simp only [List.length_append, List.length_cons] at whole
  omega

end MiniGo
