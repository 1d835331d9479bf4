import MiniGo.Proofs.Lexing.Tokens

/-!
# The tokens of a text that spells them

Tokens can be written out with blanks and comments between them, and then the tokens of the text are
the ones that were written. It does not matter which separators are chosen.

* `Token.spelling`, `Token.Legal`: how a token is written, and which tokens can be written.
* `tokenize_legal`: the tokens of a source text are such tokens.
* `separator`: the texts that may stand between tokens.
* `Cuts`: a text can be cut into longest matches that are given tokens.
* `Token.Legal.longest`: a token in front of a blank ends where its spelling ends.
* `tokenize_spelling`: the tokens of a text that spells them.
-/

namespace MiniGo

open Computability

/-! ### Spellings -/

namespace Token

/-- How a token is written. -/
def spelling : Token → String
  | integer text | decimal text | ident text => text
  | string text => "\"" ++ text ++ "\""
  | keyword k => k.text
  | op o => o.text
  | punct p => p.text
  | newline => "\n"

/-- The rule of the spellings of a token. -/
def rule : Token → Rule
  | integer _ => .integer
  | decimal _ => .decimal
  | string _ => .string
  | ident _ => .name
  | keyword k => .keyword k
  | op o => .op o
  | punct p => .punct p
  | newline => .newline

/-- The text of a token is one that such a token can have. -/
def Legal : Token → Prop
  | integer text => text.toList ∈ Rule.integer.language ∧ (integer text).InRange
  | decimal text => text.toList ∈ Rule.decimal.language ∧ (decimal text).InRange
  | string text => text.toList ∈ stringElement∗
  | ident name => name.toList ∈ Rule.name.language ∧ ∀ k : Keyword, name ≠ k.text
  | keyword _ | op _ | punct _ | newline => True

section Legal

variable {t : Token}

theorem toList_spelling_string (text : String) :
    (string text).spelling.toList = '"' :: (text.toList ++ ['"']) := by
  simp [spelling]

theorem Legal.mem (legal : t.Legal) : t.spelling.toList ∈ t.rule.language := by
  cases t with
  | integer | decimal | ident => exact legal.1
  | string text => exact mem_string.2 ⟨text.toList, legal, toList_spelling_string text⟩
  | keyword | op | punct | newline => exact mem_literally.2 rfl

theorem Legal.inRange (legal : t.Legal) : t.InRange := by
  cases t with
  | integer | decimal => exact legal.2
  | string | ident | keyword | op | punct | newline => trivial

theorem token?_rule (t : Token) : t.rule.token? t.spelling.toList = some t := by
  cases t with
  | string text => simp [rule, Rule.token?, toList_spelling_string]
  | integer | decimal | ident => simp [rule, Rule.token?, spelling]
  | keyword | op | punct | newline => rfl

theorem isOpen_rule (t : Token) : t.rule.isOpen = false := by
  cases t <;> rfl

end Legal

end Token

/-- A longest match that is a token in range is a legal one. -/
theorem Longest.legal {cs text : List Char} {r : Rule} {t : Token} (longest : Longest cs r text)
    (token : r.token? text = some t) (range : t.InRange) : t.Legal := by
  have own := longest.mem
  cases r with
  | integer | decimal =>
    obtain rfl := Option.some.inj token
    refine ⟨?_, range⟩
    rwa [String.toList_ofList]
  | string =>
    obtain rfl := Option.some.inj token
    obtain ⟨body, elements, rfl⟩ := mem_string.1 own
    simpa [Token.Legal] using elements
  | name =>
    obtain rfl := Option.some.inj token
    refine ⟨by rwa [String.toList_ofList], fun k same => ?_⟩
    -- A text that is also a keyword is taken as the keyword.
    have keyword : text ∈ (Rule.keyword k).language := by
      rw [← String.toList_ofList (l := text), same]
      exact mem_literally.2 rfl
    rcases longest.first (.keyword k) keyword with other | ⟨other, -⟩ <;> cases other
  | blockComment =>
    rw [Rule.token?] at token
    split at token
    · obtain rfl := Option.some.inj token
      trivial
    · cases token
  | blanks | lineComment | openString | openComment => cases token
  | keyword _ | op _ | punct _ | newline =>
    obtain rfl := Option.some.inj token
    trivial

theorem Munched.legal {parts : List Part} {rest : List Char} {offset : ℕ}
    (munched : Munched rest parts) :
    ∀ t ∈ tokensOf offset parts, t.token.Legal := by
  induction parts generalizing offset with
  | nil => simp [tokensOf]
  | cons p parts ih =>
    obtain ⟨longest, -, range, munched⟩ := munched
    refine List.forall_mem_append.2 ⟨fun t mem => ?_, ih munched⟩
    obtain ⟨token, isToken, rfl⟩ : ∃ token, p.token? = some token ∧
        (⟨token, offset, offset + byteSize p.text⟩ : SpannedToken) = t := by
      simpa using mem
    exact longest.legal isToken (range token isToken)

/-- The tokens of a source text are legal. -/
theorem tokenize_legal {source : String} {tokens : List SpannedToken}
    (h : tokenize source = .ok tokens) :
    ∀ t ∈ tokens, t.token.Legal := by
  have munches := tokensFrom_munches 0 source.toList
  rw [show tokensFrom 0 source.toList = .ok tokens from h] at munches
  obtain ⟨parts, -, munched, rfl⟩ := munches
  exact munched.legal

/-- An integer is read as the value of its digits. -/
theorem readInteger?_of_legal {text : String} (legal : (Token.integer text).Legal) :
    readInteger? text = some (digitsValue text.toList : ℤ) := by
  obtain ⟨some, all⟩ := mem_someOf.1 legal.1
  have range : digitsValue text.toList ≤ 2 ^ 31 := legal.2
  obtain ⟨c, cs, eq⟩ := List.exists_cons_of_ne_nil some
  have split : splitSign text.toList = (false, text.toList) := by
    rw [eq]
    exact Binary32.splitSign_of_isDigit (.inl (all c (eq ▸ .head _)))
  rw [readInteger?, split]
  simp only [Binary32.isDigits_iff.2 ⟨some, all⟩, if_true, signedValue, Nat.pow_eq]
  exact if_pos (by omega)

/-! ### Separators -/

/-- A block comment on one line. -/
def inlineComment : Language Char := {x | x ∈ Rule.blockComment.language ∧ '\n' ∉ x}

/-- A blank with any blanks and comments behind it. -/
def separator : Language Char := oneOf isBlank * (oneOf isBlank + inlineComment)∗

/-! ### Longest matches in front of a blank -/

section Longest

variable {r : Rule} {b : Char} {x y text rest cs : List Char}

/-- If any rule can take a text off, one of them takes the longest. -/
theorem exists_longest (mem : x ∈ r.language) (le : x <+: cs) :
    ∃ r' text, Longest cs r' text ∧ x <+: text := by
  obtain ⟨c, y, rfl, -⟩ := Rule.exists_cons_of_mem mem
  obtain ⟨rest, rfl⟩ := le
  have found {r' : Rule} {text : List Char} (longest : Longest (c :: y ++ rest) r' text) :
      ∃ r' text, Longest (c :: y ++ rest) r' text ∧ c :: y <+: text :=
    ⟨r', text, longest,
      List.prefix_of_prefix_length_le (List.prefix_append _ _) longest.isPrefix
        (longest.longest r _ mem (List.prefix_append _ _))⟩
  have obeys := scan_obeys c (y ++ rest)
  unfold Scan.Obeys at obeys
  split at obeys
  · obtain ⟨r', longest, -⟩ := obeys
    exact found longest
  · obtain ⟨r', longest, -⟩ := obeys
    exact found longest
  · exact absurd (List.prefix_append _ _) (obeys.1 r (c :: y) mem)
  · exact found obeys
  · exact found obeys

/-- A text without a blank ends before the blank. -/
theorem isPrefix_of_not_mem (le : x <+: text ++ b :: rest) (absent : b ∉ x) : x <+: text := by
  have le' : text ++ [b] <+: text ++ b :: rest := ⟨rest, by simp⟩
  rcases List.prefix_or_prefix_of_prefix le le' with inside | beyond
  · rcases List.prefix_concat_iff.1 inside with rfl | inside
    · exact absurd (by simp) absent
    · exact inside
  · exact absurd (beyond.subset (by simp)) absent

theorem isBlank_of_isNameRest {c : Char} (h : isNameRest c = true) : isBlank c = false := by
  by_contra! blank
  simp only [isBlank, ne_eq, Bool.not_eq_false, Bool.or_eq_true, decide_eq_true_eq] at blank
  rcases blank with ((rfl | rfl) | rfl) | rfl <;> cases h

/-- A decimal has only digits, a point, marks and signs. -/
theorem isBlank_of_mem_decimal {c : Char} (mem : x ∈ Rule.decimal.language) (inside : c ∈ x) :
    isBlank c = false := by
  have digits {y : List Char} (all : ∀ c ∈ y, c.isDigit = true) (inside : c ∈ y) :
      isBlank c = false :=
    isBlank_of_isDigit (all c inside)
  have exponent {y : List Char} (mem : y ∈ exponentTexts) (inside : c ∈ y) : isBlank c = false := by
    obtain ⟨mark, sign, ds, isMark, isSign, -, all, rfl⟩ := mem_exponentTexts.1 mem
    rcases List.mem_cons.1 inside with rfl | inside
    · rcases isMark with rfl | rfl <;> rfl
    · rcases List.mem_append.1 inside with inside | inside
      · rcases isSign with rfl | rfl | rfl
        · cases inside
        · rw [List.mem_singleton.1 inside]
          rfl
        · rw [List.mem_singleton.1 inside]
          rfl
      · exact digits all inside
  rcases mem_decimal.1 mem with ⟨whole, fraction, power, -, all, allFraction, hpower, rfl⟩ |
    ⟨whole, power, -, all, hpower, rfl⟩
  · rcases List.mem_append.1 inside with inside | inside
    · exact digits all inside
    rcases List.mem_cons.1 inside with rfl | inside
    · rfl
    rcases List.mem_append.1 inside with inside | inside
    · exact digits allFraction inside
    · rcases mem_optionally.1 hpower with rfl | hpower
      · cases inside
      · exact exponent hpower inside
  · rcases List.mem_append.1 inside with inside | inside
    · exact digits all inside
    · exact exponent hpower inside

/-- Words, numbers and symbols have no blanks in them. -/
theorem isBlank_of_mem {c : Char}
    (cls : r.charClass = .word ∨ r.charClass = .number ∨ r.charClass = .symbol)
    (mem : x ∈ r.language) (inside : c ∈ x) : isBlank c = false := by
  -- Each single text is looked at by itself.
  have single {text : String} (plain : text.toList.all (!isBlank ·) = true)
      (mem : x ∈ literally text) : isBlank c = false := by
    obtain rfl := mem_literally.1 mem
    simpa using List.all_eq_true.1 plain c inside
  have word (mem : x ∈ Rule.name.language) : isBlank c = false := by
    obtain ⟨d, y, start, rest, rfl⟩ := mem_oneOf_mul.1 mem
    rcases List.mem_cons.1 inside with rfl | inside
    · exact isBlank_of_isNameStart start
    · exact isBlank_of_isNameRest (mem_manyOf.1 rest c inside)
  cases r with
  | integer => exact isBlank_of_isDigit ((mem_someOf.1 mem).2 c inside)
  | decimal => exact isBlank_of_mem_decimal mem inside
  | name => exact word mem
  | keyword k =>
    obtain rfl := mem_literally.1 mem
    exact word k.mem_name
  | op o => exact single (by cases o <;> rfl) mem
  | punct p => exact single (by cases p <;> rfl) mem
  | newline => exact single rfl mem
  | blanks | lineComment | blockComment | string | openString | openComment =>
    simp [Rule.charClass] at cls

/-- Texts with one beginning have rules of one class. -/
theorem charClass_eq_of_isPrefix {r' : Rule} (mem : x ∈ r.language) (mem' : y ∈ r'.language)
    (le : x <+: y) :
    r'.charClass = r.charClass := by
  obtain ⟨c, x, rfl, cls⟩ := Rule.exists_cons_of_mem mem
  obtain ⟨d, y, rfl, cls'⟩ := Rule.exists_cons_of_mem mem'
  obtain ⟨rfl, -⟩ := List.cons_prefix_cons.1 le
  exact cls'.symm.trans cls

/-- A string ends at the first quote that has no backslash in front of it, whatever comes next. -/
theorem isPrefix_of_string {body : List Char} (hbody : body ∈ stringElement∗)
    (quoted : r.charClass = .quote) (mem : x ∈ r.language)
    (le : x <+: '"' :: (body ++ '"' :: rest)) :
    x <+: '"' :: (body ++ ['"']) := by
  have only := r.cases_charClass
  rw [quoted] at only
  have inside {y : List Char} (hy : y ∈ stringElement∗) (le : y <+: body ++ '"' :: rest) :
      y <+: body := by
    have elements := isPrefix_stringElements hy le
    rwa [stringElements_append_quote hbody] at elements
  rcases only with rfl | rfl
  · obtain ⟨y, hy, rfl⟩ := mem_string.1 mem
    have shorter := inside hy ((List.prefix_append y ['"']).trans (List.cons_prefix_cons.1 le).2)
    have whole : '"' :: (body ++ ['"']) <+: '"' :: (body ++ '"' :: rest) := ⟨rest, by simp⟩
    refine List.prefix_of_prefix_length_le le whole ?_
    simpa using shorter.length_le
  · obtain ⟨y, hy, rfl⟩ := mem_openString.1 mem
    have shorter := inside hy (List.cons_prefix_cons.1 le).2
    exact List.cons_prefix_cons.2 ⟨rfl, shorter.trans (List.prefix_append _ _)⟩

/-- No rule takes more than the spelling of a token if a blank comes next. -/
theorem Token.Legal.isPrefix_spelling {t : Token} (legal : t.Legal) (blank : isBlank b = true)
    (mem : x ∈ r.language) (le : x <+: t.spelling.toList ++ b :: rest)
    (same : r.charClass = t.rule.charClass) : x <+: t.spelling.toList := by
  have plain (cls : r.charClass = .word ∨ r.charClass = .number ∨ r.charClass = .symbol) :
      x <+: t.spelling.toList :=
    isPrefix_of_not_mem le fun inside => by simp [isBlank_of_mem cls mem inside] at blank
  cases t with
  | integer | decimal => exact plain (.inr (.inl same))
  | ident | keyword => exact plain (.inl same)
  | punct | newline => exact plain (.inr (.inr same))
  | string text =>
    have le : x <+: '"' :: (text.toList ++ '"' :: b :: rest) := by
      simpa [toList_spelling_string] using le
    rw [toList_spelling_string]
    exact isPrefix_of_string legal same mem le
  | op o =>
    by_cases slash : o = .div
    · subst slash
      have notBlank {c : Char} {y : List Char} (next : b :: rest = c :: y) : isBlank c = true := by
        rwa [← (List.cons.inj next).1]
      rcases slash_cases mem le with ⟨-, rfl⟩ | ⟨-, y, -, after, -, next, -⟩
        | ⟨-, y, -, after, -, next, -⟩ | ⟨-, y, -, after, -, next, -⟩
      · exact List.prefix_rfl
      all_goals cases notBlank next
    · refine plain (.inr (.inr (same.trans ?_)))
      cases o <;> first | rfl | exact absurd rfl slash

/-- If the spelling of a token is the longest match of some rule, it is that of the rule of the
token. -/
theorem Token.Legal.longest_rule {t : Token} (legal : t.Legal)
    (longest : Longest cs r t.spelling.toList) :
    Longest cs t.rule t.spelling.toList := by
  rcases longest.first t.rule legal.mem with rfl | ⟨isName, k, rfl⟩
  · exact longest
  · -- A keyword is not written as a name.
    have keyword := mem_literally.1 longest.mem
    cases t with
    | ident name => exact absurd (String.toList_inj.1 keyword) (legal.2 k)
    | _ => cases isName

/-- The spelling of a token is the longest match if a blank comes next. -/
theorem Token.Legal.longest {t : Token} (legal : t.Legal) (blank : isBlank b = true) :
    Longest (t.spelling.toList ++ b :: rest) t.rule t.spelling.toList := by
  obtain ⟨r, text, longest, le⟩ := exists_longest legal.mem (List.prefix_append _ (b :: rest))
  have same := charClass_eq_of_isPrefix legal.mem longest.mem le
  have ends := legal.isPrefix_spelling blank longest.mem longest.isPrefix same
  obtain rfl := ends.eq_of_length_le le.length_le
  exact legal.longest_rule longest

/-- The spelling of a token is the longest match if nothing comes next. -/
theorem Token.Legal.longest_alone {t : Token} (legal : t.Legal) :
    Longest t.spelling.toList t.rule t.spelling.toList := by
  obtain ⟨r, text, longest, le⟩ := exists_longest legal.mem List.prefix_rfl
  obtain rfl := longest.isPrefix.eq_of_length_le le.length_le
  exact legal.longest_rule longest

/-- A closed comment ends at its first end, whatever comes next. -/
theorem longest_blockComment (mem : x ∈ Rule.blockComment.language) :
    Longest (x ++ cs) .blockComment x := by
  obtain ⟨r, text, longest, le⟩ := exists_longest mem (List.prefix_append x cs)
  obtain ⟨y, hy, rfl⟩ := mem_literally_mul.1 mem
  have le : '/' :: '*' :: y <+: text := le
  rcases slash_cases longest.mem longest.isPrefix with ⟨-, rfl⟩ | ⟨-, y', -, rest, rfl, -, -⟩ |
    ⟨rfl, y', hy', rest, rfl, -, -⟩ | ⟨-, y', hy', rest, rfl, -, -⟩
  · simpa using le.length_le
  · simp at le
  · simp only [List.cons_prefix_cons, true_and] at le
    rwa [← ended_eq_of_isPrefix hy hy' le] at longest
  · simp only [List.cons_prefix_cons, true_and] at le
    exact absurd hy' (not_endless_of_ended hy le)

/-- There is only one longest match. -/
theorem Longest.unique {r' : Rule} (h : Longest cs r x) (h' : Longest cs r' y) :
    r = r' ∧ x = y := by
  have le := h'.longest r x h.mem h.isPrefix
  have ge := h.longest r' y h'.mem h'.isPrefix
  obtain rfl := (List.prefix_of_prefix_length_le h.isPrefix h'.isPrefix le).eq_of_length_le ge
  refine ⟨?_, rfl⟩
  rcases h'.first r h.mem with same | ⟨rfl, -⟩
  · exact same
  · rcases h.first r' h'.mem with same | ⟨rfl, -⟩
    · exact same.symm
    · rfl

end Longest

/-! ### Cutting -/

section Cutting

variable {r : Rule} {c : Char} {cs text : List Char} {t : Token} {ts : List Token}
  {parts : List Part}

/-- A scan takes the longest match. -/
theorem scan_eq_cut (longest : Longest (c :: cs) r text) (ends : r.isOpen = false) :
    scan c cs = cut (match r.token? text with | some t => .token t | none => .skipped) text
      (c :: cs) := by
  have obeys := scan_obeys c cs
  have whole := text_append_rest_scan c cs
  generalize scan c cs = s at obeys whole
  obtain ⟨piece, taken, rest⟩ := s
  have rest_eq (same : taken = text) : rest = (c :: cs).drop text.length := by
    rw [← whole, ← same]
    simp
  unfold Scan.Obeys at obeys
  dsimp only at obeys
  split at obeys
  · obtain ⟨r', longest', -, token⟩ := obeys
    obtain ⟨rfl, rfl⟩ := longest'.unique longest
    simp only [token, cut, rest_eq]
  · obtain ⟨r', longest', -, token⟩ := obeys
    obtain ⟨rfl, rfl⟩ := longest'.unique longest
    simp only [token, cut, rest_eq]
  · exact absurd longest.isPrefix (obeys.1 r text longest.mem)
  · obtain ⟨rfl, -⟩ := obeys.unique longest
    cases ends
  · obtain ⟨rfl, -⟩ := obeys.unique longest
    cases ends

/-- There is no error for a token in range. -/
theorem rangeError?_eq_none {span : Span} (mem : text ∈ r.language) (token : r.token? text = some t)
    (range : t.InRange) : t.rangeError? span = none := by
  cases t with
  | integer => exact if_pos range
  | decimal word =>
    obtain ⟨rfl, rfl⟩ : r = .decimal ∧ String.ofList text = word := by
      cases r with
      | decimal => simpa [Rule.token?] using token
      | blockComment =>
        rw [Rule.token?] at token
        split at token <;> cases token
      | _ => cases token
    exact if_pos ((readFinite?_isSome_iff_inRange mem).2 range)
  | _ => rfl

/-- A text that is cut into longest matches has the tokens of these matches. -/
theorem Munched.tokensFrom_eq (munched : Munched [] parts) (offset : ℕ) :
    tokensFrom offset (textOf parts) = .ok (tokensOf offset parts) := by
  induction parts generalizing offset with
  | nil => rw [textOf, List.flatMap_nil, tokensFrom, tokensOf]
  | cons p parts ih =>
    obtain ⟨longest, ends, range, munched⟩ := munched
    obtain ⟨r, text⟩ := p
    obtain ⟨c, y, rfl⟩ := List.exists_cons_of_ne_nil longest.ne_nil
    have longest : Longest (c :: (y ++ textOf parts)) r (c :: y) := by simpa using longest
    have scanned := scan_eq_cut longest ends
    rw [textOf_cons, List.cons_append, tokensFrom]
    simp only [scanned, tokensOf, Part.token?]
    cases token : r.token? (c :: y) with
    | none => simp [cut, ih munched]
    | some t =>
      have inRange : t.InRange := range t token
      simp [cut, ih munched, rangeError?_eq_none longest.mem token inRange, Except.map]

theorem map_token_tokensOf (offset : ℕ) (parts : List Part) :
    (tokensOf offset parts).map SpannedToken.token = parts.filterMap Part.token? := by
  induction parts generalizing offset with
  | nil => rfl
  | cons p parts ih => cases token : p.token? <;> simp [tokensOf, token, ih]

/-- A text can be cut into longest matches, and the tokens among them are these. -/
def Cuts (cs : List Char) (ts : List Token) : Prop :=
  ∃ parts, textOf parts = cs ∧ Munched [] parts ∧ parts.filterMap Part.token? = ts

theorem Cuts.tokenize {source : String} (h : Cuts source.toList ts) :
    (tokenize source).map (List.map SpannedToken.token) = .ok ts := by
  obtain ⟨parts, whole, munched, rfl⟩ := h
  rw [MiniGo.tokenize, ← whole, munched.tokensFrom_eq, Except.map, map_token_tokensOf]

theorem Cuts.nil : Cuts [] [] := ⟨[], rfl, trivial, rfl⟩

/-- One more match in front. -/
theorem Cuts.cons (longest : Longest (text ++ cs) r text) (ends : r.isOpen = false)
    (range : ∀ t ∈ r.token? text, t.InRange) (h : Cuts cs ts) :
    Cuts (text ++ cs) ((r.token? text).toList ++ ts) := by
  obtain ⟨parts, rfl, munched, rfl⟩ := h
  refine ⟨⟨r, text⟩ :: parts, rfl, ⟨by rwa [List.append_nil], ends, range, munched⟩, ?_⟩
  cases token : r.token? text <;> simp [Part.token?, token]

/-- A token in front of a blank. -/
theorem Cuts.token {b : Char} (legal : t.Legal) (blank : isBlank b = true) (h : Cuts (b :: cs) ts) :
    Cuts (t.spelling.toList ++ b :: cs) (t :: ts) := by
  have cuts :=
    Cuts.cons (legal.longest blank) t.isOpen_rule (by simp [t.token?_rule, legal.inRange]) h
  rwa [t.token?_rule] at cuts

/-- A comment on one line leaves no token. -/
theorem Cuts.comment (mem : text ∈ inlineComment) (h : Cuts cs ts) : Cuts (text ++ cs) ts := by
  have none : Rule.blockComment.token? text = none := by
    rw [Rule.token?, if_neg]
    simpa using mem.2
  have cuts := Cuts.cons (longest_blockComment mem.1) rfl (by simp [none]) h
  rwa [none] at cuts

/-- Blanks leave no token. -/
theorem Cuts.blanks (longest : Longest (text ++ cs) .blanks text) (h : Cuts cs ts) :
    Cuts (text ++ cs) ts :=
  Cuts.cons longest rfl (by simp [Rule.token?]) h

/-- A blank joins the blanks behind it. -/
theorem Cuts.blank (blank : isBlank c = true) (h : Cuts cs ts) : Cuts (c :: cs) ts := by
  obtain ⟨parts, rfl, munched, rfl⟩ := h
  have longest : Longest _ .blanks (c :: (textOf parts).takeWhile isBlank) := longest_blanks blank
  cases parts with
  | nil =>
    have longest : Longest ([c] ++ []) .blanks [c] := longest
    exact .blanks longest .nil
  | cons p parts =>
    obtain ⟨r, text⟩ := p
    have own := munched.1
    obtain ⟨d, y, rfl⟩ := List.exists_cons_of_ne_nil own.ne_nil
    by_cases next : isBlank d = true
    · -- The first match consists of all the blanks, so the new one is longer by a character.
      have run : Longest _ .blanks (d :: (y ++ (textOf parts ++ [])).takeWhile isBlank) :=
        longest_blanks next
      obtain ⟨rfl, all⟩ := own.unique run
      have all : y = (y ++ textOf parts).takeWhile isBlank := by simpa using all
      have longest : Longest ((c :: d :: y) ++ textOf parts) .blanks (c :: d :: y) := by
        simpa [next, ← all] using longest
      exact .blanks longest ⟨parts, rfl, munched.2.2.2, rfl⟩
    · have longest : Longest ([c] ++ textOf (⟨r, d :: y⟩ :: parts)) .blanks [c] := by
        simpa [next] using longest
      exact .blanks longest ⟨_, rfl, munched, rfl⟩

/-- A separator leaves no tokens. -/
theorem Cuts.separator (mem : text ∈ separator) (h : Cuts cs ts) : Cuts (text ++ cs) ts := by
  obtain ⟨c, y, blank, hy, rfl⟩ := mem_oneOf_mul.1 mem
  obtain ⟨texts, rfl, each⟩ := Language.mem_kstar.1 hy
  rw [List.cons_append]
  refine .blank blank ?_
  clear mem hy
  induction texts with
  | nil => exact h
  | cons text texts ih =>
    obtain ⟨first, rest⟩ := List.forall_mem_cons.1 each
    have ih := ih rest
    rw [List.flatten_cons, List.append_assoc]
    rcases first with ⟨c, blank, rfl⟩ | comment
    · exact ih.blank blank
    · exact ih.comment comment

end Cutting

/-- The spelling of a token alone is that token. -/
theorem Token.Legal.tokenize_alone {t : Token} (legal : t.Legal) :
    tokenize t.spelling = .ok [⟨t, ⟨0, t.spelling.utf8ByteSize⟩⟩] := by
  have size := utf8ByteSize_eq t.spelling
  have whole : textOf [⟨t.rule, t.spelling.toList⟩] = t.spelling.toList := List.append_nil _
  have munched : Munched [] [⟨t.rule, t.spelling.toList⟩] := by
    refine ⟨by simpa [textOf] using legal.longest_alone, t.isOpen_rule, ?_, trivial⟩
    simp [Part.token?, t.token?_rule, legal.inRange]
  rw [tokenize, ← whole, munched.tokensFrom_eq]
  simp [tokensOf, Part.token?, t.token?_rule, size]

/-- The tokens of a text that spells them. -/
theorem tokenize_spelling {lead : String} {parts : List (Token × String)}
    (hlead : lead.toList ∈ separator) (legal : ∀ p ∈ parts, p.1.Legal)
    (apart : ∀ p ∈ parts, p.2.toList ∈ separator) :
    (tokenize (lead ++ String.join (parts.map fun p => p.1.spelling ++ p.2))).map
      (List.map SpannedToken.token) = .ok (parts.map Prod.fst) := by
  refine Cuts.tokenize ?_
  rw [String.toList_append, String.toList_join]
  refine .separator hlead ?_
  induction parts with
  | nil => exact .nil
  | cons p parts ih =>
    obtain ⟨own, legal⟩ := List.forall_mem_cons.1 legal
    obtain ⟨sep, apart⟩ := List.forall_mem_cons.1 apart
    have rest := Cuts.separator sep (ih legal apart)
    obtain ⟨c, y, blank, -, text⟩ := mem_oneOf_mul.1 sep
    rw [text, List.cons_append] at rest
    rw [List.map_cons, List.flatMap_cons, String.toList_append, text, List.append_assoc,
      List.cons_append]
    exact .token own blank rest

/-- A string with a quote and the beginning of a comment in it, and a comment with a quote and stars
in it. -/
theorem tokenize_spelling_quotes :
    (tokenize (" " ++ String.join
      ([(Token.string "\\\"/*", "\t/*\"**/"), (.decimal "1.", "\r"), (.op .div, " ")].map
      fun p => p.1.spelling ++ p.2))).map (List.map SpannedToken.token) =
        .ok [.string "\\\"/*", .decimal "1.", .op .div] := by
  have blank {c : Char} (h : isBlank c = true) : [c] ∈ separator :=
    mem_oneOf_mul.2 ⟨c, [], h, Language.nil_mem_kstar _, rfl⟩
  have comment : "\t/*\"**/".toList ∈ separator := by
    have closed : "/*\"**/".toList ∈ inlineComment :=
      ⟨mem_literally_mul.2
        ⟨_, commentBody?_mem (show commentBody? "\"**/".toList = some "\"**/".toList by decide),
          rfl⟩, by decide⟩
    have rest :=
      append_mem_kstar (l := oneOf isBlank + inlineComment) (.inr closed) (Language.nil_mem_kstar _)
    exact mem_oneOf_mul.2 ⟨'\t', _, rfl, rest, rfl⟩
  have string : "\\\"/*".toList ∈ stringElement∗ := by
    have elements := stringElements_mem "\\\"/*".toList
    rwa [show stringElements "\\\"/*".toList = "\\\"/*".toList by decide] at elements
  have one : "1.".toList ∈ Rule.decimal.language :=
    mem_decimal.2
      (.inl ⟨['1'], [], [], by decide, List.forall_mem_singleton.2 rfl, List.forall_mem_nil _,
        mem_optionally.2 (.inl rfl), rfl⟩)
  have finite : (Token.decimal "1.").InRange :=
    (readFinite?_isSome_iff_inRange one).1 (by decide +kernel)
  refine tokenize_spelling (blank rfl) ?_ ?_
  · simp only [List.forall_mem_cons]
    exact ⟨string, ⟨one, finite⟩, trivial, by simp⟩
  · simp only [List.forall_mem_cons]
    exact ⟨comment, blank rfl, blank rfl, by simp⟩

end MiniGo
