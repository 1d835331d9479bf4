import MiniGo.Proofs.Lexing.Rules

/-!
# A scan takes the longest text

`scan` looks at the first characters of a text and takes what they begin. This is the longest text
that any rule can take off the front, or there is no rule that can take one.

* `Scan.Obeys`: what a piece says about the rules.
* `isPrefix_numberPart`: numbers, whose rules overlap most.
* `scan_obeys`: every scan.
-/

namespace MiniGo

open Computability

/-- A piece is the longest text that a rule can take, and its token is that of the rule. A faulty
piece is a text that never ends, or there is no rule at all. -/
def Scan.Obeys (cs : List Char) (s : Scan) : Prop :=
  match s.piece with
  | .skipped => ∃ r, Longest cs r s.text ∧ r.isOpen = false ∧ r.token? s.text = none
  | .token t => ∃ r, Longest cs r s.text ∧ r.isOpen = false ∧ r.token? s.text = some t
  | .fault .invalidCharacter => (∀ r x, x ∈ Rule.language r → ¬ x <+: cs) ∧ s.text = cs.take 1
  | .fault .unterminatedString => Longest cs .openString s.text
  | .fault .unterminatedComment => Longest cs .openComment s.text

theorem Scan.Obeys.skipped {cs text : List Char} {r : Rule} (longest : Longest cs r text)
    (ends : r.isOpen = false) (token : r.token? text = none) : (cut .skipped text cs).Obeys cs :=
  ⟨r, longest, ends, token⟩

theorem Scan.Obeys.token {cs text : List Char} {r : Rule} {t : Token} (longest : Longest cs r text)
    (ends : r.isOpen = false) (token : r.token? text = some t) :
    (cut (.token t) text cs).Obeys cs :=
  ⟨r, longest, ends, token⟩

/-- Whether a rule is that of an operator, of punctuation or of the newline. -/
def Rule.isSymbol : Rule → Bool
  | op _ | punct _ | newline => true
  | _ => false

/-- The rules of each class of first characters. -/
theorem Rule.cases_charClass (r : Rule) :
    match r.charClass with
    | .blank => r = .blanks
    | .word => r = .name ∨ ∃ k, r = .keyword k
    | .number => r = .integer ∨ r = .decimal
    | .quote => r = .string ∨ r = .openString
    | .slash => r = .lineComment ∨ r = .blockComment ∨ r = .openComment ∨ r = .op .div
    | .symbol => r.isSymbol = true := by
  cases r with
  | op o => cases o <;> simp [charClass, isSymbol]
  | _ => simp [charClass, isSymbol]

section Classes

variable {p : Char → Bool} {c : Char} {x y cs : List Char}

/-- Characters of a class at the front of a text belong to the longest run of them. -/
theorem isPrefix_takeWhile (all : ∀ c ∈ x, p c = true) (le : x <+: cs) : x <+: cs.takeWhile p := by
  obtain ⟨rest, rfl⟩ := le
  rw [List.takeWhile_append_of_pos all]
  exact List.prefix_append _ _

/-- Characters of a class are the longest run of them if another character comes next. -/
theorem eq_takeWhile_of_isPrefix (all : ∀ c ∈ x, p c = true) (stop : p c = false)
    (le : x ++ c :: y <+: cs) :
    x = cs.takeWhile p ∧ c :: y <+: cs.drop (cs.takeWhile p).length := by
  obtain ⟨rest, rfl⟩ := le
  have run : (x ++ c :: y ++ rest).takeWhile p = x := by
    rw [List.append_assoc, List.takeWhile_append_of_pos all]
    simp [stop]
  rw [run, List.append_assoc, List.drop_left]
  exact ⟨rfl, List.prefix_append _ _⟩

theorem all_takeWhile : ∀ c ∈ cs.takeWhile p, p c = true := List.all_eq_true.1 List.all_takeWhile

/-! ### Blanks and words -/

theorem longest_blanks (h : isBlank c = true) :
    Longest (c :: cs) .blanks (c :: cs.takeWhile isBlank) := by
  have cls : CharClass.of c = .blank := by simp [CharClass.of, h]
  have only (other : Rule) (same : other.charClass = .of c) : other = .blanks := by
    have := other.cases_charClass
    rwa [same, cls] at this
  refine .of_charClass ?_ ?_ ?_ ?_
  · exact mem_someOf.2 ⟨List.cons_ne_nil _ _, List.forall_mem_cons.2 ⟨h, all_takeWhile⟩⟩
  · exact List.cons_prefix_cons.2 ⟨rfl, List.takeWhile_prefix _⟩
  · intro other x same mem le
    obtain rfl := only other same
    have := isPrefix_takeWhile (mem_someOf.1 mem).2 le
    rwa [List.takeWhile_cons_of_pos h] at this
  · intro other same _
    exact .inl (only other same)

theorem Keyword.text_of_ofText? {word : String} {k : Keyword} (h : Keyword.ofText? word = some k) :
    word = k.text := by
  unfold Keyword.ofText? at h
  split at h <;> cases h <;> rfl

/-- A keyword is written like a name. -/
theorem Keyword.mem_name (k : Keyword) : k.text.toList ∈ Rule.name.language := by
  have letters : ∃ c cs, k.text.toList = c :: cs ∧ isNameStart c = true ∧
      cs.all isNameRest = true := by
    cases k <;> exact ⟨_, _, rfl, rfl, rfl⟩
  obtain ⟨c, cs, text, start, rest⟩ := letters
  exact mem_oneOf_mul.2 ⟨c, cs, start, mem_manyOf.2 (List.all_eq_true.1 rest), text⟩

theorem scanWord_obeys (h : isNameStart c = true) : (scanWord c cs).Obeys (c :: cs) := by
  have cls : CharClass.of c = .word := CharClass.of_isNameStart h
  have only (other : Rule) (same : other.charClass = .of c) : other = .name ∨
      ∃ k, other = .keyword k := by
    have := other.cases_charClass
    rwa [same, cls] at this
  have isName : c :: cs.takeWhile isNameRest ∈ Rule.name.language :=
    mem_oneOf_mul.2 ⟨c, _, h, mem_manyOf.2 all_takeWhile, rfl⟩
  have isPrefix : c :: cs.takeWhile isNameRest <+: c :: cs :=
    List.cons_prefix_cons.2 ⟨rfl, List.takeWhile_prefix _⟩
  -- A keyword is a name too, so the run of characters of a name is the longest piece.
  have longest (other : Rule) (x : List Char) (same : other.charClass = .of c)
      (mem : x ∈ other.language) (le : x <+: c :: cs) : x <+: c :: cs.takeWhile isNameRest := by
    have mem : x ∈ Rule.name.language := by
      rcases only other same with rfl | ⟨k, rfl⟩
      · exact mem
      · obtain rfl := mem_literally.1 mem
        exact k.mem_name
    obtain ⟨d, y, -, hy, rfl⟩ := mem_oneOf_mul.1 mem
    obtain ⟨rfl, tail⟩ := List.cons_prefix_cons.1 le
    exact List.cons_prefix_cons.2 ⟨rfl, isPrefix_takeWhile (mem_manyOf.1 hy) tail⟩
  have isKeyword {k : Keyword} (mem : c :: cs.takeWhile isNameRest ∈ (Rule.keyword k).language) :
      Keyword.ofText? (String.ofList (c :: cs.takeWhile isNameRest)) = some k := by
    rw [mem_literally.1 mem, String.ofList_toList, Keyword.ofText?_text]
  unfold scanWord
  dsimp only
  -- The piece decides between a keyword and a name; no two keywords have the same text.
  cases found : Keyword.ofText? (String.ofList (c :: cs.takeWhile isNameRest)) with
  | some k =>
    refine .token (r := .keyword k) (.of_charClass ?_ isPrefix longest ?_) rfl rfl
    · rw [Rule.language, mem_literally, ← Keyword.text_of_ofText? found, String.toList_ofList]
    · intro other same mem
      rcases only other same with rfl | ⟨k', rfl⟩
      · exact .inr ⟨rfl, k, rfl⟩
      · exact .inl (congrArg Rule.keyword (Option.some.inj ((isKeyword mem).symm.trans found)))
  | none =>
    refine .token (r := .name) (.of_charClass isName isPrefix longest fun other same mem => ?_)
      rfl rfl
    rcases only other same with rfl | ⟨k', rfl⟩
    · exact .inl rfl
    · exact absurd ((isKeyword mem).symm.trans found) (by simp)

/-! ### Numbers -/

theorem exponentPart_mem (cs : List Char) : exponentPart cs ∈ optionally exponentTexts := by
  rw [mem_optionally, mem_exponentTexts]
  unfold exponentPart
  split
  · exact .inl rfl
  split
  · rename_i mark cs isMark
    split
    · exact .inl rfl
    · -- Behind the mark there may be a sign; without a digit behind both, nothing is taken.
      rename_i s ds
      have digits (ds : List Char) (some : (ds.takeWhile Char.isDigit).isEmpty ≠ true) :
          ds.takeWhile Char.isDigit ≠ [] :=
        fun none => some (by simp [none])
      split
      · rename_i isSign
        dsimp only
        split
        · exact .inl rfl
        · rename_i some
          refine .inr ⟨mark, [s], _, isMark, ?_, digits ds some, all_takeWhile, rfl⟩
          rcases isSign with rfl | rfl <;> simp
      · dsimp only
        split
        · exact .inl rfl
        · rename_i some
          exact .inr ⟨mark, [], _, isMark, .inl rfl, digits (s :: ds) some, all_takeWhile, rfl⟩
  · exact .inl rfl

/-- A complete exponent at the front of a text is taken whole. -/
theorem isPrefix_exponentPart (mem : x ∈ optionally exponentTexts) (le : x <+: cs) :
    x <+: exponentPart cs := by
  rcases mem_optionally.1 mem with rfl | mem
  · exact List.nil_prefix
  obtain ⟨mark, sign, digits, isMark, isSign, some, all, rfl⟩ := mem_exponentTexts.1 mem
  obtain ⟨d, ds, rfl⟩ := List.exists_cons_of_ne_nil some
  have digit : d.isDigit = true := all d (.head _)
  obtain ⟨rest, rfl⟩ := le
  have run : (d :: ds ++ rest).takeWhile Char.isDigit = d :: ds ++ rest.takeWhile Char.isDigit :=
    List.takeWhile_append_of_pos all
  have noSign : ¬ (d = '+' ∨ d = '-') := by
    rintro (rfl | rfl) <;> cases digit
  -- The mark and the sign are the same, and the digits go on at least as far.
  have whole : exponentPart (mark :: (sign ++ d :: ds) ++ rest) =
      mark :: (sign ++ (d :: ds ++ rest.takeWhile Char.isDigit)) := by
    unfold exponentPart
    rcases isSign with rfl | rfl | rfl
    · simp only [List.nil_append, List.cons_append, if_pos isMark, if_neg noSign] at run ⊢
      rw [run]
      rfl
    · simp only [List.cons_append, List.nil_append, if_pos isMark] at run ⊢
      rw [run]
      rfl
    · simp only [List.cons_append, List.nil_append, if_pos isMark] at run ⊢
      rw [run]
      rfl
  rw [whole, List.cons_prefix_cons, List.prefix_append_right_inj]
  exact ⟨rfl, List.prefix_append _ _⟩

/-- An exponent does not begin with a digit or a point. -/
theorem head_exponentTexts (mem : x ∈ exponentTexts) :
    ∃ mark y, x = mark :: y ∧ mark.isDigit = false ∧ mark ≠ '.' := by
  obtain ⟨mark, sign, digits, isMark, -, -, -, rfl⟩ := mem_exponentTexts.1 mem
  rcases isMark with rfl | rfl <;> exact ⟨_, _, rfl, rfl, by decide⟩

/-- Digits and an exponent behind a point. -/
theorem isPrefix_fraction {fraction exponent : List Char} (all : ∀ c ∈ fraction, c.isDigit = true)
    (mem : exponent ∈ optionally exponentTexts) (le : fraction ++ exponent <+: cs) :
    fraction ++ exponent <+:
      cs.takeWhile Char.isDigit ++ exponentPart (cs.drop (cs.takeWhile Char.isDigit).length) := by
  rcases mem_optionally.1 mem with rfl | some
  · rw [List.append_nil] at le ⊢
    exact (isPrefix_takeWhile all le).trans (List.prefix_append _ _)
  · obtain ⟨mark, y, rfl, stop, -⟩ := head_exponentTexts some
    obtain ⟨rfl, rest⟩ := eq_takeWhile_of_isPrefix all stop le
    exact (List.prefix_append_right_inj _).2 (isPrefix_exponentPart mem rest)

/-- A number has a point behind its first digits, or it has none. -/
theorem numberPart_cases (cs : List Char) :
    (∃ ds, cs.drop (cs.takeWhile Char.isDigit).length = '.' :: ds ∧
      numberPart cs = (false, cs.takeWhile Char.isDigit ++
        '.' :: (ds.takeWhile Char.isDigit ++
          exponentPart (ds.drop (ds.takeWhile Char.isDigit).length)))) ∨
    ∃ ds, cs.drop (cs.takeWhile Char.isDigit).length = ds ∧ ds.head? ≠ some '.' ∧
      numberPart cs = ((exponentPart ds).isEmpty, cs.takeWhile Char.isDigit ++
        exponentPart ds) := by
  unfold numberPart
  dsimp only
  split
  · rename_i ds point
    exact .inl ⟨ds, point, rfl⟩
  · rename_i noPoint
    refine .inr ⟨_, rfl, fun point => ?_, rfl⟩
    obtain ⟨ds, same⟩ := List.head?_eq_some_iff.1 point
    exact noPoint ds same

/-- An integer or a decimal at the front of a text begins the number that is taken. -/
theorem isPrefix_numberPart (mem : x ∈ Rule.integer.language ∨ x ∈ Rule.decimal.language)
    (le : x <+: cs) :
    x <+: (numberPart cs).2 := by
  have digits (all : ∀ c ∈ x, c.isDigit = true) : x <+: (numberPart cs).2 := by
    refine (isPrefix_takeWhile all le).trans ?_
    rcases numberPart_cases cs with ⟨ds, -, part⟩ | ⟨ds, -, -, part⟩ <;> rw [part] <;>
      exact List.prefix_append _ _
  rcases mem with mem | mem
  · exact digits (mem_someOf.1 mem).2
  -- A decimal has a point behind its first digits, or an exponent right there, and the text has the
  -- same.
  rcases mem_decimal.1 mem with ⟨whole, fraction, exponent, -, all, allFraction, hexponent, rfl⟩ |
    ⟨whole, exponent, -, all, hexponent, rfl⟩
  · obtain ⟨rfl, rest⟩ := eq_takeWhile_of_isPrefix all (show '.'.isDigit = false from rfl) le
    rcases numberPart_cases cs with ⟨ds, point, part⟩ | ⟨ds, after, noPoint, -⟩
    · rw [point] at rest
      rw [part, List.prefix_append_right_inj, List.cons_prefix_cons]
      exact ⟨rfl, isPrefix_fraction allFraction hexponent (List.cons_prefix_cons.1 rest).2⟩
    · obtain ⟨rest, same⟩ := rest
      rw [after] at same
      exact absurd (by simp [← same]) noPoint
  · obtain ⟨mark, y, rfl, stop, noPoint⟩ := head_exponentTexts hexponent
    obtain ⟨rfl, rest⟩ := eq_takeWhile_of_isPrefix all stop le
    rcases numberPart_cases cs with ⟨ds, point, -⟩ | ⟨ds, after, -, part⟩
    · rw [point] at rest
      exact absurd (List.cons_prefix_cons.1 rest).1 noPoint
    · rw [after] at rest
      rw [part, List.prefix_append_right_inj]
      exact isPrefix_exponentPart (mem_optionally.2 (.inr hexponent)) rest

/-- The number at the front of a text is an integer or a decimal. -/
theorem numberPart_mem (h : (c.isDigit || (c == '.' && cs.head?.any Char.isDigit)) = true) :
    (numberPart (c :: cs)).2 ∈
      (if (numberPart (c :: cs)).1 then Rule.integer else Rule.decimal).language := by
  -- A number that does not begin with a digit begins with a point and a digit.
  have some : (c :: cs).takeWhile Char.isDigit = [] → c = '.' ∧
      cs.head?.any Char.isDigit = true := by
    intro none
    by_cases digit : c.isDigit = true
    · simp [digit] at none
    · simpa [digit] using h
  rcases numberPart_cases (c :: cs) with ⟨ds, point, part⟩ | ⟨ds, after, noPoint, part⟩
  · rw [part, if_neg Bool.false_ne_true]
    refine mem_decimal.2 (.inl ⟨_, _, _, ?_, all_takeWhile, all_takeWhile, exponentPart_mem _, rfl⟩)
    intro none
    obtain ⟨noWhole, noFraction⟩ := List.append_eq_nil_iff.1 none
    rw [noWhole] at point
    obtain ⟨-, rfl⟩ := List.cons.inj point
    obtain ⟨-, digit⟩ := some noWhole
    cases cs with
    | nil => cases digit
    | cons d cs => simp_all
  · have whole : (c :: cs).takeWhile Char.isDigit ≠ [] := by
      intro none
      obtain ⟨rfl, -⟩ := some none
      rw [none] at after
      subst after
      exact noPoint rfl
    rw [part]
    dsimp only
    by_cases none : exponentPart ds = []
    · rw [none, List.append_nil, if_pos List.isEmpty_nil]
      exact mem_someOf.2 ⟨whole, all_takeWhile⟩
    · rw [if_neg (by simpa using none)]
      have mem := (mem_optionally.1 (exponentPart_mem ds)).resolve_left none
      exact mem_decimal.2 (.inr ⟨_, _, whole, all_takeWhile, mem, rfl⟩)

/-- A number that begins with a point has a digit behind it. -/
theorem digit_of_point {r : Rule} (number : r = .integer ∨ r = .decimal) (mem : x ∈ r.language)
    (le : x <+: '.' :: cs) :
    cs.head?.any Char.isDigit = true := by
  have noDigit {y : List Char} (all : ∀ c ∈ y, c.isDigit = true) (le : y <+: '.' :: cs) :
      y = [] := by
    cases y with
    | nil => rfl
    | cons d y =>
      obtain ⟨rfl, -⟩ := List.cons_prefix_cons.1 le
      exact absurd (all '.' (.head _)) (by decide)
  rcases number with rfl | rfl
  · exact absurd (noDigit (mem_someOf.1 mem).2 le) (mem_someOf.1 mem).1
  rcases mem_decimal.1 mem with ⟨whole, fraction, exponent, some, all, allFraction, -, rfl⟩ |
    ⟨whole, exponent, some, all, -, rfl⟩
  · obtain rfl := noDigit all ((List.prefix_append _ _).trans le)
    obtain ⟨d, ds, rfl⟩ := List.exists_cons_of_ne_nil (show fraction ≠ [] from some)
    obtain ⟨rest, same⟩ := le
    obtain ⟨-, rfl⟩ := List.cons.inj same
    exact allFraction d (.head _)
  · exact absurd (noDigit all ((List.prefix_append _ _).trans le)) some

theorem scanNumber_obeys (h : (c.isDigit || (c == '.' && cs.head?.any Char.isDigit)) = true) :
    (scanNumber (c :: cs)).Obeys (c :: cs) := by
  have cls : CharClass.of c = .number := by
    by_cases digit : c.isDigit = true
    · exact CharClass.of_isDigit digit
    · obtain ⟨rfl, -⟩ : c = '.' ∧ cs.head?.any Char.isDigit = true := by simpa [digit] using h
      rfl
  have only (other : Rule) (same : other.charClass = .of c) : other = .integer ∨
      other = .decimal := by
    have := other.cases_charClass
    rwa [same, cls] at this
  have own := numberPart_mem h
  have isPrefix := numberPart_isPrefix (c :: cs)
  have longest (other : Rule) (x : List Char) (same : other.charClass = .of c)
      (mem : x ∈ other.language) (le : x <+: c :: cs) : x <+: (numberPart (c :: cs)).2 := by
    refine isPrefix_numberPart ?_ le
    rcases only other same with rfl | rfl
    · exact .inl mem
    · exact .inr mem
  unfold scanNumber
  generalize numberPart (c :: cs) = part at own isPrefix longest
  obtain ⟨isInteger, text⟩ := part
  -- An integer has digits only, and a decimal has another character.
  have apart (integer : text ∈ Rule.integer.language) : text ∉ Rule.decimal.language := by
    intro decimal
    obtain ⟨d, mem, notDigit⟩ := exists_not_isDigit_of_mem_decimal decimal
    simp [(mem_someOf.1 integer).2 d mem] at notDigit
  cases isInteger with
  | true =>
    refine .token (r := .integer)
      (.of_charClass own isPrefix longest fun other same mem => ?_) rfl rfl
    rcases only other same with rfl | rfl
    · exact .inl rfl
    · exact absurd mem (apart own)
  | false =>
    refine .token (r := .decimal)
      (.of_charClass own isPrefix longest fun other same mem => ?_) rfl rfl
    rcases only other same with rfl | rfl
    · exact absurd own (apart mem)
    · exact .inl rfl

/-! ### Strings -/

theorem append_mem_kstar {l : Language Char} (hx : x ∈ l) (hy : y ∈ l∗) : x ++ y ∈ l∗ := by
  obtain ⟨parts, rfl, each⟩ := Language.mem_kstar.1 hy
  exact Language.mem_kstar.2 ⟨x :: parts, rfl, List.forall_mem_cons.2 ⟨hx, each⟩⟩

theorem stringElements_mem (cs : List Char) : stringElements cs ∈ stringElement∗ := by
  fun_induction stringElements cs with
  | case1 => exact Language.nil_mem_kstar _
  | case2 => exact Language.nil_mem_kstar _
  | case3 c cs notNewline ih =>
    exact append_mem_kstar
      (.inr (mem_literally_mul.2 ⟨[c], ⟨c, by simpa using notNewline, rfl⟩, rfl⟩)) ih
  | case4 => exact Language.nil_mem_kstar _
  | case5 c cs _ plain ih =>
    exact append_mem_kstar
      (.inl ⟨c, by simpa [and_assoc, and_comm, and_left_comm] using plain, rfl⟩) ih

/-- Elements at the front of a text are taken one after the other. -/
theorem stringElements_append (mem : x ∈ stringElement∗) (cs : List Char) :
    stringElements (x ++ cs) = x ++ stringElements cs := by
  obtain ⟨parts, rfl, each⟩ := Language.mem_kstar.1 mem
  induction parts with
  | nil => rfl
  | cons part parts ih =>
    obtain ⟨first, rest⟩ := List.forall_mem_cons.1 each
    have ih := ih rest (Language.join_mem_kstar rest)
    rw [List.flatten_cons, List.append_assoc, List.append_assoc, ← ih]
    rcases first with ⟨c, plain, rfl⟩ | escaped
    · simp only [Bool.and_eq_true, decide_eq_true_eq] at plain
      simp [stringElements, plain]
    · obtain ⟨-, ⟨c, notNewline, rfl⟩, rfl⟩ := mem_literally_mul.1 escaped
      simp only [decide_eq_true_eq] at notNewline
      simp [stringElements, notNewline]

theorem isPrefix_stringElements (mem : x ∈ stringElement∗) (le : x <+: cs) :
    x <+: stringElements cs := by
  obtain ⟨rest, rfl⟩ := le
  rw [stringElements_append mem]
  exact List.prefix_append _ _

theorem stringElements_quote (cs : List Char) : stringElements ('"' :: cs) = [] := by
  simp [stringElements]

/-- Elements before a quote are all the elements that can be taken. -/
theorem stringElements_append_quote (mem : x ∈ stringElement∗) (cs : List Char) :
    stringElements (x ++ '"' :: cs) = x := by
  rw [stringElements_append mem, stringElements_quote, List.append_nil]

/-- A quote is no element. -/
theorem append_quote_not_mem (mem : x ∈ stringElement∗) : x ++ ['"'] ∉ stringElement∗ := by
  intro whole
  have same := stringElements_append whole []
  rw [List.append_nil, stringElements_append_quote mem] at same
  simpa using congrArg List.length same

theorem mem_string :
    x ∈ Rule.string.language ↔ ∃ body ∈ stringElement∗, x = '"' :: (body ++ ['"']) := by
  rw [Rule.language, mem_literally_mul]
  constructor
  · rintro ⟨-, ⟨body, hbody, -, rfl, rfl⟩, rfl⟩
    exact ⟨body, hbody, rfl⟩
  · rintro ⟨body, hbody, rfl⟩
    exact ⟨_, ⟨body, hbody, _, rfl, rfl⟩, rfl⟩

theorem mem_openString : x ∈ Rule.openString.language ↔ ∃ body ∈ stringElement∗, x = '"' :: body :=
  mem_literally_mul

theorem scanString_obeys (cs : List Char) : (scanString cs).Obeys ('"' :: cs) := by
  have only (other : Rule) (same : other.charClass = .of '"') : other = .string ∨
      other = .openString := by
    have := other.cases_charClass
    rwa [same] at this
  have body := stringElements_mem cs
  have split := append_drop_length (stringElements_isPrefix cs)
  -- A string at the front of the text has exactly the elements that are taken.
  have closed {x : List Char} (mem : x ∈ stringElement∗) (le : x ++ ['"'] <+: cs) :
      x = stringElements cs ∧ ∃ rest, cs.drop (stringElements cs).length = '"' :: rest := by
    obtain ⟨rest, rfl⟩ := le
    rw [List.append_assoc, List.singleton_append, stringElements_append_quote mem, List.drop_left]
    exact ⟨rfl, rest, rfl⟩
  unfold scanString
  dsimp only
  split
  · rename_i rest quote
    rw [quote] at split
    refine .token (r := .string) (.of_charClass (mem_string.2 ⟨_, body, rfl⟩) ?_ ?_ ?_) rfl ?_
    · rw [List.cons_prefix_cons]
      exact ⟨rfl, rest, by simpa using split⟩
    · intro other x same mem le
      rcases only other same with rfl | rfl
      · obtain ⟨body', hbody', rfl⟩ := mem_string.1 mem
        obtain ⟨rfl, -⟩ := closed hbody' (List.cons_prefix_cons.1 le).2
        exact List.prefix_rfl
      · obtain ⟨body', hbody', rfl⟩ := mem_openString.1 mem
        rw [List.cons_prefix_cons] at le ⊢
        exact ⟨rfl, (isPrefix_stringElements hbody' le.2).trans (List.prefix_append _ _)⟩
    · intro other same mem
      rcases only other same with rfl | rfl
      · exact .inl rfl
      · obtain ⟨body', hbody', eq⟩ := mem_openString.1 mem
        obtain rfl := (List.cons.inj eq).2
        exact absurd hbody' (append_quote_not_mem body)
    · simp [Rule.token?]
  · rename_i noQuote
    refine .of_charClass (mem_openString.2 ⟨_, body, rfl⟩) ?_ ?_ ?_
    · exact List.cons_prefix_cons.2 ⟨rfl, stringElements_isPrefix cs⟩
    · intro other x same mem le
      rcases only other same with rfl | rfl
      · obtain ⟨body', hbody', rfl⟩ := mem_string.1 mem
        obtain ⟨-, rest, quote⟩ := closed hbody' (List.cons_prefix_cons.1 le).2
        exact absurd quote (noQuote rest)
      · obtain ⟨body', hbody', rfl⟩ := mem_openString.1 mem
        rw [List.cons_prefix_cons] at le
        exact List.cons_prefix_cons.2 ⟨rfl, isPrefix_stringElements hbody' le.2⟩
    · intro other same mem
      rcases only other same with rfl | rfl
      · obtain ⟨body', hbody', eq⟩ := mem_string.1 mem
        have eq := (List.cons.inj eq).2
        exact absurd (eq ▸ body) (append_quote_not_mem hbody')
      · exact .inl rfl

/-! ### Comments -/

/-- The rules of texts that begin with a slash are told apart by the second character. -/
theorem slash_cases {other : Rule} (mem : x ∈ other.language) (le : x <+: '/' :: cs) :
    other = .op .div ∧ x = ['/'] ∨
      (other = .lineComment ∧ ∃ y ∈ manyOf (· ≠ '\n'), ∃ rest, x = '/' :: '/' :: y ∧
        cs = '/' :: rest ∧ y <+: rest) ∨
      (other = .blockComment ∧ ∃ y ∈ ended, ∃ rest, x = '/' :: '*' :: y ∧
        cs = '*' :: rest ∧ y <+: rest) ∨
      (other = .openComment ∧ ∃ y ∈ endless, ∃ rest, x = '/' :: '*' :: y ∧
        cs = '*' :: rest ∧ y <+: rest) := by
  -- Only three other rules begin with a slash, and each asks for a second character.
  have only := other.cases_charClass
  rw [Rule.charClass_of_isPrefix mem le] at only
  have second {d : Char} {y : List Char} (le : '/' :: d :: y <+: '/' :: cs) :
      ∃ rest, cs = d :: rest ∧ y <+: rest := by
    obtain ⟨after, same⟩ := le
    obtain ⟨-, rfl⟩ := List.cons.inj same
    exact ⟨_, rfl, List.prefix_append _ _⟩
  rcases only with rfl | rfl | rfl | rfl
  · obtain ⟨y, hy, rfl⟩ := mem_literally_mul.1 mem
    obtain ⟨rest, rfl, tail⟩ := second (show '/' :: '/' :: y <+: '/' :: cs from le)
    exact .inr (.inl ⟨rfl, y, hy, rest, rfl, rfl, tail⟩)
  · obtain ⟨y, hy, rfl⟩ := mem_literally_mul.1 mem
    obtain ⟨rest, rfl, tail⟩ := second (show '/' :: '*' :: y <+: '/' :: cs from le)
    exact .inr (.inr (.inl ⟨rfl, y, hy, rest, rfl, rfl, tail⟩))
  · obtain ⟨y, hy, rfl⟩ := mem_literally_mul.1 mem
    obtain ⟨rest, rfl, tail⟩ := second (show '/' :: '*' :: y <+: '/' :: cs from le)
    exact .inr (.inr (.inr ⟨rfl, y, hy, rest, rfl, rfl, tail⟩))
  · exact .inl ⟨rfl, mem_literally.1 mem⟩

theorem lineComment_longest (cs : List Char) :
    Longest ('/' :: '/' :: cs) .lineComment ('/' :: ('/' :: cs).takeWhile (· ≠ '\n')) := by
  have text : ('/' :: cs).takeWhile (· ≠ '\n') = '/' :: cs.takeWhile (· ≠ '\n') := by simp
  rw [text]
  have mem : '/' :: '/' :: cs.takeWhile (· ≠ '\n') ∈ Rule.lineComment.language :=
    mem_literally_mul.2 ⟨_, mem_manyOf.2 all_takeWhile, rfl⟩
  have isPrefix : '/' :: '/' :: cs.takeWhile (· ≠ '\n') <+: '/' :: '/' :: cs := by
    simp only [List.cons_prefix_cons, true_and]
    exact List.takeWhile_prefix _
  refine .of_charClass mem isPrefix ?_ ?_
  · intro other x _ mem le
    rcases slash_cases mem le with ⟨-, rfl⟩ | ⟨-, y, hy, rest, rfl, eq, le⟩
      | ⟨-, y, -, rest, -, eq, -⟩ | ⟨-, y, -, rest, -, eq, -⟩
    · exact List.cons_prefix_cons.2 ⟨rfl, List.nil_prefix⟩
    · obtain ⟨-, rfl⟩ := List.cons.inj eq
      simp only [List.cons_prefix_cons, true_and]
      exact isPrefix_takeWhile (mem_manyOf.1 hy) le
    · simp at eq
    · simp at eq
  · intro other _ mem
    rcases slash_cases mem isPrefix with ⟨-, eq⟩ | ⟨rfl, -⟩ | ⟨-, y, -, rest, -, eq, -⟩
      | ⟨-, y, -, rest, -, eq, -⟩
    · simp at eq
    · exact .inl rfl
    · simp at eq
    · simp at eq

/-- The text up to the first end of a comment. -/
theorem commentBody?_mem {body : List Char} (h : commentBody? cs = some body) : body ∈ ended := by
  fun_induction commentBody? cs generalizing body with
  | case1 => cases h
  | case2 =>
    obtain rfl := Option.some.inj h
    exact ⟨[], rfl, by decide⟩
  | case3 c cs notEnd ih =>
    obtain ⟨tail, found, rfl⟩ := Option.map_eq_some_iff.1 h
    obtain ⟨body, rfl, first⟩ := ih found
    refine ⟨c :: body, rfl, fun earlier => ?_⟩
    rcases List.infix_cons_iff.1 earlier with atFront | later
    · -- An end at the front would have been seen.
      obtain ⟨rfl, slash⟩ := List.cons_prefix_cons.1 atFront
      cases body with
      | nil => simp at slash
      | cons d body =>
        obtain ⟨rfl, -⟩ := List.cons_prefix_cons.1 slash
        obtain ⟨rest, rfl⟩ := commentBody?_isPrefix found
        exact notEnd _ rfl rfl
    · exact first later

theorem commentBody?_eq_none (h : commentBody? cs = none) : cs ∈ endless := by
  fun_induction commentBody? cs with
  | case1 => exact fun earlier => by simp at earlier
  | case2 => cases h
  | case3 c cs notEnd ih =>
    intro earlier
    rcases List.infix_cons_iff.1 earlier with atFront | later
    · obtain ⟨rfl, slash⟩ := List.cons_prefix_cons.1 atFront
      obtain ⟨rest, rfl⟩ := slash
      exact notEnd _ rfl rfl
    · exact ih (Option.map_eq_none_iff.1 h) later

/-- A text with an end of a comment is not endless. -/
theorem not_endless_of_ended {z : List Char} (hx : x ∈ ended) (le : x <+: z) : z ∉ endless := by
  obtain ⟨body, rfl, -⟩ := hx
  intro never
  exact never ((List.suffix_append _ _).isInfix.trans le.isInfix)

/-- The first end of a comment is in one place only. -/
theorem ended_eq_of_isPrefix (hx : x ∈ ended) (hy : y ∈ ended) (le : x <+: y) : x = y := by
  obtain ⟨body, rfl, first⟩ := hy
  by_contra shorter
  have less : x.length < (body ++ ['*', '/']).length :=
    lt_of_le_of_ne le.length_le fun same => shorter (le.eq_of_length same)
  have start : body ++ ['*'] <+: body ++ ['*', '/'] := ⟨['/'], by simp⟩
  have inside : x <+: body ++ ['*'] :=
    List.prefix_of_prefix_length_le le start (by simp at less ⊢; omega)
  exact not_endless_of_ended hx inside first

theorem scanComment_obeys (cs : List Char) : (scanComment cs).Obeys ('/' :: '*' :: cs) := by
  have starts {x y : List Char} (le : x <+: y) : '/' :: '*' :: x <+: '/' :: '*' :: y := by
    simpa only [List.cons_prefix_cons, true_and] using le
  have slash (x : List Char) : ['/'] <+: '/' :: x := List.cons_prefix_cons.2 ⟨rfl, List.nil_prefix⟩
  unfold scanComment
  split
  · rename_i body found
    have isEnded := commentBody?_mem found
    have isPrefix := commentBody?_isPrefix found
    -- The comment ends at the first end mark: a longer one would have this mark inside.
    have longest : Longest ('/' :: '*' :: cs) .blockComment ('/' :: '*' :: body) := by
      refine .of_charClass (mem_literally_mul.2 ⟨body, isEnded, rfl⟩) (starts isPrefix) ?_ ?_
      · intro other x _ mem le
        rcases slash_cases mem le with ⟨-, rfl⟩ | ⟨-, y, -, rest, -, eq, -⟩
          | ⟨-, y, hy, rest, rfl, eq, le⟩ | ⟨-, y, hy, rest, rfl, eq, le⟩
        · exact slash _
        · simp at eq
        · obtain ⟨-, rfl⟩ := List.cons.inj eq
          rcases List.prefix_or_prefix_of_prefix le isPrefix with le | le
          · exact starts le
          · rw [ended_eq_of_isPrefix isEnded hy le]
        · obtain ⟨-, rfl⟩ := List.cons.inj eq
          rcases List.prefix_or_prefix_of_prefix le isPrefix with le | le
          · exact starts le
          · exact absurd hy (not_endless_of_ended isEnded le)
      · intro other _ mem
        rcases slash_cases mem (starts isPrefix) with
          ⟨-, eq⟩ | ⟨-, y, -, rest, -, eq, -⟩ | ⟨rfl, -⟩ | ⟨-, y, hy, rest, eq, -⟩
        · simp at eq
        · simp at eq
        · exact .inl rfl
        · obtain rfl : body = y := by simpa using eq
          exact absurd hy (not_endless_of_ended isEnded List.prefix_rfl)
    have lines : ('/' :: '*' :: body).contains '\n' = body.contains '\n' := by simp
    split
    · rename_i several
      exact .token longest rfl (by rw [Rule.token?, lines, if_pos several])
    · rename_i one
      exact .skipped longest rfl (by rw [Rule.token?, lines, if_neg one])
  · rename_i none
    have isEndless := commentBody?_eq_none none
    show Longest ('/' :: '*' :: cs) .openComment ('/' :: '*' :: cs)
    refine .of_charClass (mem_literally_mul.2 ⟨cs, isEndless, rfl⟩) List.prefix_rfl
      (fun other x _ _ le => le)
      fun other _ mem => ?_
    rcases slash_cases mem List.prefix_rfl with ⟨-, eq⟩ | ⟨-, y, -, rest, -, eq, -⟩
      | ⟨-, y, hy, rest, eq, -⟩ | ⟨rfl, -⟩
    · simp at eq
    · simp at eq
    · obtain rfl : cs = y := by simpa using eq
      exact absurd isEndless (not_endless_of_ended hy List.prefix_rfl)
    · exact .inl rfl

/-! ### Operators and punctuation -/

/-- A symbol has one character or two. -/
theorem symbol_cases {r : Rule} (symbol : r.isSymbol = true) (mem : x ∈ r.language) :
    (∃ c t, x = [c] ∧ oneCharacter? c = some t ∧ r.token? x = some t) ∨
      ∃ c d t, x = [c, d] ∧ twoCharacters? c d = some t ∧ r.token? x = some t := by
  cases r with
  | op o =>
    obtain rfl := mem_literally.1 mem
    cases o <;> first | exact .inl ⟨_, _, rfl, rfl, rfl⟩ | exact .inr ⟨_, _, _, rfl, rfl, rfl⟩
  | punct p =>
    obtain rfl := mem_literally.1 mem
    cases p <;> first | exact .inl ⟨_, _, rfl, rfl, rfl⟩ | exact .inr ⟨_, _, _, rfl, rfl, rfl⟩
  | newline =>
    obtain rfl := mem_literally.1 mem
    exact .inl ⟨_, _, rfl, rfl, rfl⟩
  | _ => cases symbol

/-- Different symbols are different tokens. -/
theorem symbol_inj {r r' : Rule} {t : Token} (symbol : r.isSymbol = true)
    (symbol' : r'.isSymbol = true) (token : r.token? x = some t) (token' : r'.token? x = some t) :
    r = r' := by
  cases r <;> cases symbol <;> cases token <;> cases r' <;> cases symbol' <;> cases token' <;> rfl

theorem exists_symbol_of_oneCharacter? {t : Token} (h : oneCharacter? c = some t) :
    ∃ r : Rule, r.token? [c] = some t ∧ r.isSymbol = true ∧ r.isOpen = false ∧
      [c] ∈ r.language := by
  unfold oneCharacter? at h
  split at h <;> cases h
  · exact ⟨.newline, rfl, rfl, rfl, rfl⟩
  all_goals first | exact ⟨.op _, rfl, rfl, rfl, rfl⟩ | exact ⟨.punct _, rfl, rfl, rfl, rfl⟩

theorem exists_symbol_of_twoCharacters? {d : Char} {t : Token} (h : twoCharacters? c d = some t) :
    ∃ r : Rule, r.token? [c, d] = some t ∧ r.isSymbol = true ∧ r.isOpen = false ∧
      [c, d] ∈ r.language := by
  unfold twoCharacters? at h
  split at h <;> cases h
  all_goals first | exact ⟨.op _, rfl, rfl, rfl, rfl⟩ | exact ⟨.punct _, rfl, rfl, rfl, rfl⟩

/-- If only symbols can be taken off a text, the longest of them is taken. -/
theorem scanSymbol_obeys (only : ∀ r x, x ∈ Rule.language r → x <+: c :: cs → r.isSymbol = true) :
    (scanSymbol c cs).Obeys (c :: cs) := by
  unfold scanSymbol
  split
  · rename_i t two
    obtain ⟨d, head, two⟩ := Option.bind_eq_some_iff.1 two
    obtain ⟨rest, rfl⟩ := List.head?_eq_some_iff.1 head
    obtain ⟨r, token, symbol, ends, mem⟩ := exists_symbol_of_twoCharacters? two
    have isPrefix : [c, d] <+: c :: d :: rest := ⟨rest, rfl⟩
    refine .token (r := r) ⟨mem, isPrefix, ?_, ?_⟩ ends token
    · intro other x mem' le
      rcases symbol_cases (only other x mem' le) mem' with
        ⟨c', t', rfl, -⟩ | ⟨c', d', t', rfl, -⟩ <;> simp
    · intro other mem'
      have symbol' := only other _ mem' isPrefix
      rcases symbol_cases symbol' mem' with ⟨c', t', eq, -⟩ | ⟨c', d', t', eq, two', token'⟩
      · simp at eq
      · obtain ⟨rfl, rfl⟩ : c = c' ∧ d = d' := by simpa using eq
        obtain rfl := Option.some.inj (two.symm.trans two')
        exact .inl (symbol_inj symbol' symbol token' token)
  · rename_i noTwo
    -- A symbol at the front has one character.
    have single {other : Rule} {x : List Char} (mem : x ∈ other.language) (le : x <+: c :: cs) :
        ∃ t, x = [c] ∧ oneCharacter? c = some t ∧ other.token? x = some t := by
      rcases symbol_cases (only other x mem le) mem with ⟨c', t, rfl, one, token⟩
        | ⟨c', d, t, rfl, two, -⟩
      · obtain ⟨rfl, -⟩ := List.cons_prefix_cons.1 le
        exact ⟨t, rfl, one, token⟩
      · obtain ⟨rest, same⟩ := le
        obtain ⟨rfl, rfl⟩ := List.cons.inj same
        have noTwo : twoCharacters? c' d = none := noTwo
        rw [two] at noTwo
        cases noTwo
    split
    · rename_i t one
      obtain ⟨r, token, symbol, ends, mem⟩ := exists_symbol_of_oneCharacter? one
      have isPrefix : [c] <+: c :: cs := ⟨cs, rfl⟩
      refine .token (r := r) ⟨mem, isPrefix, ?_, ?_⟩ ends token
      · intro other x mem' le
        obtain ⟨t', rfl, -⟩ := single mem' le
        exact le_refl _
      · intro other mem'
        obtain ⟨t', -, one', token'⟩ := single mem' isPrefix
        obtain rfl := Option.some.inj (one.symm.trans one')
        exact .inl (symbol_inj (only other _ mem' isPrefix) symbol token' token)
    · rename_i noOne
      refine ⟨fun r x mem le => ?_, rfl⟩
      obtain ⟨t, -, one, -⟩ := single mem le
      rw [noOne] at one
      cases one

end Classes

/-- Each scan takes the longest text that any rule can take, or no rule can take one. -/
theorem scan_obeys (c : Char) (cs : List Char) : (scan c cs).Obeys (c :: cs) := by
  unfold scan
  split
  · rename_i blank
    exact .skipped (longest_blanks blank) rfl rfl
  rename_i noBlank
  split
  · rename_i word
    exact scanWord_obeys word
  rename_i noWord
  split
  · rename_i number
    exact scanNumber_obeys number
  rename_i noNumber
  split
  · rename_i quote
    subst quote
    exact scanString_obeys cs
  rename_i noQuote
  split
  · rename_i comment
    obtain ⟨rfl, rest, rfl⟩ : c = '/' ∧ ∃ rest, cs = '/' :: rest := by
      cases cs <;> simp_all
    exact .skipped (lineComment_longest rest) rfl rfl
  rename_i noLineComment
  split
  · rename_i comment
    obtain ⟨rfl, rest, rfl⟩ : c = '/' ∧ ∃ rest, cs = '*' :: rest := by
      cases cs <;> simp_all
    exact scanComment_obeys rest
  rename_i noBlockComment
  -- All other beginnings are used up, so what is left can only be a symbol.
  refine scanSymbol_obeys fun r x mem le => ?_
  by_cases slash : c = '/'
  · subst slash
    rcases slash_cases mem le with ⟨rfl, -⟩ | ⟨-, y, -, rest, -, rfl, -⟩
      | ⟨-, y, -, rest, -, rfl, -⟩ | ⟨-, y, -, rest, -, rfl, -⟩
    · rfl
    · exact absurd rfl noLineComment
    · exact absurd rfl noBlockComment
    · exact absurd rfl noBlockComment
  · have noDigit : c.isDigit = false := by
      by_contra! digit
      simp [digit] at noNumber
    have only := r.cases_charClass
    rw [Rule.charClass_of_isPrefix mem le] at only
    by_cases point : c = '.'
    · subst point
      exact absurd (by simp [digit_of_point only mem le]) noNumber
    · have cls : CharClass.of c = .symbol := by
        simp [CharClass.of, noBlank, noWord, noDigit, noQuote, slash, point]
      rwa [cls] at only

end MiniGo
