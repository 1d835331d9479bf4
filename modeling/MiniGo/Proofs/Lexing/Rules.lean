import Mathlib.Computability.Language
import MiniGo.Token.Scan

/-!
# The rules of tokens

Each kind of token, and each kind of text between tokens, has a rule: the language of all its texts.
A source text is cut by the longest text that any rule can take off its front.

* `Rule`, `Rule.language`: the rules with their texts.
* `Rule.token?`: the token that a text of a rule is.
* `Longest`: a rule takes the longest text off the front of a text.

A string or a comment that never ends has a rule of its own. Its texts begin a token, but they are
no tokens. A text that does end is longer, so it is preferred.

The first character of a text tells which rules can take it (`CharClass`).
-/

namespace MiniGo

open Computability

/-! ### Languages -/

/-- One character of a class. -/
def oneOf (p : Char → Bool) : Language Char := {x | ∃ c, p c = true ∧ x = [c]}

/-- Any number of characters of a class. -/
def manyOf (p : Char → Bool) : Language Char := (oneOf p)∗

/-- One or more characters of a class. -/
def someOf (p : Char → Bool) : Language Char := oneOf p * (oneOf p)∗

/-- A single text. -/
def literally (text : String) : Language Char := {text.toList}

/-- A text that may be absent. -/
def optionally (l : Language Char) : Language Char := 1 + l

/-- The exponent of a decimal: a mark, an optional sign and digits. -/
def exponentTexts : Language Char :=
  oneOf (fun c => c = 'e' || c = 'E') *
    (optionally (oneOf fun c => c = '+' || c = '-') * someOf Char.isDigit)

/-- An element of a string: a plain character, or a backslash with a character. -/
def stringElement : Language Char :=
  oneOf (fun c => c ≠ '"' && c ≠ '\\' && c ≠ '\n') + literally "\\" * oneOf (· ≠ '\n')

/-- A text without an end of a comment in it. -/
def endless : Language Char := {x | ¬ ['*', '/'] <:+: x}

/-- A text up to and with its first end of a comment. -/
def ended : Language Char := {x | ∃ body, x = body ++ ['*', '/'] ∧ ¬ ['*', '/'] <:+: body ++ ['*']}

/-! ### Rules -/

/-- The kinds of texts that can be taken off the front of a text. -/
inductive Rule where
  | blanks
  | lineComment
  | blockComment
  | integer
  | decimal
  | string
  | name
  | keyword (k : Keyword)
  | op (o : BinaryOp)
  | punct (p : Punct)
  | newline
  | openString
  | openComment
deriving DecidableEq

namespace Rule

/-- The texts of a rule. -/
def language : Rule → Language Char
  | blanks => someOf isBlank
  | lineComment => literally "//" * manyOf (· ≠ '\n')
  | blockComment => literally "/*" * ended
  | integer => someOf Char.isDigit
  | decimal =>
    someOf Char.isDigit * (literally "." * (manyOf Char.isDigit * optionally exponentTexts)) +
      literally "." * (someOf Char.isDigit * optionally exponentTexts) +
        someOf Char.isDigit * exponentTexts
  | string => literally "\"" * (stringElement∗ * literally "\"")
  | name => oneOf isNameStart * manyOf isNameRest
  | keyword k => literally k.text
  | op o => literally o.text
  | punct p => literally p.text
  | newline => literally "\n"
  | openString => literally "\"" * stringElement∗
  | openComment => literally "/*" * endless

/-- Whether the texts of a rule are no tokens, since they never end. -/
def isOpen : Rule → Bool
  | openString | openComment => true
  | _ => false

/-- The token that a text of a rule is. Blanks and comments are skipped, but a comment over several
lines is a newline. -/
def token? (text : List Char) : Rule → Option Token
  | blanks | lineComment | openString | openComment => none
  | blockComment => if text.contains '\n' then some .newline else none
  | integer => some (.integer (String.ofList text))
  | decimal => some (.decimal (String.ofList text))
  | string => some (.string (String.ofList text.tail.dropLast))
  | name => some (.ident (String.ofList text))
  | keyword k => some (.keyword k)
  | op o => some (.op o)
  | punct p => some (.punct p)
  | newline => some .newline

end Rule

/-- A rule takes a text off the front of a text, and it is the longest that any rule can take. Of
the rules that can take this text there is only one, except that a keyword is preferred to a
name. -/
structure Longest (cs : List Char) (rule : Rule) (text : List Char) : Prop where
  mem : text ∈ rule.language
  isPrefix : text <+: cs
  longest : ∀ (other : Rule) (x : List Char), x ∈ other.language → x <+: cs → x.length ≤ text.length
  first : ∀ other : Rule, text ∈ other.language → other = rule ∨ other = .name ∧
    ∃ k, rule = .keyword k

/-! ### Texts of the rules -/

section Membership

variable {p : Char → Bool} {x : List Char}

theorem mem_oneOf : x ∈ oneOf p ↔ ∃ c, p c = true ∧ x = [c] := Iff.rfl

theorem mem_literally {text : String} : x ∈ literally text ↔ x = text.toList := Iff.rfl

theorem mem_optionally {l : Language Char} : x ∈ optionally l ↔ x = [] ∨ x ∈ l := by
  rw [optionally, Language.mem_add, Language.mem_one]

theorem mem_manyOf : x ∈ manyOf p ↔ ∀ c ∈ x, p c = true := by
  rw [manyOf, Language.mem_kstar]
  constructor
  · rintro ⟨parts, rfl, each⟩ c mem
    obtain ⟨part, memPart, mem⟩ := List.mem_flatten.1 mem
    obtain ⟨d, hd, rfl⟩ := each part memPart
    rwa [List.mem_singleton.1 mem]
  · intro all
    refine ⟨x.map fun c => [c], by rw [← List.flatMap_def, List.flatMap_singleton'], ?_⟩
    intro part mem
    obtain ⟨c, memC, rfl⟩ := List.mem_map.1 mem
    exact ⟨c, all c memC, rfl⟩

theorem mem_oneOf_mul {l : Language Char} :
    x ∈ oneOf p * l ↔ ∃ c y, p c = true ∧ y ∈ l ∧ x = c :: y := by
  rw [Language.mem_mul]
  constructor
  · rintro ⟨-, ⟨c, hc, rfl⟩, y, hy, rfl⟩
    exact ⟨c, y, hc, hy, rfl⟩
  · rintro ⟨c, y, hc, hy, rfl⟩
    exact ⟨[c], ⟨c, hc, rfl⟩, y, hy, rfl⟩

theorem mem_someOf : x ∈ someOf p ↔ x ≠ [] ∧ ∀ c ∈ x, p c = true := by
  rw [someOf, mem_oneOf_mul]
  constructor
  · rintro ⟨c, y, hc, hy, rfl⟩
    exact ⟨List.cons_ne_nil _ _, List.forall_mem_cons.2 ⟨hc, mem_manyOf.1 hy⟩⟩
  · rintro ⟨ne, all⟩
    obtain ⟨c, y, rfl⟩ := List.exists_cons_of_ne_nil ne
    obtain ⟨hc, hy⟩ := List.forall_mem_cons.1 all
    exact ⟨c, y, hc, mem_manyOf.2 hy, rfl⟩

theorem mem_literally_mul {text : String} {l : Language Char} :
    x ∈ literally text * l ↔ ∃ y ∈ l, x = text.toList ++ y := by
  rw [Language.mem_mul]
  constructor
  · rintro ⟨-, rfl, y, hy, rfl⟩
    exact ⟨y, hy, rfl⟩
  · rintro ⟨y, hy, rfl⟩
    exact ⟨_, rfl, y, hy, rfl⟩

theorem mem_exponentTexts : x ∈ exponentTexts ↔
    ∃ mark sign digits, (mark = 'e' ∨ mark = 'E') ∧
      (sign = [] ∨ sign = ['+'] ∨ sign = ['-']) ∧ digits ≠ [] ∧
      (∀ c ∈ digits, c.isDigit = true) ∧ x = mark :: (sign ++ digits) := by
  have isSign {y : List Char} :
      y ∈ optionally (oneOf fun c => c = '+' || c = '-') ↔ y = [] ∨ y = ['+'] ∨ y = ['-'] := by
    rw [mem_optionally, mem_oneOf]
    simp only [Bool.or_eq_true, decide_eq_true_eq, or_and_right, exists_or, exists_eq_left]
  rw [exponentTexts, mem_oneOf_mul]
  simp only [Language.mem_mul, isSign, mem_someOf, Bool.or_eq_true, decide_eq_true_eq]
  constructor
  · rintro ⟨mark, y, hmark, ⟨sign, hsign, digits, ⟨some, all⟩, rfl⟩, rfl⟩
    exact ⟨mark, sign, digits, hmark, hsign, some, all, rfl⟩
  · rintro ⟨mark, sign, digits, hmark, hsign, some, all, rfl⟩
    exact ⟨mark, _, hmark, ⟨sign, hsign, digits, ⟨some, all⟩, rfl⟩, rfl⟩

/-- A decimal has a point, or an exponent and no point. -/
theorem mem_decimal : x ∈ Rule.decimal.language ↔
    (∃ whole fraction exponent, whole ++ fraction ≠ [] ∧ (∀ c ∈ whole, c.isDigit = true) ∧
      (∀ c ∈ fraction, c.isDigit = true) ∧ exponent ∈ optionally exponentTexts ∧
      x = whole ++ '.' :: (fraction ++ exponent)) ∨
    ∃ whole exponent, whole ≠ [] ∧ (∀ c ∈ whole, c.isDigit = true) ∧ exponent ∈ exponentTexts ∧
      x = whole ++ exponent := by
  simp only [Rule.language, Language.mem_add, Language.mem_mul, mem_literally, mem_someOf,
    mem_manyOf, or_assoc]
  constructor
  · rintro (⟨whole, ⟨some, all⟩, -, ⟨-, rfl, -, ⟨fraction, allFraction, exponent, hexponent, rfl⟩,
      rfl⟩, rfl⟩ | ⟨-, rfl, -, ⟨fraction, ⟨some, all⟩, exponent, hexponent, rfl⟩, rfl⟩ |
      ⟨whole, ⟨some, all⟩, exponent, hexponent, rfl⟩)
    · exact .inl ⟨whole, fraction, exponent, by simp [some], all, allFraction, hexponent, rfl⟩
    · exact .inl ⟨[], fraction, exponent, some, by simp, all, hexponent, rfl⟩
    · exact .inr ⟨whole, exponent, some, all, hexponent, rfl⟩
  · rintro (⟨whole, fraction, exponent, some, all, allFraction, hexponent, rfl⟩ |
      ⟨whole, exponent, some, all, hexponent, rfl⟩)
    · by_cases none : whole = []
      · subst none
        exact .inr
          (.inl ⟨_, rfl, _, ⟨fraction, ⟨some, allFraction⟩, exponent, hexponent, rfl⟩, rfl⟩)
      · exact .inl ⟨whole, ⟨none, all⟩, _,
          ⟨_, rfl, _, ⟨fraction, allFraction, exponent, hexponent, rfl⟩, rfl⟩, rfl⟩
    · exact .inr (.inr ⟨whole, ⟨some, all⟩, exponent, hexponent, rfl⟩)

/-- A decimal is no integer. -/
theorem exists_not_isDigit_of_mem_decimal (h : x ∈ Rule.decimal.language) :
    ∃ c ∈ x, c.isDigit = false := by
  rcases mem_decimal.1 h with ⟨whole, fraction, exponent, -, -, -, -, rfl⟩
    | ⟨whole, exponent, -, -, hexponent, rfl⟩
  · exact ⟨'.', by simp, rfl⟩
  · obtain ⟨mark, sign, digits, hmark, -, -, -, rfl⟩ := mem_exponentTexts.1 hexponent
    exact ⟨mark, by simp, by rcases hmark with rfl | rfl <;> rfl⟩

end Membership

/-! ### First characters -/

/-- The classes of characters that begin texts of different rules. -/
inductive CharClass where
  | blank
  | word
  | number
  | quote
  | slash
  | symbol
deriving DecidableEq

/-- The class of a character. -/
def CharClass.of (c : Char) : CharClass :=
  if isBlank c then blank
  else if isNameStart c then word
  else if c.isDigit || c = '.' then number
  else if c = '"' then quote
  else if c = '/' then slash
  else symbol

/-- The class of the first characters of the texts of a rule. -/
def Rule.charClass : Rule → CharClass
  | blanks => .blank
  | name | keyword _ => .word
  | integer | decimal => .number
  | string | openString => .quote
  | lineComment | blockComment | openComment | op .div => .slash
  | op _ | punct _ | newline => .symbol

theorem isBlank_of_isNameStart {c : Char} (h : isNameStart c = true) : isBlank c = false := by
  by_contra! blank
  simp only [isBlank, ne_eq, Bool.not_eq_false, Bool.or_eq_true, decide_eq_true_eq] at blank
  rcases blank with ((rfl | rfl) | rfl) | rfl <;> cases h

theorem isBlank_of_isDigit {c : Char} (h : c.isDigit = true) : isBlank c = false := by
  by_contra! blank
  simp only [isBlank, ne_eq, Bool.not_eq_false, Bool.or_eq_true, decide_eq_true_eq] at blank
  rcases blank with ((rfl | rfl) | rfl) | rfl <;> cases h

theorem isNameStart_of_isDigit {c : Char} (h : c.isDigit = true) : isNameStart c = false := by
  have notWord : c ≠ '_' := by
    rintro rfl
    cases h
  simp only [Char.isDigit, Bool.and_eq_true, decide_eq_true_eq, UInt32.le_iff_toNat_le] at h
  have nine : '9'.val.toNat = 57 := rfl
  -- All the letters come after the digits.
  have beforeUpper : ¬ 'A'.val ≤ c.val := by
    rw [UInt32.le_iff_toNat_le, show 'A'.val.toNat = 65 from rfl]
    omega
  have beforeLower : ¬ 'a'.val ≤ c.val := by
    rw [UInt32.le_iff_toNat_le, show 'a'.val.toNat = 97 from rfl]
    omega
  have upper : c.isUpper = false := decide_eq_false fun upper => beforeUpper upper.1
  have lower : c.isLower = false := Bool.and_eq_false_iff.2 (.inl (decide_eq_false beforeLower))
  have alpha : c.isAlpha = false := Bool.or_eq_false_iff.2 ⟨upper, lower⟩
  simp [isNameStart, alpha, notWord]

theorem CharClass.of_isNameStart {c : Char} (h : isNameStart c = true) :
    CharClass.of c = .word := by
  simp [CharClass.of, isBlank_of_isNameStart h, h]

theorem CharClass.of_isDigit {c : Char} (h : c.isDigit = true) : CharClass.of c = .number := by
  simp [CharClass.of, isBlank_of_isDigit h, isNameStart_of_isDigit h, h]

/-- A text of a rule begins with a character of its class. -/
theorem Rule.exists_cons_of_mem {r : Rule} {x : List Char} (h : x ∈ r.language) :
    ∃ c y, x = c :: y ∧ CharClass.of c = r.charClass := by
  cases r with
  | blanks =>
    obtain ⟨c, y, hc, -, rfl⟩ := mem_oneOf_mul.1 h
    exact ⟨c, y, rfl, by simp [CharClass.of, hc, charClass]⟩
  | integer =>
    obtain ⟨c, y, hc, -, rfl⟩ := mem_oneOf_mul.1 h
    exact ⟨c, y, rfl, CharClass.of_isDigit hc⟩
  | name =>
    obtain ⟨c, y, hc, -, rfl⟩ := mem_oneOf_mul.1 h
    exact ⟨c, y, rfl, CharClass.of_isNameStart hc⟩
  | decimal =>
    have point : CharClass.of '.' = .number := rfl
    rcases mem_decimal.1 h with ⟨whole, fraction, exponent, -, all, -, -, rfl⟩
      | ⟨whole, exponent, some, all, -, rfl⟩
    · cases whole with
      | nil => exact ⟨'.', _, rfl, point⟩
      | cons c whole => exact ⟨c, _, rfl, CharClass.of_isDigit (all c (.head _))⟩
    · obtain ⟨c, whole, rfl⟩ := List.exists_cons_of_ne_nil some
      exact ⟨c, _, rfl, CharClass.of_isDigit (all c (.head _))⟩
  | lineComment | blockComment | openComment =>
    obtain ⟨y, -, rfl⟩ := mem_literally_mul.1 h
    exact ⟨'/', _, rfl, rfl⟩
  | string | openString =>
    obtain ⟨y, -, rfl⟩ := mem_literally_mul.1 h
    exact ⟨'"', _, rfl, rfl⟩
  | keyword k =>
    obtain rfl := mem_literally.1 h
    cases k <;> exact ⟨_, _, rfl, rfl⟩
  | op o =>
    obtain rfl := mem_literally.1 h
    cases o <;> exact ⟨_, _, rfl, rfl⟩
  | punct p =>
    obtain rfl := mem_literally.1 h
    cases p <;> exact ⟨_, _, rfl, rfl⟩
  | newline =>
    obtain rfl := mem_literally.1 h
    exact ⟨_, _, rfl, rfl⟩

/-- Only rules of the class of the first character can take a text off. -/
theorem Rule.charClass_of_isPrefix {r : Rule} {c : Char} {cs x : List Char} (h : x ∈ r.language)
    (le : x <+: c :: cs) :
    r.charClass = CharClass.of c := by
  obtain ⟨d, y, rfl, same⟩ := exists_cons_of_mem h
  obtain ⟨rfl, -⟩ := List.cons_prefix_cons.1 le
  exact same.symm

/-- A text of a rule is the longest if each text of a rule of its class is a start of it. -/
theorem Longest.of_charClass {c : Char} {cs text : List Char} {rule : Rule}
    (mem : text ∈ rule.language) (isPrefix : text <+: c :: cs)
    (longest : ∀ other x, Rule.charClass other = .of c → x ∈ other.language →
      x <+: c :: cs → x <+: text)
    (first : ∀ other, Rule.charClass other = .of c → text ∈ other.language →
      other = rule ∨ other = .name ∧ ∃ k, rule = .keyword k) : Longest (c :: cs) rule text where
  mem := mem
  isPrefix := isPrefix
  longest other x hx le := (longest other x (Rule.charClass_of_isPrefix hx le) hx le).length_le
  first other hx := first other (Rule.charClass_of_isPrefix hx isPrefix) hx

end MiniGo
