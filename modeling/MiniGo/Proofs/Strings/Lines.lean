import MiniGo.Proofs.Lexing.Spelling
import MiniGo.Proofs.Strings.Code

/-!
# Quotes and lines

The text of a string literal is copied into the assembly as it is written, between quotes and on a
line of its own. It cannot end the quotes or the line, since it consists of the elements of a
string: a quote in it has a backslash in front, no backslash is left over for the closing quote, and
there is no line break.

* `tokenize_string`: the string literals of a source text consist of the elements of strings.
* `ClassCode.lines_legal`, `ClassCode.lines_plain`: the lines of a class have legal strings and no
  line breaks.
* `KeepsQuotes`, `compile_keepsQuotes`: an assembly has the lines that were written, and its string
  constants are the string literals of the source text.
-/

namespace MiniGo

open scoped List

open Computability

/-! ### Tokens -/

/-- The string literals of a source text consist of the elements of strings. -/
theorem tokenize_string {source : String} {tokens : List SpannedToken}
    (h : tokenize source = .ok tokens) {text : String}
    (mem : text ∈ tokens.filterMap fun t => t.token.string?) : (Token.string text).Legal := by
  obtain ⟨t, found, string⟩ := List.mem_filterMap.1 mem
  have legal := tokenize_legal h t found
  cases isString : t.token with
  | string text' =>
    rw [isString] at string legal
    cases string
    exact legal
  | _ =>
    rw [isString] at string
    cases string

/-- The elements of a string have no line break. -/
theorem plain_of_legal {text : String} (legal : (Token.string text).Legal) : Plain text := by
  obtain ⟨elements, whole, each⟩ := Language.mem_kstar.1 legal
  rw [Plain, whole]
  intro mem
  obtain ⟨element, listed, inside⟩ := List.mem_flatten.1 mem
  rcases each element listed with ⟨c, plain, rfl⟩ | escape
  · obtain rfl := List.mem_singleton.1 inside
    simp at plain
  · obtain ⟨y, ⟨c, plain, rfl⟩, rfl⟩ := mem_literally_mul.1 escape
    simp at inside plain
    exact plain inside.symm

/-! ### Lines -/

/-- Only a string constant between quotes pushes a string. -/
theorem Line.text_of_string? {l : Line} {text : String} (h : l.string? = some text) :
    l.text = "\tldc " ++ (Token.string text).spelling := by
  have line : l = .instr (.ldc (.string text)) := by
    unfold string? Instr.string? at h
    split at h
    · split at h
      · cases h
        rfl
      · cases h
    · cases h
  rw [line]
  show "\t" ++ ("ldc " ++ (Token.string text).spelling) = _
  rw [← String.append_assoc]
  rfl

/-- The text of an assembly, its lines and its string constants are those of a tree, and the strings
of the tree are those of the tokens of a source text. -/
structure KeepsQuotes (file : File) (tokens : List SpannedToken) (root : Node) (lines : List Line)
    (text : String) :
    Prop where
  /-- Between its line breaks, the text has the lines that were written, and nothing behind the last
  one. -/
  split : text.toList.splitOn '\n' = lines.map (·.text.toList) ++ [[]]
  /-- No line has a line break in it. -/
  plain : ∀ l ∈ lines, '\n' ∉ l.text.toList
  /-- The lines push the string constants of the tree, in order. A variable is declared with an
  empty string. -/
  constants : lines.filterMap Line.string? = root.quotes.map (·.getD "")
  /-- Among the constants, each string node has one of its own. -/
  nodes : root.quotes.reduceOption ~ root.texts
  /-- Each string node has the text of a string literal of its own. -/
  literals : root.texts <+~ tokens.filterMap fun t => t.token.string?
  /-- The string nodes come to run in the order of their literals, where the global variables are
  before the functions. -/
  order : root.quotes.reduceOption <+ stringsOf file.declaredLeaves
  /-- The string literals of the file are the string tokens outside of import clauses. -/
  tokens : stringsOf file.leaves =
    (outsideImports SpannedToken.token .outside tokens).filterMap fun t => t.token.string?
  /-- What is written for a string constant is again the one token of its text. -/
  operands : ∀ l ∈ lines, ∀ s, l.string? = some s → ∃ operand, l.text = "\tldc " ++ operand ∧
    tokenize operand = .ok [⟨.string s, ⟨0, operand.utf8ByteSize⟩⟩]

/-- The string constants of a class are legal strings. -/
theorem Writes.legal_of_string? {ctx : Context} {source : String} {tokens : List SpannedToken}
    {root : Node} {lines : List Line} (tokenized : tokenize source = .ok tokens)
    (writes : Writes ctx root.quotes lines)
    (literals : root.texts <+~ tokens.filterMap fun t => t.token.string?) {l : Line}
    (mem : l ∈ lines) {s : String} (string : l.string? = some s) : (Token.string s).Legal := by
  have constant : s ∈ lines.filterMap Line.string? := List.mem_filterMap.2 ⟨l, mem, string⟩
  rw [writes.strings] at constant
  obtain ⟨quote, listed, rfl⟩ := List.mem_map.1 constant
  cases quote with
  | none => exact Language.nil_mem_kstar _
  | some s =>
    have node : s ∈ root.texts := root.quotes_perm.mem_iff.1 (List.reduceOption_mem_iff.2 listed)
    exact tokenize_string tokenized (literals.subset node)

/-- The string nodes of a program have the texts of string literals, in order. -/
theorem StandFor.order {root : Node} {leaves : List Leaf} (h : StandFor root.constants leaves) :
    root.quotes.reduceOption <+ stringsOf leaves := by
  rw [root.reduceOption_quotes]
  exact h.strings

/-- What the text of a class consists of: lines that refer to what the class has, with legal
strings. -/
theorem ClassCode.lines_legal {source : String} {file : File} {p : Program} {options : Options}
    (parsed : File.parse source = .ok file) (analyzed : analyze file = .ok p)
    (k : ClassCode p options) (wf : p.tables.WellFormed) :
    ∀ l ∈ k.lines, l.Suits (p.context options {}) ∧ ∀ s, l.string? = some s →
      (Token.string s).Legal := by
  obtain ⟨tokens, tokenized, strings⟩ := File.stringsOf_leaves parsed
  have standFor := analyze_standFor analyzed
  have writes := k.writes wf standFor.isFinite
  have literals : p.root.texts <+~ tokens.filterMap fun t => t.token.string? :=
    p.root.quotes_perm.symm.subperm.trans
      (standFor.order.subperm.trans (File.stringsOf_declared strings))
  exact fun l mem =>
    ⟨writes.suits l mem, fun s string => writes.legal_of_string? tokenized literals mem string⟩

/-- The lines of a class have no line breaks. -/
theorem ClassCode.lines_plain {source : String} {file : File} {p : Program} {options : Options}
    (className : '\n' ∉ options.className.toList) (parsed : File.parse source = .ok file)
    (analyzed : analyze file = .ok p) (k : ClassCode p options) (wf : p.tables.WellFormed) :
    ∀ l ∈ k.lines, Plain l.text := by
  intro l mem
  obtain ⟨suits, legal⟩ := k.lines_legal parsed analyzed wf l mem
  cases string : l.string? with
  | none => exact suits.plain (context_plain parsed analyzed className {}) string
  | some s =>
    rw [Line.text_of_string? string]
    simpa [Token.spelling] using plain_of_legal (legal s string)

/-- No text of a program gets out of its line or out of its quotes in the assembly. -/
theorem compile_keepsQuotes {source text : String} {options : Options}
    (className : '\n' ∉ options.className.toList) (h : compile source options = .ok text) :
    ∃ file p lines tokens, File.parse source = .ok file ∧ analyze file = .ok p ∧
      emission p.root p.tables options = ⟨lines, {}, .ok ()⟩ ∧ tokenize source = .ok tokens ∧
      KeepsQuotes file tokens p.root lines text := by
  obtain ⟨file, p, parsed, analyzed, typed, k, emitted, rfl⟩ := compile_eq_ok h
  obtain ⟨tokens, tokenized, strings⟩ := File.stringsOf_leaves parsed
  have standFor := analyze_standFor analyzed
  have writes := k.writes typed.tables standFor.isFinite
  have literals : p.root.texts <+~ tokens.filterMap fun t => t.token.string? :=
    p.root.quotes_perm.symm.subperm.trans
      (standFor.order.subperm.trans (File.stringsOf_declared strings))
  have plain := k.lines_plain className parsed analyzed typed.tables
  refine ⟨file, p, k.lines, tokens, parsed, analyzed, emitted, tokenized, splitOn_render plain,
    plain, writes.strings, p.root.quotes_perm, literals, standFor.order, strings,
    fun l mem s string => ?_⟩
  exact ⟨_, Line.text_of_string? string,
    (writes.legal_of_string? tokenized literals mem string).tokenize_alone⟩

/-- Strings with quotes, backslashes and the beginning of a comment in them, in a condition and
behind it. -/
def quotingSource : String :=
  "import \"fmt\"\nvar g string\nfunc main() \x7b\nvar s string = \"say \\\"hi\\\" \\\\\"\n" ++
    "if s + \"//\" == g \x7b\nwrite(\"\\n; ldc é\")\n\x7d\n\x7d\n"

theorem quotingSource_keepsQuotes : ∃ text, '\n' ∉ "Quotes".toList ∧
    compile quotingSource { className := "Quotes" } = .ok text ∧
    ∃ file p lines tokens, File.parse quotingSource = .ok file ∧ analyze file = .ok p ∧
      emission p.root p.tables { className := "Quotes" } = ⟨lines, {}, .ok ()⟩ ∧
      tokenize quotingSource = .ok tokens ∧ KeepsQuotes file tokens p.root lines text := by
  obtain ⟨text, h⟩ :=
    exists_text_of_isOk quotingSource { className := "Quotes" } (by decide +kernel)
  exact ⟨text, by decide, h, compile_keepsQuotes (by decide) h⟩

end MiniGo
