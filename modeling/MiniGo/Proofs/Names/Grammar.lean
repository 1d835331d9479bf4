import MiniGo.Proofs.Lexing.Spelling
import MiniGo.Proofs.Syntax.Leaves

/-!
# Names and literals in syntax trees

The names and the literals in a syntax tree are tokens of the source text, so each of them has a
text that such a token can have. A name has the characters of a name only.

* `Leaf.Legal`, `File.leaves_legal`: the leaves of a file have texts that tokens can have.
* `File.parse_nameText`, `File.parse_functionNameText`: the names of the global variables and of the
  functions of a file have the characters of a name only.
-/

namespace MiniGo

/-! ### Leaves of a file -/

/-- The text of a leaf is one that a token of its kind can have. -/
def Leaf.Legal (l : Leaf) : Prop :=
  match l.kind with
  | .name => (Token.ident l.text).Legal
  | .literal .int => (Token.integer l.text).Legal
  | .literal .float => (Token.decimal l.text).Legal
  | .literal .string => (Token.string l.text).Legal
  | .literal .bool | .operator => True

/-- The leaves of a file have texts that tokens can have. -/
theorem File.leaves_legal {source : String} {file : File} (h : File.parse source = .ok file) :
    ∀ l ∈ file.leaves, l.Legal := by
  rintro ⟨kind, text, line⟩ mem
  obtain ⟨tokens, tokenized, isToken⟩ := exists_token_of_mem_leaves h
  obtain ⟨t, found, token⟩ := isToken _ mem
  have legal := tokenize_legal tokenized t found
  cases own : t.token with
  | ident | integer | decimal | string =>
    rw [own] at token legal
    cases token
    exact legal
  | op =>
    rw [own] at token
    cases token
    trivial
  | keyword k =>
    rw [own] at token
    cases k <;> cases token <;> trivial
  | punct | newline =>
    rw [own] at token
    cases token

/-! ### Names -/

/-- A text has the characters of a name only. -/
def NameText (text : String) : Prop := ∀ c ∈ text.toList, isNameRest c = true

theorem isNameRest_of_isNameStart {c : Char} (h : isNameStart c = true) : isNameRest c = true := by
  simp only [isNameStart, isNameRest, Char.isAlphanum, Bool.or_eq_true] at h ⊢
  rcases h with h | h
  · exact .inl (.inl h)
  · exact .inr h

theorem Token.Legal.nameText {name : String} (legal : (ident name).Legal) : NameText name := by
  obtain ⟨first, rest, start, others, text⟩ := mem_oneOf_mul.1 legal.1
  rw [NameText, text]
  exact List.forall_mem_cons.2 ⟨isNameRest_of_isNameStart start, mem_manyOf.1 others⟩

namespace File

variable {source : String} {file : File}

/-- A name in a file has the characters of a name only. -/
theorem nameText_of_mem_leaves (h : File.parse source = .ok file) {id : Ident}
    (mem : id.leaf ∈ file.leaves) :
    NameText id.name :=
  Token.Legal.nameText (leaves_legal h _ mem)

/-- The names of global variables in a file have the characters of a name only. -/
theorem parse_nameText (h : File.parse source = .ok file) {decl : VarDecl}
    (declared : decl ∈ file.varDecls) {spec : VarSpec} (listed : spec ∈ decl.specs) {id : Ident}
    (named : id ∈ spec.names) : NameText id.name := by
  have inSpec : id.leaf ∈ spec.leaves := List.mem_append_left _ (List.mem_map_of_mem named)
  have inDecl : id.leaf ∈ decl.leaves := List.mem_flatMap.2 ⟨spec, listed, inSpec⟩
  exact nameText_of_mem_leaves h (mem_leaves_of_varDecl declared inDecl)

/-- The names of functions in a file have the characters of a name only. -/
theorem parse_functionNameText (h : File.parse source = .ok file) {decl : FuncDecl}
    (declared : decl ∈ file.funcDecls) : NameText decl.name.name :=
  nameText_of_mem_leaves h (mem_leaves_of_funcDecl declared List.mem_cons_self)

end File

end MiniGo
