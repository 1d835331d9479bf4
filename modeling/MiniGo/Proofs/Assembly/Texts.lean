import MiniGo.Proofs.Strings.Lines

/-!
# The class of a text

An assembly is read back from its text: first its lines, each from its own text, and then its class.
The name of the class is not checked by the compiler. If there is a line break in it, lines cannot
be told apart any more, but each of them can still be read.

* `readLines?_render`, `ClassFile.read?_render`: lines and their class are read back from their
  text.
* `ClassFile.ReadFrom`: a class, the lines that it consists of, and the text that they are read
  from.
* `ClassCode.readFrom`: the class of a source text is read from the text that is written for it.
-/

namespace MiniGo

/-! ### Lines -/

theorem toList_render (lines : List Line) :
    (Line.render lines).toList = lines.flatMap fun l => l.text.toList ++ ['\n'] := by
  induction lines with
  | nil => rfl
  | cons l lines ih =>
    rw [List.flatMap_cons, ← ih]
    simp [Line.render]

theorem mapM_read?_texts {lines : List Line}
    (each : ∀ l ∈ lines, Line.read? l.text.toList = some l) :
    (lines.map (·.text.toList)).mapM Line.read? = some lines := by
  induction lines with
  | nil => rfl
  | cons l lines ih =>
    obtain ⟨first, others⟩ := List.forall_mem_cons.1 each
    simp [first, ih others]

/-- The lines of a text are read back from it. -/
theorem readLines?_render {lines : List Line}
    (each : ∀ l ∈ lines, Line.read? l.text.toList = some l) (plain : ∀ l ∈ lines, Plain l.text) :
    readLines? (Line.render lines) = some lines := by
  unfold readLines?
  rw [splitOn_render plain]
  simpa using mapM_read?_texts each

/-- The class of lines is read back from their text. -/
theorem ClassFile.read?_render {lines : List Line}
    (each : ∀ l ∈ lines, Line.read? l.text.toList = some l) (plain : ∀ l ∈ lines, Plain l.text) :
    read? (Line.render lines) = some (ofLines lines) := by
  rw [read?, readLines?_render each plain]
  rfl

/-! ### Classes -/

/-- A class is what lines say that are read from a text. -/
structure ClassFile.ReadFrom (cls : ClassFile) (lines : List Line) (text className : String) :
    Prop where
  /-- The text has the texts of the lines, each with a line break at its end. -/
  written : text.toList = lines.flatMap fun l => l.text.toList ++ ['\n']
  /-- Each line is read from its own text. -/
  each : ∀ l ∈ lines, Line.read? l.text.toList = some l
  /-- The class is that of the lines. -/
  isClass : cls = ofLines lines
  /-- The class is read from the text as a whole, unless a line break in the name of the class gets
  in between. -/
  whole : '\n' ∉ className.toList → read? text = some cls

/-- The class of a source text is read from the text that is written for it. -/
theorem ClassCode.readFrom {source : String} {file : File} {p : Program} {options : Options}
    (parsed : File.parse source = .ok file) (analyzed : analyze file = .ok p)
    (k : ClassCode p options) (wf : p.tables.WellFormed) :
    (ClassFile.ofLines k.lines).ReadFrom k.lines (Line.render k.lines) options.className := by
  have each : ∀ l ∈ k.lines, Line.read? l.text.toList = some l := by
    intro l mem
    obtain ⟨suits, legal⟩ := k.lines_legal parsed analyzed wf l mem
    exact Line.read?_text (suits.legible (context_named parsed analyzed options {}) legal)
  refine ⟨toList_render k.lines, each, rfl, fun className => ?_⟩
  exact ClassFile.read?_render each (k.lines_plain className parsed analyzed wf)

end MiniGo
