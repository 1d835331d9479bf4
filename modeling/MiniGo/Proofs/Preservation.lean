import MiniGo.Proofs.Assembly.Texts
import MiniGo.Proofs.Simulation.Program

/-!
# Code generation preserves meaning

If a program runs to its end, then so does its class on the machine, with the same output and the
same global variables.

* `generate_preserves_meaning`: the main statement, for every source text and every platform.
-/

namespace MiniGo

variable {P : Platform}

/-- A memory is what a program leaves behind: the rest of the input, the output, and all global
variables. -/
structure Program.Leaves (p : Program) (options : Options) (w : World P) (mem : Memory P) :
    Prop where
  input : mem.input = w.input
  output : mem.output = w.output
  globals : ∀ i x, p.tables.globals.get? i = some x →
    Shows mem.heap x (w.globals i) (some (mem.statics ⟨options.className, x.name, x.descriptor⟩))

theorem Shared.leaves {p : Program} {options : Options} {w : World P} {mem : Memory P}
    (h : Shared (p.context options .initializer) w mem) : p.Leaves options w mem where
  input := h.input
  output := h.output
  globals i _ found := h.shows (v := ⟨i, .globals⟩) (.inl rfl) found

/-- Code generation preserves meaning: if the program of a source text runs to its end on some
input, then the class that is read from the generated text does so too, and leaves the same
behind. -/
theorem generate_preserves_meaning {source : String} {file : File} {p : Program}
    (parsed : File.parse source = .ok file) (analyzed : analyze file = .ok p) {fuel : Nat}
    {input : P.Input} {w : World P} (run : p.run fuel input = some w) (options : Options)
    (arguments : List P.Text) :
    ∃ lines text, ∃ cls : ClassFile, emission p.root p.tables options = ⟨lines, {}, .ok ()⟩ ∧
      generate p.root p.tables options = .ok text ∧ cls.ReadFrom lines text options.className ∧
      (∃ mem, cls.Executes arguments input mem) ∧
      ∀ mem, cls.Executes arguments input mem → p.Leaves options w mem := by
  have plain : ∀ x ∈ p.tables.globals.entries, '$' ∉ x.name.toList := fun x mem =>
    (globals_nameText parsed analyzed x mem).plain
  have typed := wellTyped_of_analyzeSource (analyzeSource_eq_ok_iff.2 ⟨file, parsed, analyzed⟩)
  obtain ⟨k, emitted, generated⟩ := generate_wellTyped typed options
  obtain ⟨mem, executes, shared⟩ := k.executes typed plain run arguments
  have readFrom := k.readFrom parsed analyzed typed.tables
  refine ⟨k.lines, _, _, emitted, generated, readFrom, ⟨mem, executes⟩, fun mem' executes' => ?_⟩
  rw [executes'.unique executes]
  exact shared.leaves

/-- Floats of 32 bits, strings, and input that is split into words. -/
def Platform.words : Platform where
  Float := Float32
  Text := String
  Input := List String
  floatConstant x := .ofBits x.bits
  floatOfInt i := .ofInt i.toInt
  floatArith op x y :=
    match op with
    | .add => x + y
    | .sub => x - y
    | .mul => x * y
    | .div => x / y
    | .rem => x - y * (if x / y < 0 then (x / y).ceil else (x / y).floor)
  floatOrder x y := if x < y then some .lt else if x == y then some .eq else if y < x then
    some .gt else none
  textConstant text := text
  concat s t := s ++ t
  compareTo s t :=
    match compare s t with
    | .lt => -1
    | .eq => 0
    | .gt => 1
  nextInt
    | [] => none
    | word :: words =>
      ((readInteger? word).filter Analysis.fitsInt).map fun i => (.ofInt 32 i, words)
  nextFloat
    | [] => none
    | word :: words => (Binary32.readFinite? word).map fun x => (.ofBits x.bits, words)
  nextBool
    | [] => none
    | word :: words => some (word == "true", words)
  nextLine
    | [] => none
    | word :: words => some (word, words)

/-- Two functions that call each other. The second result of the first one is computed by a call
that sets the results of the first one again. -/
def reentrantSource : String :=
  "var n int\nfunc g(n int) (int, int) \x7b\nif n == 0 \x7b\nreturn 0, 0\n\x7d\nreturn n, h(n - 1)\n\x7d\n" ++
    "func h(n int) int \x7b\na, b := g(n)\nreturn a + b\n\x7d\n" ++
    "func main() \x7b\nread(n)\nx, y := g(n)\nwrite(x)\nwrite(y)\n\x7d\n"

theorem reentrantSource_preserves_meaning : ∃ file p w, File.parse reentrantSource = .ok file ∧
    analyze file = .ok p ∧ p.run (P := .words) 40 ["2"] = some w ∧
    (w.output matches [.int 1, .int 2]) = true ∧
    ∃ lines text, ∃ cls : ClassFile, emission p.root p.tables {} = ⟨lines, {}, .ok ()⟩ ∧
      generate p.root p.tables {} = .ok text ∧ cls.ReadFrom lines text "GoProgram" ∧
      (∃ mem : Memory .words, cls.Executes [] ["2"] mem) ∧
      ∀ mem : Memory .words, cls.Executes [] ["2"] mem → p.Leaves {} w mem := by
  have runs :
    ((File.parse reentrantSource).toOption.bind fun file => (analyze file).toOption.bind fun p =>
      p.run (P := .words) 40 ["2"]).any (·.output matches [.int 1, .int 2]) =
        true := by decide +kernel
  obtain ⟨w, found, prints⟩ := (Option.any_eq_true _ _).1 runs
  simp only [Option.bind_eq_some_iff] at found
  obtain ⟨file, parses, p, analyzes, run⟩ := found
  have parsed : File.parse reentrantSource = .ok file := eq_ok_of_toOption parses
  have analyzed : analyze file = .ok p := eq_ok_of_toOption analyzes
  exact ⟨file, p, w, parsed, analyzed, run, prints,
    generate_preserves_meaning parsed analyzed run {} []⟩

end MiniGo
