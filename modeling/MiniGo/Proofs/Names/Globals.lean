import MiniGo.Proofs.Names.Grammar
import MiniGo.Proofs.Scopes.Additions
import MiniGo.Proofs.WellTyped.Program

/-!
# Names of global variables

Only declarations outside of functions add global variables, so their names are among those in the
syntax tree.

* `globals_nameText`: the names of the global variables of a program have the characters of a name
  only.
-/

namespace MiniGo

/-- A table from which only variables with a property were added to an empty one has no others. -/
theorem Tables.AddsOnly.forall_globals {Q : Variable → Prop} {t : Tables}
    (h : Tables.AddsOnly .globals Q {} t) :
    ∀ x ∈ t.globals.entries, Q x := by
  obtain ⟨new, property, eq⟩ := h.added
  have entries : t.globals = ⟨[] ++ new⟩ := Option.some.inj eq
  rw [entries]
  exact property

/-- The names of the global variables of a program have the characters of a name only. -/
theorem globals_nameText {source : String} {file : File} {p : Program}
    (parsed : File.parse source = .ok file) (analyzed : analyze file = .ok p) :
    ∀ x ∈ p.tables.globals.entries, NameText x.name := by
  obtain ⟨noErrors, rfl⟩ := analyze_eq_ok analyzed
  have names {decl : VarDecl} (declared : decl ∈ file.varDecls) {spec : VarSpec}
      (listed : spec ∈ decl.specs) : spec.Admits fun x => NameText x.name :=
    ⟨fun _ named _ => File.parse_nameText parsed declared listed named,
      fun _ _ _ named _ => File.parse_nameText parsed declared listed named⟩
  have adds : Analysis.Adds .globals (fun x => NameText x.name) {}
      (Analysis.lowerGlobals file.varDecls) :=
    Analysis.lowerGlobals_adds fun _ declared _ listed => names declared listed
  rw [Analysis.lowerProgram_globals noErrors]
  exact adds.1.forall_globals

theorem NameText.plain {text : String} (h : NameText text) : '$' ∉ text.toList := by
  intro mem
  have impossible := h _ mem
  simp [isNameRest] at impossible

end MiniGo
