import MiniGo.Proofs.Names.Grammar
import MiniGo.Proofs.WellTyped.Program

/-!
# Names of functions

The table of functions has those of the file, in the order of their declarations.

* `functions_names`: the names in the table are those in the syntax tree.
* `functions_nameText`: they have the characters of a name only.
-/

namespace MiniGo

/-- The bodies of functions leave the names of functions alone. -/
theorem Tables.Fills.names {t t' : Tables} (h : t.Fills t') :
    t'.functions.entries.map Function.name = t.functions.entries.map Function.name := by
  have size : t'.functions.entries.length = t.functions.entries.length := h.size
  refine List.ext_getElem (by simpa using size) fun i bound' bound => ?_
  rw [List.length_map] at bound bound'
  obtain ⟨f', found, ext⟩ := h.functions (List.getElem?_eq_getElem bound)
  have same : t'.functions.entries[i] = f' :=
    Option.some.inj ((List.getElem?_eq_getElem bound').symm.trans found)
  rw [List.getElem_map, List.getElem_map, same, ext.name]

namespace Analysis

variable {t : Tables}

/-- A function that is declared without an error comes last. -/
theorem declareFunction_names {func : FuncDecl} (h : ((declareFunction func).run t).errors = []) :
    ((declareFunction func).run t).value.2.functions.entries.map Function.name =
      t.functions.entries.map Function.name ++ [func.name.name] := by
  obtain ⟨params, returns, functions, hparams, -, declared, -, result⟩ := declareFunction_run h
  have entries := (FuncTable.declare_eq_ok_iff.1 declared).2
  obtain ⟨grows, -⟩ := @declareParams_runs { t with functions } t.functions.size params
    (lowerParams_isScalar hparams)
  rw [result]
  exact grows.fills.names.trans (by simp [entries])

/-- Functions that are declared without an error come last, in order. -/
theorem declareFunctions_names {funcs : List FuncDecl}
    (h : ((declareFunctions funcs).run t).errors = []) :
    ((declareFunctions funcs).run t).value.2.functions.entries.map Function.name =
      t.functions.entries.map Function.name ++ funcs.map (·.name.name) := by
  induction funcs generalizing t with
  | nil => exact (List.append_nil _).symm
  | cons func funcs ih =>
    simp only [declareFunctions, errors_bind_eq_nil] at h
    obtain ⟨first, rest, -⟩ := h
    simp only [declareFunctions, value_run_bind]
    refine (ih rest).trans ?_
    rw [declareFunction_names first, List.append_assoc]
    rfl

end Analysis

/-! ### Programs -/

/-- The table of functions has the functions of the file in the order of their declarations. -/
theorem functions_names {file : File} {p : Program} (h : analyze file = .ok p) :
    p.tables.functions.entries.map Function.name = file.funcDecls.map (·.name.name) := by
  obtain ⟨noErrors, rfl⟩ := analyze_eq_ok h
  obtain ⟨globals, bodies, t₀, t₁, t₂, -, none, -, declared, -, -, -, fills, -, -, result⟩ :=
    Analysis.lowerProgram_runs noErrors
  have names := @Analysis.declareFunctions_names t₀ file.funcDecls (by rw [declared])
  rw [declared, List.eq_nil_of_length_eq_zero none] at names
  rw [result]
  exact fills.names.trans names

/-- The names of the functions of a program have the characters of a name only. -/
theorem functions_nameText {source : String} {file : File} {p : Program}
    (parsed : File.parse source = .ok file) (analyzed : analyze file = .ok p) :
    ∀ f ∈ p.tables.functions.entries, NameText f.name := by
  intro f mem
  have named : f.name ∈ file.funcDecls.map (·.name.name) := by
    rw [← functions_names analyzed]
    exact List.mem_map_of_mem mem
  obtain ⟨decl, declared, name⟩ := List.mem_map.1 named
  rw [← name]
  exact File.parse_functionNameText parsed declared

end MiniGo
