import MiniGo.Proofs.Analyzer.Agreement
import MiniGo.Proofs.WellTyped.Stmt

/-!
# Analysis gives well-typed programs

Analysis has three phases: the global variables, the signatures of all functions, and their bodies.
The tables only grow from phase to phase, so the nodes of each of them are typed in the tables at
the end. The phases are taken apart by `lowerProgram_phases`, and the main statement is
`analyze_wellTyped`.
-/

namespace MiniGo

/-! ### Functions in the tables -/

/-- A declaration of a function succeeds exactly if its name is free, and then adds it at the
end. -/
theorem FuncTable.declare_eq_ok_iff {t t' : FuncTable} {f : Function} :
    t.declare f = .ok t' ↔ (∀ g ∈ t.entries, g.name ≠ f.name) ∧ t'.entries = t.entries ++ [f] := by
  obtain ⟨entries⟩ := t'
  unfold declare
  split
  · rename_i first h
    have taken := List.find?_some h
    have found := List.mem_of_find?_eq_some h
    simp only [reduceCtorEq, false_iff, not_and]
    intro free
    exact absurd (by simpa using taken) (free first found)
  · rename_i h
    rw [List.find?_eq_none] at h
    constructor
    · intro eq
      cases eq
      exact ⟨fun g mem => by simpa using h g mem, rfl⟩
    · rintro ⟨-, rfl⟩
      rfl

theorem VarTable.declare_eq_error {vars : VarTable} {x : Variable} {e : SemanticError}
    (h : vars.declare x = .error e) :
    ∃ (i : Nat) (w : Variable), vars.entries[i]? = some w ∧ w.name = x.name ∧
      e = .duplicateDeclaration .var x.name x.line w.line := by
  unfold declare at h
  split at h
  · rename_i w found
    obtain ⟨i, entry⟩ := List.mem_iff_getElem?.1 (List.mem_of_find?_eq_some found)
    exact ⟨i, w, entry, by simpa using List.find?_some found, (Except.error.inj h).symm⟩
  · cases h

theorem FuncTable.declare_eq_error {functions : FuncTable} {f : Function} {e : SemanticError}
    (h : functions.declare f = .error e) :
    ∃ (i : Nat) (g : Function), functions.entries[i]? = some g ∧ g.name = f.name ∧
      e = .duplicateDeclaration .func f.name f.line g.line := by
  unfold declare at h
  split at h
  · rename_i g found
    obtain ⟨i, entry⟩ := List.mem_iff_getElem?.1 (List.mem_of_find?_eq_some found)
    exact ⟨i, g, entry, by simpa using List.find?_some found, (Except.error.inj h).symm⟩
  · cases h

/-- A name that is found belongs to the function at its index. -/
theorem FuncTable.name_of_find? {t : FuncTable} {name : String} {i : Nat}
    (h : t.find? name = some i) :
    ∃ f, t.get? i = some f ∧ f.name = name := by
  obtain ⟨bound, found, -⟩ := List.findIdx?_eq_some_iff_getElem.1 h
  exact ⟨_, List.getElem?_eq_getElem bound, by simpa using found⟩

/-- Tables before and after the bodies of functions are typed. -/
structure Tables.Fills (t t' : Tables) : Prop extends Tables.Extends t t' where
  wellFormed : t.WellFormed → t'.WellFormed
  size : t'.functions.size = t.functions.size
  globals_eq : t'.globals = t.globals

instance : IsPreorder Tables Tables.Fills where
  refl t := ⟨.refl t, id, rfl, rfl⟩
  trans _ _ _ h k :=
    ⟨h.toExtends.trans k.toExtends, k.wellFormed ∘ h.wellFormed, k.size.trans h.size,
      k.globals_eq.trans h.globals_eq⟩

theorem Tables.Grows.fills {t t' : Tables} {i : Nat} (h : Tables.Grows (.function i) t t') :
    t.Fills t' where
  toExtends := h.toExtends
  wellFormed := h.wellFormed
  size := h.size
  globals_eq := Option.some.inj (h.apart .globals (by simp))

/-- Well-formed tables in which the parameters of all functions come first. -/
structure Tables.Sound (t : Tables) : Prop extends t.WellFormed where
  paramsFirst : ∀ f ∈ t.functions.entries, f.ParamsFirst

theorem Tables.Sound.fills {t t' : Tables} (h : t.Sound) (fills : t.Fills t') : t'.Sound where
  toWellFormed := fills.wellFormed h.toWellFormed
  paramsFirst f' mem := by
    obtain ⟨i, hf'⟩ := List.mem_iff_getElem?.1 mem
    obtain ⟨bound, -⟩ := List.getElem?_eq_some_iff.1 hf'
    have bound' : i < t.functions.entries.length := lt_of_lt_of_eq bound fills.size
    obtain ⟨g, hg, ext⟩ := fills.functions (List.getElem?_eq_getElem bound')
    obtain rfl : g = f' := Option.some.inj (hg.symm.trans hf')
    exact (h.paramsFirst _ (List.getElem_mem bound')).mono ext

/-- Adding a function without variables keeps all that was there. -/
theorem Tables.extends_declare {t : Tables} {functions : FuncTable} {f : Function}
    (h : t.functions.declare f = .ok functions) : t.Extends { t with functions } := by
  have entries := (FuncTable.declare_eq_ok_iff.1 h).2
  exact ⟨List.prefix_rfl, fun hg => ⟨_, getElem?_of_isPrefix ⟨[f], entries.symm⟩ hg, .refl _⟩⟩

theorem Tables.WellFormed.declare {t : Tables} {functions : FuncTable} {f : Function}
    (wf : t.WellFormed) (hf : f.WellFormed) (h : t.functions.declare f = .ok functions) :
    Tables.WellFormed { t with functions } := by
  obtain ⟨free, entries⟩ := FuncTable.declare_eq_ok_iff.1 h
  refine ⟨wf.globals, ?_, ?_⟩
  · rw [entries]
    intro g mem
    rcases List.mem_append.1 mem with mem | mem
    · exact wf.functions g mem
    · obtain rfl := List.mem_singleton.1 mem
      exact hf
  · rw [entries, List.map_append, List.nodup_append]
    refine ⟨wf.distinct, by simp, ?_⟩
    intro name mem name' mem'
    obtain ⟨g, hg, rfl⟩ := List.mem_map.1 mem
    obtain rfl : name' = f.name := by simpa using mem'
    exact free g hg

namespace Analysis

/-! ### Runs without errors -/

section Errors

variable {α β : Type} {t : Tables}

/-- A run without errors has two parts without errors. -/
theorem errors_bind_eq_nil {x : Lower α} {f : α → Lower β} :
    ((x >>= f).run t).errors = [] ↔
      (x.run t).errors = [] ∧ ((f (x.run t).value.1).run (x.run t).value.2).errors = [] :=
  List.append_eq_nil_iff

theorem value_run_bind {x : Lower α} {f : α → Lower β} :
    ((x >>= f).run t).value = ((f (x.run t).value.1).run (x.run t).value.2).value := rfl

theorem errors_run_lift {r : Report α} : ((liftM r : Lower α).run t).errors = r.errors :=
  List.append_nil _

theorem value_run_lift {r : Report α} : ((liftM r : Lower α).run t).value = (r.value, t) := rfl

end Errors

/-! ### Signatures -/

variable {t : Tables}

theorem resolveType_eq_some {name : Ident} (h : (resolveType name).errors = []) :
    ∃ ty, (resolveType name).value = some ty := by
  unfold resolveType at h ⊢
  split at h
  · exact ⟨_, rfl⟩
  · cases h

theorem lowerParams_eq_some {groups : List ParamGroup} (h : (lowerParams groups).errors = []) :
    ∃ params, (lowerParams groups).value = some params := by
  induction groups with
  | nil => exact ⟨[], rfl⟩
  | cons group groups ih =>
    simp only [lowerParams, Report.errors_bind, Report.errors_pure, List.append_nil,
      List.append_eq_nil_iff] at h
    obtain ⟨ty, resolved⟩ := resolveType_eq_some h.1
    obtain ⟨params, lowered⟩ := ih h.2
    exact ⟨groupParams group ty ++ params, by
      simp only [lowerParams, Report.value_bind, Report.value_pure, resolved, lowered,
        Option.bind_eq_bind, Option.bind_some]⟩

theorem lowerResults_eq_some {results : List Ident} (h : (lowerResults results).errors = []) :
    ∃ returns, (lowerResults results).value = some returns := by
  induction results with
  | nil => exact ⟨[], rfl⟩
  | cons result results ih =>
    simp only [lowerResults, Report.errors_bind, Report.errors_pure, List.append_nil,
      List.append_eq_nil_iff] at h
    obtain ⟨ty, resolved⟩ := resolveType_eq_some h.1
    obtain ⟨returns, lowered⟩ := ih h.2
    exact ⟨ty :: returns, by
      simp only [lowerResults, Report.value_bind, Report.value_pure, resolved, lowered,
        Option.bind_eq_bind, Option.bind_some]⟩

theorem lowerParams_isScalar {groups : List ParamGroup} {params : List (Ident × Ty)}
    (h : (lowerParams groups).value = some params) :
    ∀ ty ∈ params.map Prod.snd, ty.isScalar = true := by
  induction groups generalizing params with
  | nil =>
    obtain rfl := Option.some.inj h
    simp
  | cons group groups ih =>
    simp only [lowerParams, Report.value_bind, Report.value_pure, Option.bind_eq_bind,
      Option.bind_eq_some_iff, Option.some.injEq] at h
    obtain ⟨ty, resolved, rest, hrest, rfl⟩ := h
    have scalar := isScalar_of_resolveType resolved
    rw [List.map_append, List.forall_mem_append]
    refine ⟨?_, ih hrest⟩
    intro ty' mem
    simp only [groupParams, List.map_map, List.mem_map, Function.comp_apply] at mem
    obtain ⟨-, -, rfl⟩ := mem
    exact scalar

theorem lowerResults_isScalar {results : List Ident} {returns : List Ty}
    (h : (lowerResults results).value = some returns) : ∀ ty ∈ returns, ty.isScalar = true := by
  induction results generalizing returns with
  | nil =>
    obtain rfl := Option.some.inj h
    simp
  | cons result results ih =>
    simp only [lowerResults, Report.value_bind, Report.value_pure, Option.bind_eq_bind,
      Option.bind_eq_some_iff, Option.some.injEq] at h
    obtain ⟨ty, resolved, rest, hrest, rfl⟩ := h
    exact List.forall_mem_cons.2 ⟨isScalar_of_resolveType resolved, ih hrest⟩

/-- A declaration without an error adds its variable. -/
theorem declareVariable_eq_of_no_errors {s : Scope} {name : Ident} {ty : Ty}
    {array? : Option ArrayShape} {vars : VarTable} (own : t.table? s = some vars)
    (h : ((declareVariable s name ty array?).run t).errors = []) :
    ∃ vars', vars.declare ⟨name.name, name.line, ty, array?⟩ = .ok vars' ∧
      ((declareVariable s name ty array?).run t).value.2 = t.setTable vars' s := by
  unfold declareVariable at h ⊢
  rw [StateT.run_bind, StateT.run_get, pure_bind] at h ⊢
  dsimp only at h ⊢
  generalize t.table? s = table? at own h ⊢
  subst own
  dsimp only at h ⊢
  cases declared : vars.declare ⟨name.name, name.line, ty, array?⟩ with
  | ok vars' => exact ⟨vars', rfl, rfl⟩
  | error e =>
    rw [declared] at h
    cases h

/-- Parameters that are declared without an error are the next variables of their function. -/
theorem declareParams_types {i : Nat} {params : List (Ident × Ty)} {vars : VarTable}
    (own : t.table? (.function i) = some vars)
    (h : ((declareParams (.function i) params).run t).errors = []) :
    ∃ vars', ((declareParams (.function i) params).run t).value.2.table? (.function i) =
      some vars' ∧
      vars'.entries.map Variable.ty = vars.entries.map Variable.ty ++ params.map Prod.snd := by
  induction params generalizing t vars with
  | nil => exact ⟨vars, own, by simp⟩
  | cons param params ih =>
    obtain ⟨name, ty⟩ := param
    simp only [declareParams, errors_bind_eq_nil] at h
    simp only [declareParams, value_run_bind]
    obtain ⟨vars', declared, tables⟩ := declareVariable_eq_of_no_errors own h.1
    rw [tables] at h ⊢
    have own' : (t.setTable vars' (.function i)).table? (.function i) = some vars' := by
      rw [Tables.table?_setTable own, if_pos rfl]
    obtain ⟨vars'', own'', types⟩ := ih own' h.2
    refine ⟨vars'', own'', ?_⟩
    rw [types, (VarTable.declare_eq_ok_iff.1 declared).2]
    simp

theorem declareParams_runs {i : Nat} {params : List (Ident × Ty)}
    (scalars : ∀ ty ∈ params.map Prod.snd, ty.isScalar = true) :
    Runs (Tables.Grows (.function i)) t (declareParams (.function i) params) fun _ _ => True := by
  induction params generalizing t with
  | nil => exact .pure trivial
  | cons param params ih =>
    obtain ⟨name, ty⟩ := param
    obtain ⟨scalar, scalars⟩ := List.forall_mem_cons.1 scalars
    exact (declareVariable_runs (.scalar scalar)).bind fun _ _ _ _ => ih scalars

/-- What a declaration of functions does, if it has no errors. -/
structure Declares (t t' : Tables) (count : Nat) : Prop extends Tables.Extends t t' where
  sound : t'.Sound
  size : t'.functions.size = t.functions.size + count
  globals_eq : t'.globals = t.globals

/-- A function without variables becomes one whose first variables are its parameters. -/
theorem declareParams_declares {params : List (Ident × Ty)} {functions : FuncTable} {f : Function}
    (sound : t.Sound) (hf : f.WellFormed) (fresh : f.vars = {})
    (types : f.params = params.map Prod.snd) (declared : t.functions.declare f = .ok functions)
    (h : ((declareParams (.function t.functions.size) params).run { t with functions }).errors =
      []) :
    Declares t ((declareParams (.function t.functions.size) params).run
      { t with functions }).value.2 1 := by
  have entries := (FuncTable.declare_eq_ok_iff.1 declared).2
  have last : functions.get? t.functions.size = some f := by
    simp [FuncTable.get?, entries, FuncTable.size]
  obtain ⟨grows, -⟩ := @declareParams_runs { t with functions } t.functions.size params
    (types ▸ hf.params)
  have fills := grows.fills
  have extend := Tables.extends_declare declared
  have own : Tables.table? { t with functions } (.function t.functions.size) = some {} := by
    simp [Tables.table?, last, fresh]
  obtain ⟨vars', own', paramTypes⟩ := declareParams_types own h
  refine ⟨extend.trans fills.toExtends, ⟨fills.wellFormed (sound.declare hf declared), ?_⟩, ?_,
    fills.globals_eq⟩
  · -- An old function keeps its parameters first; the new one is at the last index.
    intro g mem
    obtain ⟨i, hg⟩ := List.mem_iff_getElem?.1 mem
    obtain ⟨bound, -⟩ := List.getElem?_eq_some_iff.1 hg
    have bound : i < t.functions.size + 1 := by
      have := fills.size
      simp only [FuncTable.size, entries, List.length_append, List.length_singleton] at this bound ⊢
      omega
    rcases Nat.lt_succ_iff_lt_or_eq.1 bound with old | rfl
    · obtain ⟨g', hg', ext⟩ := (extend.trans fills.toExtends).functions
        (List.getElem?_eq_getElem (l := t.functions.entries) old)
      obtain rfl : g' = g := Option.some.inj (hg'.symm.trans hg)
      exact (sound.paramsFirst _ (List.getElem_mem _)).mono ext
    · obtain ⟨g', hg', ext⟩ := fills.functions last
      obtain rfl : g' = g := Option.some.inj (hg'.symm.trans hg)
      have vars : g'.vars = vars' := by
        simpa [Tables.table?, hg'] using own'
      unfold Function.ParamsFirst
      rw [ext.params, types, vars, paramTypes]
      exact List.prefix_rfl
  · rw [fills.size]
    simp [FuncTable.size, entries]

/-- A function that is declared without an error gets the next index. Its entry has no variables at
first, and then its parameters. -/
theorem declareFunction_run {func : FuncDecl} (h : ((declareFunction func).run t).errors = []) :
    ∃ params returns functions,
      (lowerParams func.params).value = some params ∧
      (lowerResults func.results).value = some returns ∧
      t.functions.declare ⟨func.name.name, func.line, params.map Prod.snd, returns, {}⟩ =
        .ok functions ∧
      ((declareParams (.function t.functions.size) params).run { t with functions }).errors = [] ∧
      ((declareFunction func).run t).value = (some t.functions.size,
        ((declareParams (.function t.functions.size) params).run
          { t with functions }).value.2) := by
  unfold declareFunction at h ⊢
  simp only [errors_bind_eq_nil, errors_run_lift, value_run_lift] at h
  simp only [value_run_bind, value_run_lift]
  obtain ⟨errorsParams, errorsReturns, h⟩ := h
  obtain ⟨params, hparams⟩ := lowerParams_eq_some errorsParams
  obtain ⟨returns, hreturns⟩ := lowerResults_eq_some errorsReturns
  simp only [hparams, hreturns, errors_bind_eq_nil] at h ⊢
  obtain ⟨-, h⟩ := h
  simp only [value_run_bind, StateT.run_get, Report.value_pure] at h ⊢
  split at h
  · rename_i e _
    cases h
  · rename_i functions declared
    simp only [errors_bind_eq_nil] at h
    exact ⟨params, returns, functions, rfl, rfl, declared, h.2.1, rfl⟩

/-- A function that is declared without an error gets the next index, and its parameters come
first. -/
theorem declareFunction_declares {func : FuncDecl} (sound : t.Sound)
    (h : ((declareFunction func).run t).errors = []) :
    ((declareFunction func).run t).value.1 = some t.functions.size ∧
      Declares t ((declareFunction func).run t).value.2 1 := by
  obtain ⟨params, returns, functions, hparams, hreturns, declared, noErrors, result⟩ :=
    declareFunction_run h
  rw [result]
  refine ⟨rfl, declareParams_declares sound ?_ rfl rfl declared noErrors⟩
  exact ⟨lowerParams_isScalar hparams, lowerResults_isScalar hreturns, by simp, by simp⟩

/-- Functions that are declared without an error get the next indices, in order. -/
theorem declareFunctions_declares {funcs : List FuncDecl} (sound : t.Sound)
    (h : ((declareFunctions funcs).run t).errors = []) :
    ((declareFunctions funcs).run t).value.1 =
      (List.range' t.functions.size funcs.length).map some ∧
      Declares t ((declareFunctions funcs).run t).value.2 funcs.length := by
  induction funcs generalizing t with
  | nil => exact ⟨rfl, .refl t, sound, rfl, rfl⟩
  | cons func funcs ih =>
    simp only [declareFunctions, errors_bind_eq_nil] at h
    obtain ⟨first, rest, -⟩ := h
    obtain ⟨index, declares⟩ := declareFunction_declares sound first
    obtain ⟨indices, declares'⟩ := ih declares.sound rest
    simp only [declareFunctions, value_run_bind]
    refine ⟨?_, declares.toExtends.trans declares'.toExtends, declares'.sound, ?_,
      declares'.globals_eq.trans declares.globals_eq⟩
    · rw [declares.size] at indices
      simp only [StateT.run_pure, Report.value_pure, index, indices, List.length_cons,
        List.range'_succ, List.map_cons]
    · have := declares'.size
      have := declares.size
      simp only [StateT.run_pure, Report.value_pure, List.length_cons]
      omega

/-! ### Bodies -/

/-- The body of a function becomes a typed block. -/
theorem lowerFunction_typed {func : FuncDecl} {k : Nat} (wf : t.WellFormed) :
    Runs (Tables.Grows (.function k)) t (lowerFunction func k) fun t' node =>
      ∃ body, node = functionNode k body ∧ AllTyped (.function k) t' body := by
  refine (lowerBlock_typed func.body wf).bind fun t' node grows typed => .pure ?_
  obtain ⟨body, rfl, typed⟩ := typed
  exact ⟨body, rfl, typed⟩

/-- The bodies of functions become typed blocks, one for each function. -/
theorem lowerFunctions_runs {funcs : List FuncDecl} {k : Nat} (wf : t.WellFormed) :
    Runs Tables.Fills t (lowerFunctions funcs ((List.range' k funcs.length).map some))
      fun t' nodes => ∃ bodies : List (List Node),
        nodes = bodies.mapIdx (fun j => functionNode (k + j)) ∧ bodies.length = funcs.length ∧
          ∀ j body, bodies[j]? = some body → AllTyped (.function (k + j)) t' body := by
  induction funcs generalizing t k with
  | nil => exact .pure ⟨[], rfl, rfl, by simp⟩
  | cons func funcs ih =>
    simp only [List.length_cons, List.range'_succ, List.map_cons, lowerFunctions]
    refine ((lowerFunction_typed wf).weaken fun _ => Tables.Grows.fills).bind
      fun t' node fills typed => ?_
    refine (ih (fills.wellFormed wf)).bind fun t'' nodes fills' typed' => .pure ?_
    obtain ⟨body, rfl, typed⟩ := typed
    obtain ⟨bodies, rfl, count, typed'⟩ := typed'
    refine ⟨body :: bodies, ?_, by simp [count], ?_⟩
    · simp [List.mapIdx_cons, Nat.add_assoc, Nat.add_comm 1]
    · intro j body' hbody
      cases j with
      | zero =>
        obtain rfl := Option.some.inj hbody
        exact fun n mem => (typed n mem).mono fills'.toExtends
      | succ j =>
        rw [show k + (j + 1) = k + 1 + j by omega]
        exact typed' j body' hbody

/-! ### Programs -/

theorem lowerGlobals_typed (decls : List VarDecl) (wf : t.WellFormed) :
    Lowers .globals t (lowerGlobals decls) := by
  induction decls generalizing t with
  | nil => exact .pure .nil
  | cons decl decls ih => exact .append wf (lowerVarDecl_typed wf) fun _ wf' => ih wf'

/-- A program that passes the check has a function `main` without parameters. -/
theorem main_of_checkMain {file : File} (h : (checkMain t file).errors = []) :
    ∃ i f, t.functions.get? i = some f ∧ f.name = "main" ∧ f.params = [] := by
  unfold checkMain at h
  split at h
  · cases h
  · rename_i i found
    obtain ⟨f, hf, name⟩ := FuncTable.name_of_find? found
    simp only [hf] at h
    split at h
    · rename_i empty
      exact ⟨i, f, hf, name, List.isEmpty_iff.1 empty⟩
    · cases h

/-- The three phases of an analysis without errors. -/
theorem lowerProgram_phases {file : File} (h : ((lowerProgram file).run {}).errors = []) :
    ∃ (globals functions : List Node) (t₀ t₁ t₂ : Tables) (indices : List (Option Nat)),
      (lowerGlobals file.varDecls).run {} = ⟨(globals, t₀), []⟩ ∧
      (declareFunctions file.funcDecls).run t₀ = ⟨(indices, t₁), []⟩ ∧
      (checkMain t₁ file).errors = [] ∧
      (lowerFunctions file.funcDecls indices).run t₁ = ⟨(functions, t₂), []⟩ ∧
      ((lowerProgram file).run {}).value = (.statement .program (globals ++ functions), t₂) := by
  rcases phase₀ : (lowerGlobals file.varDecls).run {} with ⟨⟨globals, t₀⟩, errors₀⟩
  rcases phase₁ : (declareFunctions file.funcDecls).run t₀ with ⟨⟨indices, t₁⟩, errors₁⟩
  rcases phase₂ : (lowerFunctions file.funcDecls indices).run t₁ with ⟨⟨functions, t₂⟩, errors₂⟩
  unfold lowerProgram at h ⊢
  simp only [errors_bind_eq_nil, phase₀, phase₁, StateT.run_get, Report.value_pure, errors_run_lift,
    value_run_lift, phase₂] at h
  obtain ⟨rfl, rfl, -, main, rfl, -⟩ := h
  refine ⟨globals, functions, t₀, t₁, t₂, indices, rfl, phase₁, main, phase₂, ?_⟩
  simp only [value_run_bind, phase₀, phase₁, StateT.run_get, Report.value_pure, value_run_lift,
    phase₂, StateT.run_pure]

/-- What the phases of an analysis without errors do to the tables, and the typed nodes that they
give. -/
theorem lowerProgram_runs {file : File} (h : ((lowerProgram file).run {}).errors = []) :
    ∃ (globals : List Node) (bodies : List (List Node)) (t₀ t₁ t₂ : Tables),
      (lowerGlobals file.varDecls).run {} = ⟨(globals, t₀), []⟩ ∧ t₀.functions.size = 0 ∧
      AllTyped .globals t₀ globals ∧
      (declareFunctions file.funcDecls).run t₀ =
        ⟨((List.range' 0 file.funcDecls.length).map some, t₁), []⟩ ∧
      Declares t₀ t₁ file.funcDecls.length ∧ (checkMain t₁ file).errors = [] ∧
      (lowerFunctions file.funcDecls ((List.range' 0 file.funcDecls.length).map some)).run t₁ =
        ⟨(bodies.mapIdx functionNode, t₂), []⟩ ∧
      t₁.Fills t₂ ∧ bodies.length = file.funcDecls.length ∧
      (∀ i body, bodies[i]? = some body → AllTyped (.function i) t₂ body) ∧
      ((lowerProgram file).run {}).value =
        (.statement .program (globals ++ bodies.mapIdx functionNode), t₂) := by
  obtain ⟨globals, functions, t₀, t₁, t₂, indices, phase₀, phase₁, main, phase₂, result⟩ :=
    lowerProgram_phases h
  have empty : Tables.WellFormed {} := ⟨⟨by simp, by simp⟩, by simp, by simp⟩
  have lowered := lowerGlobals_typed file.varDecls empty
  rw [Lowers, Runs, phase₀] at lowered
  obtain ⟨grows, globalsTyped⟩ := lowered
  -- The globals are typed before there are functions, so the signatures get the indices from zero
  -- on.
  have none : t₀.functions.size = 0 := grows.size
  have sound : t₀.Sound := ⟨grows.wellFormed empty, by
    rw [List.eq_nil_of_length_eq_zero none]
    simp⟩
  have signatures := @declareFunctions_declares t₀ file.funcDecls sound
  simp only [phase₁, none, forall_const] at signatures
  obtain ⟨rfl, declares⟩ := signatures
  have filled := @lowerFunctions_runs t₁ file.funcDecls 0 declares.sound.toWellFormed
  rw [Runs, phase₂] at filled
  obtain ⟨fills, bodies, rfl, count, bodiesTyped⟩ := filled
  simp only [Nat.zero_add] at bodiesTyped result phase₂
  exact ⟨globals, bodies, t₀, t₁, t₂, phase₀, none, globalsTyped, phase₁, declares, main, phase₂,
    fills, count, bodiesTyped, result⟩

/-- An analysis without errors gives a well-typed program: the nodes of each phase are typed in the
tables at the end. -/
theorem lowerProgram_wellTyped {file : File} (h : ((lowerProgram file).run {}).errors = []) :
    Program.WellTyped ⟨((lowerProgram file).run {}).value.1,
      ((lowerProgram file).run {}).value.2⟩ := by
  obtain ⟨globals, bodies, t₀, t₁, t₂, -, none, globalsTyped, -, declares, main, -, fills, count,
    bodiesTyped, result⟩ := lowerProgram_runs h
  have sound := declares.sound.fills fills
  rw [result]
  refine ⟨sound.toWellFormed, sound.paramsFirst, ?_, globals, bodies, rfl, ?_, ?_, bodiesTyped⟩
  · obtain ⟨i, f, hf, name, params⟩ := main_of_checkMain main
    obtain ⟨f', hf', ext⟩ := fills.functions hf
    exact ⟨i, f', hf', ext.name.trans name, ext.params.trans params⟩
  · rw [count, fills.size, declares.size, none, Nat.zero_add]
  · intro n mem
    exact (globalsTyped n mem).mono (declares.toExtends.trans fills.toExtends)

/-- The global variables of a program are those that are declared outside of functions. -/
theorem lowerProgram_globals {file : File} (h : ((lowerProgram file).run {}).errors = []) :
    ((lowerProgram file).run {}).value.2.globals =
      ((lowerGlobals file.varDecls).run {}).value.2.globals := by
  obtain ⟨globals, bodies, t₀, t₁, t₂, phase₀, -, -, -, declares, -, -, fills, -, -, result⟩ :=
    lowerProgram_runs h
  rw [result, phase₀]
  exact fills.globals_eq.trans declares.globals_eq

end Analysis

theorem analyze_eq_ok {file : File} {program : Program} (h : analyze file = .ok program) :
    ((Analysis.lowerProgram file).run {}).errors = [] ∧
      program = ⟨((Analysis.lowerProgram file).run {}).value.1,
        ((Analysis.lowerProgram file).run {}).value.2⟩ := by
  rw [analyze_eq_report] at h
  simp only at h
  split at h
  · rename_i noErrors
    cases h
    exact ⟨List.isEmpty_iff.1 noErrors, rfl⟩
  · cases h

/-- Analysis gives a well-typed program: each node stands where it belongs and has the type that its
children, the tables and its position ask for. -/
theorem analyze_wellTyped {file : File} {program : Program} (h : analyze file = .ok program) :
    program.WellTyped := by
  obtain ⟨noErrors, rfl⟩ := analyze_eq_ok h
  exact Analysis.lowerProgram_wellTyped noErrors

/-- A file with a widened sum, a function with two results of which one is widened on the way out,
and a comparison of an int with a float. -/
def mixedFile : File where
  package? := none
  decls :=
    let int (text : String) : Expr := .operand none (.literal ⟨.int, text, 1⟩) 1
    let name (text : String) : Expr := .operand none (.name ⟨text, 1⟩) 1
    [.var ⟨[⟨[⟨"x", 1⟩], some (.named ⟨"float32", 1⟩), [.binary .add 1 (int "1") (int "2")], 1⟩],
      1⟩, .func ⟨⟨"pair", 2⟩, [⟨[⟨"n", 2⟩], ⟨"int", 2⟩⟩], [⟨"int", 2⟩, ⟨"float32", 2⟩],
        .mk [.ret [name "n", name "n"] 3] 2 4, 2⟩,
      .func ⟨⟨"main", 5⟩, [], [],
        .mk [.define [⟨"a", 6⟩, ⟨"b", 6⟩] [.operand none (.call ⟨"pair", 6⟩ [int "7"]) 6] 6,
          .cond (.mk (.binary .lt 7 (name "a") (name "b"))
            (.mk [.call ⟨"write", 7⟩ [name "x"] 7] 7 8) .absent 7)] 5 9, 5⟩]

theorem mixedFile_wellTyped : ∃ program, analyze mixedFile = .ok program ∧ program.WellTyped :=
  ⟨_, rfl, @analyze_wellTyped mixedFile _ rfl⟩

end MiniGo
