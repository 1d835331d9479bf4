import Mathlib.Data.List.Nodup
import MiniGo.Proofs.WellTyped.Program

/-!
# Signatures

Functions are declared without looking at one another: a declaration alone says what the entry of
its function is, and all that matters about the others is that their names are different.

* `FuncDecl.HasEntry`: the entry of a function in the table.
* `Report.bind_eq`, `run_bind_eq`: reports and runs without errors are made of parts without errors.
* `declareFunction_run_iff`, `declareFunctions_run_iff`: when functions are declared, and the tables
  that come out.
-/

namespace MiniGo

/-- Behind entries with different names, another entry may come if its name is free. -/
theorem nodup_names_append {α : Type} {name : α → String} {l : List α} {a : α}
    (distinct : (l.map name).Nodup) :
    ((l ++ [a]).map name).Nodup ↔ ∀ b ∈ l, name b ≠ name a := by
  simp [List.nodup_append, distinct]

/-! ### Entries of functions -/

/-- Parameters as variables of their function. -/
def paramVars (params : List (Ident × Ty)) : List Variable :=
  params.map fun (name, ty) => ⟨name.name, name.line, ty, none⟩

/-- The entry of a function before its body is typed: its signature is known, and its variables are
its parameters, which have different names. -/
inductive FuncDecl.HasEntry (func : FuncDecl) : Function → Prop
  | intro {params : List (Ident × Ty)} {returns : List Ty}
      (known : Analysis.lowerParams func.params = ⟨some params, []⟩)
      (results : Analysis.lowerResults func.results = ⟨some returns, []⟩)
      (distinct : ((paramVars params).map Variable.name).Nodup) :
      HasEntry func ⟨func.name.name, func.line, params.map Prod.snd, returns, ⟨paramVars params⟩⟩

theorem FuncDecl.HasEntry.unique {func : FuncDecl} {f f' : Function} (h : func.HasEntry f)
    (h' : func.HasEntry f') :
    f = f' := by
  obtain ⟨known, results, -⟩ := h
  obtain ⟨known', results', -⟩ := h'
  cases known.symm.trans known'
  cases results.symm.trans results'
  rfl

/-- Tables with one more function. -/
def Tables.withFunction (t : Tables) (f : Function) : Tables :=
  { t with functions := ⟨t.functions.entries ++ [f]⟩ }

section

variable {t : Tables} {f : Function} {vars : VarTable}

theorem Tables.table?_withFunction :
    (t.withFunction f).table? (.function t.functions.size) = some f.vars := by
  simp [Tables.table?, Tables.withFunction, FuncTable.get?, FuncTable.size]

theorem Tables.setTable_withFunction :
    (t.withFunction f).setTable vars (.function t.functions.size) =
      t.withFunction { f with vars } := by
  simp [Tables.setTable, Tables.withFunction, FuncTable.setVars, FuncTable.size,
    List.modify_eq_take_drop]

end

/-! ### Runs without errors -/

/-- A report without errors comes from two reports without errors. -/
theorem Report.bind_eq {α β : Type} {r : Report α} {k : α → Report β} {b : β} :
    r >>= k = ⟨b, []⟩ ↔ ∃ a, r = ⟨a, []⟩ ∧ k a = ⟨b, []⟩ := by
  obtain ⟨a, errors⟩ := r
  constructor
  · intro h
    injection h with value errors
    obtain ⟨rfl, rest⟩ := List.append_eq_nil_iff.1 errors
    refine ⟨a, rfl, ?_⟩
    rw [← value, ← rest]
  · rintro ⟨a', first, second⟩
    cases first
    exact second

namespace Analysis

section

variable {α β : Type} {t t' : Tables} {x : Lower α} {k : α → Lower β} {b : β}

theorem run_bind_eq : (x >>= k).run t = ⟨(b, t'), []⟩ ↔
    ∃ a u, x.run t = ⟨(a, u), []⟩ ∧ (k a).run u = ⟨(b, t'), []⟩ := by
  rw [StateT.run_bind, Report.bind_eq, Prod.exists]

theorem run_pure_eq {a : β} : (pure a : Lower β).run t = ⟨(b, t'), []⟩ ↔ b = a ∧ t' = t := by
  rw [StateT.run_pure]
  constructor
  · intro h
    cases h
    exact ⟨rfl, rfl⟩
  · rintro ⟨rfl, rfl⟩
    rfl

theorem run_lift_bind_eq {r : Report α} :
    (liftM r >>= k).run t = ⟨(b, t'), []⟩ ↔ ∃ a, r = ⟨a, []⟩ ∧ (k a).run t = ⟨(b, t'), []⟩ := by
  have lift : (liftM r : Lower α).run t = r >>= fun a => pure (a, t) := rfl
  simp only [run_bind_eq, lift, Report.bind_eq]
  constructor
  · rintro ⟨a, u, ⟨a', first, same⟩, second⟩
    cases same
    exact ⟨a, first, second⟩
  · rintro ⟨a, first, second⟩
    exact ⟨a, t, ⟨a, first, rfl⟩, second⟩

theorem run_get_bind_eq {k : Tables → Lower β} :
    (get >>= k).run t = ⟨(b, t'), []⟩ ↔ (k t).run t = ⟨(b, t'), []⟩ := Iff.rfl

end

/-! ### Signatures -/

variable {t t' : Tables}

/-- A variable is declared without an error exactly if its name is free. -/
theorem declareVariable_run_iff {s : Scope} {vars : VarTable} {name : Ident} {ty : Ty}
    {array? : Option ArrayShape} {v? : Option VarRef} (own : t.table? s = some vars) :
    (declareVariable s name ty array?).run t = ⟨(v?, t'), []⟩ ↔
      ∃ vars', vars.declare ⟨name.name, name.line, ty, array?⟩ = .ok vars' ∧
        v? = some ⟨vars.size, s⟩ ∧
        t' = t.setTable vars' s := by
  unfold declareVariable
  rw [run_get_bind_eq, own]
  dsimp only
  cases vars.declare ⟨name.name, name.line, ty, array?⟩ with
  | error e =>
    dsimp only
    simp only [run_lift_bind_eq, reduceCtorEq, false_and, exists_false, iff_false, not_exists]
    rintro _ ⟨wrong, -⟩
    cases wrong
  | ok vars' =>
    constructor
    · intro h
      cases h
      exact ⟨vars', rfl, rfl, rfl⟩
    · rintro ⟨_, declared, rfl, rfl⟩
      cases declared
      rfl

/-- Parameters are declared without errors exactly if all names are different, and then they are the
next variables of the function. -/
theorem declareParams_run_iff {params : List (Ident × Ty)} {f : Function}
    (distinct : (f.vars.entries.map Variable.name).Nodup) :
    (declareParams (.function t.functions.size) params).run (t.withFunction f) = ⟨((), t'), []⟩ ↔
      ((f.vars.entries ++ paramVars params).map Variable.name).Nodup ∧
        t' = t.withFunction { f with vars := ⟨f.vars.entries ++ paramVars params⟩ } := by
  -- The induction is on the parameters; those before them are in the table already.
  induction params generalizing f with
  | nil =>
    rw [declareParams, run_pure_eq]
    simp [paramVars, distinct]
  | cons param params ih =>
    obtain ⟨name, ty⟩ := param
    have split : f.vars.entries ++ paramVars ((name, ty) :: params) =
        f.vars.entries ++ [⟨name.name, name.line, ty, none⟩] ++ paramVars params := by
          simp [paramVars]
    simp only [declareParams, run_bind_eq, declareVariable_run_iff Tables.table?_withFunction,
      split]
    constructor
    · rintro ⟨-, -, ⟨⟨entries⟩, declared, -, rfl⟩, rest⟩
      obtain ⟨free, rfl⟩ := VarTable.declare_eq_ok_iff.1 declared
      rw [Tables.setTable_withFunction] at rest
      exact (ih ((nodup_names_append distinct).2 free)).1 rest
    · rintro ⟨all, rfl⟩
      have distinct' := (List.nodup_append.1 (List.map_append ▸ all)).1
      refine ⟨_, _,
        ⟨⟨_⟩, VarTable.declare_eq_ok_iff.2 ⟨(nodup_names_append distinct).1 distinct', rfl⟩, rfl,
          rfl⟩, ?_⟩
      rw [Tables.setTable_withFunction]
      exact (ih distinct').2 ⟨all, rfl⟩

/-- A function is declared without an error exactly if it has an entry, and no other function has
its name. -/
theorem declareFunction_run_iff {func : FuncDecl} {index? : Option Nat} :
    (declareFunction func).run t = ⟨(index?, t'), []⟩ ↔
      ∃ f, func.HasEntry f ∧ (∀ g ∈ t.functions.entries, g.name ≠ f.name) ∧
        index? = some t.functions.size ∧
        t' = t.withFunction f := by
  -- The function has no variables at first.
  have fresh {params : List (Ident × Ty)} {returns : List Ty} {t' : Tables} :
      (declareParams (.function t.functions.size) params).run
          (t.withFunction ⟨func.name.name, func.line, params.map Prod.snd, returns, {}⟩) =
            ⟨((), t'), []⟩ ↔
        ((paramVars params).map Variable.name).Nodup ∧
          t' = t.withFunction ⟨func.name.name, func.line, params.map Prod.snd, returns,
            ⟨paramVars params⟩⟩ :=
    declareParams_run_iff List.nodup_nil
  unfold declareFunction
  simp only [run_lift_bind_eq]
  constructor
  · rintro ⟨params?, known, returns?, results, h⟩
    obtain ⟨params, isSome⟩ := lowerParams_eq_some (congrArg Report.errors known)
    obtain rfl : params? = some params := by rw [← isSome, known]
    obtain ⟨returns, isSome'⟩ := lowerResults_eq_some (congrArg Report.errors results)
    obtain rfl : returns? = some returns := by rw [← isSome', results]
    simp only [run_get_bind_eq] at h
    split at h
    · rw [run_lift_bind_eq] at h
      obtain ⟨_, wrong, -⟩ := h
      cases wrong
    · rename_i functions declared
      obtain ⟨free, entries⟩ := FuncTable.declare_eq_ok_iff.1 declared
      obtain ⟨_⟩ := functions
      cases entries
      simp only [run_bind_eq, run_pure_eq] at h
      obtain ⟨_, _, isSet, _, _, all, rfl, rfl⟩ := h
      cases isSet
      obtain ⟨distinct, rfl⟩ := fresh.1 all
      exact ⟨_, .intro known results distinct, free, rfl, rfl⟩
  · rintro ⟨_, ⟨known, results, distinct⟩, free, rfl, rfl⟩
    rename_i params returns
    have declared : t.functions.declare ⟨func.name.name, func.line, params.map Prod.snd, returns,
        {}⟩ = .ok ⟨t.functions.entries ++
          [⟨func.name.name, func.line, params.map Prod.snd, returns, {}⟩]⟩ :=
      FuncTable.declare_eq_ok_iff.2 ⟨free, rfl⟩
    refine ⟨_, known, _, results, ?_⟩
    dsimp only
    rw [run_get_bind_eq, declared]
    exact run_bind_eq.2 ⟨_, _, rfl, run_bind_eq.2 ⟨(), _, fresh.2 ⟨distinct, rfl⟩, rfl⟩⟩

/-- Functions are declared without errors exactly if each has an entry and their names are
different. -/
theorem declareFunctions_run_iff {funcs : List FuncDecl} {indices : List (Option Nat)}
    (distinct : (t.functions.entries.map Function.name).Nodup) :
    (declareFunctions funcs).run t = ⟨(indices, t'), []⟩ ↔
      ∃ fs, List.Forall₂ FuncDecl.HasEntry funcs fs ∧
        ((t.functions.entries ++ fs).map Function.name).Nodup ∧
        indices = (List.range' t.functions.size funcs.length).map some ∧
        t' = { t with functions := ⟨t.functions.entries ++ fs⟩ } := by
  -- The induction is on the declarations, with the tables that the first ones leave behind.
  induction funcs generalizing t t' indices with
  | nil =>
    rw [declareFunctions, run_pure_eq]
    constructor
    · rintro ⟨rfl, rfl⟩
      exact ⟨[], .nil, by simpa using distinct, rfl, by simp⟩
    · rintro ⟨fs, each, -, rfl, rfl⟩
      cases each
      exact ⟨rfl, by simp⟩
  | cons func funcs ih =>
    have split (f : Function) (fs : List Function) :
        t.functions.entries ++ f :: fs = (t.withFunction f).functions.entries ++ fs := by
      simp [Tables.withFunction]
    have size (f : Function) : (t.withFunction f).functions.size = t.functions.size + 1 := by
      simp [Tables.withFunction, FuncTable.size]
    rw [declareFunctions]
    constructor
    · simp only [run_bind_eq, run_pure_eq, declareFunction_run_iff]
      rintro ⟨_, _, ⟨f, entry, free, rfl, rfl⟩, _, _, rest, rfl, rfl⟩
      obtain ⟨fs, entries, all, rfl, rfl⟩ := (ih ((nodup_names_append distinct).2 free)).1 rest
      refine ⟨f :: fs, .cons entry entries, split f fs ▸ all, ?_, by rw [split]; rfl⟩
      rw [size]
      rfl
    · rintro ⟨_, ⟨⟩, all, rfl, rfl⟩
      rename_i f fs entry entries
      rw [split] at all
      have distinct' := (List.nodup_append.1 (List.map_append ▸ all)).1
      have first :=
        declareFunction_run_iff.2 ⟨f, entry, (nodup_names_append distinct).1 distinct', rfl, rfl⟩
      have rest := (ih distinct').2 ⟨fs, entries, all, rfl, rfl⟩
      refine run_bind_eq.2
        ⟨_, _, first, run_bind_eq.2 ⟨_, _, rest, run_pure_eq.2 ⟨?_, by rw [split]; rfl⟩⟩⟩
      rw [size]
      rfl

/-- The first functions of a program. -/
theorem declareFunctions_first_run_iff {globals : VarTable} {funcs : List FuncDecl}
    {indices : List (Option Nat)} :
    (declareFunctions funcs).run ⟨globals, {}⟩ = ⟨(indices, t'), []⟩ ↔
      ∃ fs, List.Forall₂ FuncDecl.HasEntry funcs fs ∧ (fs.map Function.name).Nodup ∧
        indices = (List.range' 0 funcs.length).map some ∧ t' = ⟨globals, ⟨fs⟩⟩ :=
  declareFunctions_run_iff List.nodup_nil

end Analysis

end MiniGo
