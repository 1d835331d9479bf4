import Mathlib.Data.List.Induction
import MiniGo.Symbol.Registry

/-!
# Tables with the index of their names

For each table of entries there is the index that comes from noting each name where it stands first.
With this index, lookups and additions in `Registry` do what they do in `Tables`, where a lookup
goes through the entries.

* `Tables.indexed`: the tables with their indices.
* `resolve?_indexed`, `var?_indexed`: lookups in them.
* `addVariable_indexed`, `addFunction_indexed`: additions to them.
-/

namespace MiniGo

/-! ### Indices -/

namespace NameIndex

/-- The index of a list of names. Each name has the place where it stands first. -/
def ofNames (names : List String) : NameIndex :=
  names.zipIdx.foldl
    (fun index (name, i) => if (index.get? name).isSome then index else index.insert name i) {}

theorem ofNames_concat (names : List String) (name : String) :
    ofNames (names ++ [name]) =
      if ((ofNames names).get? name).isSome then ofNames names
      else (ofNames names).insert name names.length := by
  simp only [ofNames, List.zipIdx_append, List.foldl_append, Nat.zero_add]
  rfl

theorem get?_ofNames (names : List String) (name : String) :
    (ofNames names).get? name = names.findIdx? (· == name) := by
  induction names using List.reverseRecOn with
  | nil => rfl
  | append_singleton names other ih =>
    rw [ofNames_concat, List.findIdx?_append]
    by_cases same : name = other
    · -- A name that is there already keeps its place.
      subst same
      cases found : names.findIdx? (· == name) with
      | none => simp [ih, found, get?_insert]
      | some i => simp [ih, found]
    · have absent : [other].findIdx? (· == name) = none := by simpa using Ne.symm same
      rw [absent, Option.map_none, Option.or_none, ← ih]
      split
      · rfl
      · rw [get?_insert, if_neg same]

end NameIndex

/-! ### Tables -/

/-- A table of variables with its index. -/
def VarTable.indexed (t : VarTable) : VarRegistry :=
  ⟨t.entries, .ofNames (t.entries.map Variable.name)⟩

/-- A function, with an index for its variables. -/
def Function.indexed (f : Function) : FuncEntry :=
  ⟨f.name, f.line, f.params, f.returns, f.vars.indexed⟩

/-- A table of functions with its index. -/
def FuncTable.indexed (t : FuncTable) : FuncRegistry :=
  ⟨t.entries.map Function.indexed, .ofNames (t.entries.map Function.name)⟩

/-- All tables with their indices. -/
def Tables.indexed (t : Tables) : Registry := ⟨t.globals.indexed, t.functions.indexed⟩

/-- Putting the table of a scope back changes nothing. -/
theorem Registry.setTable_self {r : Registry} {s : Scope} {vars : VarRegistry}
    (own : r.table? s = some vars) : r.setTable vars s = r := by
  cases s with
  | globals =>
    obtain rfl : r.globals = vars := Option.some.inj own
    rfl
  | function i =>
    obtain ⟨f, found, rfl⟩ := Option.map_eq_some_iff.1 own
    have same : (r.functions.entries.modify i fun g => { g with vars := f.vars }) =
        r.functions.entries := by
      refine List.ext_getElem? fun j => ?_
      rw [List.getElem?_modify]
      by_cases here : i = j
      · subst here
        rw [show r.functions.entries[i]? = some f from found]
        simp
      · simp [here]
    simp only [setTable, FuncRegistry.setVars, same]

section Views

variable (t : Tables)

@[simp] theorem VarTable.table_indexed (t : VarTable) : t.indexed.table = t := rfl

@[simp] theorem Function.function_indexed (f : Function) : f.indexed.function = f := rfl

@[simp] theorem Function.valueTy_indexed (f : Function) : f.indexed.valueTy = f.valueTy := rfl

@[simp] theorem Tables.tables_indexed : t.indexed.tables = t := by
  have entries : t.functions.indexed.entries.map FuncEntry.function = t.functions.entries := by
    simp [FuncTable.indexed, Function.comp_def]
  simp only [Registry.tables, Tables.indexed, VarTable.table_indexed, entries]

theorem VarTable.lookup?_indexed (t : VarTable) (name : String) :
    t.indexed.lookup? name = t.find? name := by
  rw [VarRegistry.lookup?, VarTable.indexed, NameIndex.get?_ofNames, List.findIdx?_map]
  rfl

theorem FuncTable.lookup?_indexed (t : FuncTable) (name : String) :
    t.indexed.lookup? name = t.find? name := by
  rw [FuncRegistry.lookup?, FuncTable.indexed, NameIndex.get?_ofNames, List.findIdx?_map]
  rfl

theorem FuncTable.get?_indexed (t : FuncTable) (i : Nat) :
    t.indexed.get? i = (t.get? i).map Function.indexed :=
  List.getElem?_map ..

theorem Tables.table?_indexed (s : Scope) :
    t.indexed.table? s = (t.table? s).map VarTable.indexed := by
  cases s with
  | globals => rfl
  | function i =>
    simp only [Registry.table?, Tables.table?, Tables.indexed, FuncTable.get?_indexed,
      Option.map_map]
    rfl

theorem Tables.setTable_indexed (vars : VarTable) (s : Scope) :
    (t.setTable vars s).indexed = t.indexed.setTable vars.indexed s := by
  cases s with
  | globals => rfl
  | function i =>
    -- The names of the functions are the same, and so is their index.
    have names : (t.functions.entries.modify i fun f => { f with vars }).map Function.name =
        t.functions.entries.map Function.name := by
      refine List.ext_getElem? fun j => ?_
      simp only [List.getElem?_map, List.getElem?_modify]
      cases t.functions.entries[j]? <;> by_cases here : i = j <;> simp [here]
    have entries : (t.functions.entries.modify i fun f => { f with vars }).map Function.indexed =
        (t.functions.entries.map Function.indexed).modify i
          fun f => { f with vars := vars.indexed } := by
      refine List.ext_getElem? fun j => ?_
      simp only [List.getElem?_map, List.getElem?_modify]
      cases t.functions.entries[j]? <;> by_cases here : i = j <;> simp [here, Function.indexed]
    simp only [Tables.setTable, Registry.setTable, Tables.indexed, FuncTable.setVars,
      FuncRegistry.setVars, FuncTable.indexed, names, entries]

end Views

/-! ### Lookups -/

theorem Tables.resolve?_indexed (t : Tables) (name : String) (s : Scope) :
    t.indexed.resolve? name s = t.resolve? name s := by
  have own : (t.indexed.table? s).bind (·.lookup? name) = (t.table? s).bind (·.find? name) := by
    rw [table?_indexed, Option.bind_map]
    exact Option.bind_congr fun vars _ => vars.lookup?_indexed name
  have global : t.indexed.globals.lookup? name = t.globals.find? name :=
    t.globals.lookup?_indexed name
  cases s with
  | globals => simp only [Registry.resolve?, Tables.resolve?, global]
  | function i =>
    cases found : (t.table? (.function i)).bind (·.find? name) with
    | none => simp only [Registry.resolve?, Tables.resolve?, own, found, global]
    | some slot => simp only [Registry.resolve?, Tables.resolve?, own, found]

theorem Tables.var?_indexed (t : Tables) (v : VarRef) : t.indexed.var? v = t.var? v := by
  rw [Registry.var?, table?_indexed, Option.bind_map]
  rfl

/-! ### Additions -/

theorem VarTable.addVariable_indexed (t : VarTable) (x : Variable) :
    (VarRegistry.addVariable x).run t.indexed =
      match t.declare x with
      | .error e => (.error e, t.indexed)
      | .ok t' => (.ok t.size, t'.indexed) := by
  have index : t.indexed.index.get? x.name = t.find? x.name := t.lookup?_indexed x.name
  simp only [VarRegistry.addVariable, StateT.run_bind, StateT.run_get, pure_bind, index, declare]
  rw [List.find?_eq_bind_findIdx?_getElem?, ← VarTable.find?]
  cases found : t.find? x.name with
  | none =>
    -- A new name is noted behind those that are there.
    have absent : ((NameIndex.ofNames (t.entries.map Variable.name)).get? x.name).isSome =
        false := by
      have get := t.lookup?_indexed x.name
      rw [VarRegistry.lookup?, VarTable.indexed, found] at get
      rw [get, Option.isSome_none]
    have pushed : t.indexed.push x = (⟨t.entries ++ [x]⟩ : VarTable).indexed := by
      simp [VarRegistry.push, VarTable.indexed, NameIndex.ofNames_concat, absent]
    simp only [Option.bind_none, StateT.run_bind, StateT.run_set, pure_bind, StateT.run_pure,
      pushed]
    rfl
  | some i =>
    obtain ⟨bound, -, -⟩ := List.findIdx?_eq_some_iff_getElem.1 found
    have first : t.indexed.entries[i]! = t.entries[i] := getElem!_pos t.entries i bound
    simp only [Option.bind_some, List.getElem?_eq_getElem bound, first, StateT.run_pure]
    rfl

theorem FuncTable.addFunction_indexed (t : FuncTable) (name : String) (line : Nat)
    (params returns : List Ty) :
    (FuncRegistry.addFunction name line params returns).run t.indexed =
      match t.declare ⟨name, line, params, returns, {}⟩ with
      | .error e => (.error e, t.indexed)
      | .ok t' => (.ok t.size, t'.indexed) := by
  have index : t.indexed.index.get? name = t.find? name := t.lookup?_indexed name
  have size : t.indexed.entries.length = t.size := List.length_map ..
  simp only [FuncRegistry.addFunction, StateT.run_bind, StateT.run_get, pure_bind, index, declare]
  rw [List.find?_eq_bind_findIdx?_getElem?, ← FuncTable.find?]
  cases found : t.find? name with
  | none =>
    have absent : ((NameIndex.ofNames (t.entries.map Function.name)).get? name).isSome = false := by
      have get := t.lookup?_indexed name
      rw [FuncRegistry.lookup?, FuncTable.indexed, found] at get
      rw [get, Option.isSome_none]
    have pushed : t.indexed.push ⟨name, line, params, returns, {}⟩ =
        (⟨t.entries ++ [⟨name, line, params, returns, {}⟩]⟩ : FuncTable).indexed := by
      simp only [FuncRegistry.push, FuncTable.indexed, List.map_append, List.map_cons, List.map_nil,
        NameIndex.ofNames_concat, absent, Bool.false_eq_true, if_false, List.length_map]
      rfl
    simp only [Option.bind_none, StateT.run_bind, StateT.run_set, pure_bind, StateT.run_pure,
      pushed, size]
    rfl
  | some i =>
    obtain ⟨bound, -, -⟩ := List.findIdx?_eq_some_iff_getElem.1 found
    have first : t.indexed.entries[i]!.line = t.entries[i].line := by
      rw [getElem!_pos t.indexed.entries i (by rwa [size])]
      simp [FuncTable.indexed, Function.indexed]
    simp only [Option.bind_some, List.getElem?_eq_getElem bound, first, StateT.run_pure]
    rfl

theorem Tables.addVariable_indexed (t : Tables) (s : Scope) (x : Variable) :
    (Registry.addVariable s x).run t.indexed =
      match t.table? s with
      | none => (none, t.indexed)
      | some vars =>
        match vars.declare x with
        | .error e => (some (.error e), t.indexed)
        | .ok vars' => (some (.ok vars.size), (t.setTable vars' s).indexed) := by
  have table := t.table?_indexed s
  simp only [Registry.addVariable, StateT.run_bind, StateT.run_get, pure_bind, table]
  cases own : t.table? s with
  | none => rfl
  | some vars =>
    rw [own, Option.map_some] at table
    have added := vars.addVariable_indexed x
    simp only [Option.map_some, added]
    cases vars.declare x with
    | error e =>
      show (some (Except.error e), t.indexed.setTable vars.indexed s) = _
      rw [Registry.setTable_self table]
    | ok vars' =>
      show (some (Except.ok vars.size), t.indexed.setTable vars'.indexed s) = _
      rw [← setTable_indexed]

theorem Tables.addFunction_indexed (t : Tables) (name : String) (line : Nat)
    (params returns : List Ty) :
    (Registry.addFunction name line params returns).run t.indexed =
      match t.functions.declare ⟨name, line, params, returns, {}⟩ with
      | .error e => (.error e, t.indexed)
      | .ok functions => (.ok t.functions.size, { t with functions }.indexed) := by
  have run := t.functions.addFunction_indexed name line params returns
  simp only [Registry.addFunction, StateT.run_bind, StateT.run_get, pure_bind,
    show t.indexed.functions = t.functions.indexed from rfl, run]
  cases t.functions.declare ⟨name, line, params, returns, {}⟩ <;> rfl

end MiniGo
