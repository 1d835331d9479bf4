import Mathlib.Data.List.Induction
import Mathlib.Data.List.Nodup
import MiniGo.Proofs.Reordering.Stmt
import MiniGo.Proofs.WellTyped.Program

/-!
# Symbol tables after any history

Symbol tables are filled by adding one entry after the other. An addition that fails changes
nothing, so a history of additions to empty tables says all about the tables behind it.

* `Addition`, `Tables.add`: an entry that is added, and what comes of it.
* `Tables.replay`: the tables behind a history.
* `Tables.rows?`, `Tables.lookup?`: the names and lines in a table, and the place of a name.
* `Tables.add_cases`: all that an addition can do.
* `Tables.replay_distinct`, `Tables.replay_keeps`, `Tables.range_append_given`,
  `Tables.exists_addition`: what is true of the tables behind a history.
* `Tables.resolve?_eq_some_iff`: what a name means in them.

A lookup goes through the entries here. Tables with an index of their names do the same; that is
shown for `Registry`.
-/

namespace MiniGo

/-! ### Additions -/

/-- One of the symbol tables: the variables of a scope, or the functions. -/
inductive TableId where
  | vars (s : Scope)
  | functions
deriving DecidableEq

/-- What is added to the symbol tables: a variable of a scope, or a function that has no variables
yet. -/
inductive Addition where
  | var (s : Scope) (x : Variable)
  | func (name : String) (line : Nat) (params returns : List Ty)
deriving DecidableEq

namespace Addition

/-- The table that an entry is added to. -/
def table : Addition → TableId
  | var s _ => .vars s
  | func .. => .functions

/-- The name of the entry. -/
def name : Addition → String
  | var _ x => x.name
  | func name .. => name

/-- The line of the declaration. -/
def line : Addition → Nat
  | var _ x => x.line
  | func _ line .. => line

/-- The kind of the entry. -/
def kind : Addition → SymbolKind
  | var .. => .var
  | func .. => .func

/-- The error of an addition whose name was declared before, on a given line. -/
def duplicate (a : Addition) (firstLine : Nat) : SemanticError :=
  .duplicateDeclaration a.kind a.name a.line firstLine

/-- The entry is at a given place of its table. -/
def EnteredAt (t : Tables) (i : Nat) : Addition → Prop
  | var s x => t.var? ⟨i, s⟩ = some x
  | func name line params returns => t.functions.get? i = some ⟨name, line, params, returns, {}⟩

end Addition

namespace Tables

/-- Adds an entry. This gives its index with the new tables, or an error; it gives nothing if the
scope has no table. -/
def add (t : Tables) : Addition → Option (Except SemanticError (Nat × Tables))
  | .var s x =>
    (t.table? s).map fun vars => (vars.declare x).map fun vars' => (vars.size, t.setTable vars' s)
  | .func name line params returns =>
    some ((t.functions.declare ⟨name, line, params, returns, {}⟩).map fun functions =>
      (t.functions.size, { t with functions }))

/-- The index that an addition gives to its entry. -/
def index? (t : Tables) (a : Addition) : Option Nat :=
  match t.add a with
  | some (.ok (i, _)) => some i
  | _ => none

/-- The tables behind an addition. If it fails, they are the same as before. -/
def after (t : Tables) (a : Addition) : Tables :=
  match t.add a with
  | some (.ok (_, t')) => t'
  | _ => t

/-- The tables behind a history of additions to empty tables. -/
def replay (h : List Addition) : Tables := h.foldl after {}

/-- The indices that a history of additions gives to the entries of one table, in order. -/
def given (id : TableId) (t : Tables) : List Addition → List Nat
  | [] => []
  | a :: h => (if a.table = id then (t.index? a).toList else []) ++ (t.after a).given id h

/-! ### Names in tables -/

/-- The names in a table, each with the line of its declaration. -/
def rows? (t : Tables) : TableId → Option (List (String × Nat))
  | .vars s => (t.table? s).map fun vars => vars.entries.map fun x => (x.name, x.line)
  | .functions => some (t.functions.entries.map fun f => (f.name, f.line))

/-- The number of entries of a table. -/
def rowCount (t : Tables) (id : TableId) : Nat := ((t.rows? id).getD []).length

/-- The place of a name in a table. -/
def lookup? (t : Tables) : TableId → String → Option Nat
  | .vars s, name => (t.table? s).bind (·.find? name)
  | .functions, name => t.functions.find? name

/-- In each table all names are different. -/
def Distinct (t : Tables) : Prop := ∀ id rows, t.rows? id = some rows → (rows.map Prod.fst).Nodup

/-- The entries of tables are also in other tables, at the same places. A function may have more
variables there. -/
structure Keeps (t t' : Tables) : Prop where
  vars : ∀ s vars, t.table? s = some vars → ∃ vars', t'.table? s = some vars' ∧
      vars.entries <+: vars'.entries
  functions : t.functions.entries.map Function.head <+: t'.functions.entries.map Function.head

instance : IsPreorder Tables Keeps where
  refl t := ⟨fun _ vars own => ⟨vars, own, List.prefix_rfl⟩, List.prefix_rfl⟩
  trans t u v h k := by
    refine ⟨fun s vars own => ?_, h.functions.trans k.functions⟩
    obtain ⟨vars', own', le⟩ := h.vars s vars own
    obtain ⟨vars'', own'', le'⟩ := k.vars s vars' own'
    exact ⟨vars'', own'', le.trans le'⟩

section Names

variable {t t' : Tables} {id : TableId} {rows : List (String × Nat)} {name : String} {i : Nat}

theorem lookup?_eq :
    t.lookup? id name = (t.rows? id).bind fun rows => rows.findIdx? (·.1 == name) := by
  cases id with
  | vars s =>
    simp only [lookup?, rows?, Option.bind_map, List.findIdx?_map, Function.comp_def]
    rfl
  | functions =>
    simp only [lookup?, rows?, Option.bind_some, List.findIdx?_map, Function.comp_def]
    rfl

/-- If the names in a table are different, a lookup gives the entry that has the name. -/
theorem Distinct.lookup?_eq_some_iff (distinct : t.Distinct) (own : t.rows? id = some rows) :
    t.lookup? id name = some i ↔ ∃ line, rows[i]? = some (name, line) := by
  rw [lookup?_eq, own, Option.bind_some, List.findIdx?_eq_some_iff_getElem]
  constructor
  · rintro ⟨bound, same, -⟩
    refine ⟨rows[i].2, ?_⟩
    rw [List.getElem?_eq_getElem bound, ← eq_of_beq same]
  · rintro ⟨line, found⟩
    obtain ⟨bound, eq⟩ := List.getElem?_eq_some_iff.1 found
    refine ⟨bound, by simp [eq], fun j before same => ?_⟩
    -- Two entries with one name would be at one place.
    have places : j = i := by
      have bounds : j < (rows.map Prod.fst).length ∧ i < (rows.map Prod.fst).length := by
        rw [List.length_map]
        omega
      refine (List.Nodup.getElem_inj_iff (distinct id rows own)).1
        (?_ : (rows.map Prod.fst).get ⟨j, bounds.1⟩ = (rows.map Prod.fst).get ⟨i, bounds.2⟩)
      simpa [eq] using same
    omega

end Names

end Tables

/-! ### One addition -/

namespace Tables

variable {t t' : Tables} {a : Addition} {id : TableId} {rows : List (String × Nat)}

/-- Tables behind an addition that succeeds: there is one more entry at the end of its table, and a
new function has an empty table of variables. -/
structure Appends (t : Tables) (a : Addition) (rows : List (String × Nat)) (t' : Tables) :
    Prop where
  own : t'.rows? a.table = some (rows ++ [(a.name, a.line)])
  apart : ∀ id, id ≠ a.table → t'.rows? id = t.rows? id ∨
      (t.rows? id = none ∧ t'.rows? id = some [])
  keeps : t.Keeps t'
  entered : a.EnteredAt t' rows.length

theorem appends_var {s : Scope} {x : Variable} {vars vars' : VarTable}
    (own : t.table? s = some vars) (declared : vars.declare x = .ok vars') :
    t.Appends (.var s x) (vars.entries.map fun x => (x.name, x.line)) (t.setTable vars' s) := by
  have entries := (VarTable.declare_eq_ok_iff.1 declared).2
  have heads : (t.setTable vars' s).functions.entries.map Function.head =
      t.functions.entries.map Function.head :=
    FuncTable.map_head_congr heads_setTable
  refine ⟨?_, fun id ne => .inl ?_, ⟨fun s' old owns => ?_, ?_⟩, ?_⟩
  · simp [rows?, Addition.table, table?_setTable own, entries, Addition.name, Addition.line]
  · cases id with
    | vars s' =>
      have other : s' ≠ s := fun same => ne (congrArg TableId.vars same)
      rw [rows?, table?_setTable own, if_neg other, rows?]
    | functions =>
      -- The names and lines of functions can be told from their heads.
      have named (fs : List Function) :
          fs.map (fun f => (f.name, f.line)) = (fs.map Function.head).map fun f =>
            (f.name, f.line) := by
        rw [List.map_map]
        rfl
      rw [rows?, rows?, named, heads, ← named]
  · rw [table?_setTable own]
    split
    · rename_i same
      subst same
      obtain rfl := Option.some.inj (own.symm.trans owns)
      exact ⟨vars', rfl, [x], entries.symm⟩
    · exact ⟨old, owns, List.prefix_rfl⟩
  · exact heads ▸ List.prefix_rfl
  · rw [List.length_map]
    exact var?_setTable own declared

theorem appends_func {name : String} {line : Nat} {params returns : List Ty} {functions : FuncTable}
    (declared : t.functions.declare ⟨name, line, params, returns, {}⟩ = .ok functions) :
    t.Appends (.func name line params returns) (t.functions.entries.map fun f => (f.name, f.line))
      { t with functions } := by
  have entries := (FuncTable.declare_eq_ok_iff.1 declared).2
  refine ⟨?_, fun id ne => ?_, ⟨fun s vars owns => ⟨vars, ?_, List.prefix_rfl⟩, ?_⟩, ?_⟩
  · simp [rows?, Addition.table, entries, Addition.name, Addition.line]
  · cases id with
    | functions => exact absurd rfl ne
    | vars s =>
      cases s with
      | globals => exact .inl rfl
      | function i =>
        -- The new function has a table of its own, which is empty.
        rcases Nat.lt_trichotomy i t.functions.entries.length with less | rfl | more
        · left
          simp [rows?, table?, FuncTable.get?, entries, List.getElem?_append_left less]
        · right
          simp [rows?, table?, FuncTable.get?, entries]
        · left
          have bounds : functions.entries.length ≤ i ∧ t.functions.entries.length ≤ i := by
            simp only [entries, List.length_append, List.length_singleton]
            omega
          simp [rows?, table?, FuncTable.get?, List.getElem?_eq_none bounds.1,
            List.getElem?_eq_none bounds.2]
  · cases s with
    | globals => exact owns
    | function i =>
      obtain ⟨f, found, rfl⟩ := Option.map_eq_some_iff.1 owns
      have bound : i < t.functions.entries.length := (List.getElem?_eq_some_iff.1 found).1
      rw [table?, FuncTable.get?, entries, List.getElem?_append_left bound]
      exact owns
  · rw [entries, List.map_append]
    exact List.prefix_append _ _
  · simp [Addition.EnteredAt, FuncTable.get?, entries]

/-- All that an addition can do. There is no table, or the name has an entry in the table already,
or the entry is appended to the table and its index is the number of entries before it. -/
theorem add_cases (t : Tables) (a : Addition) :
    (t.rows? a.table = none ∧ t.add a = none) ∨
      ∃ rows, t.rows? a.table = some rows ∧
        ((∃ (i : Nat) (first : Nat), rows[i]? = some (a.name, first) ∧
          t.add a = some (.error (a.duplicate first))) ∨
          (∀ row ∈ rows, row.1 ≠ a.name) ∧
            ∃ t', t.add a = some (.ok (rows.length, t')) ∧ t.Appends a rows t') := by
  cases a with
  | var s x =>
    cases own : t.table? s with
    | none => exact .inl ⟨by simp [rows?, Addition.table, own], by simp [add, own]⟩
    | some vars =>
      refine .inr ⟨_, by rw [Addition.table, rows?, own]; rfl, ?_⟩
      cases declared : vars.declare x with
      | error e =>
        obtain ⟨i, w, entry, same, rfl⟩ := VarTable.declare_eq_error declared
        refine .inl ⟨i, w.line, by rw [List.getElem?_map, entry, Option.map_some, same]; rfl, ?_⟩
        rw [add, own, Option.map_some, declared]
        rfl
      | ok vars' =>
        refine .inr ⟨?_, t.setTable vars' s, ?_, appends_var own declared⟩
        · exact List.forall_mem_map.2 (VarTable.declare_eq_ok_iff.1 declared).1
        · rw [add, own, Option.map_some, declared, List.length_map]
          rfl
  | func name line params returns =>
    refine .inr ⟨_, rfl, ?_⟩
    cases declared : t.functions.declare ⟨name, line, params, returns, {}⟩ with
    | error e =>
      obtain ⟨i, g, entry, same, rfl⟩ := FuncTable.declare_eq_error declared
      refine .inl ⟨i, g.line, by rw [List.getElem?_map, entry, Option.map_some, same]; rfl, ?_⟩
      rw [add, declared]
      rfl
    | ok functions =>
      refine .inr ⟨?_, { t with functions }, ?_, appends_func declared⟩
      · exact List.forall_mem_map.2 (FuncTable.declare_eq_ok_iff.1 declared).1
      · rw [add, declared, List.length_map]
        rfl

theorem add_eq_none_iff : t.add a = none ↔ t.rows? a.table = none := by
  rcases t.add_cases a with ⟨none, added⟩ | ⟨rows, own, ⟨i, first, -, added⟩ | ⟨-, t', added, -⟩⟩
  · simp [none, added]
  · simp [own, added]
  · simp [own, added]

/-- An addition fails because of an entry with its name. -/
theorem add_eq_error {e : SemanticError} (failed : t.add a = some (.error e)) :
    ∃ (rows : List (String × Nat)) (i first : Nat), t.rows? a.table = some rows ∧
      rows[i]? = some (a.name, first) ∧
      e = a.duplicate first := by
  rcases t.add_cases a with ⟨-, added⟩ | ⟨rows, own, ⟨i, first, entry, added⟩ | ⟨-, t', added, -⟩⟩
  · cases failed.symm.trans added
  · cases failed.symm.trans added
    exact ⟨rows, i, first, own, entry, rfl⟩
  · cases failed.symm.trans added

/-- An addition that succeeds appends an entry. -/
theorem add_eq_ok {i : Nat} (succeeded : t.add a = some (.ok (i, t'))) :
    ∃ rows, t.rows? a.table = some rows ∧ i = rows.length ∧ t.Appends a rows t' := by
  rcases t.add_cases a with ⟨-, added⟩ | ⟨rows, own, ⟨_, _, -, added⟩ | ⟨-, t'', added, appends⟩⟩
  · cases succeeded.symm.trans added
  · cases succeeded.symm.trans added
  · cases succeeded.symm.trans added
    exact ⟨rows, own, rfl, appends⟩

/-- An addition fails exactly if its name is found. -/
theorem Distinct.exists_add_error_iff (distinct : t.Distinct) (a : Addition) :
    (∃ e, t.add a = some (.error e)) ↔ ∃ i, t.lookup? a.table a.name = some i := by
  constructor
  · rintro ⟨e, failed⟩
    obtain ⟨rows, i, first, own, entry, -⟩ := add_eq_error failed
    exact ⟨i, (distinct.lookup?_eq_some_iff own).2 ⟨first, entry⟩⟩
  · rintro ⟨i, found⟩
    rcases t.add_cases a with ⟨none, -⟩ | ⟨rows, own, ⟨_, first, -, added⟩ | ⟨free, -⟩⟩
    · rw [lookup?_eq, none] at found
      cases found
    · exact ⟨_, added⟩
    · obtain ⟨line, entry⟩ := (distinct.lookup?_eq_some_iff own).1 found
      exact absurd rfl (free _ (List.mem_of_getElem? entry))

/-- An addition does nothing, or it appends an entry with a free name. -/
theorem after_cases (t : Tables) (a : Addition) :
    (t.index? a = none ∧ t.after a = t) ∨
      ∃ rows, t.rows? a.table = some rows ∧ (∀ row ∈ rows, row.1 ≠ a.name) ∧
        t.index? a = some rows.length ∧
        t.Appends a rows (t.after a) := by
  rcases t.add_cases a with
    ⟨-, added⟩ | ⟨rows, own, ⟨i, first, -, added⟩ | ⟨free, t', added, appends⟩⟩
  · exact .inl ⟨by rw [index?, added], by rw [after, added]⟩
  · exact .inl ⟨by rw [index?, added], by rw [after, added]⟩
  · refine .inr ⟨rows, own, free, by rw [index?, added], ?_⟩
    rwa [after, added]

/-- Rows of a table behind an addition were there before, or they are its last row. -/
theorem Appends.rows?_cases {rows' : List (String × Nat)} (h : t.Appends a rows t')
    (own : t.rows? a.table = some rows) (own' : t'.rows? id = some rows') :
    (id = a.table ∧ t.rows? id = some rows ∧ rows' = rows ++ [(a.name, a.line)]) ∨
      (id ≠ a.table ∧ (t.rows? id = some rows' ∨ t.rows? id = none ∧ rows' = [])) := by
  by_cases same : id = a.table
  · subst same
    exact .inl ⟨rfl, own, (Option.some.inj (h.own.symm.trans own')).symm⟩
  · refine .inr ⟨same, ?_⟩
    rcases h.apart id same with eq | ⟨none, empty⟩
    · exact .inl (eq ▸ own')
    · exact .inr ⟨none, (Option.some.inj (empty.symm.trans own')).symm⟩

theorem Distinct.after (distinct : t.Distinct) (a : Addition) : (t.after a).Distinct := by
  rcases t.after_cases a with ⟨-, same⟩ | ⟨rows, own, free, -, appends⟩
  · rwa [same]
  · intro id rows' own'
    rcases appends.rows?_cases own own' with ⟨-, before, rfl⟩ | ⟨-, before | ⟨-, rfl⟩⟩
    · rw [List.map_append, List.map_singleton, ← List.concat_eq_append, List.nodup_concat]
      refine ⟨fun mem => ?_, distinct id rows before⟩
      obtain ⟨row, inRows, same⟩ := List.mem_map.1 mem
      exact free row inRows same
    · exact distinct id rows' before
    · exact List.nodup_nil

theorem keeps_after (t : Tables) (a : Addition) : t.Keeps (t.after a) := by
  rcases t.after_cases a with ⟨-, same⟩ | ⟨rows, -, -, -, appends⟩
  · rw [same]
    exact refl_of Keeps t
  · exact appends.keeps

/-- The next index goes to an entry that is appended. -/
theorem range_rowCount_after (t : Tables) (a : Addition) (id : TableId) :
    List.range (t.rowCount id) ++ (if a.table = id then (t.index? a).toList else []) =
      List.range ((t.after a).rowCount id) := by
  rcases t.after_cases a with ⟨unused, same⟩ | ⟨rows, own, -, used, appends⟩
  · simp [unused, same]
  · by_cases here : a.table = id
    · subst here
      simp [rowCount, own, appends.own, used, List.range_succ]
    · have count : (t.after a).rowCount id = t.rowCount id := by
        rcases appends.apart id (Ne.symm here) with eq | ⟨none, empty⟩
        · rw [rowCount, rowCount, eq]
        · simp [rowCount, none, empty]
      rw [if_neg here, List.append_nil, count]

/-! ### Histories -/

theorem replay_concat (h : List Addition) (a : Addition) : replay (h ++ [a]) = (replay h).after a :=
  List.foldl_concat ..

/-- Empty tables have no entries, whichever of them are there. -/
theorem rows?_empty (own : rows? {} id = some rows) : rows = [] := by
  rcases id with (_ | i) | _
  · exact (Option.some.inj own).symm
  · cases own
  · exact (Option.some.inj own).symm

theorem replay_distinct (h : List Addition) : (replay h).Distinct := by
  induction h using List.reverseRecOn with
  | nil =>
    intro id rows own
    rw [rows?_empty own]
    exact List.nodup_nil
  | append_singleton h a ih =>
    rw [replay_concat]
    exact ih.after a

theorem replay_keeps (h later : List Addition) : (replay h).Keeps (replay (h ++ later)) := by
  induction later using List.reverseRecOn with
  | nil =>
    rw [List.append_nil]
    exact refl_of Keeps _
  | append_singleton later a ih =>
    rw [← List.append_assoc, replay_concat]
    exact trans_of Keeps ih (keeps_after _ a)

theorem range_append_given (h : List Addition) (t : Tables) :
    List.range (t.rowCount id) ++ t.given id h = List.range ((h.foldl after t).rowCount id) := by
  induction h generalizing t with
  | nil => exact List.append_nil _
  | cons a h ih => rw [given, ← List.append_assoc, range_rowCount_after, ih, List.foldl_cons]

/-- Each entry comes from the addition that was given its index. -/
theorem exists_addition {h : List Addition} {i : Nat} {row : String × Nat}
    (own : (replay h).rows? id = some rows) (entry : rows[i]? = some row) :
    ∃ before a later, h = before ++ a :: later ∧ a.table = id ∧ (a.name, a.line) = row ∧
      (replay before).index? a = some i := by
  induction h using List.reverseRecOn generalizing rows with
  | nil => simp [rows?_empty own] at entry
  | append_singleton h a ih =>
    rw [replay_concat] at own
    -- An entry that was there already has its addition in the shorter history.
    have earlier {old} (table : (replay h).rows? id = some old) (entry : old[i]? = some row) :
        ∃ before b later, h ++ [a] = before ++ b :: later ∧ b.table = id ∧ (b.name, b.line) = row ∧
          (replay before).index? b = some i := by
      obtain ⟨before, b, later, rfl, facts⟩ := ih table entry
      exact ⟨before, b, later ++ [a], by simp, facts⟩
    rcases (replay h).after_cases a with ⟨-, same⟩ | ⟨old, table, -, used, appends⟩
    · exact earlier (same ▸ own) entry
    · rcases appends.rows?_cases table own with ⟨rfl, -, rfl⟩ | ⟨-, unchanged | ⟨-, rfl⟩⟩
      · rw [List.getElem?_append] at entry
        split at entry
        · exact earlier table entry
        · rename_i beyond
          obtain ⟨bound, eq⟩ := List.getElem?_eq_some_iff.1 entry
          obtain rfl : i = old.length := by
            rw [List.length_singleton] at bound
            omega
          exact ⟨h, a, [], rfl, rfl, by simpa using eq, used⟩
      · exact earlier unchanged entry
      · cases entry

/-! ### What a name means -/

theorem lookup?_vars_eq_some_iff {s : Scope} {name : String} {i : Nat} (distinct : t.Distinct) :
    t.lookup? (.vars s) name = some i ↔ ∃ x, t.var? ⟨i, s⟩ = some x ∧ x.name = name := by
  cases own : t.table? s with
  | none => simp [lookup?, var?, own]
  | some vars =>
    rw [distinct.lookup?_eq_some_iff (by rw [rows?, own]; rfl)]
    simp [var?, own, VarTable.get?, and_comm]

/-- The global variable that has a name. -/
theorem map_lookup?_eq_some_iff {name : String} {v : VarRef} (distinct : t.Distinct) :
    (t.globals.find? name).map (⟨·, .globals⟩) = some v ↔
      (∃ x, t.var? v = some x ∧ x.name = name) ∧ v.scope = .globals := by
  have global (i : Nat) : t.globals.find? name = some i ↔ ∃ x, t.var? ⟨i, .globals⟩ = some x ∧
      x.name = name :=
    lookup?_vars_eq_some_iff (s := .globals) distinct
  obtain ⟨slot, scope⟩ := v
  rw [Option.map_eq_some_iff]
  constructor
  · rintro ⟨i, found, ⟨⟩⟩
    exact ⟨(global slot).1 found, rfl⟩
  · rintro ⟨entry, rfl⟩
    exact ⟨slot, (global slot).2 entry, rfl⟩

/-- A name means the variable of its own scope that has the name, or else the global one. -/
theorem resolve?_eq_some_iff {s : Scope} {name : String} {v : VarRef} (distinct : t.Distinct) :
    t.resolve? name s = some v ↔
      (∃ x, t.var? v = some x ∧ x.name = name) ∧
        (v.scope = s ∨ v.scope = .globals ∧ ∀ i x, t.var? ⟨i, s⟩ = some x → x.name ≠ name) := by
  obtain ⟨slot, scope⟩ := v
  cases s with
  | globals =>
    rw [resolve?, map_lookup?_eq_some_iff distinct]
    exact and_congr_right fun _ => ⟨.inl, fun either => either.elim id And.left⟩
  | function j =>
    -- The variables of the function come first. If one of them has the name, no global one is
    -- meant.
    cases own : t.lookup? (.vars (.function j)) name with
    | some i =>
      have entry := (lookup?_vars_eq_some_iff distinct).1 own
      have resolved : t.resolve? name (.function j) = some ⟨i, .function j⟩ := by
        simp only [resolve?, show (t.table? (.function j)).bind (·.find? name) = some i from own]
      rw [resolved]
      constructor
      · rintro ⟨⟩
        exact ⟨entry, .inl rfl⟩
      · rintro ⟨found, here | ⟨-, absent⟩⟩
        · obtain rfl : scope = .function j := here
          have same := (lookup?_vars_eq_some_iff distinct).2 found
          rw [Option.some.inj (own.symm.trans same)]
        · obtain ⟨x, found, named⟩ := entry
          exact absurd named (absent i x found)
    | none =>
      have absent (i : Nat) (x : Variable) (found : t.var? ⟨i, .function j⟩ = some x) :
          x.name ≠ name := by
        intro named
        cases own.symm.trans ((lookup?_vars_eq_some_iff distinct).2 ⟨x, found, named⟩)
      have resolved : t.resolve? name (.function j) = (t.globals.find? name).map
          (⟨·, .globals⟩) := by
        simp only [resolve?, show (t.table? (.function j)).bind (·.find? name) = none from own]
      rw [resolved, map_lookup?_eq_some_iff distinct]
      refine and_congr_right fun found => ⟨fun global => .inr ⟨global, absent⟩, ?_⟩
      rintro (here | ⟨global, -⟩)
      · obtain rfl : scope = .function j := here
        obtain ⟨x, found, named⟩ := found
        exact absurd named (absent slot x found)
      · exact global

end Tables

end MiniGo
