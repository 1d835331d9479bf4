import MiniGo.Proofs.Analyzer.Frame
import MiniGo.Proofs.Scopes.Histories

/-!
# Indices of names after any history

Each symbol table has an index of its names, which lookups read, beside its entries. Behind every
history of additions to empty tables, successful or not, the two agree.

* `Registry.add`, `Registry.replay`: one addition, and the tables behind a history of them.
* `Registry.replay_eq_indexed`: the tables behind a history have the index that comes from their
  entries.
* `Registry.history_consistent`: what is true of all tables behind every history.
* `Analyzer.lowerProgram_history`: the tables of an analysis are behind a history.
-/

namespace MiniGo

namespace Registry

/-! ### Additions -/

/-- Adds an entry. The answer is its index or an error; there is none if the scope has no table. -/
def add : Addition → StateM Registry (Option (Except SemanticError Nat))
  | .var s x => addVariable s x
  | .func name line params returns => do return some (← addFunction name line params returns)

/-- The answer of an addition. -/
def answer (r : Registry) (a : Addition) : Option (Except SemanticError Nat) := ((add a).run r).1

/-- The tables behind an addition. -/
def after (r : Registry) (a : Addition) : Registry := ((add a).run r).2

/-- The index that an addition gives to its entry. -/
def index? (r : Registry) (a : Addition) : Option Nat :=
  match r.answer a with
  | some (.ok i) => some i
  | _ => none

/-- The tables behind a history of additions to empty tables. -/
def replay (h : List Addition) : Registry := h.foldl after {}

/-- The indices that a history of additions gives to the entries of one table, in order. -/
def given (id : TableId) (r : Registry) : List Addition → List Nat
  | [] => []
  | a :: h => (if a.table = id then (r.index? a).toList else []) ++ (r.after a).given id h

/-- The names in a table, each with the line of its declaration. -/
def rows? (r : Registry) (id : TableId) : Option (List (String × Nat)) := r.tables.rows? id

/-- The number of entries of a table. -/
def rowCount (r : Registry) (id : TableId) : Nat := ((r.rows? id).getD []).length

/-- The place of a name in a table, as its index says. -/
def lookup? (r : Registry) : TableId → String → Option Nat
  | .vars s, name => (r.table? s).bind (·.lookup? name)
  | .functions, name => r.functions.lookup? name

/-! ### Additions to tables with the index of their entries -/

section Indexed

variable (t : Tables) (a : Addition)

theorem run_add_indexed :
    (add a).run t.indexed =
      match t.add a with
      | none => (none, t.indexed)
      | some (.error e) => (some (.error e), t.indexed)
      | some (.ok (i, t')) => (some (.ok i), t'.indexed) := by
  cases a with
  | var s x =>
    rw [add, t.addVariable_indexed, Tables.add]
    cases t.table? s with
    | none => rfl
    | some vars =>
      dsimp only [Option.map_some]
      cases vars.declare x <;> rfl
  | func name line params returns =>
    have added := t.addFunction_indexed name line params returns
    simp only [add, StateT.run_bind, added, Tables.add]
    cases t.functions.declare ⟨name, line, params, returns, {}⟩ <;> rfl

theorem answer_indexed :
    t.indexed.answer a = (t.add a).map fun result => result.map Prod.fst := by
  rw [answer, run_add_indexed]
  rcases t.add a with _ | (e | ⟨i, t'⟩) <;> rfl

variable {t a} in
theorem add_eq_error_of_answer {e : SemanticError}
    (failed : t.indexed.answer a = some (.error e)) : t.add a = some (.error e) := by
  rw [answer_indexed] at failed
  obtain ⟨result, added, failed⟩ := Option.map_eq_some_iff.1 failed
  rcases result with e' | _ <;> cases failed
  exact added

variable {t a} in
theorem exists_add_eq_ok_of_answer {i : Nat} (succeeded : t.indexed.answer a = some (.ok i)) :
    ∃ t', t.add a = some (.ok (i, t')) := by
  rw [answer_indexed] at succeeded
  obtain ⟨result, added, succeeded⟩ := Option.map_eq_some_iff.1 succeeded
  rcases result with _ | ⟨j, t'⟩ <;> cases succeeded
  exact ⟨t', added⟩

theorem after_indexed : t.indexed.after a = (t.after a).indexed := by
  rw [after, run_add_indexed, Tables.after]
  rcases t.add a with _ | (e | ⟨i, t'⟩) <;> rfl

theorem index?_indexed : t.indexed.index? a = t.index? a := by
  rw [index?, answer_indexed, Tables.index?]
  rcases t.add a with _ | (e | ⟨i, t'⟩) <;> rfl

theorem lookup?_indexed (id : TableId) (name : String) :
    t.indexed.lookup? id name = t.lookup? id name := by
  cases id with
  | vars s =>
    rw [lookup?, t.table?_indexed, Option.bind_map]
    exact Option.bind_congr fun vars _ => vars.lookup?_indexed name
  | functions => exact t.functions.lookup?_indexed name

theorem rows?_indexed (id : TableId) : t.indexed.rows? id = t.rows? id := by
  rw [rows?, Tables.tables_indexed]

theorem rowCount_indexed (id : TableId) : t.indexed.rowCount id = t.rowCount id := by
  rw [rowCount, rows?_indexed, Tables.rowCount]

theorem given_indexed (id : TableId) (h : List Addition) (t : Tables) :
    t.indexed.given id h = t.given id h := by
  induction h generalizing t with
  | nil => rfl
  | cons a h ih => rw [given, index?_indexed, after_indexed, ih, Tables.given]

end Indexed

/-- Behind a history, each index is the one that comes from the entries. -/
theorem replay_eq_indexed (h : List Addition) : replay h = (Tables.replay h).indexed := by
  induction h using List.reverseRecOn with
  | nil => rfl
  | append_singleton h a ih =>
    have last : replay (h ++ [a]) = (replay h).after a := List.foldl_concat ..
    rw [last, ih, after_indexed, Tables.replay_concat]

/-! ### Consistency -/

/-- What is true of the tables behind a history. -/
structure Consistent (h : List Addition) (r : Registry) : Prop where
  /-- A lookup gives a place exactly if the entry there has the name. -/
  lookup : ∀ id rows name i, r.rows? id = some rows →
    (r.lookup? id name = some i ↔ ∃ line, rows[i]? = some (name, line))
  /-- At most one entry has a name. -/
  unique : ∀ id rows, r.rows? id = some rows → (rows.map Prod.fst).Nodup
  /-- The additions to one table that succeed get the indices from zero on. -/
  indices : ∀ id, given id {} h = List.range (r.rowCount id)
  /-- Later additions keep all entries. -/
  kept : ∀ later, r.tables.Keeps (replay (h ++ later)).tables
  /-- An addition is refused exactly if its table has the name. -/
  refused : ∀ a, (∃ e, r.answer a = some (.error e)) ↔ ∃ i, r.lookup? a.table a.name = some i
  /-- The error has the line of the first declaration, and all tables stay as they are. -/
  reported : ∀ a e, r.answer a = some (.error e) → r.after a = r ∧
    ∃ before first later i, h = before ++ first :: later ∧ first.table = a.table ∧
      first.name = a.name ∧ (replay before).index? first = some i ∧ e = a.duplicate first.line
  /-- There is no answer exactly if there is no table, and then nothing changes. -/
  missing : ∀ a, r.answer a = none ↔ r.rows? a.table = none
  unanswered : ∀ a, r.answer a = none → r.after a = r
  /-- An entry that is added gets the next index, and is found there. -/
  entered : ∀ a i, r.answer a = some (.ok i) →
    i = r.rowCount a.table ∧ a.EnteredAt (r.after a).tables i
  /-- A name means the variable of its own scope that has the name, or else the global one, or else
  nothing. -/
  resolves : ∀ s name v, r.resolve? name s = some v ↔
    (∃ x, r.var? v = some x ∧ x.name = name) ∧
      (v.scope = s ∨ v.scope = .globals ∧ ∀ i x, r.var? ⟨i, s⟩ = some x → x.name ≠ name)

/-- Symbol tables are consistent behind every history of additions. -/
theorem history_consistent (h : List Addition) : (replay h).Consistent h := by
  have distinct := Tables.replay_distinct h
  -- A history leaves the tables without an index, and the index beside them that their entries
  -- determine. So each field is one about tables without an index.
  rw [replay_eq_indexed]
  set t := Tables.replay h
  exact {
    lookup := fun id rows name i own => by
      rw [rows?_indexed] at own
      rw [lookup?_indexed]
      exact distinct.lookup?_eq_some_iff own
    unique := fun id rows own => by
      rw [rows?_indexed] at own
      exact distinct id rows own
    indices := fun id => by
      have empty : Tables.rowCount {} id = 0 := by
        rcases id with (_ | i) | _ <;> rfl
      have all : _ = List.range (t.rowCount id) := Tables.range_append_given h {}
      rw [empty, List.range_zero, List.nil_append] at all
      rw [rowCount_indexed, ← all]
      exact given_indexed id h {}
    kept := fun later => by
      rw [replay_eq_indexed, Tables.tables_indexed, Tables.tables_indexed]
      exact Tables.replay_keeps h later
    refused := fun a => by
      rw [lookup?_indexed, ← distinct.exists_add_error_iff a, answer_indexed]
      rcases t.add a with _ | (e | ⟨i, t'⟩) <;> simp [Except.map]
    reported := fun a e failed => by
      have added := add_eq_error_of_answer failed
      obtain ⟨rows, i, first, own, entry, rfl⟩ := Tables.add_eq_error added
      obtain ⟨before, b, later, split, same, row, used⟩ := Tables.exists_addition own entry
      obtain ⟨named, rfl⟩ := Prod.mk.inj row
      refine ⟨?_, before, b, later, i, split, same, named, ?_, rfl⟩
      · rw [after_indexed, Tables.after, added]
      · rw [replay_eq_indexed, index?_indexed, used]
    missing := fun a => by
      rw [answer_indexed, Option.map_eq_none_iff, rows?_indexed]
      exact Tables.add_eq_none_iff
    unanswered := fun a none => by
      rw [answer_indexed, Option.map_eq_none_iff] at none
      rw [after_indexed, Tables.after, none]
    entered := fun a i succeeded => by
      obtain ⟨t', added⟩ := exists_add_eq_ok_of_answer succeeded
      obtain ⟨rows, own, rfl, appends⟩ := Tables.add_eq_ok added
      refine ⟨by rw [rowCount_indexed, Tables.rowCount, own, Option.getD_some], ?_⟩
      rw [after_indexed, Tables.tables_indexed, Tables.after, added]
      exact appends.entered
    resolves := fun s name v => by
      simp only [Tables.resolve?_indexed, Tables.var?_indexed]
      exact Tables.resolve?_eq_some_iff distinct }

/-- A parameter hides a global variable, and the name is free in the function though not among the
globals. -/
example :
    let h := [.var .globals ⟨"x", 1, .int, none⟩, .func "f" 2 [.bool] [],
      .var (.function 0) ⟨"x", 2, .bool, none⟩, .var .globals ⟨"x", 5, .bool, none⟩]
    (replay h).resolve? "x" (.function 0) = some ⟨0, .function 0⟩ ∧
      given (.vars .globals) {} h = [0] := by
  decide

end Registry

/-! ### The additions of an analysis -/

namespace Analyzer

/-- States of which the second has the tables of the first behind further additions. -/
def AddsTo (a b : Analyzer) : Prop :=
  ∃ h : List Addition, b.tables = h.foldl Registry.after a.tables

instance : IsPreorder Analyzer AddsTo where
  refl _ := ⟨[], rfl⟩
  trans a b c h k := by
    obtain ⟨first, eq⟩ := h
    obtain ⟨second, eq'⟩ := k
    exact ⟨first ++ second, by rw [eq', eq, List.foldl_append]⟩

theorem OnlyReports.addsTo {a b : Analyzer} (h : a.OnlyReports b) : a.AddsTo b := ⟨[], h.tables⟩

theorem declareIn_addsTo (s : Scope) (name : Ident) (ty : Ty) (array? : Option ArrayShape) :
    Steps AddsTo (declareIn s name ty array?) := by
  refine ⟨fun a => ?_⟩
  simp only [declareIn, StateT.run_bind, StateT.run_get, pure_bind, StateT.run_modify]
  have added : a.AddsTo { a with tables := _ } :=
    ⟨[.var s ⟨name.name, name.line, ty, array?⟩], rfl⟩
  refine trans_of AddsTo added (OnlyReports.addsTo (Steps.run ?_ _))
  split
  · exact .pure
  · exact .pure
  · exact steps_reject _

theorem allowed_addsTo : Allowed AddsTo where
  errors _ _ := OnlyReports.addsTo
  declares name ty array? := ⟨fun a => (declareIn_addsTo a.context.scope name ty array?).run a⟩

theorem declareParams_addsTo (s : Scope) (params : List (Ident × Ty)) :
    Steps AddsTo (declareParams s params) := by
  induction params with
  | nil => exact .pure
  | cons param params ih => exact .bind (declareIn_addsTo ..) fun _ => ih

theorem declareFunction_addsTo (func : FuncDecl) : Steps AddsTo (declareFunction func) := by
  refine .bind (allowed_addsTo.reports (lowerParams_steps _)) fun params? =>
    .bind (allowed_addsTo.reports (lowerResults_steps _)) fun returns? => ?_
  split
  · rename_i params returns
    refine ⟨fun a => ?_⟩
    simp only [StateT.run_bind, StateT.run_get, pure_bind, StateT.run_modify]
    have added : a.AddsTo { a with tables := _ } :=
      ⟨[.func func.name.name func.line (params.map Prod.snd) returns], rfl⟩
    refine trans_of AddsTo added (Steps.run ?_ _)
    split
    · exact allowed_addsTo.reports (steps_reject _)
    · exact .bind (declareParams_addsTo ..) fun _ => .pure
  · exact .pure

/-- The tables of an analysis are those behind a history of additions, so they are consistent. -/
theorem lowerProgram_history (file : File) :
    ∃ h, ((lowerProgram file).run {}).2.tables = Registry.replay h := by
  have enters (func : FuncDecl) (i : Nat) : Steps AddsTo (lowerFunction func i) :=
    ⟨fun a => (lowerBlock_steps allowed_addsTo func.body).run { a with context := .function i }⟩
  exact (lowerProgram_steps allowed_addsTo declareFunction_addsTo enters file).run {}

end Analyzer

end MiniGo
