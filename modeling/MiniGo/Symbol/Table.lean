import MiniGo.Diagnostic.SemanticError

/-!
# Symbol tables

The variables and functions of a program. A table is a list of entries with different names; the
place of an entry in its table, its slot, never changes, because entries are only added at the end.

* `VarTable.declare`, `FuncTable.declare`: adding an entry, refused if its name is taken.
* `Tables.resolve?`: what a name means in a scope.
-/

namespace MiniGo

/-- The element type and the length of an array. -/
structure ArrayShape where
  element : Ty
  length : Nat
deriving DecidableEq, Repr

/-- A variable: the type of an array variable is `Ty.array`, and its shape says more. -/
structure Variable where
  name : String
  line : Nat
  ty : Ty
  array? : Option ArrayShape := none
deriving DecidableEq, Repr

namespace Variable

/-- The length of an array, and zero for anything else. -/
def arrayLength (v : Variable) : Nat := (v.array?.map ArrayShape.length).getD 0

/-- The type of what is stored: that of the elements of an array. -/
def valueTy (v : Variable) : Ty := (v.array?.map ArrayShape.element).getD v.ty

end Variable

/-- The variables of one scope, by slot. -/
structure VarTable where
  entries : List Variable := []
deriving DecidableEq, Repr

namespace VarTable

/-- The number of variables. -/
def size (t : VarTable) : Nat := t.entries.length

/-- The slot of a name. -/
def find? (t : VarTable) (name : String) : Option Nat :=
  t.entries.findIdx? (·.name == name)

/-- The variable at a slot. -/
def get? (t : VarTable) (slot : Nat) : Option Variable := t.entries[slot]?

/-- Adds a variable at the slot `t.size`, unless its name is taken. -/
def declare (t : VarTable) (v : Variable) : Except SemanticError VarTable :=
  match t.entries.find? (·.name == v.name) with
  | some first => .error (.duplicateDeclaration .var v.name v.line first.line)
  | none => .ok ⟨t.entries ++ [v]⟩

/-- A declaration succeeds exactly if the name is free, and then adds the variable at the end. -/
theorem declare_eq_ok_iff {t t' : VarTable} {v : Variable} :
    t.declare v = .ok t' ↔ (∀ w ∈ t.entries, w.name ≠ v.name) ∧ t'.entries = t.entries ++ [v] := by
  cases t' with
  | mk entries =>
    unfold declare
    split
    · rename_i first h
      have taken := List.find?_some h
      have found := List.mem_of_find?_eq_some h
      simp only [reduceCtorEq, false_iff, not_and]
      intro free
      exact absurd (by simpa using taken) (free first found)
    · rename_i h
      rw [List.find?_eq_none] at h
      constructor
      · intro heq
        cases heq
        exact ⟨fun w hw => by simpa using h w hw, rfl⟩
      · rintro ⟨-, rfl⟩
        rfl

end VarTable

/-- A function: its signature, and its variables, of which the parameters are the first. -/
structure Function where
  name : String
  line : Nat
  params : List Ty
  returns : List Ty
  vars : VarTable := {}
deriving DecidableEq, Repr

/-- The type of a call as a value: that of the only result. -/
def Function.valueTy (f : Function) : Ty :=
  match f.returns with
  | [t] => t
  | _ => .noType

/-- The functions of a program, by index. -/
structure FuncTable where
  entries : List Function := []
deriving DecidableEq, Repr

namespace FuncTable

/-- The number of functions. -/
def size (t : FuncTable) : Nat := t.entries.length

/-- The index of a name. -/
def find? (t : FuncTable) (name : String) : Option Nat :=
  t.entries.findIdx? (·.name == name)

/-- The function at an index. -/
def get? (t : FuncTable) (index : Nat) : Option Function := t.entries[index]?

/-- Adds a function at the index `t.size`, unless its name is taken. -/
def declare (t : FuncTable) (f : Function) : Except SemanticError FuncTable :=
  match t.entries.find? (·.name == f.name) with
  | some first => .error (.duplicateDeclaration .func f.name f.line first.line)
  | none => .ok ⟨t.entries ++ [f]⟩

/-- Replaces the variables of a function. -/
def setVars (t : FuncTable) (index : Nat) (vars : VarTable) : FuncTable :=
  ⟨t.entries.modify index fun f => { f with vars }⟩

end FuncTable

/-- Where a variable lives: among the globals or in a function. -/
inductive Scope where
  | globals
  | function (index : Nat)
deriving DecidableEq, Repr

/-- The number of a scope: zero for the globals, and one more than the index of a function. -/
def Scope.id : Scope → Nat
  | globals => 0
  | function index => index + 1

/-- A variable, by scope and slot. -/
structure VarRef where
  slot : Nat
  scope : Scope
deriving DecidableEq, Repr

/-- All variables and functions of a program. -/
structure Tables where
  globals : VarTable := {}
  functions : FuncTable := {}
deriving DecidableEq, Repr

namespace Tables

/-- The variables of a scope. -/
def table? (t : Tables) : Scope → Option VarTable
  | .globals => some t.globals
  | .function index => (t.functions.get? index).map Function.vars

/-- Replaces the variables of a scope. -/
def setTable (t : Tables) (vars : VarTable) : Scope → Tables
  | .globals => { t with globals := vars }
  | .function index => { t with functions := t.functions.setVars index vars }

/-- The variable that a name means in a scope: one of the function if there is one, else a
global. -/
def resolve? (t : Tables) (name : String) (scope : Scope) : Option VarRef :=
  let own := match scope with
    | .globals => none
    | .function _ => (t.table? scope).bind (·.find? name)
  match own with
  | some slot => some ⟨slot, scope⟩
  | none => (t.globals.find? name).map (⟨·, .globals⟩)

/-- The entry of a variable. -/
def var? (t : Tables) (v : VarRef) : Option Variable :=
  (t.table? v.scope).bind (·.get? v.slot)

end Tables

end MiniGo
