import MiniGo.Symbol.Table

/-!
# Symbol tables with an index

The symbol tables while they are filled. Beside its entries, each table has an index that takes
names to slots, and a lookup reads the index alone. Nothing here asks that the two agree: that they
do so after any additions is a theorem about `Registry.add`.

* `VarRegistry.addVariable`, `FuncRegistry.addFunction`: adding an entry, refused if its name is in
  the index.
* `Registry.resolve?`: what a name means in a scope.
* `Registry.tables`: the entries without the indices.
-/

namespace MiniGo

/-- A map from names to slots, the latest pair first. -/
structure NameIndex where
  pairs : List (String × Nat) := []
deriving DecidableEq, Repr

namespace NameIndex

/-- The slot of a name. -/
def get? (index : NameIndex) (name : String) : Option Nat := index.pairs.lookup name

/-- The index with a new slot for a name. -/
def insert (index : NameIndex) (name : String) (slot : Nat) : NameIndex :=
  ⟨(name, slot) :: index.pairs⟩

/-- An insertion changes what is found under one name. -/
theorem get?_insert (index : NameIndex) (name : String) (slot : Nat) (other : String) :
    (index.insert name slot).get? other = if other = name then some slot else index.get? other := by
  by_cases same : other = name
  · simp [get?, insert, same]
  · have different : (other == name) = false := beq_eq_false_iff_ne.2 same
    simp [get?, insert, List.lookup_cons, same, different]

end NameIndex

instance : Inhabited Variable := ⟨⟨"", 0, .noType, none⟩⟩

/-! ### Variables -/

/-- The variables of one scope, by slot, and the index of their names. -/
structure VarRegistry where
  entries : List Variable := []
  index : NameIndex := {}
deriving DecidableEq, Repr

namespace VarRegistry

/-- The slot of a name. -/
def lookup? (r : VarRegistry) (name : String) : Option Nat := r.index.get? name

/-- The variable at a slot. -/
def get? (r : VarRegistry) (slot : Nat) : Option Variable := r.entries[slot]?

/-- The table with one more variable. -/
def push (r : VarRegistry) (x : Variable) : VarRegistry :=
  ⟨r.entries ++ [x], r.index.insert x.name r.entries.length⟩

/-- Adds a variable and gives its slot, unless the index has its name. -/
def addVariable (x : Variable) : StateM VarRegistry (Except SemanticError Nat) := do
  let r ← get
  match r.index.get? x.name with
  | some existing =>
    return .error (.duplicateDeclaration .var x.name x.line r.entries[existing]!.line)
  | none =>
    set (r.push x)
    return .ok r.entries.length

end VarRegistry

/-! ### Functions -/

/-- A function while its table is filled: its signature and its variables. -/
structure FuncEntry where
  name : String
  line : Nat
  params : List Ty
  returns : List Ty
  vars : VarRegistry := {}
deriving DecidableEq, Repr

instance : Inhabited FuncEntry := ⟨⟨"", 0, [], [], {}⟩⟩

/-- The type of a call as a value: that of the only result. -/
def FuncEntry.valueTy (f : FuncEntry) : Ty :=
  match f.returns with
  | [t] => t
  | _ => .noType

/-- The functions of a program, by index, and the index of their names. -/
structure FuncRegistry where
  entries : List FuncEntry := []
  index : NameIndex := {}
deriving DecidableEq, Repr

namespace FuncRegistry

/-- The index of a name. -/
def lookup? (r : FuncRegistry) (name : String) : Option Nat := r.index.get? name

/-- The function at an index. -/
def get? (r : FuncRegistry) (i : Nat) : Option FuncEntry := r.entries[i]?

/-- The table with one more function. -/
def push (r : FuncRegistry) (f : FuncEntry) : FuncRegistry :=
  ⟨r.entries ++ [f], r.index.insert f.name r.entries.length⟩

/-- Adds a function without variables and gives its index, unless the index of names has its
name. -/
def addFunction (name : String) (line : Nat) (params returns : List Ty) :
    StateM FuncRegistry (Except SemanticError Nat) := do
  let r ← get
  match r.index.get? name with
  | some existing =>
    return .error (.duplicateDeclaration .func name line r.entries[existing]!.line)
  | none =>
    set (r.push ⟨name, line, params, returns, {}⟩)
    return .ok r.entries.length

/-- Replaces the variables of a function. -/
def setVars (r : FuncRegistry) (i : Nat) (vars : VarRegistry) : FuncRegistry :=
  { r with entries := r.entries.modify i fun f => { f with vars } }

end FuncRegistry

/-! ### All tables -/

/-- All variables and functions of a program while they are declared. -/
structure Registry where
  globals : VarRegistry := {}
  functions : FuncRegistry := {}
deriving DecidableEq, Repr

namespace Registry

/-- The variables of a scope. -/
def table? (r : Registry) : Scope → Option VarRegistry
  | .globals => some r.globals
  | .function i => (r.functions.get? i).map FuncEntry.vars

/-- Replaces the variables of a scope. -/
def setTable (r : Registry) (vars : VarRegistry) : Scope → Registry
  | .globals => { r with globals := vars }
  | .function i => { r with functions := r.functions.setVars i vars }

/-- Adds a variable in a scope and gives its slot. There is no answer if the scope has no table. -/
def addVariable (s : Scope) (x : Variable) :
    StateM Registry (Option (Except SemanticError Nat)) := do
  match (← get).table? s with
  | none => return none
  | some vars =>
    let (result, vars') := (VarRegistry.addVariable x).run vars
    modify (·.setTable vars' s)
    return some result

/-- Adds a function without variables and gives its index. -/
def addFunction (name : String) (line : Nat) (params returns : List Ty) :
    StateM Registry (Except SemanticError Nat) := do
  let (result, functions) :=
    (FuncRegistry.addFunction name line params returns).run (← get).functions
  modify ({ · with functions })
  return result

/-- The variable that a name means in a scope: one of the function if there is one, else a
global. -/
def resolve? (r : Registry) (name : String) (scope : Scope) : Option VarRef :=
  let own := match scope with
    | .globals => none
    | .function _ => (r.table? scope).bind (·.lookup? name)
  match own with
  | some slot => some ⟨slot, scope⟩
  | none => (r.globals.lookup? name).map (⟨·, .globals⟩)

/-- The entry of a variable. -/
def var? (r : Registry) (v : VarRef) : Option Variable :=
  (r.table? v.scope).bind (·.get? v.slot)

end Registry

/-! ### Entries alone -/

/-- The variables of a table, without the index. -/
def VarRegistry.table (r : VarRegistry) : VarTable := ⟨r.entries⟩

/-- A function with its variables, without the index. -/
def FuncEntry.function (f : FuncEntry) : Function :=
  ⟨f.name, f.line, f.params, f.returns, f.vars.table⟩

/-- All entries, without the indices. Slots and indices of functions mean the same in them. -/
def Registry.tables (r : Registry) : Tables :=
  ⟨r.globals.table, ⟨r.functions.entries.map FuncEntry.function⟩⟩

end MiniGo
