import MiniGo.Symbol.Registry
import MiniGo.Tree.Expr

/-!
# The state of an analysis

An analysis works on one state: the symbol tables, the errors so far, and the context that says in
which scope a part of the program stands. Each function of the analysis may read and change all of
it.

* `AnalysisContext`, `Analyzer`: the state.
* `Analyzer.error`, `Analyzer.reject`: recording an error.
* `Analyzer.declareIn`, `Analyzer.declareVariable`: declaring a variable in a scope, or in the scope
  of the context.
-/

namespace MiniGo

/-- Where an analysis stands: the scope of new variables, and the function whose body is
analysed. -/
structure AnalysisContext where
  scope : Scope
  function? : Option Nat
deriving DecidableEq, Repr

namespace AnalysisContext

/-- The context of declarations outside of functions. -/
def global : AnalysisContext := ⟨.globals, none⟩

/-- The context of the body of a function. -/
def function (i : Nat) : AnalysisContext := ⟨.function i, some i⟩

end AnalysisContext

/-- The state of an analysis. The errors are in the order in which they are met. -/
structure Analyzer where
  tables : Registry := {}
  diagnostics : List SemanticError := []
  context : AnalysisContext := .global
deriving DecidableEq, Repr

/-- A part of an analysis. -/
abbrev Analyze := StateM Analyzer

namespace Analyzer

/-- Records an error. -/
def error (e : SemanticError) : Analyze Unit :=
  modify fun a => { a with diagnostics := a.diagnostics ++ [e] }

/-- Records an error and has no result. -/
def reject {α : Type} (e : SemanticError) : Analyze (Option α) := do
  error e
  return none

/-- Goes on with a result, if there is one. -/
def proceed {α β : Type} (a? : Option α) (f : α → Analyze (Option β)) : Analyze (Option β) :=
  match a? with
  | some a => f a
  | none => return none

/-- Declares a variable in a scope. A name that is taken there is an error. -/
def declareIn (scope : Scope) (name : Ident) (ty : Ty) (array? : Option ArrayShape) :
    Analyze (Option VarRef) := do
  let added := (Registry.addVariable scope ⟨name.name, name.line, ty, array?⟩).run (← get).tables
  modify ({ · with tables := added.2 })
  match added.1 with
  | none => return none
  | some (.ok slot) => return some ⟨slot, scope⟩
  | some (.error e) => reject e

/-- Declares a variable in the scope of the context. -/
def declareVariable (name : Ident) (ty : Ty) (array? : Option ArrayShape) :
    Analyze (Option VarRef) := do
  declareIn (← get).context.scope name ty array?

end Analyzer

end MiniGo
