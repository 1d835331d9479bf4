import MiniGo.Diagnostic.SemanticError
import MiniGo.Symbol.Table

/-!
# Results with errors

Analysis goes on after an error, so a result comes with the errors that were met on the way to it.
The functions of this directory take the tables and the scope that they work with as arguments,
which is how the theory speaks of the analysis. The analyzer itself works on one state that all its
parts share, and agrees with them.

* `Report`: a value and errors, oldest first.
* `Lower`: a report that also extends the symbol tables.
-/

namespace MiniGo

/-- A value together with the errors met on the way to it, oldest first. -/
structure Report (α : Type) where
  value : α
  errors : List SemanticError := []
deriving DecidableEq, Repr

namespace Report

instance : Monad Report where
  pure a := ⟨a, []⟩
  bind r f := ⟨(f r.value).value, r.errors ++ (f r.value).errors⟩

@[simp] theorem value_pure {α : Type} (a : α) : (pure a : Report α).value = a := rfl

@[simp] theorem errors_pure {α : Type} (a : α) : (pure a : Report α).errors = [] := rfl

@[simp] theorem value_bind {α β : Type} (r : Report α) (f : α → Report β) :
    (r >>= f).value = (f r.value).value := rfl

@[simp] theorem errors_bind {α β : Type} (r : Report α) (f : α → Report β) :
    (r >>= f).errors = r.errors ++ (f r.value).errors := rfl

instance : LawfulMonad Report :=
  LawfulMonad.mk' Report (fun _ => by simp [Functor.map]) (fun _ _ => by simp [pure, bind])
    (fun _ _ _ => by simp [bind])

/-- Records an error. -/
def record (e : SemanticError) : Report Unit := ⟨(), [e]⟩

/-- Records an error and has no value. -/
def reject {α : Type} (e : SemanticError) : Report (Option α) := ⟨none, [e]⟩

end Report

/-- A report that may add variables and functions to the symbol tables. -/
abbrev Lower := StateT Tables Report

end MiniGo
