import MiniGo.Assembly.Instr
import MiniGo.Diagnostic.GenError

/-!
# Emitting code

`Emit` is the effect of code generation: it writes lines, takes labels, and may fail. What was
written before a failure is kept.

* `Emit`, `emit`, `fail`: the effect and its operations.
* `Context`: what code generation knows besides the tree.
-/

namespace MiniGo

/-- The lines written by code generation, the labels that are left, and a result or an error. -/
structure Emission (α : Type) where
  lines : List Line
  labels : LabelCounters
  result : Except GenError α

/-- Code generation: from the labels that are free to what it emits. -/
def Emit (α : Type) : Type := LabelCounters → Emission α

namespace Emit

variable {α β : Type}

/-- Goes on after a success. -/
def andThen (x : Emit α) (f : α → Emit β) : Emit β := fun labels =>
  let first := x labels
  match first.result with
  | .error e => ⟨first.lines, first.labels, .error e⟩
  | .ok a =>
    let second := f a first.labels
    ⟨first.lines ++ second.lines, second.labels, second.result⟩

instance : Monad Emit where
  pure a := fun labels => ⟨[], labels, .ok a⟩
  bind := andThen

/-- Writes a line. -/
def line (l : Line) : Emit Unit := fun labels => ⟨[l], labels, .ok ()⟩

/-- Writes an instruction. -/
def instr (i : Instr) : Emit Unit := line (.instr i)

/-- Writes a label. -/
def label (l : Label) : Emit Unit := line (.label l)

/-- Fails. -/
def fail (e : GenError) : Emit α := fun labels => ⟨[], labels, .error e⟩

/-- Fails at a node that does not belong where it is. -/
def invalid (kind : NodeKind) (position : Position) : Emit α := fail (.invalidNode kind position)

/-- Takes labels. -/
def fresh (take : LabelCounters → α × LabelCounters) : Emit α := fun labels =>
  ⟨[], (take labels).2, .ok (take labels).1⟩

/-- The value of an option, or a failure. -/
def require (e : GenError) : Option α → Emit α
  | some a => pure a
  | none => fail e

theorem pure_apply (a : α) (labels : LabelCounters) :
    (pure a : Emit α) labels = ⟨[], labels, .ok a⟩ := rfl

theorem bind_apply (x : Emit α) (f : α → Emit β) (labels : LabelCounters) :
    (x >>= f) labels = andThen x f labels := rfl

theorem andThen_pure (x : Emit α) : x.andThen pure = x := by
  funext labels
  simp only [andThen, pure_apply]
  split
  · rename_i e h
    rw [← h]
  · rename_i a h
    simp [← h]

theorem andThen_assoc {γ : Type} (x : Emit α) (f : α → Emit β) (g : β → Emit γ) :
    (x.andThen f).andThen g = x.andThen fun a => (f a).andThen g := by
  funext labels
  simp only [andThen]
  cases (x labels).result with
  | error e => rfl
  | ok a =>
    simp only
    cases (f a (x labels).labels).result with
    | error e => rfl
    | ok b => simp

instance : LawfulMonad Emit :=
  LawfulMonad.mk' Emit andThen_pure
    (fun _ _ => by funext labels; simp [bind_apply, andThen, pure_apply])
    andThen_assoc

end Emit

/-! ### The surroundings of a tree -/

/-- What can be chosen about the generated class. -/
structure Options where
  className : String := "GoProgram"
  stackLimit : Nat := 32
deriving DecidableEq, Repr

/-- The method that is being generated: the function it belongs to, if any, and its first free
slot. -/
structure Frame where
  function? : Option Nat := none
  base : Nat := 0
deriving DecidableEq, Repr

namespace Frame

/-- The frame of the initializer of the class. -/
def initializer : Frame := {}

/-- The frame of a function. The entry point has its arguments in slot zero. -/
def ofFunction (index : Nat) (isEntryPoint : Bool) : Frame :=
  ⟨some index, if isEntryPoint then 1 else 0⟩

/-- The local slot of a variable. -/
def slot (f : Frame) (v : Nat) : Nat := f.base + v

end Frame

/-- What code generation knows besides the tree. -/
structure Context where
  tables : Tables
  options : Options := {}
  frame : Frame := {}
deriving DecidableEq, Repr

namespace Context

/-- The entry of a variable. -/
def lookupVariable (ctx : Context) (v : VarRef) : Emit Variable :=
  .require (.unresolved .var v.slot) (ctx.tables.var? v)

/-- The entry of a function. -/
def lookupFunction (ctx : Context) (index : Nat) : Emit Function :=
  .require (.unresolved .func index) (ctx.tables.functions.get? index)

/-- The static field of a global variable. -/
def globalField (ctx : Context) (v : VarRef) : Emit FieldRef := do
  let entry ← ctx.lookupVariable v
  return ⟨ctx.options.className, .named entry.name, entry.descriptor⟩

/-- The static field of a result of a function. -/
def resultField (ctx : Context) (function result : Nat) : Emit FieldRef := do
  let f ← ctx.lookupFunction function
  let ty ← .require (.unresolved .result result) f.returns[result]?
  return ⟨ctx.options.className, .result f.name result, ty.descriptor⟩

end Context

/-- The name of the function at which a program starts. -/
def mainName : String := "main"

namespace Function

/-- Whether a program starts at a function. -/
def isEntryPoint (f : Function) : Bool := f.name == mainName && f.params.isEmpty

/-- The signature of the method of a function. The machine passes an array of strings to the entry
point. -/
def signature (f : Function) : Signature :=
  if f.isEntryPoint then ⟨mainName, [.array .string], .void⟩
  else ⟨f.name, methodType f.params⟩

end Function

end MiniGo
