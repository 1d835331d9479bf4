import MiniGo.Binary32.Printing
import MiniGo.Typed.Node

/-!
# Typed trees as graphs

A tree is drawn in the DOT language: its nodes are numbered in the order in which they are met from
the root down, and the edge to a child follows all lines of that child.
-/

namespace MiniGo

/-- A line inside a graph. -/
inductive DotLine where
  | node (id : Nat) (label : String)
  | edge (parent child : Nat)
deriving DecidableEq, Repr

namespace DotLine

/-- A text between quotes, with a backslash before each quote and each backslash. -/
def escape (text : String) : String :=
  String.ofList <| text.toList.flatMap fun c =>
    if c = '\\' ∨ c = '"' then ['\\', c] else [c]

/-- A line of a graph as text. -/
def text : DotLine → String
  | node id label => s!"node{id}[label=\"" ++ escape label ++ "\"];\n"
  | edge parent child => s!"node{parent} -> node{child};\n"

end DotLine

/-- The name of a variable. -/
def Tables.variableName (t : Tables) (v : VarRef) : String :=
  ((t.var? v).map Variable.name).getD "?"

/-- The name of a function. -/
def Tables.functionName (t : Tables) (index : Nat) : String :=
  ((t.functions.get? index).map Function.name).getD "?"

/-- What the label of a node says about its kind. -/
def NodeKind.dotLabel (t : Tables) : NodeKind → String
  | varDecl v => s!"{t.variableName v}@{v.slot}"
  | varUse v => s!"{t.variableName v}@{v.slot}"
  | arrayUse v offset => s!"{t.variableName v}[{offset}]@{v.slot}"
  | function index => s!"{t.functionName index}@{index}"
  | call index => s!"{t.functionName index}@{index}"
  | intVal value => toString value
  | floatVal value => value.fixedTwo
  | boolVal value => if value then "true" else "false"
  | strVal text => text
  | kind => kind.name

namespace Node

/-- The label of a node: its type, unless it has none, and its kind. -/
def dotLabel (t : Tables) (n : Node) : String :=
  (if n.ty = .noType then "" else s!"({n.ty.name}) ") ++ n.kind.dotLabel t

mutual

/-- The lines of a tree whose root has the number `id`. -/
def dotLines (t : Tables) (id : Nat) : Node → List DotLine
  | mk kind ty children =>
    .node id ((mk kind ty children).dotLabel t) :: dotChildren t id (id + 1) children

/-- The lines of the children of a node, which are numbered from `next`. -/
def dotChildren (t : Tables) (parent next : Nat) : List Node → List DotLine
  | [] => []
  | n :: ns => dotLines t next n ++ .edge parent next :: dotChildren t parent (next + n.size) ns

end

/-- A tree as a graph. -/
def toDot (n : Node) (t : Tables) : String :=
  "digraph \x7b\ngraph [ordering=\"out\"];\n"
    ++ String.join ((n.dotLines t 0).map DotLine.text) ++ "\x7d\n"

end Node

end MiniGo
