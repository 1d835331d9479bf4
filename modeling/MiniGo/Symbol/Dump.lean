import MiniGo.Symbol.Table

/-!
# Symbol tables as text

One line for each entry; the variables of a function are indented below it.
-/

namespace MiniGo

/-- The lines of a text, without their ends. -/
def textLines (text : String) : List String :=
  let pieces := text.splitOn "\n"
  let lines := if pieces.getLast? = some "" then pieces.dropLast else pieces
  lines.map fun line => if line.endsWith "\r" then (line.dropEnd 1).toString else line

/-- The type of a variable as text. -/
def Variable.typeText (v : Variable) : String :=
  match v.array? with
  | some shape => s!"[{shape.length}]{shape.element.name}"
  | none => v.ty.name

/-- A table of variables as text. -/
def VarTable.dump (t : VarTable) : String :=
  String.join <| t.entries.mapIdx fun slot v =>
    s!"[vt] Entry {slot} -- name: {v.name}, line: {v.line}, type: {v.typeText}, "
      ++ s!"array: {v.arrayLength}\n"

/-- A list of types as text. -/
def typesText (types : List Ty) : String := ", ".intercalate (types.map Ty.name)

/-- A function with its variables as text. -/
def Function.dump (index : Nat) (f : Function) : String :=
  s!"[ft] Entry {index} -- name: {f.name}, line: {f.line}, params: ({typesText f.params}), "
    ++ s!"returns: ({typesText f.returns})\n"
    ++ String.join ((textLines f.vars.dump).map fun line => "    " ++ line ++ "\n")

/-- A table of functions as text. -/
def FuncTable.dump (t : FuncTable) : String :=
  String.join (t.entries.mapIdx Function.dump)

/-- All tables as text. -/
def Tables.dump (t : Tables) : String :=
  "Variables table:\n" ++ t.globals.dump ++ "\nFunctions table:\n" ++ t.functions.dump

end MiniGo
