/-!
# Labels

Jump targets are numbered separately for conditional statements, loops and joins of short-circuit
code. Each method starts with all counters at zero.
-/

namespace MiniGo

/-- A jump target. -/
inductive Label where
  | elseOf (n : Nat)
  | endOf (n : Nat)
  | loopTop (n : Nat)
  | loopEnd (n : Nat)
  | join (n : Nat)
  | named (name : String)
deriving DecidableEq, Repr

/-- How a label is written. -/
def Label.text : Label → String
  | elseOf n => s!"else_{n}"
  | endOf n => s!"endif_{n}"
  | loopTop n => s!"while_top_{n}"
  | loopEnd n => s!"while_end_{n}"
  | join n => s!"sc_{n}"
  | named name => name

/-- The numbers of the next labels. -/
structure LabelCounters where
  conds : Nat := 0
  loops : Nat := 0
  joins : Nat := 0
deriving DecidableEq, Repr

/-- The labels of a conditional statement. -/
structure CondLabels where
  elsePart : Label
  exit : Label
deriving DecidableEq, Repr

/-- The labels of a loop. -/
structure LoopLabels where
  top : Label
  exit : Label
deriving DecidableEq, Repr

namespace LabelCounters

/-- Takes the labels of the next conditional statement. -/
def nextCond (c : LabelCounters) : CondLabels × LabelCounters :=
  (⟨.elseOf c.conds, .endOf c.conds⟩, { c with conds := c.conds + 1 })

/-- Takes the labels of the next loop. -/
def nextLoop (c : LabelCounters) : LoopLabels × LabelCounters :=
  (⟨.loopTop c.loops, .loopEnd c.loops⟩, { c with loops := c.loops + 1 })

/-- Takes the next label of short-circuit code. -/
def nextJoin (c : LabelCounters) : Label × LabelCounters :=
  (.join c.joins, { c with joins := c.joins + 1 })

end LabelCounters

end MiniGo
