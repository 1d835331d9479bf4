import MiniGo.Proofs.Machine.Run
import MiniGo.Proofs.Shapes.Basic

/-!
# The flow of control in a method

* `Goes`: control can go from one line of the code to another. Both ways out of a conditional branch
  are open, whatever its operands are.
-/

namespace MiniGo

/-- Whether control can go on with the next line. -/
def Line.fallsThrough : Line → Bool
  | .instr (.goto _) | .instr .ret => false
  | _ => true

/-- Control can go from one line to another: to the next line, or to the label of a branch. -/
inductive Goes (code : List Line) : Nat → Nat → Prop
  | next {pc : Nat} {l : Line} (found : code[pc]? = some l) (falls : l.fallsThrough = true) :
      Goes code pc (pc + 1)
  | branch {pc target : Nat} {i : Instr} {l : Label} (found : code[pc]? = some (.instr i))
      (branches : i.target? = some l) (label : code.findIdx? (Activation.isLabel l) = some target) :
      Goes code pc target

/-- A label that is found stands where it is found. -/
theorem label_of_findIdx? {code : List Line} {l : Label} {k : Nat}
    (h : code.findIdx? (Activation.isLabel l) = some k) : ∃ l', code[k]? = some (.label l') := by
  obtain ⟨bound, found, -⟩ := List.findIdx?_eq_some_iff_getElem.1 h
  cases line : code[k] with
  | label l' => exact ⟨l', by rw [List.getElem?_eq_getElem bound, line]⟩
  | _ =>
    rw [line] at found
    cases found

end MiniGo
