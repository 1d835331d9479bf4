import Mathlib.Data.List.Infix
import MiniGo.Proofs.Code.Labels
import MiniGo.Proofs.Machine.Basic

/-!
# Runs of the machine

Lemmas to run code piece by piece.

* `Seg`: lines stand at a position of the code.
* `Does`: what a sequence of instructions does that is left at its end, wherever it stands.
* `LabelsUnique`, `LabelsUnique.jump`: no label stands twice, so a branch goes to the line where its
  label is.
-/

namespace MiniGo

/-! ### Lines at a position -/

/-- Lines stand at a position of the code. -/
def Seg (code : List Line) (pc : Nat) (lines : List Line) : Prop := lines <+: code.drop pc

namespace Seg

variable {code ls ms : List Line} {pc : Nat}

theorem left (h : Seg code pc (ls ++ ms)) : Seg code pc ls := (List.prefix_append ls ms).trans h

theorem right (h : Seg code pc (ls ++ ms)) : Seg code (pc + ls.length) ms := by
  obtain ⟨rest, eq⟩ := h
  refine ⟨rest, ?_⟩
  rw [← List.drop_drop, ← eq, List.append_assoc, List.drop_left]

theorem line {l : Line} (h : Seg code pc (l :: ls)) : code[pc]? = some l := by
  obtain ⟨rest, eq⟩ := h
  rw [← List.head?_drop, ← eq]
  rfl

end Seg

section

variable {P : Platform} {cls : ClassFile} {s s' s'' : MachineState P}

namespace Reaches

theorem refl : Reaches cls s s := Relation.ReflTransGen.refl

theorem trans (h : Reaches cls s s') (h' : Reaches cls s' s'') : Reaches cls s s'' :=
  Relation.ReflTransGen.trans h h'

theorem single (h : step cls s = some s') : Reaches cls s s' := Relation.ReflTransGen.single h

end Reaches

end

/-! ### Instructions one after the other -/

/-- A state in which an activation is at a line of its code. -/
def Work.at {P : Platform} (s : Work P) (code : List Line) (pc : Nat)
    (callers : List (Activation P)) :
    MachineState P :=
  ⟨⟨code, pc, s.stack, s.locals⟩ :: callers, s.memory⟩

/-- Instructions lead from one state to another, from their start to their end. -/
def Does {P : Platform} (cls : ClassFile) (is : List Instr) (s s' : Work P) : Prop :=
  ∀ ⦃code pc⦄ callers, Seg code pc (asLines is) →
    Reaches cls (s.at code pc callers) (s'.at code (pc + is.length) callers)

section

variable {P : Platform} {cls : ClassFile} {is js : List Instr} {s s' s'' : Work P}

theorem Does.nil : Does cls [] s s := fun _ _ _ _ => .refl

theorem Does.append (h : Does cls is s s') (h' : Does cls js s' s'') :
    Does cls (is ++ js) s s'' := by
  intro code pc callers seg
  rw [asLines, List.map_append] at seg
  have first := h callers seg.left
  have second := h' callers seg.right
  rw [List.length_map] at second
  rw [List.length_append, ← Nat.add_assoc]
  exact first.trans second

/-- An instruction with an effect neither branches nor calls a method. -/
theorem Instr.step_of_effect {i : Instr} {code : List Line} {pc : Nat}
    {callers : List (Activation P)} (h : i.effect cls s = some s') :
    i.step cls ⟨code, pc, s.stack, s.locals⟩ callers s.memory =
      some (s'.at code (pc + 1) callers) := by
  unfold Instr.step
  split
  · simp [Instr.effect] at h
  · simp [Instr.effect] at h
  · simp [Instr.effect] at h
  · simp [Instr.effect] at h
  · simp [Instr.effect] at h
  · rw [h]
    rfl

theorem Does.effect {i : Instr} (h : i.effect cls s = some s') : Does cls [i] s s' := by
  intro code pc callers seg
  refine .single ?_
  have line : code[pc]? = some (.instr i) := seg.line
  simp only [step, Work.at, line]
  exact Instr.step_of_effect h

/-- One more instruction in front. -/
theorem Does.cons {i : Instr} (h : i.effect cls s = some s') (h' : Does cls is s' s'') :
    Does cls (i :: is) s s'' :=
  Does.append (Does.effect h) h'

end

/-! ### Labels -/

/-- No two lines are labels with the same text. -/
def LabelsUnique (code : List Line) : Prop :=
  ∀ ⦃k k' : Nat⦄ ⦃l l' : Label⦄, code[k]? = some (.label l) → code[k']? = some (.label l') →
    l.text = l'.text → k = k'

theorem Label.Within.stem? {c c' : LabelCounters} {l : Label} (h : l.Within c c') :
    ∃ stem, l.stem? = some stem := by
  cases l with
  | named name => exact h.elim
  | _ => exact ⟨_, rfl⟩

/-- Labels that are numbered differently are written differently. -/
theorem FreshLabels.unique {c c' : LabelCounters} {code : List Line}
    (fresh : FreshLabels c c' code) :
    LabelsUnique code := by
  intro k k' l l' hl hl' text
  have within : ∀ {k : Nat} {l : Label}, code[k]? = some (.label l) → l.Within c c' := by
    intro k l found
    exact fresh.within l (List.mem_filterMap.2 ⟨_, List.mem_of_getElem? found, rfl⟩)
  obtain ⟨stem, numbered⟩ := (within hl).stem?
  obtain ⟨stem', numbered'⟩ := (within hl').stem?
  -- Labels with the same text are the same label, which stands at one place only.
  obtain rfl := Label.text_injective numbered numbered' text
  have distinct := List.pairwise_iff_getElem.1 (List.pairwise_filterMap.1 fresh.distinct)
  obtain ⟨bound, eq⟩ := List.getElem?_eq_some_iff.1 hl
  obtain ⟨bound', eq'⟩ := List.getElem?_eq_some_iff.1 hl'
  rcases Nat.lt_trichotomy k k' with lt | same | gt
  · exact absurd rfl (distinct k k' bound bound' lt l (by rw [eq]) l (by rw [eq']))
  · exact same
  · exact absurd rfl (distinct k' k bound' bound gt l (by rw [eq']) l (by rw [eq]))

section

variable {P : Platform} {cls : ClassFile} {code : List Line} {pc k : Nat} {l : Label}
  {callers : List (Activation P)} {stack : List (Datum P)} {locals : Nat → Option (Datum P)}
  {mem : Memory P}

theorem LabelsUnique.findIdx? (unique : LabelsUnique code) (h : code[k]? = some (.label l)) :
    code.findIdx? (Activation.isLabel l) = some k := by
  obtain ⟨bound, here⟩ := List.getElem?_eq_some_iff.1 h
  refine List.findIdx?_eq_some_iff_getElem.2 ⟨bound, ?_, ?_⟩
  · rw [here]
    simp [Activation.isLabel]
  · intro j before found
    cases line : code[j] with
    | label l' =>
      rw [line] at found
      have text : l'.text = l.text := by simpa [Activation.isLabel] using found
      have same := unique (List.getElem?_eq_some_iff.2 ⟨by omega, line⟩) h text
      omega
    | _ =>
      rw [line] at found
      simp [Activation.isLabel] at found

theorem LabelsUnique.jump (unique : LabelsUnique code) (h : code[k]? = some (.label l)) :
    (Activation.mk code pc stack locals).jump l = some ⟨code, k, stack, locals⟩ := by
  simp [Activation.jump, unique.findIdx? h]

namespace Reaches

/-- A label is passed. -/
theorem label (h : code[pc]? = some (.label l)) :
    Reaches cls ⟨⟨code, pc, stack, locals⟩ :: callers, mem⟩
      ⟨⟨code, pc + 1, stack, locals⟩ :: callers, mem⟩ := by
  refine .single ?_
  simp [step, h, Activation.next]

theorem goto (unique : LabelsUnique code) (line : code[pc]? = some (.instr (.goto l)))
    (h : code[k]? = some (.label l)) :
    Reaches cls ⟨⟨code, pc, stack, locals⟩ :: callers, mem⟩
      ⟨⟨code, k, stack, locals⟩ :: callers, mem⟩ := by
  refine .single ?_
  simp [step, line, Instr.step, unique.jump h]

theorem ifZero {condition : CondCode} {i : BitVec 32}
    (line : code[pc]? = some (.instr (.ifZero condition l)))
    (found : code.findIdx? (Activation.isLabel l) = some k) :
    Reaches cls ⟨⟨code, pc, .int i :: stack, locals⟩ :: callers, mem⟩
      ⟨⟨code, if condition.holds (intOrder i 0) then k else pc + 1, stack, locals⟩ :: callers,
        mem⟩ := by
  refine .single ?_
  simp only [step, line, Instr.step, Activation.branch, Activation.jump, found]
  split <;> rfl

theorem ifCompare {condition : CondCode} {i j : BitVec 32}
    (line : code[pc]? = some (.instr (.ifCompare condition l)))
    (found : code.findIdx? (Activation.isLabel l) = some k) :
    Reaches cls ⟨⟨code, pc, .int j :: .int i :: stack, locals⟩ :: callers, mem⟩
      ⟨⟨code, if condition.holds (intOrder i j) then k else pc + 1, stack, locals⟩ :: callers,
        mem⟩ := by
  refine .single ?_
  simp only [step, line, Instr.step, Activation.branch, Activation.jump, found]
  split <;> rfl

theorem ret (line : code[pc]? = some (.instr .ret)) :
    Reaches cls ⟨⟨code, pc, stack, locals⟩ :: callers, mem⟩ ⟨callers, mem⟩ := by
  refine .single ?_
  simp [step, line, Instr.step]

end Reaches

end

end MiniGo
