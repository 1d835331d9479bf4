import Mathlib.Data.List.Nodup
import Mathlib.Data.List.Perm.Basic
import Mathlib.Order.Nat
import MiniGo.Proofs.Code.Basic

/-!
# Labels of code

No label stands twice in the code of statements. A piece of code has labels with numbers between the
counters before and after it, so the labels of different pieces differ.

* `FreshLabels`: the labels of lines are numbered within a range, and no two of them are the same.
* `StmtCode.freshLabels`, `StmtsCode.freshLabels`: this is so for the code of statements.
* `Label.text_injective`: labels with numbers are written differently.
-/

namespace MiniGo

/-! ### Labels as texts -/

theorem toString_injective {m n : Nat} (h : toString m = toString n) : m = n := by
  have digits : Nat.toDigits 10 m = Nat.toDigits 10 n := by
    rw [← Nat.toList_repr, ← Nat.toList_repr]
    exact congrArg String.toList h
  rw [← @Nat.ofDigitChars_ten_toDigits m, ← @Nat.ofDigitChars_ten_toDigits n, digits]

/-- The text of a label in front of its number. A label with a name has none. -/
def Label.stem? : Label → Option String
  | elseOf _ => some "else_"
  | endOf _ => some "endif_"
  | loopTop _ => some "while_top_"
  | loopEnd _ => some "while_end_"
  | join _ => some "sc_"
  | named _ => none

/-- The number of a label. -/
def Label.number : Label → Nat
  | elseOf n | endOf n | loopTop n | loopEnd n | join n => n
  | named _ => 0

theorem Label.text_eq {l : Label} {stem : String} (h : l.stem? = some stem) :
    l.text.toList = stem.toList ++ Nat.toDigits 10 l.number := by
  cases l <;> cases h <;> simp [Label.text, Label.number] <;> rfl

/-- A number is the part of a text behind a stem without digits. -/
theorem takeWhile_stem {stem : List Char} (n : Nat) (h : ∀ c ∈ stem, c.isDigit = false) :
    (stem ++ Nat.toDigits 10 n).takeWhile (!Char.isDigit ·) = stem := by
  rw [List.takeWhile_append_of_pos (by simpa using h)]
  have digits : (Nat.toDigits 10 n).takeWhile (!Char.isDigit ·) = [] := by
    cases eq : Nat.toDigits 10 n with
    | nil => rfl
    | cons c cs =>
      have digit : c.isDigit = true :=
        Nat.isDigit_of_mem_toDigits (b := 10) (n := n) (by omega) (by omega) (by simp [eq])
      simp [digit]
  rw [digits, List.append_nil]

theorem Label.isDigit_of_mem_stem {l : Label} {stem : String} (h : l.stem? = some stem) :
    ∀ c ∈ stem.toList, c.isDigit = false := by
  cases l <;> cases h <;> simp

theorem Label.eq_of_stem? {l l' : Label} (stems : l.stem? = l'.stem?) (numbered : l.stem? ≠ none)
    (numbers : l.number = l'.number) : l = l' := by
  cases l <;> cases l' <;> simp_all [stem?, number]

/-- Labels with numbers are written differently. -/
theorem Label.text_injective {l l' : Label} {stem stem' : String} (hl : l.stem? = some stem)
    (hl' : l'.stem? = some stem') (h : l.text = l'.text) : l = l' := by
  have lists := congrArg String.toList h
  rw [text_eq hl, text_eq hl'] at lists
  -- The stem is all that stands before the first digit.
  have stems : stem = stem' := by
    rw [← String.toList_inj, ← takeWhile_stem l.number (isDigit_of_mem_stem hl), lists,
      takeWhile_stem l'.number (isDigit_of_mem_stem hl')]
  subst stems
  have digits := List.append_cancel_left lists
  have numbers : l.number = l'.number := by
    rw [← @Nat.ofDigitChars_ten_toDigits l.number, ← @Nat.ofDigitChars_ten_toDigits l'.number,
      digits]
  exact eq_of_stem? (hl.trans hl'.symm) (by simp [hl]) numbers

/-! ### Ranges of labels -/

/-- The labels among lines. -/
def labelsOf (lines : List Line) : List Label :=
  lines.filterMap fun
    | .label l => some l
    | _ => none

@[simp] theorem labelsOf_nil : labelsOf [] = [] := rfl

@[simp] theorem labelsOf_label (l : Label) (ls : List Line) :
    labelsOf (.label l :: ls) = l :: labelsOf ls := rfl

@[simp] theorem labelsOf_instr (i : Instr) (ls : List Line) :
    labelsOf (.instr i :: ls) = labelsOf ls := rfl

@[simp] theorem labelsOf_append (ls ms : List Line) :
    labelsOf (ls ++ ms) = labelsOf ls ++ labelsOf ms :=
  List.filterMap_append

@[simp] theorem labelsOf_asLines (is : List Instr) : labelsOf (asLines is) = [] := by
  simp [labelsOf, asLines]

/-- A label has a number from one counter up to another. -/
def Label.Within (c c' : LabelCounters) : Label → Prop
  | elseOf n | endOf n => c.conds ≤ n ∧ n < c'.conds
  | loopTop n | loopEnd n => c.loops ≤ n ∧ n < c'.loops
  | join n => c.joins ≤ n ∧ n < c'.joins
  | named _ => False

/-- Counters that are not less. -/
structure LabelCounters.Le (c c' : LabelCounters) : Prop where
  conds : c.conds ≤ c'.conds
  loops : c.loops ≤ c'.loops
  joins : c.joins ≤ c'.joins

theorem LabelCounters.Le.refl (c : LabelCounters) : c.Le c := ⟨le_rfl, le_rfl, le_rfl⟩

theorem LabelCounters.Le.trans {c c' c'' : LabelCounters} (h : c.Le c') (h' : c'.Le c'') :
    c.Le c'' :=
  ⟨h.conds.trans h'.conds, h.loops.trans h'.loops, h.joins.trans h'.joins⟩

theorem Label.Within.mono {c₁ c₂ c₃ c₄ : LabelCounters} {l : Label} (h : l.Within c₂ c₃)
    (le : c₁.Le c₂) (le' : c₃.Le c₄) : l.Within c₁ c₄ := by
  cases l with
  | elseOf n | endOf n => exact ⟨le.conds.trans h.1, h.2.trans_le le'.conds⟩
  | loopTop n | loopEnd n => exact ⟨le.loops.trans h.1, h.2.trans_le le'.loops⟩
  | join n => exact ⟨le.joins.trans h.1, h.2.trans_le le'.joins⟩
  | named name => exact h

/-- Ranges one after the other have no label in common. -/
theorem Label.Within.not_within {c c' c'' : LabelCounters} {l : Label} (h : l.Within c c') :
    ¬ l.Within c' c'' := by
  intro h'
  cases l with
  | elseOf n | endOf n | loopTop n | loopEnd n | join n => exact absurd h.2 (not_lt_of_ge h'.1)
  | named name => exact h

/-- The labels of lines are numbered within a range, and no two of them are the same. -/
structure FreshLabels (c c' : LabelCounters) (lines : List Line) : Prop where
  le : c.Le c'
  within : ∀ l ∈ labelsOf lines, l.Within c c'
  distinct : (labelsOf lines).Nodup

namespace FreshLabels

variable {c c' c'' : LabelCounters} {ls ms : List Line}

theorem of_nil (h : labelsOf ls = []) : FreshLabels c c ls :=
  ⟨.refl c, by simp [h], by simp [h]⟩

theorem asLines (is : List Instr) : FreshLabels c c (asLines is) := of_nil (labelsOf_asLines is)

theorem append (h : FreshLabels c c' ls) (h' : FreshLabels c' c'' ms) :
    FreshLabels c c'' (ls ++ ms) where
  le := h.le.trans h'.le
  within l mem := by
    rw [labelsOf_append, List.mem_append] at mem
    rcases mem with mem | mem
    · exact (h.within l mem).mono (.refl c) h'.le
    · exact (h'.within l mem).mono h.le (.refl c'')
  distinct := by
    rw [labelsOf_append]
    refine h.distinct.append h'.distinct fun l mem mem' => ?_
    exact (h.within l mem).not_within (h'.within l mem')

/-- Labels that were taken first are put around the others. -/
theorem around (new : List Label) (taken : c.Le c') (within : ∀ l ∈ new, l.Within c c')
    (distinct : new.Nodup) (inner : FreshLabels c' c'' ls)
    (labels : (labelsOf ms).Perm (new ++ labelsOf ls)) :
    FreshLabels c c'' ms where
  le := taken.trans inner.le
  within l mem := by
    rw [labels.mem_iff, List.mem_append] at mem
    rcases mem with mem | mem
    · exact (within l mem).mono (.refl c) inner.le
    · exact (inner.within l mem).mono taken (.refl c'')
  distinct := by
    rw [labels.nodup_iff]
    refine distinct.append inner.distinct fun l mem mem' => ?_
    exact (within l mem).not_within (inner.within l mem')

end FreshLabels

namespace LabelCounters

theorem le_nextCond (c : LabelCounters) : c.Le c.nextCond.2 := ⟨Nat.le_succ _, le_rfl, le_rfl⟩

theorem le_nextLoop (c : LabelCounters) : c.Le c.nextLoop.2 := ⟨le_rfl, Nat.le_succ _, le_rfl⟩

theorem le_nextJoin (c : LabelCounters) : c.Le c.nextJoin.2 := ⟨le_rfl, le_rfl, Nat.le_succ _⟩

theorem within_nextCond (c : LabelCounters) :
    ∀ l ∈ [Label.elseOf c.conds, .endOf c.conds], l.Within c c.nextCond.2 := by
  simp [Label.Within, nextCond]

theorem within_nextLoop (c : LabelCounters) :
    ∀ l ∈ [Label.loopTop c.loops, .loopEnd c.loops], l.Within c c.nextLoop.2 := by
  simp [Label.Within, nextLoop]

end LabelCounters

/-! ### Labels of statements -/

section

variable {ctx : Context} {s : Scope}

theorem ConditionCode.freshLabels {jump : Emission.Jump} {c c' : LabelCounters} {n : Node}
    {lines : List Line} (h : ConditionCode ctx s jump c n lines c') : FreshLabels c c' lines := by
  induction h with
  | value => exact .asLines _
  | comparison => exact .asLines _
  | both _ _ _ ihl ihr => exact ihl.append ihr
  | @skip jump c c' c'' o left right l r _ _ _ ihl ihr =>
    refine .around [.join c.joins] c.le_nextJoin ?_ (by simp) (ihl.append ihr) ?_
    · simp [Label.Within, LabelCounters.nextJoin]
    · simp only [labelsOf_append, labelsOf_label, labelsOf_nil]
      exact List.perm_append_comm

/-- The labels of a conditional statement are taken before those of its parts. -/
theorem FreshLabels.cond {c c' : LabelCounters} {ls ms : List Line} (new : List Label)
    (sub : new.Sublist [.elseOf c.conds, .endOf c.conds]) (inner : FreshLabels c.nextCond.2 c' ls)
    (labels : (labelsOf ms).Perm (new ++ labelsOf ls)) : FreshLabels c c' ms :=
  .around new c.le_nextCond (fun l mem => c.within_nextCond l (sub.subset mem))
    (List.Nodup.sublist sub (by simp)) inner labels

mutual

/-- No label stands twice in the code of a statement. -/
theorem StmtCode.freshLabels {exit? : Option Label} {c c' : LabelCounters} {n : Node}
    {lines : List Line} :
    StmtCode ctx s exit? c n lines c' → FreshLabels c c' lines
  | .declaration .. => .asLines _
  | .assign .. => .asLines _
  | .assignResults .. => .asLines _
  | .block body => body.freshLabels
  -- A statement takes its own number first. Its labels stand around those of its parts, and all the
  -- labels are compared by counting.
  | .cond conditionCode bodyCode => by
    have inner := conditionCode.freshLabels.append bodyCode.freshLabels
    cases exit? with
    | none =>
      refine .cond [.endOf c.conds] (by simp) inner ?_
      simp only [Option.isNone_none, if_true, labelsOf_append, labelsOf_label, labelsOf_nil]
      exact List.perm_append_comm
    | some l => exact .cond [] (List.nil_sublist _) inner (by simp)
  | .condElse conditionCode bodyCode otherwiseCode => by
    have inner :=
      (conditionCode.freshLabels.append bodyCode.freshLabels).append otherwiseCode.freshLabels
    cases exit? with
    | none =>
      refine .cond _ (List.Sublist.refl _) inner (List.perm_iff_count.2 fun l => ?_)
      simp only [Option.isNone_none, if_true, labelsOf_append, labelsOf_instr, labelsOf_label,
        labelsOf_nil, List.count_append, List.count_cons, List.count_nil]
      omega
    | some l =>
      refine .cond [.elseOf c.conds] (by simp) inner (List.perm_iff_count.2 fun l => ?_)
      simp only [Option.isNone_some, Bool.false_eq_true, if_false, labelsOf_append, labelsOf_instr,
        labelsOf_label, labelsOf_nil, List.count_append, List.count_cons, List.count_nil]
      omega
  | .loop conditionCode bodyCode => by
    refine .around _ c.le_nextLoop c.within_nextLoop (by simp)
      (conditionCode.freshLabels.append bodyCode.freshLabels) (List.perm_iff_count.2 fun l => ?_)
    simp only [labelsOf_append, labelsOf_instr, labelsOf_label, labelsOf_nil, List.count_append,
      List.count_cons, List.count_nil]
    omega
  | .call .. => .asLines _
  | .ret .. => .asLines _
  | .read .. => .asLines _
  | .write .. => .asLines _

/-- No label stands twice in the code of statements. -/
theorem StmtsCode.freshLabels {c c' : LabelCounters} {nodes : List Node} {lines : List Line} :
    StmtsCode ctx s c nodes lines c' → FreshLabels c c' lines
  | .nil => .of_nil rfl
  | .cons first others => first.freshLabels.append others.freshLabels

end

end

end MiniGo
