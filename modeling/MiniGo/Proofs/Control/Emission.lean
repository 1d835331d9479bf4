import MiniGo.Proofs.Code.Emission
import MiniGo.Proofs.ClassFile
import MiniGo.Proofs.Flow

/-!
# Labels and branches of emitted code

Nothing is assumed about the tree here: whatever code generation writes for a node, where it
succeeds, branches only to labels that it defines itself or that it was given. The lemmas follow the
functions of code generation.

* `Emits.of_bind`: what was written for one step and then for the next.
* `Straight`: instructions and nothing else, which branch to given labels only.
* `Closed`: lines with labels in a range, whose branches go to labels among them or to given ones.
* `emitCondition_closed`, `emitStmts_closed`: the lines of conditions and of statements are closed.
-/

namespace MiniGo

open Emission

/-! ### What was emitted -/

section

variable {α β : Type} {x : Emit α} {f : α → Emit β} {a : α} {b : β} {c c' c'' : LabelCounters}
  {lines : List Line}

/-- Two steps that succeed write their lines one after the other. -/
theorem Emits.of_bind (h : Emits (x >>= f) c lines c'' b) :
    ∃ c' a ls ms, Emits x c ls c' a ∧ Emits (f a) c' ms c'' b ∧ lines = ls ++ ms := by
  unfold Emits at *
  rw [Emit.bind_apply, Emit.andThen] at h
  generalize first : x c = e at h
  obtain ⟨ls, c', result⟩ := e
  cases result with
  | error e => cases h
  | ok a =>
    generalize second : f a c' = e' at h
    obtain ⟨ms, c₂, result'⟩ := e'
    simp only [second] at h
    cases h
    exact ⟨c', a, ls, ms, rfl, second, rfl⟩

theorem Emits.of_pure {a' : α} (h : Emits (Pure.pure a) c lines c' a') : lines = [] ∧ c' = c := by
  cases h
  exact ⟨rfl, rfl⟩

theorem Emits.of_line {l : Line} {u : Unit} (h : Emits (Emit.line l) c lines c' u) :
    lines = [l] ∧ c' = c := by
  cases h
  exact ⟨rfl, rfl⟩

theorem Emits.of_fresh {take : LabelCounters → α × LabelCounters}
    (h : Emits (Emit.fresh take) c lines c' a) :
    lines = [] ∧ c' = (take c).2 ∧ a = (take c).1 := by
  cases h
  exact ⟨rfl, rfl, rfl⟩

theorem Emits.of_require {e : GenError} {o : Option α} (h : Emits (Emit.require e o) c lines c' a) :
    lines = [] ∧ c' = c ∧ o = some a := by
  cases o <;> cases h
  exact ⟨rfl, rfl, rfl⟩

theorem Emits.not_fail {e : GenError} : ¬ Emits (Emit.fail e) c lines c' b := by
  intro h
  cases h

theorem Emits.not_invalid {kind : NodeKind} {position : Position} :
    ¬ Emits (Emit.invalid kind position) c lines c' b :=
  Emits.not_fail

end

/-! ### Straight code -/

/-- Where it succeeds, it writes instructions that branch to given labels only, and takes no
labels. -/
def Straight {α : Type} (targets : List Label) (x : Emit α) : Prop :=
  ∀ ⦃c lines c' a⦄, Emits x c lines c' a →
    c' = c ∧ ∃ is, lines = asLines is ∧ ∀ i ∈ is, ∀ l, i.target? = some l → l ∈ targets

section

variable {α β : Type} {targets : List Label} {x : Emit α} {f : α → Emit β} {ctx : Context}
  {v : VarRef} {ty wanted : Ty}
  {n : Node} {nodes : List Node} {kind : NodeKind} {i : Nat}

namespace Straight

theorem pure {a : α} : Straight targets (Pure.pure a) := by
  intro c lines c' a h
  obtain ⟨rfl, rfl⟩ := h.of_pure
  exact ⟨rfl, [], rfl, by simp⟩

theorem branch {i : Instr} (h : ∀ l, i.target? = some l → l ∈ targets) :
    Straight targets (Emit.instr i) := by
  intro c lines c' a written
  obtain ⟨rfl, rfl⟩ := Emits.of_line written
  exact ⟨rfl, [i], rfl, by simpa using h⟩

theorem instr {i : Instr} (h : i.target? = none) : Straight targets (Emit.instr i) :=
  branch fun l target => by rw [h] at target; cases target

theorem bind (hx : Straight targets x) (hf : ∀ a, Straight targets (f a)) :
    Straight targets (x >>= f) := by
  intro c lines c'' b h
  obtain ⟨c', a, ls, ms, first, second, rfl⟩ := h.of_bind
  obtain ⟨rfl, is, rfl, branches⟩ := hx first
  obtain ⟨rfl, js, rfl, branches'⟩ := hf a second
  exact ⟨rfl, is ++ js, by simp, List.forall_mem_append.2 ⟨branches, branches'⟩⟩

theorem require {e : GenError} {o : Option α} : Straight targets (Emit.require e o) := by
  intro c lines c' a h
  obtain ⟨rfl, rfl, -⟩ := h.of_require
  exact ⟨rfl, [], rfl, by simp⟩

theorem invalid {position : Position} : Straight targets (Emit.invalid kind position : Emit α) :=
  fun _ _ _ _ h => absurd h Emits.not_invalid

end Straight

/-! ### Variables and values -/

theorem globalField_straight : Straight targets (ctx.globalField v) :=
  .bind .require fun _ => .pure

theorem resultField_straight {k : Nat} : Straight targets (ctx.resultField i k) :=
  .bind .require fun _ => .bind .require fun _ => .pure

theorem emitLoad_straight : Straight targets (emitLoad ctx v) := by
  unfold emitLoad
  split
  · exact .bind globalField_straight fun _ => .instr rfl
  · exact .bind .require fun _ => .instr rfl

theorem emitStore_straight : Straight targets (emitStore ctx v) := by
  unfold emitStore
  split
  · exact .bind globalField_straight fun _ => .instr rfl
  · exact .bind .require fun _ => .instr rfl

theorem emitElementAddress_straight {k : Nat} : Straight targets (emitElementAddress ctx v k) :=
  .bind emitLoad_straight fun _ => .instr rfl

theorem emitConvert_straight : Straight targets (emitConvert ty wanted) := by
  unfold emitConvert
  split
  · exact .instr rfl
  · exact .pure

theorem emitZero_straight : Straight targets (emitZero ty) := by
  cases ty <;> exact .instr rfl

theorem emitDefault_straight : Straight targets (emitDefault ctx v) := by
  refine .bind .require fun x => ?_
  simp only
  split
  · exact .bind (.instr rfl) fun _ => .bind (.instr rfl) fun _ => emitStore_straight
  · exact .bind emitZero_straight fun _ => emitStore_straight

theorem emitCallWith_straight {arguments : List Ty → Emit Unit}
    (args : ∀ tys, Straight targets (arguments tys)) :
    Straight targets (emitCallWith ctx i arguments) := by
  refine .bind .require fun f => ?_
  have call : Straight targets
      (do arguments f.params; .instr (.invokeStatic ⟨ctx.options.className, f.signature⟩)) :=
    .bind (args _) fun _ => .instr rfl
  simp only
  split
  · exact .bind (.instr rfl) fun _ => call
  · exact call

mutual

theorem emitValue_straight : ∀ n : Node, Straight targets (emitValue ctx n)
  | .mk kind ty children => by
    have arithmetic := emitArithmetic_straight kind ty children
    have arguments := emitArguments_straight children
    unfold emitValue
    split
    · exact .instr rfl
    · exact .instr rfl
    · exact .instr rfl
    · exact .instr rfl
    · exact emitLoad_straight
    · exact .bind emitElementAddress_straight fun _ => .instr rfl
    · exact .bind (emitCallWith_straight arguments) fun _ => .bind resultField_straight fun _ =>
        .instr rfl
    · split
      · exact arithmetic
      · exact .invalid
    · exact .invalid
termination_by structural n => n

theorem emitArithmetic_straight (kind : NodeKind) (ty : Ty) :
    ∀ nodes : List Node, Straight targets (emitArithmetic ctx kind ty nodes)
  | [left, right] => by
    have leftStraight := emitValue_straight left
    have rightStraight := emitValue_straight right
    unfold emitArithmetic
    split
    · split
      · exact .bind leftStraight fun _ => .bind rightStraight fun _ => .instr rfl
      · exact .invalid
    · refine .bind leftStraight fun _ => .bind emitConvert_straight fun _ =>
        .bind rightStraight fun _ =>
        .bind emitConvert_straight fun _ => ?_
      split
      · split
        · exact .instr rfl
        · exact .invalid
      · exact .invalid
  | [] | [_] | _ :: _ :: _ :: _ => .invalid
termination_by structural nodes => nodes

theorem emitArguments_straight :
    ∀ (nodes : List Node) (tys : List Ty), Straight targets (emitArguments ctx nodes tys)
  | arg :: args, param :: params => by
    have first := emitValue_straight arg
    have others := emitArguments_straight args params
    unfold emitArguments
    exact .bind first fun _ => .bind emitConvert_straight fun _ => others
  | [], _ => .pure
  | _ :: _, [] => .pure
termination_by structural nodes => nodes

end

theorem emitValueAs_straight : Straight targets (emitValueAs ctx n ty) :=
  .bind (emitValue_straight n) fun _ => emitConvert_straight

theorem emitCall_straight : Straight targets (emitCall ctx i nodes) :=
  emitCallWith_straight (emitArguments_straight nodes)

/-! ### Comparisons and simple statements -/

theorem emitCompare_straight {op : BinaryOp} {code : CondCode} {target : Label}
    (mem : target ∈ targets) :
    Straight targets (emitCompare kind op ty code target) := by
  have tests : Straight targets (Emit.instr (.ifZero code target)) :=
    .branch fun l same => Option.some.inj same ▸ mem
  unfold emitCompare
  split
  · exact .branch fun l same => Option.some.inj same ▸ mem
  · exact .branch fun l same => Option.some.inj same ▸ mem
  · exact .bind (.instr rfl) fun _ => tests
  · exact .bind (.instr rfl) fun _ => tests
  · exact .invalid
  · exact .invalid
  · exact .invalid

theorem emitComparison_straight {jump : Jump} (mem : jump.target ∈ targets) :
    Straight targets (emitComparison ctx jump kind ty nodes) := by
  unfold emitComparison
  split
  · split
    · exact .bind emitValueAs_straight fun _ => .bind emitValueAs_straight fun _ =>
        emitCompare_straight mem
    · exact .invalid
  · exact .invalid

theorem emitTest_straight {jump : Jump} (mem : jump.target ∈ targets) :
    Straight targets (emitTest jump) :=
  .branch fun _ same => Option.some.inj same ▸ mem

theorem emitResultTarget_straight {returns : List Ty} {k : Nat} {target : Node} :
    Straight targets (emitResultTarget ctx i returns k target) := by
  refine .bind resultField_straight fun field => ?_
  split
  · exact .bind (.instr rfl) fun _ => .bind emitConvert_straight fun _ => emitStore_straight
  · exact .bind (.instr rfl) fun _ => .bind emitConvert_straight fun _ => emitStore_straight
  · exact .bind emitElementAddress_straight fun _ => .bind (.instr rfl) fun _ =>
      .bind emitConvert_straight fun _ =>
      .instr rfl
  · exact .invalid

theorem emitResultTargetsFrom_straight {returns : List Ty} {k : Nat} :
    Straight targets (emitResultTargetsFrom ctx i returns k nodes) := by
  induction nodes generalizing k with
  | nil => exact .pure
  | cons target nodes ih => exact .bind emitResultTarget_straight fun _ => ih

theorem emitAssign_straight : Straight targets (emitAssign ctx kind nodes) := by
  unfold emitAssign
  split
  · split
    · exact .bind emitValueAs_straight fun _ => emitStore_straight
    · exact .bind emitValueAs_straight fun _ => emitStore_straight
    · exact .bind emitElementAddress_straight fun _ => .bind emitValueAs_straight fun _ =>
        .instr rfl
    · split
      · exact .bind emitCall_straight fun _ => .bind .require fun _ =>
          emitResultTargetsFrom_straight
      · exact .invalid
    · exact .invalid
  · exact .invalid

theorem emitWrite_straight : Straight targets (emitWrite ctx kind nodes) := by
  unfold emitWrite
  split
  · exact .bind (.instr rfl) fun _ => .bind (emitValue_straight _) fun _ => .instr rfl
  · exact .invalid

theorem emitScan_straight : Straight targets (emitScan ty) :=
  .bind .require fun _ => .bind (.instr rfl) fun _ => .bind (.instr rfl) fun _ =>
    .bind (.instr rfl) fun _ =>
    .bind (.instr rfl) fun _ => .instr rfl

theorem emitRead_straight : Straight targets (emitRead ctx kind nodes) := by
  unfold emitRead
  split
  · split
    · exact .bind emitScan_straight fun _ => emitStore_straight
    · exact .bind emitElementAddress_straight fun _ => .bind emitScan_straight fun _ => .instr rfl
    · exact .invalid
  · exact .invalid

theorem emitResultStores_straight {n : Nat} : Straight targets (emitResultStores ctx i n) := by
  induction n with
  | zero => exact .pure
  | succ n ih => exact .bind resultField_straight fun _ => .bind (.instr rfl) fun _ => ih

theorem emitReturn_straight : Straight targets (emitReturn ctx kind nodes) := by
  unfold emitReturn
  split
  · exact .invalid
  · exact .bind .require fun _ => .bind (emitArguments_straight _ _) fun _ =>
      .bind emitResultStores_straight fun _ =>
      .instr rfl

end

/-! ### Closed code -/

/-- Whether a line is a label. -/
def Line.isLabel : Line → Bool
  | .label _ => true
  | _ => false

/-- Lines with different labels in a range, whose branches go to labels among them or to given
ones. -/
structure Closed (outer : List Label) (c c' : LabelCounters) (lines : List Line) : Prop where
  fresh : FreshLabels c c' lines
  isCode : ∀ l ∈ lines, l.isCode = true
  targets : ∀ i, .instr i ∈ lines → ∀ l, i.target? = some l → l ∈ labelsOf lines ∨ l ∈ outer

namespace Closed

variable {outer outer' new : List Label} {c c' c'' : LabelCounters} {ls ms : List Line}

theorem mono (h : Closed outer c c' ls) (sub : outer ⊆ outer') : Closed outer' c c' ls :=
  ⟨h.fresh, h.isCode, fun i mem l target => (h.targets i mem l target).imp_right (sub ·)⟩

theorem append (h : Closed outer c c' ls) (h' : Closed outer c' c'' ms) :
    Closed outer c c'' (ls ++ ms) where
  fresh := h.fresh.append h'.fresh
  isCode := List.forall_mem_append.2 ⟨h.isCode, h'.isCode⟩
  targets i mem l target := by
    rw [labelsOf_append, List.mem_append]
    rcases List.mem_append.1 mem with mem | mem
    · exact (h.targets i mem l target).imp_left .inl
    · exact (h'.targets i mem l target).imp_left .inr

theorem asLines (is : List Instr) (h : ∀ i ∈ is, ∀ l, i.target? = some l → l ∈ outer) :
    Closed outer c c (asLines is) := by
  refine ⟨.asLines is, isCode_asLines is, fun i mem l target => .inr ?_⟩
  obtain ⟨i', mem, same⟩ := List.mem_map.1 mem
  cases same
  exact h i mem l target

theorem goto {l : Label} (mem : l ∈ outer) : Closed outer c c [.instr (.goto l)] :=
  .asLines [.goto l] (by simpa [Instr.target?] using mem)

/-- Labels that were taken first are put between the lines, which may branch to them. -/
theorem around (taken : c.Le c') (within : ∀ l ∈ new, l.Within c c') (distinct : new.Nodup)
    (inner : Closed (new ++ outer) c' c'' ls) (labels : (labelsOf ms).Perm (new ++ labelsOf ls))
    (others : ms.filter (!·.isLabel) = ls.filter (!·.isLabel)) : Closed outer c c'' ms where
  fresh := .around new taken within distinct inner.fresh labels
  isCode l mem := by
    cases l with
    | label l' => rfl
    | _ =>
      refine inner.isCode _ (List.mem_of_mem_filter (p := (!·.isLabel)) ?_)
      rw [← others]
      exact List.mem_filter.2 ⟨mem, rfl⟩
  targets i mem l target := by
    have mem' : .instr i ∈ ls := by
      refine List.mem_of_mem_filter (p := (!·.isLabel)) ?_
      rw [← others]
      exact List.mem_filter.2 ⟨mem, rfl⟩
    rw [labels.mem_iff, List.mem_append]
    rcases inner.targets i mem' l target with own | given
    · exact .inl (.inr own)
    · exact (List.mem_append.1 given).imp_left .inl

/-- The labels of a conditional statement are put between its lines. -/
theorem cond (sub : new.Sublist [.elseOf c.conds, .endOf c.conds])
    (inner : Closed (new ++ outer) c.nextCond.2 c' ls)
    (labels : (labelsOf ms).Perm (new ++ labelsOf ls))
    (others : ms.filter (!·.isLabel) = ls.filter (!·.isLabel)) : Closed outer c c' ms :=
  .around c.le_nextCond (fun l mem => c.within_nextCond l (sub.subset mem))
    (List.Nodup.sublist sub (by simp)) inner labels others

end Closed

theorem Straight.closed {α : Type} {outer : List Label} {x : Emit α} (h : Straight outer x)
    {c c' : LabelCounters} {lines : List Line} {a : α} (written : Emits x c lines c' a) :
    Closed outer c c' lines := by
  obtain ⟨rfl, is, rfl, branches⟩ := h written
  exact .asLines _ branches

/-! ### Conditions -/

section

variable {ctx : Context}

mutual

/-- The code of a condition branches to the target of its jump and to its own labels. -/
theorem emitCondition_closed :
    ∀ (n : Node) {jump : Jump} {c c' : LabelCounters} {lines : List Line} {u : Unit},
    Emits (emitCondition ctx jump n) c lines c' u → Closed [jump.target] c c' lines
  | .mk kind ty children, jump, c, c', lines, u, h => by
    have logical := @emitLogical_closed kind children
    unfold emitCondition at h
    split at h
    · split at h
      · exact (emitComparison_straight (List.mem_singleton.2 rfl)).closed h
      · split at h
        · exact logical h
        · exact absurd h Emits.not_invalid
    all_goals first | exact absurd h Emits.not_invalid | skip
    all_goals
      split at h
      · refine Straight.closed (.bind (emitValue_straight _) fun _ => emitTest_straight ?_) h
        exact List.mem_singleton.2 rfl
      · exact absurd h Emits.not_invalid
termination_by structural n => n

theorem emitLogical_closed (kind : NodeKind) :
    ∀ (nodes : List Node) {jump : Jump} {c c' : LabelCounters}
    {lines : List Line} {u : Unit},
    Emits (emitLogical ctx jump kind nodes) c lines c' u → Closed [jump.target] c c' lines
  | [left, right], jump, c, c', lines, u, h => by
    have leftClosed := @emitCondition_closed left
    have rightClosed := @emitCondition_closed right
    unfold emitLogical at h
    split at h
    · split at h
      · obtain ⟨c₁, _, ls, ms, first, second, rfl⟩ := h.of_bind
        exact (leftClosed first).append (rightClosed second)
      · -- The left operand may jump behind the right one, to a label that was taken before both.
        obtain ⟨c₁, join, _, _, taken, h₁, rfl⟩ := h.of_bind
        obtain ⟨rfl, rfl, rfl⟩ := taken.of_fresh
        obtain ⟨c₂, _, ls, _, first, h₂, rfl⟩ := h₁.of_bind
        obtain ⟨c₃, _, ms, _, second, last, rfl⟩ := h₂.of_bind
        obtain ⟨rfl, rfl⟩ := Emits.of_line last
        have inner : Closed ([.join c.joins] ++ [jump.target]) c.nextJoin.2 c' (ls ++ ms) :=
          ((leftClosed first).mono (by simp [LabelCounters.nextJoin])).append
            ((rightClosed second).mono (by simp))
        refine .around c.le_nextJoin (by simp [Label.Within, LabelCounters.nextJoin])
          (by simp) inner ?_ ?_
        · simp only [List.nil_append, labelsOf_append, labelsOf_label, labelsOf_nil,
            LabelCounters.nextJoin, ← List.append_assoc]
          exact List.perm_append_comm
        · simp [Line.isLabel]
    · exact absurd h Emits.not_invalid
  | [], _, _, _, _, _, h | [_], _, _, _, _, _, h | _ :: _ :: _ :: _, _, _, _, _, _, h =>
    absurd h Emits.not_invalid
termination_by structural nodes => nodes

end

/-! ### Statements -/

/-- The exit of a chain of conditional statements is defined unless it was given. -/
theorem Emits.of_exit {exit? : Option Label} {l : Label} {c c' : LabelCounters} {lines : List Line}
    {u : Unit}
    (h : Emits (if exit?.isNone then Emit.label l else Pure.pure PUnit.unit) c lines c' u) :
    lines = (if exit?.isNone then [.label l] else []) ∧ c' = c := by
  cases exit? with
  | none => exact Emits.of_line h
  | some l => exact Emits.of_pure h

mutual

/-- The code of a statement branches to its own labels, and to the exit of the chain that it
continues. -/
theorem emitBranch_closed :
    ∀ (n : Node) {exit? : Option Label} {c c' : LabelCounters} {lines : List Line} {u : Unit},
    Emits (emitBranch ctx exit? n) c lines c' u → Closed exit?.toList c c' lines
  | .mk kind ty children, exit?, c, c', lines, u, h => by
    have statements := @emitStmts_closed children
    have conditional := @emitIf_closed kind children
    have loop := @emitLoop_closed kind children
    unfold emitBranch at h
    split at h
    · exact emitAssign_straight.closed h
    · exact emitDefault_straight.closed h
    · exact (statements h).mono (by simp)
    · exact conditional h
    · exact (loop h).mono (by simp)
    · exact emitCall_straight.closed h
    · exact emitReturn_straight.closed h
    · exact emitRead_straight.closed h
    · exact emitWrite_straight.closed h
    · exact absurd h Emits.not_invalid
termination_by structural n => n

/-- The code of statements branches to its own labels. -/
theorem emitStmts_closed :
    ∀ (nodes : List Node) {c c' : LabelCounters} {lines : List Line} {u : Unit},
    Emits (emitStmts ctx nodes) c lines c' u → Closed [] c c' lines
  | [], c, c', lines, u, h => by
    obtain ⟨rfl, rfl⟩ := Emits.of_pure h
    exact .asLines [] (by simp)
  | node :: nodes, c, c', lines, u, h => by
    have firstClosed := @emitBranch_closed node
    have othersClosed := @emitStmts_closed nodes
    unfold emitStmts at h
    obtain ⟨c₁, _, ls, ms, first, others, rfl⟩ := h.of_bind
    exact (firstClosed first).append (othersClosed others)
termination_by structural nodes => nodes

theorem emitBlock_closed : ∀ (n : Node) {c c' : LabelCounters} {lines : List Line} {u : Unit},
    Emits (emitBlock ctx n) c lines c' u → Closed [] c c' lines
  | .mk _ _ children, _, _, _, _, h => @emitStmts_closed children _ _ _ _ h
termination_by structural n => n

theorem emitIf_closed (kind : NodeKind) :
    ∀ (nodes : List Node) {exit? : Option Label} {c c' : LabelCounters}
    {lines : List Line} {u : Unit},
    Emits (emitIf ctx kind exit? nodes) c lines c' u → Closed exit?.toList c c' lines
  -- The run is cut into the runs of its steps. If no label to end at is given, the statement takes
  -- one with its own number, which counts among its own labels then.
  | [body, condition], exit?, c, c', lines, u, h => by
    have bodyClosed := @emitBlock_closed body
    unfold emitIf at h
    obtain ⟨_, labels, _, _, taken, h₁, rfl⟩ := h.of_bind
    obtain ⟨rfl, rfl, rfl⟩ := taken.of_fresh
    obtain ⟨_, _, conditionLines, _, tests, h₂, rfl⟩ := h₁.of_bind
    obtain ⟨_, _, bodyLines, _, runs, last, rfl⟩ := h₂.of_bind
    obtain ⟨rfl, rfl⟩ := last.of_exit
    have tested := emitCondition_closed condition tests
    cases exit? with
    | none =>
      have inner : Closed ([.endOf c.conds] ++ []) c.nextCond.2 c' (conditionLines ++ bodyLines) :=
        tested.append ((bodyClosed runs).mono (by simp))
      refine .cond (by simp) inner (List.perm_iff_count.2 fun l => ?_) ?_
      · simp [List.count_cons, LabelCounters.nextCond]
        omega
      · simp [Line.isLabel]
    | some l =>
      have inner : Closed ([] ++ [l]) c.nextCond.2 c' (conditionLines ++ bodyLines) :=
        tested.append ((bodyClosed runs).mono (by simp))
      exact .cond (List.nil_sublist _) inner (by simp) (by simp)
  | [body, otherwise, condition], exit?, c, c', lines, u, h => by
    have bodyClosed := @emitBlock_closed body
    have otherwiseClosed := @emitBranch_closed otherwise
    unfold emitIf at h
    obtain ⟨_, labels, _, _, taken, h₁, rfl⟩ := h.of_bind
    obtain ⟨rfl, rfl, rfl⟩ := taken.of_fresh
    obtain ⟨_, _, conditionLines, _, tests, h₂, rfl⟩ := h₁.of_bind
    obtain ⟨_, _, bodyLines, _, runs, h₃, rfl⟩ := h₂.of_bind
    obtain ⟨_, _, _, _, skips, h₄, rfl⟩ := h₃.of_bind
    obtain ⟨rfl, rfl⟩ := Emits.of_line skips
    obtain ⟨_, _, _, _, defines, h₅, rfl⟩ := h₄.of_bind
    obtain ⟨rfl, rfl⟩ := Emits.of_line defines
    obtain ⟨_, _, otherLines, _, otherRuns, last, rfl⟩ := h₅.of_bind
    obtain ⟨rfl, rfl⟩ := last.of_exit
    have tested := emitCondition_closed condition tests
    cases exit? with
    | none =>
      have inner : Closed ([.elseOf c.conds, .endOf c.conds] ++ []) c.nextCond.2 c'
          (conditionLines ++ bodyLines ++ [.instr (.goto (.endOf c.conds))] ++ otherLines) :=
        (((tested.mono (by simp [LabelCounters.nextCond])).append
          ((bodyClosed runs).mono (by simp))).append (.goto (by simp))).append
            ((otherwiseClosed otherRuns).mono (by simp [LabelCounters.nextCond]))
      refine .cond (List.Sublist.refl _) inner (List.perm_iff_count.2 fun l => ?_) ?_
      · simp [List.count_cons, LabelCounters.nextCond]
        omega
      · simp [Line.isLabel, LabelCounters.nextCond]
    | some l =>
      have inner : Closed ([.elseOf c.conds] ++ [l]) c.nextCond.2 c'
          (conditionLines ++ bodyLines ++ [.instr (.goto l)] ++ otherLines) :=
        (((tested.mono (by simp [LabelCounters.nextCond])).append
          ((bodyClosed runs).mono (by simp))).append (.goto (by simp))).append
            ((otherwiseClosed otherRuns).mono (by simp))
      refine .cond (by simp) inner (List.perm_iff_count.2 fun l => ?_) ?_
      · simp [List.count_cons, LabelCounters.nextCond]
        omega
      · simp [Line.isLabel, LabelCounters.nextCond]
  | [], _, _, _, _, _, h | [_], _, _, _, _, _, h | _ :: _ :: _ :: _ :: _, _, _, _, _, _, h =>
    absurd h Emits.not_invalid
termination_by structural nodes => nodes

theorem emitLoop_closed (kind : NodeKind) :
    ∀ (nodes : List Node) {c c' : LabelCounters} {lines : List Line} {u : Unit},
    Emits (emitLoop ctx kind nodes) c lines c' u → Closed [] c c' lines
  | [body, condition], c, c', lines, u, h => by
    have bodyClosed := @emitBlock_closed body
    unfold emitLoop at h
    obtain ⟨_, labels, _, _, taken, h₁, rfl⟩ := h.of_bind
    obtain ⟨rfl, rfl, rfl⟩ := taken.of_fresh
    obtain ⟨_, _, _, _, defines, h₂, rfl⟩ := h₁.of_bind
    obtain ⟨rfl, rfl⟩ := Emits.of_line defines
    obtain ⟨_, _, conditionLines, _, tests, h₃, rfl⟩ := h₂.of_bind
    obtain ⟨_, _, bodyLines, _, runs, h₄, rfl⟩ := h₃.of_bind
    obtain ⟨_, _, _, _, repeats, last, rfl⟩ := h₄.of_bind
    obtain ⟨rfl, rfl⟩ := Emits.of_line repeats
    obtain ⟨rfl, rfl⟩ := Emits.of_line last
    -- Both labels of the loop are defined around the condition and the body.
    have inner : Closed ([.loopTop c.loops, .loopEnd c.loops] ++ []) c.nextLoop.2 c'
        (conditionLines ++ bodyLines ++ [.instr (.goto (.loopTop c.loops))]) :=
      (((emitCondition_closed condition tests).mono (by simp [LabelCounters.nextLoop])).append
        ((bodyClosed runs).mono (by simp))).append (.goto (by simp))
    refine .around c.le_nextLoop c.within_nextLoop (by simp) inner
      (List.perm_iff_count.2 fun l => ?_) ?_
    · simp [List.count_cons, LabelCounters.nextLoop]
      omega
    · simp [Line.isLabel, LabelCounters.nextLoop]
  | [], _, _, _, _, h | [_], _, _, _, _, h | _ :: _ :: _ :: _, _, _, _, _, h =>
    absurd h Emits.not_invalid
termination_by structural nodes => nodes

end

end

end MiniGo
