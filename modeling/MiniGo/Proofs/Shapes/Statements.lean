import MiniGo.Proofs.Shapes.Code

/-!
# Branches and statements within code

* `StmtCode.branches`: a branch goes to a label of the code in which it stands, or to the exit of
  the chain of conditional statements that it belongs to.
* `Located.contains`: each statement within a statement has its own stretch of the code, and nothing
  is on the stack where it starts.
-/

namespace MiniGo

variable {ctx : Context} {s : Scope}

/-! ### Branches -/

/-- All labels to which lines branch have a property. -/
def BranchTo (lines : List Line) (P : Label → Prop) : Prop :=
  ∀ i l, .instr i ∈ lines → i.target? = some l → P l

section

variable {ls ms : List Line} {P Q : Label → Prop}

theorem BranchTo.mono (h : BranchTo ls P) (imp : ∀ l, P l → Q l) : BranchTo ls Q :=
  fun i l mem target => imp l (h i l mem target)

theorem BranchTo.append (h : BranchTo ls P) (h' : BranchTo ms P) : BranchTo (ls ++ ms) P := by
  intro i l mem target
  rcases List.mem_append.1 mem with mem | mem
  · exact h i l mem target
  · exact h' i l mem target

/-- Instructions that do not branch. -/
theorem branchTo_asLines {is : List Instr} (h : ∀ i ∈ is, i.target? = none) :
    BranchTo (asLines is) P := by
  intro i l mem target
  obtain ⟨j, hj, eq⟩ := List.mem_map.1 mem
  cases eq
  rw [h i hj] at target
  cases target

theorem branchTo_instr {i : Instr} (h : ∀ l, i.target? = some l → P l) : BranchTo [.instr i] P := by
  intro j l mem target
  obtain rfl : j = i := by simpa using mem
  exact h l target

theorem branchTo_label {l : Label} : BranchTo [.label l] P := by
  intro i l mem
  simp at mem

theorem branchTo_goto {l l' : Label} (h : P l) : BranchTo [.instr (.goto l), .label l'] P := by
  intro i k mem target
  obtain rfl : i = .goto l := by simpa using mem
  cases target
  exact h

end

theorem target?_convertCode {value wanted : Ty} :
    ∀ i ∈ convertCode value wanted, i.target? = none := by
  unfold convertCode
  split <;> simp [Instr.target?]

theorem target?_loadInstr {v : VarRef} {x : Variable} : (ctx.loadInstr v x).target? = none := by
  unfold Context.loadInstr
  split <;> rfl

theorem target?_storeInstr {v : VarRef} {x : Variable} : (ctx.storeInstr v x).target? = none := by
  unfold Context.storeInstr
  split <;> rfl

theorem target?_addressCode {v : VarRef} {x : Variable} {k : Nat} :
    ∀ i ∈ ctx.addressCode v x k, i.target? = none := by
  simp only [Context.addressCode, List.forall_mem_cons]
  exact ⟨target?_loadInstr, rfl, by simp⟩

theorem target?_callCode {f : Function} {code : List Instr} (h : ∀ i ∈ code, i.target? = none) :
    ∀ i ∈ callCode ctx f code, i.target? = none := by
  unfold callCode
  simp only [List.forall_mem_append]
  exact ⟨⟨by split <;> simp [Instr.target?], h⟩, by simp [Instr.target?]⟩

mutual

/-- The code of a value does not branch. -/
theorem ValueCode.target? {n : Node} {code : List Instr} :
    ValueCode ctx s n code → ∀ i ∈ code, i.target? = none
  | .int .. | .float | .bool | .string => by simp [Instr.target?]
  | .name .. => by simp [target?_loadInstr]
  | .element .. => List.forall_mem_append.2 ⟨target?_addressCode, by simp [Instr.target?]⟩
  | .arithmetic _ _ _ _ leftCode rightCode => by
    simp only [List.forall_mem_append]
    exact ⟨⟨⟨⟨leftCode.target?, target?_convertCode⟩, rightCode.target?⟩, target?_convertCode⟩,
      by simp [Instr.target?]⟩
  | .concat _ _ leftCode rightCode => by
    simp only [List.forall_mem_append]
    exact ⟨⟨leftCode.target?, rightCode.target?⟩, by simp [Instr.target?]⟩
  | .call _ _ _ argsCode => by
    simp only [List.forall_mem_append]
    exact ⟨target?_callCode argsCode.target?, by simp [Instr.target?]⟩

/-- The code of arguments does not branch. -/
theorem ArgumentsCode.target? {args : List Node} {tys : List Ty} {code : List Instr} :
    ArgumentsCode ctx s args tys code → ∀ i ∈ code, i.target? = none
  | .nil => by simp
  | .cons _ first others => by
    simp only [List.forall_mem_append]
    exact ⟨⟨first.target?, target?_convertCode⟩, others.target?⟩

end

/-- The code of a condition branches to its own labels or to the target of its jump. -/
theorem ConditionCode.branches {jump : Emission.Jump} {c c' : LabelCounters} {n : Node}
    {lines : List Line} (h : ConditionCode ctx s jump c n lines c') :
    BranchTo lines fun l => .label l ∈ lines ∨ l = jump.target := by
  induction h with
  | value _ valueCode =>
    rw [asLines, List.map_append]
    refine (branchTo_asLines valueCode.target?).append (branchTo_instr ?_)
    rintro l ⟨⟩
    exact .inr rfl
  | comparison _ _ _ _ leftCode rightCode =>
    rw [asLines, List.map_append]
    refine (branchTo_asLines ?_).append ?_
    · simp only [List.forall_mem_append]
      exact ⟨⟨⟨leftCode.target?, target?_convertCode⟩, rightCode.target?⟩, target?_convertCode⟩
    · intro i l mem target
      right
      unfold compareCode at mem
      split at mem
      all_goals
        simp only [List.map_cons, List.map_nil, List.mem_cons, Line.instr.injEq, List.not_mem_nil,
          or_false] at mem
      · rcases mem with rfl | rfl <;> cases target
        rfl
      · rcases mem with rfl | rfl <;> cases target
        rfl
      · subst mem
        cases target
        rfl
  | both _ _ _ ihl ihr =>
    refine (ihl.mono ?_).append (ihr.mono ?_)
    · exact fun l h => h.imp_left fun mem => List.mem_append_left _ mem
    · exact fun l h => h.imp_left fun mem => List.mem_append_right _ mem
  | skip _ _ _ ihl ihr =>
    refine ((ihl.mono ?_).append (ihr.mono ?_)).append branchTo_label
    · -- The left operand jumps to its own labels, or behind the right one.
      rintro l (mem | rfl) <;> left
      · simp [mem]
      · simp
    · exact fun l h => h.imp_left fun mem => by simp [mem]

theorem PlaceCode.target? {target : Node} {before after : List Instr}
    (h : PlaceCode ctx s target before after) :
    (∀ i ∈ before, i.target? = none) ∧ ∀ i ∈ after, i.target? = none := by
  cases h with
  | name => simp [target?_storeInstr]
  | declared => simp [target?_storeInstr]
  | element => exact ⟨target?_addressCode, by simp [Instr.target?]⟩

theorem ResultsCode.target? {f : Function} {i : Nat} {targets : List Node} {tys : List Ty}
    {code : List Instr} (h : ResultsCode ctx s f i targets tys code) :
    ∀ i ∈ code, i.target? = none := by
  induction h with
  | nil => simp
  | cons _ _ place _ ih =>
    simp only [List.forall_mem_append]
    exact ⟨⟨⟨⟨place.target?.1, by simp [Instr.target?]⟩, target?_convertCode⟩, place.target?.2⟩, ih⟩

theorem target?_resultStores {f : Function} {tys : List Ty} :
    ∀ i ∈ resultStores ctx f tys, i.target? = none := by
  intro i mem
  simp only [resultStores, List.mem_reverse, List.mem_mapIdx] at mem
  obtain ⟨_, _, rfl⟩ := mem
  rfl

theorem target?_defaultCode {x : Variable} : ∀ i ∈ defaultCode x, i.target? = none := by
  unfold defaultCode
  split
  · simp [Instr.target?]
  · cases x.ty <;> simp [zeroInstr, Instr.target?]

mutual

/-- The code of a statement branches to its own labels or to the exit of its chain. -/
theorem StmtCode.branches {exit? : Option Label} {c c' : LabelCounters} {n : Node}
    {lines : List Line} :
    StmtCode ctx s exit? c n lines c' →
      BranchTo lines fun l => .label l ∈ lines ∨ exit? = some l
  | .declaration .. => branchTo_asLines
      (List.forall_mem_append.2 ⟨target?_defaultCode, by simp [target?_storeInstr]⟩)
  | .assign _ place valueCode => branchTo_asLines (by
      simp only [List.forall_mem_append]
      exact ⟨⟨⟨place.target?.1, valueCode.target?⟩, target?_convertCode⟩, place.target?.2⟩)
  | .assignResults _ _ argsCode results => branchTo_asLines
      (List.forall_mem_append.2 ⟨target?_callCode argsCode.target?, results.target?⟩)
  | .block body => body.branches.mono fun _ mem => .inl mem
  | .cond conditionCode bodyCode => by
    have body := bodyCode.branches
    refine ((conditionCode.branches.mono ?_).append (body.mono ?_)).append ?_
    · rintro l (mem | rfl)
      · exact .inl (by simp [mem])
      · cases exit? <;> simp
    · exact fun l mem => .inl (by simp [mem])
    · cases exit? <;> simp [BranchTo]
  | .condElse conditionCode bodyCode otherwiseCode => by
    have body := bodyCode.branches
    have otherwise := otherwiseCode.branches
    refine ((((conditionCode.branches.mono ?_).append (body.mono ?_)).append ?_).append
      (otherwise.mono ?_)).append ?_
    · rintro l (mem | rfl) <;> exact .inl (by simp_all)
    · exact fun l mem => .inl (by simp [mem])
    · exact branchTo_goto (by cases exit? <;> simp)
    · rintro l (mem | eq)
      · exact .inl (by simp [mem])
      · cases eq
        cases exit? <;> simp
    · cases exit? <;> simp [BranchTo]
  | .loop conditionCode bodyCode => by
    have body := bodyCode.branches
    refine ((branchTo_label.append (conditionCode.branches.mono ?_)).append (body.mono ?_)).append
      (branchTo_goto (.inl (by simp)))
    · rintro l (mem | rfl) <;> exact .inl (by simp_all)
    · exact fun l mem => .inl (by simp [mem])
  | .call _ _ argsCode => branchTo_asLines (target?_callCode argsCode.target?)
  | .ret _ _ valuesCode => branchTo_asLines (by
      simp only [List.forall_mem_append]
      exact ⟨⟨valuesCode.target?, target?_resultStores⟩, by simp [Instr.target?]⟩)
  | .read _ place _ => branchTo_asLines (by
      simp only [List.forall_mem_append]
      exact ⟨⟨place.target?.1, by simp [scanCode, Instr.target?]⟩, place.target?.2⟩)
  | .write _ valueCode => branchTo_asLines (by
      simp only [List.forall_mem_append]
      exact ⟨⟨by simp [Instr.target?], valueCode.target?⟩, by simp [Instr.target?]⟩)

/-- The code of statements branches to its own labels. -/
theorem StmtsCode.branches {c c' : LabelCounters} {nodes : List Node} {lines : List Line} :
    StmtsCode ctx s c nodes lines c' → BranchTo lines fun l => .label l ∈ lines
  | .nil => by simp [BranchTo]
  | .cons first others => by
    refine (first.branches.mono ?_).append (others.branches.mono ?_)
    · rintro l (mem | none)
      · exact List.mem_append_left _ mem
      · cases none
    · exact fun l mem => List.mem_append_right _ mem

end

/-! ### Statements within statements -/

/-- The statements directly within a statement. -/
def Node.parts (n : Node) : List Node :=
  match n.kind with
  | .block => n.children
  | .cond | .repeat_ => n.children.dropLast
  | _ => []

/-- A statement contains another one: itself, or one that a statement within it contains. -/
inductive Node.Contains : Node → Node → Prop
  | self {n : Node} : Contains n n
  | part {n m k : Node} (within : m ∈ n.parts) (inner : Contains m k) : Contains n k

/-- A statement has a stretch of lines as its code, and nothing is on the stack where it starts. -/
def Located (env : MethodEnv) (ctx : Context) (s : Scope) (lines : List Line) (n : Node) : Prop :=
  ∃ exit? c c' before code behind, lines = before ++ code ++ behind ∧
    StmtCode ctx s exit? c n code c' ∧ Flows env before [] []

section

variable {env : MethodEnv}

/-- A statement within lines that lead from the empty stack to the empty stack. -/
theorem Located.within {ls ms : List Line} {n : Node} (h : Located env ctx s ms n)
    (before : Flows env ls [] []) (ks : List Line) : Located env ctx s (ls ++ ms ++ ks) n := by
  obtain ⟨exit?, c, c', pre, code, post, rfl, stmtCode, flows⟩ := h
  exact ⟨exit?, c, c', ls ++ pre, code, post ++ ks, by simp, stmtCode, before.append flows⟩

theorem StmtCode.located {exit? : Option Label} {c c' : LabelCounters} {n : Node}
    {lines : List Line} (h : StmtCode ctx s exit? c n lines c') : Located env ctx s lines n :=
  ⟨exit?, c, c', [], lines, [], by simp, h, .nil⟩

theorem StmtsCode.located (knows : env.Knows ctx s) (wf : ctx.tables.WellFormed)
    {c c' : LabelCounters} {nodes : List Node} {lines : List Line} :
    StmtsCode ctx s c nodes lines c' → ∀ n ∈ nodes, Located env ctx s lines n
  | .nil, n, mem => by simp at mem
  | @StmtsCode.cons _ _ _ _ _ _ _ lines rest first others, n, mem => by
    rcases List.mem_cons.1 mem with rfl | mem
    · simpa using (StmtCode.located first).within .nil rest
    · simpa using (others.located knows wf n mem).within (first.flows knows wf) []

theorem StmtsCode.located_block {c c' : LabelCounters} {nodes : List Node} {lines : List Line}
    (h : StmtsCode ctx s c nodes lines c') :
    Located env ctx s lines (.mk .block .noType nodes) :=
  ⟨none, c, c', [], lines, [], by simp, .block h, .nil⟩

/-- The statements directly within a statement are located in its code. -/
theorem StmtCode.located_parts (knows : env.Knows ctx s) (wf : ctx.tables.WellFormed)
    {exit? : Option Label} {c c' : LabelCounters} {n : Node} {lines : List Line}
    (h : StmtCode ctx s exit? c n lines c') : ∀ m ∈ n.parts, Located env ctx s lines m := by
  intro m mem
  cases h with
  | block body => exact body.located knows wf m mem
  | cond conditionCode bodyCode =>
    simp only [Node.parts, Node.kind_mk, Node.children_mk, List.dropLast, List.mem_singleton] at mem
    subst mem
    exact bodyCode.located_block.within (conditionCode.flows knows wf) _
  | condElse conditionCode bodyCode otherwiseCode =>
    have branch := (conditionCode.flows knows wf).append (bodyCode.flows knows wf)
    simp only [Node.parts, Node.kind_mk, Node.children_mk, List.dropLast, List.mem_cons,
      List.not_mem_nil, or_false] at mem
    rcases mem with rfl | rfl
    · simpa using bodyCode.located_block.within (conditionCode.flows knows wf) _
    · exact (StmtCode.located otherwiseCode).within
        (branch.append (.append (.instr rfl) (.line rfl))) _
  | loop conditionCode bodyCode =>
    simp only [Node.parts, Node.kind_mk, Node.children_mk, List.dropLast, List.mem_singleton] at mem
    subst mem
    exact bodyCode.located_block.within ((Flows.line rfl).append (conditionCode.flows knows wf)) _
  | _ => simp [Node.parts] at mem

/-- Whatever a located statement contains is located. -/
theorem Located.contains (knows : env.Knows ctx s) (wf : ctx.tables.WellFormed) {lines : List Line}
    {n m : Node} (h : Located env ctx s lines n) (contains : n.Contains m) :
    Located env ctx s lines m := by
  induction contains with
  | self => exact h
  | part within _ ih =>
    obtain ⟨exit?, c, c', before, code, behind, rfl, stmtCode, flows⟩ := h
    exact ih ((stmtCode.located_parts knows wf _ within).within flows behind)

end

end MiniGo
