import MiniGo.Proofs.Frames.Accesses

/-!
# Loads behind a branch that declares a variable

A load that may be reached before a store is found by its place. Either nothing declares the
variable before the load, or the declaration is in a branch that may be left out, and the load is
behind the code of this branch.

* `Behind`: a line is behind the code of a branch that declares a variable.
* `StmtCode.behind`: what is behind a statement that declares a variable, and may be passed without
  a store.
* `Exposed`, `StmtCode.guarded`: the code of a statement exposes no other loads.
-/

namespace MiniGo

variable {ctx : Context} {s : Scope} {v : VarRef} {slot : Nat} {code : List Line}

/-! ### Parts of statements -/

namespace Node

theorem mem_accessesAll {a : VarAccess} {ns : List Node} :
    a ∈ accessesAll ns ↔ ∃ n ∈ ns, a ∈ n.accesses := by
  induction ns with
  | nil => simp [accessesAll]
  | cons n ns ih => simp [accessesAll, ih]

/-- The branches of a statement come before its condition. -/
theorem accessesOfBranches_append (ns : List Node) (condition : Node) :
    accessesOfBranches (ns ++ [condition]) = accessesAll ns := by
  induction ns with
  | nil => rfl
  | cons n ns ih =>
    have more : (ns ++ [condition]).isEmpty = false := by simp
    rw [List.cons_append, accessesOfBranches, accessesAll, more, ih]
    rfl

/-- What a part of a statement does, the statement does. -/
theorem mem_accesses_of_part {n part : Node} (within : part ∈ n.parts) {a : VarAccess}
    (mem : a ∈ part.accesses) :
    a ∈ n.accesses := by
  obtain ⟨kind, ty, children⟩ := n
  have branch (within : part ∈ children.dropLast) :
      a ∈ (conditionReads children).map .load ++ accessesOfBranches children := by
    rcases children.eq_nil_or_concat with rfl | ⟨branches, condition, rfl⟩
    · cases within
    · rw [List.concat_eq_append, List.dropLast_concat] at within
      rw [List.concat_eq_append, accessesOfBranches_append]
      exact List.mem_append_right _ (mem_accessesAll.2 ⟨part, within, mem⟩)
  cases kind with
  | block => exact mem_accessesAll.2 ⟨part, within, mem⟩
  | cond | repeat_ => exact branch within
  | _ => cases within

theorem Contains.trans {n m k : Node} (h : n.Contains m) (h' : m.Contains k) : n.Contains k := by
  induction h with
  | self => exact h'
  | part within _ ih => exact .part within (ih h')

theorem Contains.mem_accesses {n m : Node} (h : n.Contains m) {a : VarAccess}
    (mem : a ∈ m.accesses) :
    a ∈ n.accesses := by
  induction h with
  | self => exact mem
  | part within _ ih => exact mem_accesses_of_part within (ih mem)

/-- A branch of a statement: a part of a conditional statement or of a loop that the statement
contains. -/
def BranchOf (part n : Node) : Prop :=
  ∃ m, n.Contains m ∧ (m.kind = .cond ∨ m.kind = .repeat_) ∧ part ∈ m.parts

theorem BranchOf.within {part n m : Node} (h : part.BranchOf n) (contains : m.Contains n) :
    part.BranchOf m := by
  obtain ⟨inner, contains', isBranch, within⟩ := h
  exact ⟨inner, contains.trans contains', isBranch, within⟩

theorem BranchOf.mem_accesses {part n : Node} (h : part.BranchOf n) {a : VarAccess}
    (mem : a ∈ part.accesses) :
    a ∈ n.accesses := by
  obtain ⟨m, contains, -, within⟩ := h
  exact contains.mem_accesses (mem_accesses_of_part within mem)

theorem accesses_cond (ty : Ty) (body condition : Node) :
    (mk .cond ty [body, condition]).accesses = condition.reads.map .load ++ body.accesses :=
  congrArg _ (List.append_nil _)

theorem accesses_condElse (ty : Ty) (body otherwise condition : Node) :
    (mk .cond ty [body, otherwise, condition]).accesses =
      condition.reads.map .load ++ (body.accesses ++ otherwise.accesses) :=
  congrArg (fun rest => _ ++ (body.accesses ++ rest)) (List.append_nil _)

theorem accesses_loop (ty : Ty) (body condition : Node) :
    (mk .repeat_ ty [body, condition]).accesses = condition.reads.map .load ++ body.accesses :=
  congrArg _ (List.append_nil _)

end Node

/-! ### Lines behind a branch -/

/-- Lines are the code of a branch that declares a variable. From a given place up to them nothing
is done to the slot of the variable, so that the store of the declaration is the first one there. -/
structure DeclaringBranch (ctx : Context) (s : Scope) (v : VarRef) (slot : Nat) (code : List Line)
    (n : Node) (first start : Nat) (lines : List Line) : Prop where
  branch : ∃ part exit? c c', part.BranchOf n ∧ .declare v ∈ part.accesses ∧
      StmtCode ctx s exit? c part lines c'
  seg : Seg code start lines
  le : first ≤ start
  untouched : Untouched code slot first start

/-- A line is behind the code of a branch that declares a variable. -/
def Behind (ctx : Context) (s : Scope) (v : VarRef) (slot : Nat) (code : List Line) (n : Node)
    (first q : Nat) : Prop :=
  ∃ start lines, DeclaringBranch ctx s v slot code n first start lines ∧ start + lines.length ≤ q

namespace Behind

variable {n m : Node} {first start q : Nat} {before lines : List Line} {as bs : List VarAccess}

theorem mono {q' : Nat} (h : Behind ctx s v slot code n first q) (le : q ≤ q') :
    Behind ctx s v slot code n first q' := by
  obtain ⟨start, lines, branch, behind⟩ := h
  exact ⟨start, lines, branch, behind.trans le⟩

theorem within (h : Behind ctx s v slot code n first q) (contains : m.Contains n) :
    Behind ctx s v slot code m first q := by
  obtain ⟨start, lines, ⟨⟨part, exit?, c, c', branch, declares, partCode⟩, seg, le, untouched⟩,
    behind⟩ := h
  exact ⟨start, lines, ⟨⟨part, exit?, c, c', branch.within contains, declares, partCode⟩, seg, le,
    untouched⟩, behind⟩

theorem declares (h : Behind ctx s v slot code n first q) : .declare v ∈ n.accesses := by
  obtain ⟨_, _, ⟨⟨part, _, _, _, branch, declares, _⟩, _, _, _⟩, _⟩ := h
  exact branch.mem_accesses declares

/-- A line is behind a branch right in front of it. -/
theorem of_part (slot : Nat) (n : Node) {part : Node} {exit? : Option Label} {c c' : LabelCounters}
    (isBranch : n.kind = .cond ∨ n.kind = .repeat_) (part_mem : part ∈ n.parts)
    (declares : .declare v ∈ part.accesses) (partCode : StmtCode ctx s exit? c part lines c')
    (seg : Seg code start lines) : Behind ctx s v slot code n start (start + lines.length) :=
  ⟨start, lines, ⟨⟨part, exit?, c, c', ⟨n, .self, isBranch, part_mem⟩, declares, partCode⟩, seg,
    le_rfl, fun _ _ from_ upTo _ => absurd upTo (Nat.not_lt.2 from_)⟩, le_rfl⟩

/-- The code before a declaration does nothing to the slot. -/
theorem after (places : ctx.Places s v slot)
    (h : Behind ctx s v slot code n (first + before.length) q) (seg : Seg code first before)
    (inFrame : InFrame ctx s as before) (fresh : DeclaredFirst v (as ++ bs))
    (declares : .declare v ∈ bs) : Behind ctx s v slot code n first q := by
  obtain ⟨start, lines, branch, behind⟩ := h
  have untouched : Untouched code slot first (first + before.length) :=
    .of_seg seg (inFrame.untouched places (fresh.touches_left declares))
  exact ⟨start, lines, ⟨branch.branch, branch.seg, le_trans (Nat.le_add_right _ _) branch.le,
    untouched.trans branch.untouched⟩, behind⟩

end Behind

/-! ### Statements that may be passed without a store -/

/-- What stands between two branches does nothing to a slot. -/
theorem local?_between (exit otherwise : Label) :
    ∀ l ∈ [Line.instr (.goto exit), .label otherwise], l.local? = none := by
  simp [Line.local?, Instr.slot?]

/-- The code of statements is that of a block, in which an exit is not passed on. -/
theorem blockCode {c c' : LabelCounters} {body : List Node} {lines : List Line}
    (h : StmtsCode ctx s c body lines c') :
    StmtCode ctx s none c (.mk .block .noType body) lines c' := .block h

/-- A label accesses nothing. -/
theorem inFrame_label (l : Label) : InFrame ctx s [] [.label l] := .free (by simp [Line.local?])

mutual

/-- What is behind a statement that declares a variable and may be passed without a store into it,
is behind a branch that declares the variable. -/
theorem StmtCode.behind (places : ctx.Places s v slot) {exit? : Option Label} {c c' : LabelCounters}
    {n : Node} {lines : List Line} {pc : Nat} :
    StmtCode ctx s exit? c n lines c' → Seg code pc lines → n.Keeps v →
      DeclaredFirst v n.accesses → .declare v ∈ n.accesses →
      Behind ctx s v slot code n pc (pc + lines.length)
  | .declaration .., _, keeps, _, declares | .assign .., _, keeps, _, declares
  | .assignResults .., _, keeps, _, declares | .call .., _, keeps, _, declares
  | .ret .., _, keeps, _, declares
  | .read .., _, keeps, _, declares | .write .., _, keeps, _, declares =>
    absurd (store_mem_touches declares) keeps
  | .block body, seg, keeps, fresh, declares => by
    obtain ⟨m, mem, behind⟩ := body.behind places seg keeps fresh declares
    exact behind.within (.part mem .self)
  | @StmtCode.cond _ _ _ _ _ _ body condition jump lines conditionCode bodyCode, seg, _, fresh,
      declares => by
    rw [Node.accesses_cond] at fresh declares
    have inBody : .declare v ∈ (Node.mk .block .noType body).accesses := by simpa using declares
    have behind :=
      Behind.of_part slot (.mk .cond .noType [.mk .block .noType body, condition]) (.inl rfl)
        (.head _) inBody (blockCode bodyCode) seg.left.right
    refine (behind.after places seg.left.left conditionCode.inFrame fresh inBody).mono ?_
    simp only [List.length_append]
    omega
  | @StmtCode.condElse _ _ _ _ _ _ _ body otherwise condition jump lines others
      conditionCode bodyCode otherwiseCode, seg, _, fresh, declares => by
    rw [Node.accesses_condElse] at fresh declares
    have inBranch : .declare v ∈ (Node.mk .block .noType body).accesses ∨
        .declare v ∈ otherwise.accesses := by
      simpa using declares
    rcases inBranch with inBody | inOther
    · have behind := Behind.of_part slot
        (.mk .cond .noType [.mk .block .noType body, otherwise, condition]) (.inl rfl)
        (.head _) inBody (blockCode bodyCode) seg.left.left.left.right
      refine (behind.after places seg.left.left.left.left conditionCode.inFrame fresh
        (List.mem_append_left _ inBody)).mono ?_
      simp only [List.length_append]
      omega
    · have behind := Behind.of_part slot
        (.mk .cond .noType [.mk .block .noType body, otherwise, condition]) (.inl rfl)
        (.tail _ (.head _)) inOther otherwiseCode seg.left.right
      rw [← List.append_assoc] at fresh
      have front := conditionCode.inFrame.append bodyCode.inFrame
      refine (behind.after places seg.left.left (front.andFree (local?_between _ _)) fresh
        inOther).mono ?_
      simp only [List.length_append]
      omega
  | @StmtCode.loop _ _ _ _ _ _ body condition jump lines conditionCode bodyCode, seg, _, fresh,
      declares => by
    rw [Node.accesses_loop] at fresh declares
    have inBody : .declare v ∈ (Node.mk .block .noType body).accesses := by simpa using declares
    have behind := Behind.of_part slot (.mk .repeat_ .noType [.mk .block .noType body, condition])
      (.inr rfl) (.head _) inBody (blockCode bodyCode) seg.left.right
    have front := (inFrame_label (.loopTop c.loops)).append conditionCode.inFrame
    refine (behind.after places seg.left.left front fresh inBody).mono ?_
    simp only [List.length_append]
    omega

theorem StmtsCode.behind (places : ctx.Places s v slot) {c c' : LabelCounters} {nodes : List Node}
    {lines : List Line} {pc : Nat} :
    StmtsCode ctx s c nodes lines c' → Seg code pc lines → Node.KeepsAll v nodes →
      DeclaredFirst v (Node.accessesAll nodes) → .declare v ∈ Node.accessesAll nodes →
        ∃ n ∈ nodes, Behind ctx s v slot code n pc (pc + lines.length)
  | .nil, _, _, _, declares => nomatch declares
  | .cons first others, seg, keeps, fresh, declares => by
    rw [List.length_append, ← Nat.add_assoc]
    rcases List.mem_append.1 declares with here | rest
    · have behind := first.behind places seg.left keeps.1 fresh.left here
      exact ⟨_, .head _, behind.mono (Nat.le_add_right _ _)⟩
    · obtain ⟨m, mem, behind⟩ := others.behind places seg.right keeps.2 fresh.right rest
      exact ⟨m, .tail _ mem, behind.after places seg.left first.inFrame fresh rest⟩

end

/-! ### Code put together -/

section

variable {pc : Nat} {exits : Nat → Prop}

/-- Straight code is guarded by what it does to the slot. -/
theorem guarded_of_touches {is : List Instr} (accesses : List VarAccess)
    (seg : Seg code pc (asLines is)) (straight : ∀ i ∈ is, i.target? = none)
    (same : slotTouches slot is = touches v accesses) :
    Guarded code slot pc (asLines is).length exits (Touch.store ∉ touches v accesses)
      fun _ => FirstLoad v accesses := by
  rw [List.length_map]
  refine (Guarded.instrs seg straight).mono (fun keep => same ▸ keep) fun _ load => ?_
  exact .of_touches (same ▸ load)

/-- A condition leads to its end or to the target of its jump. -/
theorem ConditionCode.guarded (places : ctx.Places s v slot) {jump : Emission.Jump}
    {c c' : LabelCounters} {n : Node} {lines : List Line}
    (h : ConditionCode ctx s jump c n lines c') (unique : LabelsUnique code)
    (seg : Seg code pc lines)
    (exit : ∀ q, code.findIdx? (Activation.isLabel jump.target) = some q → exits q) :
    Guarded code slot pc lines.length exits True fun _ => FirstLoad v (n.reads.map .load) := by
  refine (Guarded.lines seg unique h.branches fun l q target found => exit q
    (target ▸ found)).mono id ?_
  rintro _ ⟨l, mem, load⟩
  exact .of_reads (h.reads_of_touch places mem load)

/-- The label of an exit stands at one place. -/
def AtExit (code : List Line) (exit? : Option Label) (q : Nat) : Prop :=
  ∃ l, exit? = some l ∧ code.findIdx? (Activation.isLabel l) = some q

/-- Code that does not leave by an exit may be given any. -/
theorem Guarded.inside {n : Nat} {keeps : Prop} {exposes : Nat → Prop}
    (h : Guarded code slot pc n (AtExit code none) keeps exposes) :
    Guarded code slot pc n exits keeps exposes := by
  refine h.close ?_ id fun _ => id
  rintro q ⟨l, same, -⟩
  cases same

theorem guarded_label {l : Label} (found : code[pc]? = some (.label l)) :
    Guarded code slot pc 1 exits True fun _ => False :=
  (Guarded.line found fun _ _ _ same => by cases same).mono (fun _ => trivial) fun _ => by
    simp [Line.touch?]

theorem guarded_goto {l : Label} (found : code[pc]? = some (.instr (.goto l)))
    (exit : ∀ q, code.findIdx? (Activation.isLabel l) = some q → exits q) :
    Guarded code slot pc 1 exits True fun _ => False := by
  refine (Guarded.line found ?_).mono (fun _ => trivial) fun _ => by
    simp [Line.touch?, Instr.touch?]
  intro i l' q same target label
  cases same
  cases target
  exact exit q label

/-- Code with a label behind it at which its exits lead, unless they lead to the exit of a chain. -/
theorem Guarded.behind {exit? : Option Label} {l : Label} {lines : List Line} {keeps : Prop}
    {exposes : Nat → Prop}
    (h : Guarded code slot pc lines.length (AtExit code (some (exit?.getD l))) keeps exposes)
    (unique : LabelsUnique code)
    (seg : Seg code pc (lines ++ if exit?.isNone then [.label l] else [])) :
    Guarded code slot pc (lines ++ if exit?.isNone then [Line.label l] else []).length
      (AtExit code exit?) True exposes := by
  cases exit? with
  | some l' =>
    simp only [Option.isNone_some, Bool.false_eq_true, if_false, List.append_nil]
    exact h.mono (fun _ => trivial) fun _ => id
  | none =>
    have label : code[pc + lines.length]? = some (.label l) := seg.right.line
    have closed : Guarded code slot pc lines.length (AtExit code none) True exposes := by
      refine h.close ?_ (fun _ => trivial) fun _ => id
      rintro q ⟨l', ⟨⟩, found⟩
      rw [Option.getD_none, unique.findIdx? label] at found
      exact .inr (.inl ⟨(Option.some.inj found).symm, trivial⟩)
    rw [List.length_append]
    exact (closed.append (guarded_label label)).mono (fun _ => trivial) fun _ => by simp

/-- A condition with a body for either outcome. The condition jumps to the label before the second
body, and the first body is left by a jump behind the second one. -/
theorem Guarded.either {l exit : Label} {jump lines others : List Line} {keeps keeps' : Prop}
    {reads exposes exposes' : Nat → Prop}
    (seg : Seg code pc (jump ++ lines ++ [.instr (.goto exit), .label l] ++ others))
    (unique : LabelsUnique code)
    (jumps : Guarded code slot pc jump.length
      (fun q => AtExit code (some l) q ∨ AtExit code (some exit) q) True reads)
    (body : Guarded code slot (pc + jump.length) lines.length (AtExit code none) keeps exposes)
    (other : Guarded code slot
      (pc + (jump ++ lines ++ [Line.instr (.goto exit), .label l]).length) others.length
      (AtExit code (some exit)) keeps' exposes') :
    Guarded code slot pc (jump ++ lines ++ [Line.instr (.goto exit), .label l] ++ others).length
      (AtExit code (some exit)) True fun q => reads q ∨ exposes q ∨
        (pc + (jump ++ lines ++ [Line.instr (.goto exit), .label l]).length ≤ q ∧ exposes' q) := by
  have between : Seg code (pc + (jump ++ lines).length) ([.instr (.goto exit)] ++ [.label l]) :=
    seg.left.right
  have label : code[pc + ((jump ++ lines).length + 1)]? = some (.label l) := between.right.line
  have first := (jumps.append body.inside).append
    (guarded_goto (by simpa using between.left.line) fun q found => .inr ⟨_, rfl, found⟩)
  -- The label is right behind the jump, so that it is no exit of the first part.
  have closed : Guarded code slot pc ((jump ++ lines).length + 1) (AtExit code (some exit)) True
      fun q => reads q ∨ exposes q := by
    rw [List.length_append]
    refine first.close ?_ (fun _ => trivial) fun _ => by tauto
    rintro q (⟨l', ⟨⟩, found⟩ | out)
    · rw [unique.findIdx? label] at found
      exact .inr (.inl ⟨by simpa using (Option.some.inj found).symm, trivial⟩)
    · exact .inr (.inr out)
  have total : (jump ++ lines ++ [Line.instr (.goto exit), .label l]).length =
      (jump ++ lines).length + 1 + 1 := by
    rw [List.length_append]
    rfl
  rw [total] at other ⊢
  rw [List.length_append, total]
  exact ((closed.append (guarded_label label)).append other).mono (fun _ => trivial)
    fun _ => by tauto

/-- A loop. The condition jumps behind the body, and the body is left by a jump back to the
condition. -/
theorem Guarded.loop {top bottom : Label} {jump lines : List Line} {keeps : Prop}
    {reads exposes : Nat → Prop}
    (seg : Seg code pc ([.label top] ++ jump ++ lines ++ [.instr (.goto top), .label bottom]))
    (unique : LabelsUnique code)
    (jumps : Guarded code slot (pc + 1) jump.length
      (fun q => AtExit code (some top) q ∨ AtExit code (some bottom) q) True reads)
    (body : Guarded code slot (pc + 1 + jump.length) lines.length
      (AtExit code none) keeps exposes) :
    Guarded code slot pc ([Line.label top] ++ jump ++ lines ++
      [Line.instr (.goto top), .label bottom]).length exits True fun q => reads q ∨ exposes q := by
  have first : code[pc]? = some (.label top) := seg.left.left.left.line
  have after : Seg code (pc + (1 + jump.length + lines.length))
      ([.instr (.goto top)] ++ [.label bottom]) := by
    have behind := seg.right
    rwa [List.length_append, List.length_append, List.length_singleton] at behind
  have label : code[pc + (1 + jump.length + lines.length + 1)]? = some (.label bottom) :=
    after.right.line
  have round :=
    (((guarded_label first).append jumps).append
      (by simpa [Nat.add_assoc] using body.inside)).append
        (guarded_goto after.left.line fun q found => .inl ⟨_, rfl, found⟩)
  -- One label is the start of the round, the other one is right behind it.
  have closed : Guarded code slot pc (1 + jump.length + lines.length + 1) exits True
      fun q => reads q ∨ exposes q := by
    refine round.close ?_ (fun _ => trivial) fun _ => by tauto
    rintro q (⟨l', ⟨⟩, found⟩ | ⟨l', ⟨⟩, found⟩)
    · rw [unique.findIdx? first] at found
      exact .inl ⟨(Option.some.inj found).symm, by omega⟩
    · rw [unique.findIdx? label] at found
      exact .inr (.inl ⟨(Option.some.inj found).symm, trivial⟩)
  have total :
      ([Line.label top] ++ jump ++ lines ++ [Line.instr (.goto top), .label bottom]).length =
        1 + jump.length + lines.length + 1 + 1 := by
    rw [List.length_append, List.length_append, List.length_append]
    rfl
  rw [total]
  exact (closed.append (guarded_label label)).mono (fun _ => trivial) fun _ => by tauto

/-! ### Statements -/

/-- A load in the code of a statement that may be reached before a store: nothing declares the
variable before the load, or the load is behind a branch that declares the variable. -/
def Exposed (ctx : Context) (s : Scope) (v : VarRef) (slot : Nat) (code : List Line) (n : Node)
    (first q : Nat) : Prop :=
  FirstLoad v n.accesses ∨ Behind ctx s v slot code n first q

/-- A load in the code of statements that may be reached before a store. -/
def ExposedIn (ctx : Context) (s : Scope) (v : VarRef) (slot : Nat) (code : List Line)
    (nodes : List Node) (first q : Nat) : Prop :=
  FirstLoad v (Node.accessesAll nodes) ∨ ∃ n ∈ nodes, Behind ctx s v slot code n first q

/-- What the first branch of a statement exposes, behind its condition. -/
theorem ExposedIn.branch (others : List VarAccess) (places : ctx.Places s v slot) {n : Node}
    {body : List Node} {reads : List VarRef} {before : List Line} {q : Nat}
    (h : ExposedIn ctx s v slot code body (pc + before.length) q)
    (within : .mk .block .noType body ∈ n.parts)
    (accesses : n.accesses = reads.map .load ++ (Node.accessesAll body ++ others))
    (seg : Seg code pc before) (inFrame : InFrame ctx s (reads.map .load) before)
    (fresh : DeclaredFirst v n.accesses) :
    Exposed ctx s v slot code n pc q := by
  rw [Exposed, accesses]
  rw [accesses] at fresh
  rcases h with first | ⟨m, mem, behind⟩
  · exact .inl (first.append_left.append_right (by simp))
  · have declares : .declare v ∈ Node.accessesAll body :=
      Node.mem_accessesAll.2 ⟨m, mem, behind.declares⟩
    have contains : n.Contains m := .part within (.part mem .self)
    exact .inr
      ((behind.within contains).after places seg inFrame fresh (List.mem_append_left _ declares))

/-- What the second branch of a conditional statement exposes, behind its condition and the first
branch. -/
theorem Exposed.otherwise (places : ctx.Places s v slot) {c c' : LabelCounters} {body : List Node}
    {otherwise condition : Node} {jump lines : List Line} {exit l : Label} {q : Nat}
    (h : Exposed ctx s v slot code otherwise
      (pc + (jump ++ lines ++ [Line.instr (.goto exit), .label l]).length) q)
    (le : pc + (jump ++ lines ++ [Line.instr (.goto exit), .label l]).length ≤ q)
    (seg : Seg code pc (jump ++ lines ++ [.instr (.goto exit), .label l]))
    (inFrame : InFrame ctx s (condition.reads.map .load) jump)
    (bodyCode : StmtsCode ctx s c body lines c')
    (fresh : DeclaredFirst v
      (Node.mk .cond .noType [.mk .block .noType body, otherwise, condition]).accesses) :
    Exposed ctx s v slot code (.mk .cond .noType [.mk .block .noType body, otherwise, condition])
      pc q := by
  have accesses := Node.accesses_condElse .noType (.mk .block .noType body) otherwise condition
  rw [accesses] at fresh
  rcases h with first | behind
  · by_cases inBody : .declare v ∈ (Node.mk .block .noType body).accesses
    · -- The declaration is in the first branch, which is left out on the way to the second one.
      have behind := Behind.of_part slot
        (.mk .cond .noType [.mk .block .noType body, otherwise, condition]) (.inl rfl)
        (.head _) inBody (blockCode bodyCode) seg.left.right
      refine .inr ((behind.after places seg.left.left inFrame fresh
        (List.mem_append_left _ inBody)).mono ?_)
      simp only [List.length_append] at le
      omega
    · exact .inl (accesses ▸ (first.append_right inBody).append_right (by simp))
  · have contains : Node.Contains
        (.mk .cond .noType [.mk .block .noType body, otherwise, condition]) otherwise :=
      .part (.tail _ (.head _)) .self
    rw [← List.append_assoc] at fresh
    have front := inFrame.append bodyCode.inFrame
    exact .inr ((behind.within contains).after places seg
      (front.andFree (local?_between _ _)) fresh behind.declares)

mutual

/-- The code of a statement is guarded by what the statement keeps, and exposes only certain
loads. -/
theorem StmtCode.guarded (places : ctx.Places s v slot) (unique : LabelsUnique code)
    {exit? : Option Label} {c c' : LabelCounters} {n : Node} {lines : List Line} {pc : Nat} :
    StmtCode ctx s exit? c n lines c' → Seg code pc lines → DeclaredFirst v n.accesses →
      Guarded code slot pc lines.length (AtExit code exit?) (n.Keeps v)
        (Exposed ctx s v slot code n pc)
  | @StmtCode.declaration _ _ _ _ w x own _, seg, _ => by
    refine (guarded_of_touches [.declare w] seg
      (List.forall_mem_append.2 ⟨target?_defaultCode, by simp [target?_storeInstr]⟩) ?_).mono
        id fun _ => .inl
    rw [slotTouches_append, slotTouches_eq_nil touch?_defaultCode, slotTouches_singleton,
      store_touch places (.inr own)]
    exact (touches_singleton (.declare w)).symm
  | @StmtCode.assign _ _ _ _ target value _ _ _ _ place valueCode, seg, _ => by
    refine (guarded_of_touches (Node.mk .assign .noType [target, value]).ownAccesses seg
      ?_ ?_).mono id
      fun _ => .inl
    · simp only [List.forall_mem_append]
      exact ⟨⟨⟨place.target?.1, valueCode.target?⟩, target?_convertCode⟩, place.target?.2⟩
    · simp only [place.ownAccesses_assign, slotTouches_append, touches_append,
        (place.touches places).1, (place.touches places).2, valueCode.touches places,
        slotTouches_convertCode, List.append_nil]
  | .assignResults _ _ argsCode results, seg, _ => by
    refine (guarded_of_touches _ seg
      (List.forall_mem_append.2 ⟨target?_callCode argsCode.target?, results.target?⟩) ?_).mono
        id fun _ => .inl
    rw [slotTouches_append, call_touches, argsCode.touches places, results.touches places,
      ← touches_append]
    rfl
  | .block body, seg, fresh => by
    refine (body.guarded places unique seg fresh).inside.mono id fun q exposed =>
      exposed.imp_right ?_
    rintro ⟨m, mem, behind⟩
    exact behind.within (.part mem .self)
  | @StmtCode.cond _ _ _ _ _ _ body condition jump lines conditionCode bodyCode, seg, fresh => by
    have accesses := Node.accesses_cond .noType (.mk .block .noType body) condition
    have jumps := conditionCode.guarded places unique seg.left.left fun q found =>
      (⟨_, rfl, found⟩ : AtExit code (some (exit?.getD (.endOf c.conds))) q)
    have inner := bodyCode.guarded places unique seg.left.right (accesses ▸ fresh).right
    have both := jumps.append inner.inside
    rw [← List.length_append] at both
    refine (both.behind unique seg).mono (fun _ => trivial) ?_
    rintro q (read | ⟨-, -, exposed⟩)
    · exact .inl (accesses ▸ read.append_left)
    · exact exposed.branch [] places (.head _) (accesses.trans (by rw [List.append_nil]; rfl))
        seg.left.left conditionCode.inFrame fresh
  | @StmtCode.condElse _ _ _ _ _ _ _ body otherwise condition jump lines others
      conditionCode bodyCode otherwiseCode, seg, fresh => by
    have accesses := Node.accesses_condElse .noType (.mk .block .noType body) otherwise condition
    have front : Seg code pc (jump ++ lines) := seg.left.left.left
    have fresh' := accesses ▸ fresh
    have jumps := conditionCode.guarded places unique front.left fun q found =>
      (.inl ⟨_, rfl, found⟩ : AtExit code (some (.elseOf c.conds)) q ∨
        AtExit code (some (exit?.getD (.endOf c.conds))) q)
    have both := Guarded.either seg.left unique jumps
      (bodyCode.guarded places unique front.right fresh'.right.left)
      (otherwiseCode.guarded places unique seg.left.right fresh'.right.right)
    refine (both.behind unique seg).mono (fun _ => trivial) ?_
    rintro q (read | exposed | ⟨le, exposed⟩)
    · exact .inl (accesses ▸ read.append_left)
    · exact exposed.branch _ places (.head _) accesses front.left conditionCode.inFrame fresh
    · exact exposed.otherwise places le seg.left.left conditionCode.inFrame bodyCode fresh
  | @StmtCode.loop _ _ _ _ _ _ body condition jump lines conditionCode bodyCode, seg, fresh => by
    have accesses := Node.accesses_loop .noType (.mk .block .noType body) condition
    have whole : Seg code pc ([.label (.loopTop c.loops)] ++ (jump ++ lines)) := by
      rw [← List.append_assoc]
      exact seg.left
    have start : Seg code (pc + 1) (jump ++ lines) := whole.right
    have jumps := conditionCode.guarded places unique start.left fun q found =>
      (.inr ⟨_, rfl, found⟩ : AtExit code (some (.loopTop c.loops)) q ∨
        AtExit code (some (.loopEnd c.loops)) q)
    have body := bodyCode.guarded places unique start.right (accesses ▸ fresh).right
    refine (Guarded.loop seg unique jumps body).mono (fun _ => trivial) ?_
    rintro q (read | exposed)
    · exact .inl (accesses ▸ read.append_left)
    · have lead := (inFrame_label (.loopTop c.loops)).append
        conditionCode.inFrame
      have place : pc + 1 + jump.length =
          pc + ([Line.label (.loopTop c.loops)] ++ jump).length := by
        rw [List.length_append, List.length_singleton, Nat.add_assoc]
      rw [place] at exposed
      exact exposed.branch [] places (.head _) (accesses.trans (by rw [List.append_nil]; rfl))
        seg.left.left lead fresh
  | .call _ _ argsCode, seg, _ => by
    refine (guarded_of_touches _ seg (target?_callCode argsCode.target?) ?_).mono id fun _ => .inl
    rw [call_touches, argsCode.touches places]
    rfl
  | .ret _ _ valuesCode, seg, _ => by
    refine (guarded_of_touches _ seg ?_ ?_).mono id fun _ => .inl
    · simp only [List.forall_mem_append]
      exact ⟨⟨valuesCode.target?, target?_resultStores⟩, by simp [Instr.target?]⟩
    · rw [slotTouches_append, slotTouches_append, slotTouches_eq_nil touch?_resultStores,
        valuesCode.touches places, slotTouches_singleton, List.append_nil]
      exact List.append_nil _
  | .read _ place _, seg, _ => by
    refine (guarded_of_touches _ seg ?_ ?_).mono id fun _ => .inl
    · simp only [List.forall_mem_append]
      exact ⟨⟨place.target?.1, by simp [scanCode, Instr.target?]⟩, place.target?.2⟩
    · rw [slotTouches_append, slotTouches_append, (place.touches places).1,
        (place.touches places).2, slotTouches_eq_nil touch?_scanCode, List.append_nil,
        ← touches_append]
      simp [Node.ownAccesses, Node.kind, Node.children]
  | .write _ valueCode, seg, _ => by
    refine (guarded_of_touches _ seg ?_ ?_).mono id fun _ => .inl
    · simp only [List.forall_mem_append]
      exact ⟨⟨by simp [Instr.target?], valueCode.target?⟩, by simp [Instr.target?]⟩
    · rw [slotTouches_append, slotTouches_append, valueCode.touches places, slotTouches_singleton,
        slotTouches_singleton]
      simp [Node.ownAccesses, Node.readsAll, Instr.touch?, Node.kind, Node.children]

/-- The code of statements is guarded by what the statements keep, and exposes only certain
loads. -/
theorem StmtsCode.guarded (places : ctx.Places s v slot) (unique : LabelsUnique code)
    {c c' : LabelCounters} {nodes : List Node} {lines : List Line} {pc : Nat} :
    StmtsCode ctx s c nodes lines c' → Seg code pc lines →
      DeclaredFirst v (Node.accessesAll nodes) →
      Guarded code slot pc lines.length (AtExit code none) (Node.KeepsAll v nodes)
        (ExposedIn ctx s v slot code nodes pc)
  | .nil, _, _ => Guarded.nil.mono id fun _ => False.elim
  | @StmtsCode.cons _ _ _ _ _ node nodes lines rest first others, seg, fresh => by
    rw [List.length_append]
    have both := (first.guarded places unique seg.left fresh.left).append
      (others.guarded places unique seg.right fresh.right)
    refine both.mono id ?_
    rintro q ((load | behind) | ⟨keeps, le, load | ⟨m, mem, behind⟩⟩)
    · exact .inl load.append_left
    · exact .inr ⟨node, .head _, behind⟩
    · by_cases declares : .declare v ∈ node.accesses
      · -- The declaration may be left out, and the load is behind it.
        exact .inr ⟨node, .head _, (first.behind places seg.left keeps fresh.left declares).mono le⟩
      · exact .inl (load.append_right declares)
    · have later : .declare v ∈ Node.accessesAll nodes :=
        Node.mem_accessesAll.2 ⟨m, mem, behind.declares⟩
      exact .inr ⟨m, .tail _ mem, behind.after places seg.left first.inFrame fresh later⟩

end

end

end MiniGo
