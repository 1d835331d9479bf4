import MiniGo.Proofs.Slots.Code

/-!
# Instructions for local variables

The instructions of a method that load and store local slots are those of the variables that its
body accesses, one for one and in the same order. They do not say whose variable they are for: the
slot is counted in the frame of the method, so it matters that a body accesses no variable of
another function.

* `Context.Accesses`: the instruction for an access to a variable of a scope.
* `InFrame`: the accesses and the instructions belong together.
* `StmtsCode.inFrame`: so they do for statements and their code.
-/

namespace MiniGo

/-! ### Accesses and instructions -/

/-- The variable that is accessed. -/
def VarAccess.variable : VarAccess → VarRef
  | load v | store v | declare v => v

/-- The slot that an instruction loads or stores. -/
def Instr.slot? : Instr → Option Nat
  | load _ slot | store _ slot => some slot
  | loadThis => some 0
  | _ => none

/-- A line that loads or stores a slot, as an instruction. -/
def Line.local? : Line → Option Instr
  | .instr i => if i.slot?.isSome then some i else none
  | _ => none

/-- The instructions that load and store slots, in order. -/
def localCode (lines : List Line) : List Instr := lines.filterMap Line.local?

/-- Whether an access is one to a variable of a function. -/
def VarAccess.isLocal (a : VarAccess) : Bool := a.variable.scope != .globals

/-- The instruction for an access to a variable of a scope: it has the letter of the type of the
variable, and its slot is that of the variable in the frame. -/
inductive Context.Accesses (ctx : Context) (s : Scope) : VarAccess → Instr → Prop
  | load {v : VarRef} {x : Variable} (own : v.scope = s) (entry : ctx.tables.var? v = some x) :
      Accesses ctx s (.load v) (.load x.ty.valueKind (ctx.frame.slot v.slot))
  | store {v : VarRef} {x : Variable} (own : v.scope = s) (entry : ctx.tables.var? v = some x) :
      Accesses ctx s (.store v) (.store x.ty.valueKind (ctx.frame.slot v.slot))
  | declare {v : VarRef} {x : Variable} (own : v.scope = s) (entry : ctx.tables.var? v = some x) :
      Accesses ctx s (.declare v) (.store x.ty.valueKind (ctx.frame.slot v.slot))

/-- The letter with which the instructions for a variable of a descriptor begin. -/
def Descriptor.letter : Descriptor → String
  | .boolean | .int => "i"
  | .float => "f"
  | .object _ | .array _ => "a"
  | .void => ""

/-- What stands between this letter and the slot. -/
def VarAccess.word : VarAccess → String
  | load _ => "load "
  | store _ | declare _ => "store "

theorem Variable.WellFormed.letter {x : Variable} (wf : x.WellFormed) :
    x.ty.valueKind.letter = x.descriptor.letter := by
  cases wf with
  | scalar isScalar =>
    rename_i ty
    cases ty <;> first | rfl | cases isScalar
  | array => rfl

namespace Context.Accesses

variable {ctx : Context} {s : Scope} {a a' : VarAccess} {i i' : Instr}

/-- What is written for an access to a variable: the letter of the descriptor of the variable, and
its slot. -/
theorem text (h : ctx.Accesses s a i) (wf : ctx.tables.WellFormed) :
    ∃ x, ctx.tables.var? a.variable = some x ∧
    (Line.instr i).text =
      "\t" ++ (x.descriptor.letter ++ a.word ++ toString (ctx.frame.slot a.variable.slot)) := by
  cases h with
  | load _ entry | store _ entry | declare _ entry =>
    refine ⟨_, entry, congrArg ("\t" ++ ·) ?_⟩
    rw [← (wf.var? entry).letter]
    simp only [Instr.text, VarAccess.word, String.append_assoc]
    rfl

theorem own (h : ctx.Accesses s a i) : a.variable.scope = s := by
  cases h <;> assumption

theorem slot (h : ctx.Accesses s a i) : i.slot? = some (ctx.frame.slot a.variable.slot) := by
  cases h <;> rfl

theorem entry (h : ctx.Accesses s a i) : ∃ x, ctx.tables.var? a.variable = some x := by
  cases h with
  | load _ entry | store _ entry | declare _ entry => exact ⟨_, entry⟩

/-- An access does to its variable what the instruction does to the slot. -/
theorem touch? {v : VarRef} {slot : Nat} (h : ctx.Accesses s a i) (places : ctx.Places s v slot) :
    i.touch? slot = a.touch? v := by
  cases h with
  | load own | store own | declare own =>
    simp [Instr.touch?, VarAccess.touch?, places.slot_eq_iff own]

/-- Instructions for different variables of a scope use different slots. -/
theorem slot_eq_iff (h : ctx.Accesses s a i) (h' : ctx.Accesses s a' i') :
    i.slot? = i'.slot? ↔ a.variable = a'.variable := by
  have scopes : a.variable.scope = a'.variable.scope := h.own.trans h'.own.symm
  rw [h.slot, h'.slot]
  generalize a.variable = v at scopes
  generalize a'.variable = w at scopes
  obtain ⟨slot, scope⟩ := v
  obtain ⟨slot', scope'⟩ := w
  obtain rfl : scope = scope' := scopes
  simp [Frame.slot]

end Context.Accesses

/-! ### Lists of accesses -/

/-- The accesses to local variables and the instructions for local slots belong together, one for
one. -/
def InFrame (ctx : Context) (s : Scope) (accesses : List VarAccess) (lines : List Line) : Prop :=
  List.Forall₂ (ctx.Accesses s) (accesses.filter VarAccess.isLocal) (localCode lines)

variable {ctx : Context} {s : Scope} {accesses accesses' : List VarAccess} {ls ms : List Line}
  {is js : List Instr}

namespace InFrame

/-- Lines without a local slot. -/
theorem free (h : ∀ l ∈ ls, l.local? = none) : InFrame ctx s [] ls := by
  rw [InFrame, localCode, List.filterMap_eq_nil_iff.2 h]
  exact .nil

theorem append (h : InFrame ctx s accesses ls) (h' : InFrame ctx s accesses' ms) :
    InFrame ctx s (accesses ++ accesses') (ls ++ ms) := by
  rw [InFrame, localCode, List.filter_append, List.filterMap_append]
  exact List.rel_append h h'

theorem cast (h : InFrame ctx s accesses ls) (same : accesses = accesses') :
    InFrame ctx s accesses' ls := same ▸ h

/-- Lines without a local slot after others. -/
theorem andFree (h : InFrame ctx s accesses ls) (free : ∀ l ∈ ms, l.local? = none) :
    InFrame ctx s accesses (ls ++ ms) := by
  have both := h.append (InFrame.free free)
  rwa [List.append_nil] at both

/-- Instructions one after the other. -/
theorem code (h : InFrame ctx s accesses (asLines is)) (h' : InFrame ctx s accesses' (asLines js)) :
    InFrame ctx s (accesses ++ accesses') (asLines (is ++ js)) := by
  rw [asLines, List.map_append]
  exact h.append h'

/-- Instructions without a local slot. -/
theorem freeCode (h : ∀ i ∈ is, i.slot? = none) : InFrame ctx s [] (asLines is) := by
  refine .free fun l mem => ?_
  obtain ⟨i, found, rfl⟩ := List.mem_map.1 mem
  simp [Line.local?, h i found]

/-- Instructions without a local slot after others. -/
theorem before (js : List Instr) (h : InFrame ctx s accesses (asLines is))
    (free : ∀ i ∈ js, i.slot? = none) :
    InFrame ctx s accesses (asLines (is ++ js)) := by
  have both := h.code (.freeCode free)
  rwa [List.append_nil] at both

/-- Instructions without a local slot before others. -/
theorem behind (is : List Instr) (h : InFrame ctx s accesses (asLines js))
    (free : ∀ i ∈ is, i.slot? = none) :
    InFrame ctx s accesses (asLines (is ++ js)) := (InFrame.freeCode free).code h

/-- All variables that the initializer accesses are global. -/
theorem eq_nil (h : InFrame ctx .globals accesses ls) : localCode ls = [] := by
  have none : accesses.filter VarAccess.isLocal = [] := by
    refine List.eq_nil_iff_forall_not_mem.2 fun a mem => ?_
    obtain ⟨j, found⟩ := List.mem_iff_getElem?.1 mem
    obtain ⟨i, -, access⟩ := forall₂_getElem? h found
    have isLocal := (List.mem_filter.1 mem).2
    simp [VarAccess.isLocal, access.own] at isLocal
  rw [InFrame, none, List.forall₂_nil_left_iff] at h
  exact h

/-- Lines whose accesses are to other variables neither load nor store the slot of a variable. -/
theorem untouched {v : VarRef} {slot : Nat} (h : InFrame ctx s accesses ls)
    (places : ctx.Places s v slot) (free : touches v accesses = []) :
    ∀ l ∈ ls, l.touch? slot = none := by
  intro l mem
  cases l with
  | instr i =>
    show i.touch? slot = none
    by_cases isLocal : i.slot?.isSome = true
    · have listed : i ∈ localCode ls :=
        List.mem_filterMap.2 ⟨_, mem, by simp [Line.local?, isLocal]⟩
      obtain ⟨j, found⟩ := List.mem_iff_getElem?.1 listed
      obtain ⟨a, there, access⟩ := forall₂_getElem? (List.Forall₂.flip h) found
      rw [access.touch? places]
      have member := (List.mem_filter.1 (List.mem_of_getElem? there)).1
      exact List.filterMap_eq_nil_iff.1 free a member
    · cases i with
      | load | store | loadThis => simp [Instr.slot?] at isLocal
      | _ => rfl
  | _ => rfl

/-- An instruction for an access, or none if the variable is global. -/
theorem single {a : VarAccess} {i : Instr} (global : a.variable.scope = .globals → i.slot? = none)
    (accesses : a.variable.scope ≠ .globals → ctx.Accesses s a i) :
    InFrame ctx s [a] (asLines [i]) := by
  by_cases scope : a.variable.scope = .globals
  · simp [InFrame, localCode, Line.local?, VarAccess.isLocal, scope, global scope]
  · have access := accesses scope
    have isLocal : a.isLocal = true := by simpa [VarAccess.isLocal] using scope
    rw [InFrame, List.filter_cons_of_pos isLocal]
    simp [localCode, Line.local?, access.slot, access]

end InFrame

/-! ### Single variables -/

section

variable {v : VarRef} {x : Variable}

theorem load_inFrame (sees : s.Sees v) (entry : ctx.tables.var? v = some x) :
    InFrame ctx s [.load v] (asLines [ctx.loadInstr v x]) := by
  refine .single (fun global => ?_) fun scope => ?_
  · rw [Context.loadInstr, show v.scope = .globals from global]
    rfl
  · have own : v.scope = s := sees.resolve_left scope
    rw [Context.loadInstr]
    split
    · exact absurd ‹_› scope
    · exact .load own entry

theorem store_inFrame (sees : s.Sees v) (entry : ctx.tables.var? v = some x) :
    InFrame ctx s [.store v] (asLines [ctx.storeInstr v x]) := by
  refine .single (fun global => ?_) fun scope => ?_
  · rw [Context.storeInstr, show v.scope = .globals from global]
    rfl
  · have own : v.scope = s := sees.resolve_left scope
    rw [Context.storeInstr]
    split
    · exact absurd ‹_› scope
    · exact .store own entry

theorem declare_inFrame (own : v.scope = s) (entry : ctx.tables.var? v = some x) :
    InFrame ctx s [.declare v] (asLines [ctx.storeInstr v x]) := by
  refine .single (fun global => ?_) fun scope => ?_
  · rw [Context.storeInstr, show v.scope = .globals from global]
    rfl
  · rw [Context.storeInstr]
    split
    · exact absurd ‹_› scope
    · exact .declare own entry

theorem address_inFrame (sees : s.Sees v) (entry : ctx.tables.var? v = some x) (k : Nat) :
    InFrame ctx s [.load v] (asLines (ctx.addressCode v x k)) :=
  (load_inFrame sees entry).before [.ldc (.int k)] (by simp [Instr.slot?])

end

/-! ### Code without local slots -/

theorem slot?_convertCode {value wanted : Ty} : ∀ i ∈ convertCode value wanted, i.slot? = none := by
  unfold convertCode
  split <;> simp [Instr.slot?]

theorem slot?_compareCode {o : BinaryOp} {ty : Ty} {code : CondCode} {l : Label} :
    ∀ i ∈ compareCode o ty code l, i.slot? = none := by
  unfold compareCode
  split <;> simp [Instr.slot?]

theorem slot?_defaultCode {x : Variable} : ∀ i ∈ defaultCode x, i.slot? = none := by
  unfold defaultCode
  split
  · simp [Instr.slot?]
  · cases x.ty <;> simp [zeroInstr, Instr.slot?]

theorem slot?_scanCode {method : MethodRef} : ∀ i ∈ scanCode method, i.slot? = none := by
  simp [scanCode, Instr.slot?]

theorem slot?_resultStores {f : Function} {tys : List Ty} :
    ∀ i ∈ resultStores ctx f tys, i.slot? = none := by
  intro i mem
  simp only [resultStores, List.mem_reverse, List.mem_mapIdx] at mem
  obtain ⟨_, _, rfl⟩ := mem
  rfl

theorem local?_exit {exit? : Option Label} {l : Label} :
    ∀ l' ∈ (if exit?.isNone then [Line.label l] else []), l'.local? = none := by
  cases exit? <;> simp [Line.local?]

/-- The instructions around the arguments of a call use no local slot. -/
theorem call_inFrame {f : Function} (h : InFrame ctx s accesses (asLines is)) :
    InFrame ctx s accesses (asLines (callCode ctx f is)) := by
  refine (h.behind _ ?_).before _ (by simp [Instr.slot?])
  split <;> simp [Instr.slot?]

/-! ### Values and conditions -/

theorem loads_operation {o : BinaryOp} {ty : Ty} {left right : Node} :
    (Node.mk (.op o) ty [left, right]).reads.map VarAccess.load =
      left.reads.map .load ++ right.reads.map .load := by
  simp [Node.reads, Node.readsAll]

mutual

/-- The code of a value loads what the node reads. -/
theorem ValueCode.inFrame {n : Node} {code : List Instr} :
    ValueCode ctx s n code → InFrame ctx s (n.reads.map .load) (asLines code)
  | .int .. | .float | .bool | .string => .freeCode (by simp [Instr.slot?])
  | .name sees entry _ => load_inFrame sees entry
  | .element sees entry _ _ => (address_inFrame sees entry _).before _ (by simp [Instr.slot?])
  | .arithmetic _ _ _ _ leftCode rightCode => by
    rw [loads_operation]
    exact (((leftCode.inFrame.before _ slot?_convertCode).code rightCode.inFrame).before _
      slot?_convertCode).before [.arith _ _] (by simp [Instr.slot?])
  | .concat _ _ leftCode rightCode => by
    rw [loads_operation]
    exact (leftCode.inFrame.code rightCode.inFrame).before [.invokeVirtual _]
      (by simp [Instr.slot?])
  | .call _ _ _ argsCode => (call_inFrame argsCode.inFrame).before _ (by simp [Instr.slot?])

/-- The code of arguments loads what they read. -/
theorem ArgumentsCode.inFrame {args : List Node} {tys : List Ty} {code : List Instr} :
    ArgumentsCode ctx s args tys code →
    InFrame ctx s ((Node.readsAll args).map .load) (asLines code)
  | .nil => .freeCode (by simp)
  | .cons _ first others => by
    rw [Node.readsAll, List.map_append]
    exact (first.inFrame.before _ slot?_convertCode).code others.inFrame

end

/-- The code of a condition loads what the node reads. -/
theorem ConditionCode.inFrame {jump : Emission.Jump} {c c' : LabelCounters} {n : Node}
    {lines : List Line} (h : ConditionCode ctx s jump c n lines c') :
    InFrame ctx s (n.reads.map .load) lines := by
  induction h with
  | value _ valueCode => exact valueCode.inFrame.before _ (by simp [Instr.slot?])
  | comparison _ _ _ _ leftCode rightCode =>
    rw [loads_operation]
    exact (((leftCode.inFrame.before _ slot?_convertCode).code rightCode.inFrame).before _
      slot?_convertCode).before _ slot?_compareCode
  | both _ _ _ ihl ihr =>
    rw [loads_operation]
    exact ihl.append ihr
  | skip _ _ _ ihl ihr =>
    rw [loads_operation]
    exact (ihl.append ihr).andFree (by simp [Line.local?])

/-! ### Statements -/

/-- A place loads its address and stores into its variable. -/
theorem PlaceCode.inFrame {target : Node} {before after : List Instr}
    (h : PlaceCode ctx s target before after) :
    InFrame ctx s target.addressAccesses (asLines before) ∧
    InFrame ctx s target.storeAccesses (asLines after) := by
  cases h with
  | name sees entry => exact ⟨.freeCode (by simp), store_inFrame sees entry⟩
  | declared own entry => exact ⟨.freeCode (by simp), declare_inFrame own entry⟩
  | element sees entry => exact ⟨address_inFrame sees entry _, .freeCode (by simp [Instr.slot?])⟩

theorem ResultsCode.inFrame {f : Function} {i : Nat} {targets : List Node} {tys : List Ty}
    {code : List Instr} (h : ResultsCode ctx s f i targets tys code) :
    InFrame ctx s (targets.flatMap fun n => n.addressAccesses ++
      n.storeAccesses) (asLines code) := by
  induction h with
  | nil => exact .freeCode (by simp)
  | cons _ _ place _ ih =>
    obtain ⟨address, store⟩ := place.inFrame
    rw [List.flatMap_cons]
    exact (((address.before _ (by simp [Instr.slot?])).before _ slot?_convertCode).code
      store).code ih

mutual

/-- The local slots in the code of a statement are those of what the statement accesses. -/
theorem StmtCode.inFrame {exit? : Option Label} {c c' : LabelCounters} {n : Node}
    {lines : List Line} :
    StmtCode ctx s exit? c n lines c' → InFrame ctx s n.accesses lines
  | .declaration own entry => (declare_inFrame own entry).behind _ slot?_defaultCode
  | @StmtCode.assign _ _ _ _ target value _ _ _ _ place valueCode => by
    obtain ⟨address, store⟩ := place.inFrame
    have accesses : (Node.mk .assign .noType [target, value]).accesses = _ :=
      place.ownAccesses_assign
    rw [accesses]
    exact ((address.code valueCode.inFrame).before _ slot?_convertCode).code store
  | .assignResults _ _ argsCode results => (call_inFrame argsCode.inFrame).code results.inFrame
  | .block body => body.inFrame
  | .cond conditionCode bodyCode => by
    refine ((conditionCode.inFrame.append bodyCode.inFrame).andFree local?_exit).cast ?_
    simp [Node.accesses, Node.conditionReads, Node.accessesOfBranches]
  | .condElse conditionCode bodyCode otherwiseCode => by
    refine ((((conditionCode.inFrame.append bodyCode.inFrame).andFree ?_).append
      otherwiseCode.inFrame).andFree local?_exit).cast ?_
    · simp [Line.local?, Instr.slot?]
    · simp [Node.accesses, Node.conditionReads, Node.accessesOfBranches]
  | .loop conditionCode bodyCode => by
    refine ((((InFrame.free ?_).append conditionCode.inFrame).append
      bodyCode.inFrame).andFree ?_).cast ?_
    · simp [Line.local?]
    · simp [Line.local?, Instr.slot?]
    · simp [Node.accesses, Node.conditionReads, Node.accessesOfBranches]
  | .call _ _ argsCode => call_inFrame argsCode.inFrame
  | .ret _ _ valuesCode =>
    (valuesCode.inFrame.before _ slot?_resultStores).before [.ret] (by simp [Instr.slot?])
  | .read _ place _ => by
    obtain ⟨address, store⟩ := place.inFrame
    refine ((address.before _ slot?_scanCode).code store).cast ?_
    simp [Node.accesses, Node.ownAccesses, Node.kind, Node.children]
  | .write _ valueCode => by
    refine ((valueCode.inFrame.behind [.getStatic Library.standardOutput] ?_).before
      [.invokeVirtual _] ?_).cast ?_
    · simp [Instr.slot?]
    · simp [Instr.slot?]
    · simp [Node.accesses, Node.ownAccesses, Node.readsAll, Node.kind, Node.children]

/-- The local slots in the code of statements are those of what the statements access. -/
theorem StmtsCode.inFrame {c c' : LabelCounters} {nodes : List Node} {lines : List Line} :
    StmtsCode ctx s c nodes lines c' → InFrame ctx s (Node.accessesAll nodes) lines
  | .nil => .free (by simp)
  | .cons first others => first.inFrame.append others.inFrame

end

end MiniGo
