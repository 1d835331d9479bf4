import MiniGo.Proofs.Flow
import MiniGo.Proofs.Linking

/-!
# The depth of the operand stack

Each instruction takes a number of values from the stack and puts a number of values there. How deep
the stack gets in a method can be read off its statements.

* `DepthAt`: a line is reached with a number of values on the stack.
* `Node.room`, `Node.stmtRoom`: how much room a node needs on the stack.
* `StmtsCode.rises`: the code of statements needs exactly as much.
-/

namespace MiniGo

/-! ### Single lines -/

/-- How many values of a descriptor there are: one, or none. -/
def Descriptor.width (d : Descriptor) : Nat := if d = .void then 0 else 1

namespace Instr

/-- How many values an instruction takes from the stack. -/
def pops : Instr → Nat
  | ldc _ | intConst _ | floatZero | nullConst | load _ _ | loadThis | getStatic _ | newObject _
  | goto _ | ret => 0
  | store _ _ | putStatic _ | newArray _ | dup | intToFloat | ifZero _ _ => 1
  | elementLoad _ | arith _ _ | floatCompare _ | ifCompare _ _ => 2
  | elementStore _ => 3
  | invokeStatic m => m.signature.type.params.length
  | invokeVirtual m | invokeSpecial m => m.signature.type.params.length + 1

/-- How many values an instruction puts on the stack. -/
def pushes : Instr → Nat
  | ldc _ | intConst _ | floatZero | nullConst | load _ _ | loadThis | newObject _ | newArray _
  | elementLoad _
  | arith _ _ | intToFloat | floatCompare _ => 1
  | dup => 2
  | getStatic f => f.descriptor.width
  | invokeStatic m | invokeVirtual m => m.signature.type.result.width
  | store _ _ | putStatic _ | elementStore _ | invokeSpecial _ | ifZero _ _ | ifCompare _ _
  | goto _ | ret => 0

end Instr

/-- The depth of the stack after a line. -/
def Line.depthAfter : Line → Nat → Nat
  | .instr i, d => d - i.pops + i.pushes
  | _, d => d

/-- A line of the code is reached with a depth of the stack. -/
inductive DepthAt (code : List Line) : Nat → Nat → Prop
  | start : DepthAt code 0 0
  | step {pc pc' d : Nat} {l : Line} (reached : DepthAt code pc d) (found : code[pc]? = some l)
      (goes : Goes code pc pc') : DepthAt code pc' (l.depthAfter d)

/-! ### Depths and shapes -/

theorem length_pushResult (d : Descriptor) (shape : Shape) :
    (pushResult d shape).length = shape.length + d.width := by
  unfold pushResult Descriptor.width
  cases d with
  | object className => by_cases h : className = Library.stringClass <;> simp [Descriptor.kind?, h]
  | _ => simp [Descriptor.kind?]

theorem length_popArguments {ds : List Descriptor} {shape shape' : Shape}
    (h : popArguments ds shape = some shape') : shape.length = shape'.length + ds.length := by
  induction ds generalizing shape with
  | nil =>
    cases h
    rfl
  | cons d ds ih =>
    cases shape with
    | nil => cases h
    | cons k shape =>
      simp only [popArguments] at h
      split at h
      · have rest := ih h
        simp only [List.length_cons]
        omega
      · cases h

theorem length_popReceiver {owner : String} {shape shape' : Shape}
    (h : popReceiver owner shape = some shape') :
    shape.length = shape'.length + 1 := by
  cases shape with
  | nil => cases h
  | cons k shape =>
    simp only [popReceiver] at h
    split at h <;> cases h
    rfl

/-- The shape after an instruction is as deep as the instruction says. -/
theorem Instr.length_after {env : MethodEnv} {i : Instr} {shape shape' : Shape} :
    i.after env shape = some shape' → shape'.length = shape.length - i.pops + i.pushes := by
  fun_cases after env i shape with
  | case14 =>
    -- The element of an array
    intro h
    obtain ⟨k, -, rfl⟩ := Option.map_eq_some_iff.1 h
    rfl
  | case18 =>
    -- A field
    intro h
    cases h
    exact length_pushResult _ _
  | case22 =>
    -- A call of a method of the class
    intro h
    obtain ⟨rest, popped, rfl⟩ := Option.map_eq_some_iff.1 h
    have length := length_popArguments popped
    rw [List.length_reverse] at length
    rw [length_pushResult, pops, pushes]
    omega
  | case24 =>
    -- A call of a method on an object
    intro h
    obtain ⟨rest, popped, rfl⟩ := Option.map_eq_some_iff.1 h
    obtain ⟨args, poppedArgs, receiver⟩ := Option.bind_eq_some_iff.1 popped
    have length := length_popArguments poppedArgs
    have one := length_popReceiver receiver
    rw [List.length_reverse] at length
    rw [length_pushResult, pops, pushes]
    omega
  | case26 =>
    -- A constructor
    intro h
    obtain ⟨args, poppedArgs, receiver⟩ := Option.bind_eq_some_iff.1 h
    have length := length_popArguments poppedArgs
    rw [List.length_reverse] at length
    split at receiver
    · split at receiver <;> cases receiver
      rw [List.length_cons] at length
      rw [pops, pushes]
      omega
    · cases receiver
  | _ =>
    intro h
    cases h <;> rfl

theorem Line.length_after {env : MethodEnv} {l : Line} {shape shape' : Shape}
    (h : l.after env shape = some shape') : shape'.length = l.depthAfter shape.length := by
  cases l with
  | instr i => exact Instr.length_after h
  | label l =>
    obtain rfl := Line.eq_nil_of_label h
    cases h
    rfl
  | limitStack n | limitLocals n =>
    cases h
    rfl
  | _ => cases h

/-- In a typed method, a line is reached with as many values as its shape has, whatever the way. -/
theorem Method.TypedBy.depth {env : MethodEnv} {m : Method} {shape : Nat → Shape}
    (typed : m.TypedBy env shape) {pc d : Nat} (h : DepthAt m.code pc d) :
    d = (shape pc).length := by
  induction h with
  | start => rw [typed.start, List.length_nil]
  | @step pc pc' d l _ found goes ih =>
    have after := Line.length_after (typed.line found)
    rw [ih, ← after]
    cases goes with
    | next => rfl
    | branch branch branches label =>
      -- The stack is empty after a branch and at a label.
      obtain ⟨l', labelled⟩ := label_of_findIdx? label
      rw [(typed.branch branch branches).1, Line.eq_nil_of_label (typed.line labelled)]

/-! ### The greatest depth of lines -/

/-- The depth after lines. -/
def rise : List Line → Nat → Nat
  | [], d => d
  | l :: ls, d => rise ls (l.depthAfter d)

/-- The greatest depth before, between and after lines. -/
def peak : List Line → Nat → Nat
  | [], d => d
  | l :: ls, d => max d (peak ls (l.depthAfter d))

theorem rise_append (ls ms : List Line) (d : Nat) : rise (ls ++ ms) d = rise ms (rise ls d) := by
  induction ls generalizing d with
  | nil => rfl
  | cons l ls ih => exact ih _

theorem le_peak (ls : List Line) (d : Nat) : d ≤ peak ls d := by
  cases ls with
  | nil => exact Nat.le_refl d
  | cons l ls => exact Nat.le_max_left _ _

theorem peak_append (ls ms : List Line) (d : Nat) :
    peak (ls ++ ms) d = max (peak ls d) (peak ms (rise ls d)) := by
  induction ls generalizing d with
  | nil => exact (Nat.max_eq_right (le_peak ms d)).symm
  | cons l ls ih => rw [List.cons_append, peak, ih, peak, rise, Nat.max_assoc]

/-- The greatest depth is that after some of the lines. -/
theorem peak_eq_rise_take (ls : List Line) (d : Nat) :
    ∃ pc ≤ ls.length, rise (ls.take pc) d = peak ls d := by
  induction ls generalizing d with
  | nil => exact ⟨0, Nat.le_refl _, rfl⟩
  | cons l ls ih =>
    obtain ⟨pc, bound, eq⟩ := ih (l.depthAfter d)
    rcases Nat.le_total (peak ls (l.depthAfter d)) d with le | le
    · exact ⟨0, Nat.zero_le _, (Nat.max_eq_left le).symm⟩
    · exact ⟨pc + 1, Nat.succ_le_succ bound, by rw [List.take_succ_cons, rise, eq, peak,
        Nat.max_eq_right le]⟩

theorem rise_take_le_peak (ls : List Line) (d pc : Nat) : rise (ls.take pc) d ≤ peak ls d := by
  induction ls generalizing d pc with
  | nil => simp [rise, peak]
  | cons l ls ih =>
    cases pc with
    | zero => exact Nat.le_max_left _ _
    | succ pc => exact Nat.le_trans (ih _ pc) (Nat.le_max_right _ _)

/-- Lines lead from one depth to another, and reach a greatest depth. -/
structure Rises (ls : List Line) (d d' top : Nat) : Prop where
  rise : rise ls d = d'
  peak : peak ls d = top

namespace Rises

variable {ls ms : List Line} {is js : List Instr} {d d' d'' top top' : Nat}

theorem nil : Rises [] d d d := ⟨rfl, rfl⟩

/-- The depth at the end is not greater than the greatest one. -/
theorem le (h : Rises ls d d' top) : d' ≤ top := by
  have last := rise_take_le_peak ls d ls.length
  rwa [List.take_length, h.rise, h.peak] at last

theorem append (h : Rises ls d d' top) (h' : Rises ms d' d'' top') :
    Rises (ls ++ ms) d d'' (max top top') :=
  ⟨by rw [rise_append, h.rise, h'.rise], by rw [peak_append, h.peak, h.rise, h'.peak]⟩

/-- Instructions one after the other. -/
theorem code (h : Rises (asLines is) d d' top) (h' : Rises (asLines js) d' d'' top') :
    Rises (asLines (is ++ js)) d d'' (max top top') := by
  rw [asLines, List.map_append]
  exact h.append h'

theorem cast {e f : Nat} (h : Rises ls d d' top) (rise : d' = e) (peak : top = f) :
    Rises ls d e f := by
  rw [← rise, ← peak]
  exact h

theorem instr {i : Instr} :
    Rises (asLines [i]) d (d - i.pops + i.pushes) (max d (d - i.pops + i.pushes)) :=
  ⟨rfl, rfl⟩

theorem label {l : Label} : Rises [.label l] d d d := ⟨rfl, Nat.max_self d⟩

end Rises

/-! ### Room for nodes -/

namespace Node

mutual

/-- How much room the code of a value or a condition needs on the stack. -/
def room : Node → Nat
  | mk kind _ children =>
    match kind with
    | .op o => if o.isLogical then roomApart children else roomBeside children
    | .call _ => max 1 (roomBeside children)
    | .arrayUse _ _ => 2
    | _ => 1

/-- How much room values need that are kept one beside the other. -/
def roomBeside : List Node → Nat
  | [] => 0
  | n :: ns => max n.room (roomBeside ns + 1)

/-- How much room conditions need of which none is kept. -/
def roomApart : List Node → Nat
  | [] => 0
  | n :: ns => max n.room (roomApart ns)

end

/-- How much room the address of a target needs. -/
def addressRoom (n : Node) : Nat :=
  match n.kind with
  | .arrayUse _ _ => 2
  | _ => 0

/-- How much room a call needs whose results are left in their fields. -/
def callRoom (t : Tables) (i : Nat) (args : List Node) : Nat :=
  max (if (t.functions.get? i).any Function.isEntryPoint then 1 else 0) (roomBeside args)

/-- How much room is needed to store results into targets. -/
def targetsRoom : List Node → Nat
  | [] => 0
  | n :: ns => max (n.addressRoom + 1) (targetsRoom ns)

mutual

/-- How much room the code of a statement needs on the stack. -/
def stmtRoom (t : Tables) : Node → Nat
  | mk kind _ children =>
    match kind with
    | .varDecl _ => 1
    | .assign =>
      match children with
      | [mk .varList _ targets, mk (.call i) _ args] =>
        max (callRoom t i args) (targetsRoom targets)
      | [target, value] => target.addressRoom + value.room
      | _ => 0
    | .block => stmtsRoom t children
    | .cond | .repeat_ => branchesRoom t children
    | .call i => callRoom t i children
    | .ret => roomBeside children
    | .read =>
      match children with
      | [target] => target.addressRoom + 3
      | _ => 0
    | .write =>
      match children with
      | [value] => value.room + 1
      | _ => 0
    | _ => 0
termination_by structural node => node

/-- How much room statements need that run one after the other. -/
def stmtsRoom (t : Tables) : List Node → Nat
  | [] => 0
  | n :: ns => max (n.stmtRoom t) (stmtsRoom t ns)
termination_by structural nodes => nodes

/-- How much room the branches of a statement need, of which the last one is a condition. -/
def branchesRoom (t : Tables) : List Node → Nat
  | [] => 0
  | n :: ns => if ns.isEmpty then n.room else max (n.stmtRoom t) (branchesRoom t ns)
termination_by structural nodes => nodes

end

end Node

/-! ### Values -/

section

variable {ctx : Context} {s : Scope} {d : Nat}

theorem Descriptor.width_of_kind? {d : Descriptor} {k : StackKind} (h : d.kind? = some k) :
    d.width = 1 := by
  cases d with
  | void => cases h
  | _ => rfl

theorem Ty.width_descriptor {ty : Ty} (h : ty.isScalar = true) : ty.descriptor.width = 1 :=
  Descriptor.width_of_kind? (Ty.kind?_descriptor h)

theorem load_rises {v : VarRef} {x : Variable} (width : x.descriptor.width = 1) :
    Rises (asLines [ctx.loadInstr v x]) d (d + 1) (d + 1) := by
  unfold Context.loadInstr
  split
  · refine Rises.instr.cast ?_ ?_ <;> simp [Instr.pops, Instr.pushes, Context.fieldOf, width]
  · refine Rises.instr.cast ?_ ?_ <;> simp [Instr.pops, Instr.pushes]

theorem store_rises {v : VarRef} {x : Variable} :
    Rises (asLines [ctx.storeInstr v x]) (d + 1) d (d + 1) := by
  unfold Context.storeInstr
  split <;> refine Rises.instr.cast ?_ ?_ <;> simp [Instr.pops, Instr.pushes]

theorem address_rises {v : VarRef} {x : Variable} {shape : ArrayShape}
    (array : x.array? = some shape) (k : Nat) :
    Rises (asLines (ctx.addressCode v x k)) d (d + 2) (d + 2) := by
  have load := @load_rises ctx d v x (Descriptor.width_of_kind? (Variable.kind?_of_array array))
  exact (load.append Rises.instr).cast rfl (by simp [Instr.pops, Instr.pushes])

theorem convert_rises {value wanted : Ty} :
    Rises (asLines (convertCode value wanted)) (d + 1) (d + 1) (d + 1) := by
  unfold convertCode
  split
  · refine Rises.instr.cast ?_ ?_ <;> simp [Instr.pops, Instr.pushes]
  · exact .nil

theorem result_rises {f : Function} {i : Nat} {ty : Ty} (wf : f.WellFormed)
    (result : f.returns[i]? = some ty) :
    Rises (asLines [.getStatic (ctx.resultOf f i ty)]) d (d + 1) (d + 1) := by
  have width := Ty.width_descriptor (wf.returns ty (List.mem_of_getElem? result))
  refine Rises.instr.cast ?_ ?_ <;> simp [Instr.pops, Instr.pushes, Context.resultOf, width]

/-- A call takes its arguments from the stack. -/
theorem call_rises {j : Nat} {f : Function} {args : List Node} {code : List Instr}
    (callee : ctx.tables.functions.get? j = some f) (types : args.map Node.ty = f.params)
    (argsRise : ∀ d, Rises (asLines code) d (d + args.length) (d + Node.roomBeside args)) :
    Rises (asLines (callCode ctx f code)) d d (d + Node.callRoom ctx.tables j args) := by
  have count : args.length = f.params.length := by rw [← types, List.length_map]
  have result : f.signature.type.result.width = 0 := by rw [f.result_signature]; rfl
  unfold callCode
  by_cases main : f.isEntryPoint = true
  · -- The entry point gets one argument, the array of strings, but has no parameters.
    have none : args = [] := by
      rw [(Function.isEntryPoint_iff.1 main).2, List.length_nil] at count
      exact List.eq_nil_of_length_eq_zero count
    have params : f.signature.type.params.length = 1 := by
      rw [Function.signature_eq_entrySignature_iff.2 main]
      rfl
    subst none
    rw [if_pos main]
    refine ((Rises.instr.code (argsRise _)).code Rises.instr).cast ?_ ?_
    · simp [Instr.pops, Instr.pushes, result, params]
    · simp [Instr.pops, Instr.pushes, result, params, Node.callRoom, Node.roomBeside, callee, main]
  · have params : f.signature.type.params.length = args.length := by
      rw [Function.signature, if_neg main, count]
      simp [methodType]
    rw [if_neg main, List.nil_append]
    refine ((argsRise d).code Rises.instr).cast ?_ ?_
    · simp [Instr.pops, Instr.pushes, result, params]
    · have room := (argsRise d).le
      simp only [Instr.pops, Instr.pushes, result, params, Node.callRoom, callee, main,
        Option.any_some, Bool.false_eq_true, if_false]
      omega

mutual

/-- The code of a value pushes one value, and needs the room of its node. -/
theorem ValueCode.rises (wf : ctx.tables.WellFormed) {n : Node} {code : List Instr} :
    ValueCode ctx s n code → ∀ d, Rises (asLines code) d (d + 1) (d + n.room)
  | .int .., d | .float, d | .bool, d | .string, d =>
    Rises.instr.cast (by simp [Instr.pops, Instr.pushes])
      (by simp [Instr.pops, Instr.pushes, Node.room])
  | .name sees entry scalar, d =>
    (load_rises (Descriptor.width_of_kind? (Variable.kind?_of_scalar (wf.var? entry) scalar))).cast
      rfl rfl
  | .element _ entry array _, d =>
    ((address_rises array _).code Rises.instr).cast (by simp [Instr.pops, Instr.pushes])
      (by simp [Instr.pops, Instr.pushes, Node.room])
  | @ValueCode.arithmetic _ _ o op ty left right l r family _ _ _ leftCode rightCode, d => by
    have logical : o.isLogical = false := by cases o <;> first | rfl | cases family
    have first := leftCode.rises wf d
    have second := rightCode.rises wf (d + 1)
    refine ((((first.code convert_rises).code second).code convert_rises).code
      Rises.instr).cast ?_ ?_
    · simp [Instr.pops, Instr.pushes]
    · have room := first.le
      have room' := second.le
      simp only [Instr.pops, Instr.pushes, Node.room, logical, Node.roomBeside, Bool.false_eq_true,
        if_false]
      omega
  | @ValueCode.concat _ _ left right _ _ _ _ leftCode rightCode, d => by
    have first := leftCode.rises wf d
    have second := rightCode.rises wf (d + 1)
    have pops : (Instr.invokeVirtual Library.concat).pops = 2 := rfl
    have pushes : (Instr.invokeVirtual Library.concat).pushes = 1 := rfl
    have logical : BinaryOp.add.isLogical = false := rfl
    refine ((first.code second).code Rises.instr).cast ?_ ?_
    · rw [pops, pushes]
      omega
    · have room := first.le
      have room' := second.le
      simp only [pops, pushes, Node.room, logical, Node.roomBeside, Bool.false_eq_true, if_false]
      omega
  | .call callee result types argsCode, d => by
    have call := @call_rises ctx d _ _ _ _ callee types (argsCode.rises wf)
    refine (call.code (result_rises (wf.get? callee) (by rw [result]; rfl))).cast rfl ?_
    simp only [Node.callRoom, Node.room]
    split <;> omega

/-- The code of arguments pushes one value for each of them, and needs room for them one beside the
other. -/
theorem ArgumentsCode.rises (wf : ctx.tables.WellFormed) {args : List Node} {tys : List Ty}
    {code : List Instr} :
    ArgumentsCode ctx s args tys code →
      ∀ d, Rises (asLines code) d (d + args.length) (d + Node.roomBeside args)
  | .nil, _ => .nil
  | .cons _ first others, _ => by
    refine (((first.rises wf _).code convert_rises).code (others.rises wf _)).cast ?_ ?_
    · simp only [List.length_cons]
      omega
    · simp only [Node.roomBeside]
      omega

end

/-! ### Conditions -/

theorem compare_rises {o : BinaryOp} {ty : Ty} {code : CondCode} {l : Label} :
    Rises (asLines (compareCode o ty code l)) (d + 2) d (d + 2) := by
  unfold compareCode
  split
  · refine (Rises.append Rises.instr Rises.instr).cast ?_ ?_ <;> simp [Instr.pops, Instr.pushes]
  · refine (Rises.append Rises.instr Rises.instr).cast ?_ ?_ <;>
      simp [Instr.pops, Instr.pushes, Library.compareTo, Descriptor.width]
  · refine Rises.instr.cast ?_ ?_ <;> simp [Instr.pops, Instr.pushes]

/-- The code of a condition leaves nothing behind, and needs the room of its node. -/
theorem ConditionCode.rises (wf : ctx.tables.WellFormed) {jump : Emission.Jump}
    {c c' : LabelCounters} {n : Node} {lines : List Line}
    (h : ConditionCode ctx s jump c n lines c') : Rises lines 0 0 n.room := by
  induction h with
  | value _ valueCode =>
    have value := valueCode.rises wf 0
    have room := value.le
    refine (value.code Rises.instr).cast ?_ ?_
    · simp [Instr.pops, Instr.pushes]
    · simp only [Instr.pops, Instr.pushes]
      omega
  | @comparison _ _ o _ _ left right _ _ family _ _ _ leftCode rightCode =>
    have logical : o.isLogical = false := by
      cases o with
      | and => cases family
      | or => cases family
      | _ => rfl
    have first := leftCode.rises wf 0
    have second := rightCode.rises wf (0 + 1)
    have room := first.le
    have room' := second.le
    refine ((((first.code convert_rises).code second).code convert_rises).code compare_rises).cast
      rfl ?_
    simp only [Node.room, logical, Node.roomBeside, Bool.false_eq_true, if_false]
    omega
  -- The operands of a logical operation never stand on the stack together.
  | @both jump _ _ _ o _ _ _ _ family _ _ ihl ihr =>
    have logical : o.isLogical = true := by
      rw [family]
      split <;> rfl
    refine (ihl.append ihr).cast rfl ?_
    simp only [Node.room, logical, Node.roomApart, if_true]
    omega
  | @skip jump _ _ _ o _ _ _ _ family _ _ ihl ihr =>
    have logical : o.isLogical = true := by
      rw [family]
      split <;> rfl
    refine ((ihl.append ihr).append .label).cast rfl ?_
    simp only [Node.room, logical, Node.roomApart, if_true]
    omega

/-! ### Places -/

/-- A place needs room for its address, and for the value on top of it. -/
theorem PlaceCode.rises {target : Node} {before after : List Instr}
    (h : PlaceCode ctx s target before after) :
    (∀ d, Rises (asLines before) d (d + target.addressRoom) (d + target.addressRoom)) ∧
      ∀ d, Rises (asLines after) (d + target.addressRoom + 1) d (d + target.addressRoom + 1) := by
  cases h with
  | name => exact ⟨fun _ => .nil, fun _ => store_rises⟩
  | declared => exact ⟨fun _ => .nil, fun _ => store_rises⟩
  | element _ _ array _ =>
    refine ⟨fun _ => address_rises array _, fun d => Rises.instr.cast ?_ ?_⟩ <;>
      simp only [Instr.pops, Instr.pushes, Node.addressRoom, Node.kind] <;> omega

theorem ResultsCode.rises {f : Function} {i : Nat} {targets : List Node} {tys : List Ty}
    {code : List Instr} (wf : f.WellFormed) (h : ResultsCode ctx s f i targets tys code) :
    Rises (asLines code) 0 0 (Node.targetsRoom targets) := by
  induction h with
  | nil => exact .nil
  | @cons i target _ ty _ _ _ _ _ result place _ ih =>
    obtain ⟨before, after⟩ := place.rises
    have read := (before 0).code (@result_rises ctx (0 + target.addressRoom) f i ty wf result)
    refine (((read.code convert_rises).code (after 0)).code ih).cast rfl ?_
    simp only [Node.targetsRoom]
    omega

/-- Results are popped into their fields, the last one first. -/
theorem resultStores_rises {f : Function} (tys : List Ty) :
    Rises (asLines (resultStores ctx f tys)) tys.length 0 tys.length := by
  induction tys using List.reverseRecOn with
  | nil => exact .nil
  | append_singleton tys ty ih =>
    have stores : resultStores ctx f (tys ++ [ty]) =
        [.putStatic (ctx.resultOf f tys.length ty)] ++ resultStores ctx f tys := by
      simp [resultStores, List.mapIdx_append]
    have store : Rises (asLines [.putStatic (ctx.resultOf f tys.length ty)])
        (tys.length + 1) tys.length (tys.length + 1) := by
      refine Rises.instr.cast ?_ ?_ <;> simp [Instr.pops, Instr.pushes]
    rw [stores, List.length_append, List.length_singleton]
    refine (store.code ih).cast rfl ?_
    omega

/-! ### Statements -/

theorem default_rises {x : Variable} : Rises (asLines (defaultCode x)) 0 1 1 := by
  unfold defaultCode
  split
  · exact (Rises.append Rises.instr Rises.instr).cast rfl rfl
  · cases x.ty <;> exact Rises.instr.cast rfl rfl

theorem scan_rises {ty : Ty} {method : MethodRef} (h : Library.scan? ty = some method) :
    Rises (asLines (scanCode method)) d (d + 1) (d + 3) := by
  have scanned : (Instr.invokeVirtual method).pops = 1 ∧
      (Instr.invokeVirtual method).pushes = 1 := by
    cases ty <;> cases h <;> exact ⟨rfl, rfl⟩
  have made :
      Rises (asLines [.newObject Library.scannerClass, .dup, .getStatic Library.standardInput,
      .invokeSpecial (Library.constructor Library.scannerClass [Library.standardInput.descriptor])])
        d (d + 1) (d + 3) :=
    ⟨rfl, by
      simp [peak, Line.depthAfter, Instr.pops, Instr.pushes, Library.standardInput,
        Descriptor.width, Library.constructor]
      omega⟩
  refine (made.code (Rises.instr (i := .invokeVirtual method))).cast ?_ ?_ <;>
    rw [scanned.1, scanned.2] <;> omega

/-- A target is not a list of targets, so there is one value for it. -/
theorem PlaceCode.stmtRoom_assign {target value : Node} {before after : List Instr}
    (h : PlaceCode ctx s target before after) {t : Tables} {ty : Ty} :
    (Node.mk .assign ty [target, value]).stmtRoom t = target.addressRoom + value.room := by
  cases h <;> simp only [Node.stmtRoom]

/-- The label behind a conditional statement, if it is not that of another one. -/
theorem exit_rises {exit? : Option Label} {l : Label} :
    Rises (if exit?.isNone then [.label l] else []) d d d := by
  split
  · exact .label
  · exact .nil

mutual

/-- The code of a statement starts and ends with an empty stack, and needs the room of its node. -/
theorem StmtCode.rises (wf : ctx.tables.WellFormed) {exit? : Option Label} {c c' : LabelCounters}
    {n : Node} {lines : List Line} :
    StmtCode ctx s exit? c n lines c' → Rises lines 0 0 (n.stmtRoom ctx.tables)
  | .declaration .. => (default_rises.code store_rises).cast rfl rfl
  -- What is pushed for the place stays below the value.
  | @StmtCode.assign _ _ _ _ target value _ _ _ _ place valueCode => by
    obtain ⟨before, after⟩ := place.rises
    have codes := valueCode.rises wf (0 + target.addressRoom)
    have room := codes.le
    refine ((((before 0).code codes).code convert_rises).code (after 0)).cast rfl ?_
    rw [place.stmtRoom_assign]
    omega
  | .assignResults callee types argsCode results => by
    have call := @call_rises ctx 0 _ _ _ _ callee types (argsCode.rises wf)
    refine (call.code (results.rises (wf.get? callee))).cast rfl ?_
    simp only [Node.stmtRoom]
    omega
  | .block body => body.rises wf
  | .cond conditionCode bodyCode => by
    refine (((conditionCode.rises wf).append (bodyCode.rises wf)).append exit_rises).cast rfl ?_
    simp only [Node.stmtRoom, Node.branchesRoom, List.isEmpty_cons, List.isEmpty_nil,
      Bool.false_eq_true, if_false, if_true]
    omega
  | .condElse conditionCode bodyCode otherwiseCode => by
    have branch := (conditionCode.rises wf).append (bodyCode.rises wf)
    have across :
        Rises [.instr (.goto (exit?.getD (.endOf c.conds))), .label (.elseOf c.conds)] 0 0 0 :=
      ⟨rfl, rfl⟩
    refine (((branch.append across).append (otherwiseCode.rises wf)).append exit_rises).cast rfl ?_
    simp only [Node.stmtRoom, Node.branchesRoom, List.isEmpty_cons, List.isEmpty_nil,
      Bool.false_eq_true, if_false, if_true]
    omega
  | .loop conditionCode bodyCode => by
    have back : Rises [.instr (.goto (.loopTop c.loops)), .label (.loopEnd c.loops)] 0 0 0 :=
      ⟨rfl, rfl⟩
    refine (((Rises.label.append (conditionCode.rises wf)).append (bodyCode.rises wf)).append
      back).cast rfl ?_
    simp only [Node.stmtRoom, Node.branchesRoom, List.isEmpty_cons, List.isEmpty_nil,
      Bool.false_eq_true, if_false, if_true]
    omega
  | .call callee types argsCode =>
    (call_rises callee types (argsCode.rises wf)).cast rfl (Nat.zero_add _)
  | @StmtCode.ret _ _ _ _ _ f values _ own caller valuesCode => by
    have pushed := valuesCode.rises wf 0
    have room := pushed.le
    have count : 0 + values.length = f.returns.length := by rw [Nat.zero_add, valuesCode.length_eq]
    rw [count] at pushed room
    refine ((pushed.code (resultStores_rises f.returns)).code Rises.instr).cast rfl ?_
    simp only [Node.stmtRoom, Instr.pops, Instr.pushes]
    omega
  | @StmtCode.read _ _ _ _ target _ _ _ _ place scans => by
    obtain ⟨before, after⟩ := place.rises
    refine (((before 0).code (scan_rises scans)).code (after 0)).cast rfl ?_
    simp only [Node.stmtRoom]
    omega
  | .write scalar valueCode => by
    -- The value stands above the stream that it is printed to.
    have pushed := valueCode.rises wf 1
    have room := pushed.le
    have stream : Rises (asLines [.getStatic Library.standardOutput]) 0 1 1 :=
      Rises.instr.cast rfl rfl
    have printed (ty : Descriptor) : Rises (asLines [.invokeVirtual (Library.println ty)])
        (1 + 1) 0 (1 + 1) :=
      Rises.instr.cast rfl rfl
    refine ((stream.code pushed).code (printed _)).cast rfl ?_
    simp only [Node.stmtRoom]
    omega

theorem StmtsCode.rises (wf : ctx.tables.WellFormed) {c c' : LabelCounters} {nodes : List Node}
    {lines : List Line} :
    StmtsCode ctx s c nodes lines c' → Rises lines 0 0 (Node.stmtsRoom ctx.tables nodes)
  | .nil => .nil
  | .cons first others => (first.rises wf).append (others.rises wf)

end

end

/-! ### Methods -/

/-- How much room the method needs on the stack. The constructor pushes its object. -/
def Role.room (p : Program) : Role → Nat
  | constructor => 1
  | role => Node.stmtsRoom p.tables (role.statements p)

/-- The limit that a method declares is enough: its stack is never deeper. -/
def Method.LimitSuffices (m : Method) : Prop :=
  ∀ n, .limitStack n ∈ m.code → ∀ pc d, DepthAt m.code pc d → d ≤ n

/-- Each line of a method can be reached. -/
def Method.AllReached (m : Method) : Prop := ∀ pc < m.code.length, ∃ d, DepthAt m.code pc d

theorem limits_rise (stack locals : Nat) : Rises [.limitStack stack, .limitLocals locals] 0 0 0 :=
  ⟨rfl, rfl⟩

theorem closingReturn_rises (body : List Node) : Rises (closingReturn body) 0 0 0 := by
  unfold closingReturn
  split
  · exact .nil
  · exact Rises.instr.cast rfl rfl

theorem Flows.rise {env : MethodEnv} {ls : List Line} {shape shape' : Shape}
    (h : Flows env ls shape shape') :
    MiniGo.rise ls shape.length = shape'.length := by
  induction ls generalizing shape with
  | nil =>
    cases h
    rfl
  | cons l ls ih =>
    obtain ⟨between, first, rest⟩ := Option.bind_eq_some_iff.1 h
    rw [MiniGo.rise, ← Line.length_after first]
    exact ih rest

theorem DepthAt.le_length {code : List Line} {pc d : Nat} (h : DepthAt code pc d) :
    pc ≤ code.length := by
  cases h with
  | start => exact Nat.zero_le _
  | step _ _ goes =>
    cases goes with
    | next found => exact (List.getElem?_eq_some_iff.1 found).1
    | branch _ _ label => exact Nat.le_of_lt (List.findIdx?_eq_some_iff_getElem.1 label).1

section

variable {cls : ClassFile} {locals : Nat → Option StackKind} {m : Method} {shape : Nat → Shape}
  {room : Nat}

/-- A line is reached with the depth after the lines before it, whatever the way to it is. -/
theorem Method.TypedBy.depth_eq_rise (typed : m.TypedBy ⟨cls, locals⟩ shape) {pc d : Nat}
    (h : DepthAt m.code pc d) : d = rise (m.code.take pc) 0 := by
  rw [typed.depth h]
  exact (typed.flows h.le_length).rise.symm

/-- The stack of a typed method is not deeper than its lines rise. -/
theorem Method.TypedBy.depth_le (typed : m.TypedBy ⟨cls, locals⟩ shape)
    (rises : Rises m.code 0 0 room) {pc d : Nat} (h : DepthAt m.code pc d) : d ≤ room := by
  rw [typed.depth_eq_rise h, ← rises.peak]
  exact rise_take_le_peak _ _ _

/-- The stack of a typed method gets as deep as its lines rise, if all of them can be reached. -/
theorem Method.TypedBy.exists_depth (typed : m.TypedBy ⟨cls, locals⟩ shape)
    (rises : Rises m.code 0 0 room) (reached : m.AllReached) : ∃ pc, DepthAt m.code pc room := by
  obtain ⟨pc, bound, top⟩ := peak_eq_rise_take m.code 0
  rw [rises.peak] at top
  rcases Nat.lt_or_eq_of_le bound with inside | rfl
  · obtain ⟨d, depth⟩ := reached pc inside
    rw [typed.depth_eq_rise depth, top] at depth
    exact ⟨pc, depth⟩
  · -- The method ends with an empty stack, so it needs no room at all.
    rw [List.take_length, rises.rise] at top
    exact ⟨0, top ▸ .start⟩

end

namespace ClassCode

variable {p : Program} {options : Options}

theorem constructor_rises : Rises constructorMethod.code 0 0 1 := ⟨rfl, rfl⟩

theorem initializer_rises (k : ClassCode p options) (wf : p.tables.WellFormed) :
    Rises k.initializerMethod.code 0 0 (Role.initializer.room p) := by
  obtain ⟨c, code⟩ := k.initializerCode
  refine ((limits_rise _ _).append ((code.rises wf).append (Rises.instr (i := .ret)))).cast rfl ?_
  simp [Instr.pops, Instr.pushes, Role.room, Role.statements, k.statements_eq, Program.context]

theorem method_rises (k : ClassCode p options) (wf : p.tables.WellFormed) {i : Nat} {m : MethodCode}
    (h : k.methods[i]? = some m) :
    Rises (m.method options i).code 0 0 ((Role.function i m.function m.body).room p) := by
  obtain ⟨c, code⟩ := k.methodCode h
  refine ((limits_rise _ _).append ((code.rises wf).append (closingReturn_rises m.body))).cast
    rfl ?_
  simp [Role.room, Role.statements, Program.context]

theorem limitStack_eq {stack locals n : Nat} {body : List Line} (code : ∀ l ∈ body, l.isCode = true)
    (h : .limitStack n ∈ [.limitStack stack, .limitLocals locals] ++ body) : n = stack := by
  rcases List.mem_append.1 h with limit | mem
  · simpa using limit
  · cases code _ mem

/-- Each method of the class is typed, needs the room of its role, and declares the limit of the
options, if any. -/
theorem methods_rise (k : ClassCode p options) (h : p.WellTyped) :
    ∀ m ∈ ClassFile.methodsOf k.lines, ∃ role : Role, role.BelongsTo p ∧
      role.signature = m.signature ∧
      Rises m.code 0 0 (role.room p) ∧ (∀ n, .limitStack n ∈ m.code → n = options.stackLimit) ∧
      ∃ shape, m.TypedFor p options (ClassFile.ofLines k.lines) role shape := by
  refine k.forall_methods ⟨constructor_rises, ?_, k.constructor_typedFor h.tables⟩
    ⟨k.initializer_rises h.tables, ?_, k.initializer_typedFor h.tables⟩ fun {i m} method =>
      ⟨k.method_rises h.tables method, ?_,
        k.method_typedFor h.tables (k.paramsFirst h method) method⟩
  · simp [constructorMethod]
  · obtain ⟨c, code⟩ := k.initializerCode
    exact fun n => limitStack_eq (List.forall_mem_append.2 ⟨code.isCode, by simp [Line.isCode]⟩)
  · obtain ⟨c, code⟩ := k.methodCode method
    exact fun n =>
      limitStack_eq (List.forall_mem_append.2 ⟨code.isCode, isCode_closingReturn m.body⟩)

end ClassCode

/-! ### Source texts -/

/-- In a compiled class, the stack of a method gets no deeper than its statements need, and just as
deep if all of its lines can be reached. So the limit is enough if it is not less than that, and
else it need not be. -/
theorem compile_stack_room {source text : String} {options : Options}
    (h : compile source options = .ok text) :
    ∃ file p lines, File.parse source = .ok file ∧ analyze file = .ok p ∧
      emission p.root p.tables options = ⟨lines, {}, .ok ()⟩ ∧ text = Line.render lines ∧
      ∀ m ∈ (ClassFile.ofLines lines).methods,
        ∃ role : Role, role.BelongsTo p ∧ role.signature = m.signature ∧
          (∀ pc d, DepthAt m.code pc d → d ≤ role.room p) ∧
          (m.AllReached → ∃ pc, DepthAt m.code pc (role.room p)) ∧
          (∀ n, .limitStack n ∈ m.code → n = options.stackLimit) ∧
          (role.room p ≤ options.stackLimit → m.LimitSuffices) := by
  obtain ⟨file, p, parsed, analyzed, typed, k, emitted, rfl⟩ := compile_eq_ok h
  refine ⟨file, p, k.lines, parsed, analyzed, emitted, rfl, fun m mem => ?_⟩
  obtain ⟨role, belongs, signature, rises, limit, shape, typedFor⟩ := k.methods_rise typed m mem
  have bounded : ∀ pc d, DepthAt m.code pc d → d ≤ role.room p :=
    fun pc d depth => typedFor.toTypedBy.depth_le rises depth
  refine ⟨role, belongs, signature, bounded, typedFor.toTypedBy.exists_depth rises, limit, ?_⟩
  intro enough n declared pc d depth
  rw [limit n declared]
  exact Nat.le_trans (bounded pc d depth) enough

/-- Two arrays, and a function with two results. -/
def roomySource : String :=
  "var a [3]int\nfunc f(n int, s string) (int, string) \x7b\nif a[1] < n \x7b\nreturn n + 1, s\n\x7d\n" ++
    "return 2, \"b\"\n\x7d\nfunc main() \x7b\nvar t string\na[2], t = f(3, \"a\")\nwrite(t)\n\x7d\n"

theorem roomySource_room : ∃ text, compile roomySource {} = .ok text ∧
    ∃ file p lines, File.parse roomySource = .ok file ∧ analyze file = .ok p ∧
      emission p.root p.tables {} = ⟨lines, {}, .ok ()⟩ ∧ text = Line.render lines ∧
      ∀ m ∈ (ClassFile.ofLines lines).methods,
        ∃ role : Role, role.BelongsTo p ∧ role.signature = m.signature ∧
          (∀ pc d, DepthAt m.code pc d → d ≤ role.room p) ∧
          (m.AllReached → ∃ pc, DepthAt m.code pc (role.room p)) ∧
          (∀ n, .limitStack n ∈ m.code → n = 32) ∧ (role.room p ≤ 32 → m.LimitSuffices) := by
  obtain ⟨text, h⟩ := exists_text_of_isOk roomySource {} (by decide +kernel)
  exact ⟨text, h, compile_stack_room h⟩

/-- Lines without a branch are reached one after the other. -/
theorem depthAt_of_fallsThrough {code : List Line} {n : Nat} (bound : n ≤ code.length)
    (straight : (code.take n).all Line.fallsThrough = true) :
    DepthAt code n (rise (code.take n) 0) := by
  induction n with
  | zero => exact .start
  | succ n ih =>
    have found : code[n]? = some code[n] := List.getElem?_eq_getElem bound
    rw [List.take_succ_eq_append_getElem bound, List.all_append, Bool.and_eq_true] at straight
    have falls : code[n].fallsThrough = true := by simpa using straight.2
    rw [List.take_succ_eq_append_getElem bound, rise_append]
    exact .step (ih (Nat.le_of_lt bound) straight.1) found (.next found falls)

/-- A sum of ones, each of them added to the sum of those behind it. -/
def nestedSum : Nat → String
  | 0 => "1"
  | n + 1 => "1+(" ++ nestedSum n ++ ")"

/-- A sum that needs one place more than the usual limit, behind the stream that it is printed
on. -/
def deepSource : String := "func main() \x7b\nwrite(" ++ nestedSum 31 ++ ")\n\x7d\n"

theorem deepSource_exceeds_limit : ∃ p lines, analyzeSource deepSource = .ok p ∧
    emission p.root p.tables {} = ⟨lines, {}, .ok ()⟩ ∧
    compile deepSource {} = .ok (Line.render lines) ∧
    ∃ m ∈ (ClassFile.ofLines lines).methods, .limitStack 32 ∈ m.code ∧ DepthAt m.code 35 33 ∧
      ¬ m.LimitSuffices := by
  obtain ⟨p, lines, analyzed, emitted, compiled, checked⟩ := exists_lines_of_check deepSource {}
    (fun lines => (ClassFile.ofLines lines).methods.any fun m =>
      m.code.contains (.limitStack 32) && decide (35 ≤ m.code.length) &&
        (m.code.take 35).all Line.fallsThrough && rise (m.code.take 35) 0 == 33) (by decide +kernel)
  refine ⟨p, lines, analyzed, emitted, compiled, ?_⟩
  simp only [List.any_eq_true, Bool.and_eq_true, List.contains_iff_mem, decide_eq_true_eq,
    beq_iff_eq] at checked
  obtain ⟨m, mem, ⟨⟨limit, bound⟩, straight⟩, top⟩ := checked
  have depth : DepthAt m.code 35 33 := top ▸ depthAt_of_fallsThrough bound straight
  exact ⟨m, mem, limit, depth, fun enough => by simpa using enough 32 limit 35 33 depth⟩

end MiniGo
