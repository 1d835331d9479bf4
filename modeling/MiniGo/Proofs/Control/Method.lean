import MiniGo.Proofs.Control.Emission
import MiniGo.Proofs.Machine.History

/-!
# Control stays inside its method

Each method of an emitted class defines its labels once, branches to labels that it defines, and
ends with a return instruction. So whatever runs, no activation gets behind the last line of its
method. This holds for all trees for which code generation succeeds, typed or not.

* `Method.Confined`: what is said of a single method.
* `Method.Confined.goes_lt`: control does not leave the lines of the method.
* `emitProgram_confined`: the methods that code generation writes, one after the other.
* `activations_inside`: all activations of a run are at a line of their method.
* `generate_confined`: the same for the assembly of a tree.
-/

namespace MiniGo

open Emission

/-! ### Confined methods -/

/-- A method defines its labels once, defines all labels that it branches to, has an instruction
behind each of them, and ends with a return instruction. -/
structure Method.Confined (m : Method) : Prop where
  unique : LabelsUnique m.code
  defined : ∀ ⦃i : Instr⦄ ⦃l : Label⦄, .instr i ∈ m.code → i.target? = some l → .label l ∈ m.code
  followed : ∀ ⦃k : Nat⦄ ⦃l : Label⦄, m.code[k]? = some (.label l) →
    ∃ (k' : Nat) (i : Instr), k < k' ∧ m.code[k']? = some (.instr i)
  returns : m.code.getLast? = some (.instr .ret)

/-- A label that stands among lines is one of their labels. -/
theorem mem_labelsOf {l : Label} {lines : List Line} : l ∈ labelsOf lines ↔ .label l ∈ lines := by
  constructor
  · intro h
    obtain ⟨line, mem, same⟩ := List.mem_filterMap.1 h
    cases line with
    | label l' =>
      cases same
      exact mem
    | _ => cases same
  · exact fun h => List.mem_filterMap.2 ⟨_, h, rfl⟩

/-- Closed lines that end with a return instruction are the code of a confined method. -/
theorem Closed.confined {c c' : LabelCounters} {body : List Line} (h : Closed [] c c' body)
    (last : body.getLast? = some (.instr .ret)) {access : Access} {signature : Signature}
    {stack locals : Nat} :
    Method.Confined ⟨access, signature, [Line.limitStack stack, .limitLocals locals] ++ body⟩ := by
  have nonempty : body ≠ [] := by
    rintro rfl
    cases last
  have returns : ([Line.limitStack stack, .limitLocals locals] ++ body).getLast? =
      some (.instr .ret) := by
    rw [List.getLast?_append, last, Option.some_or]
  have labels : labelsOf ([Line.limitStack stack, .limitLocals locals] ++ body) =
      labelsOf body := rfl
  constructor
  · have fresh : FreshLabels c c' ([Line.limitStack stack, .limitLocals locals] ++ body) :=
      ⟨h.fresh.le, labels ▸ h.fresh.within, labels ▸ h.fresh.distinct⟩
    exact fresh.unique
  · intro i l mem target
    have mem' : .instr i ∈ body := by simpa using mem
    have own := (h.targets i mem' l target).resolve_right (List.not_mem_nil)
    exact List.mem_append_right _ (mem_labelsOf.1 own)
  · intro k l found
    -- The return instruction at the end is behind each label.
    obtain ⟨inside, -⟩ := List.getElem?_eq_some_iff.1 found
    rw [List.getLast?_eq_getElem?] at returns
    refine ⟨_, _, ?_, returns⟩
    rcases Nat.lt_or_eq_of_le (Nat.le_sub_one_of_lt inside) with lt | same
    · exact lt
    · rw [← same, found] at returns
      cases returns
  · exact returns

namespace Method.Confined

variable {m : Method}

/-- There is a first line. -/
theorem length_pos (h : m.Confined) : 0 < m.code.length := by
  rw [List.length_pos_iff]
  intro empty
  have returns := h.returns
  rw [empty] at returns
  cases returns

/-- Control goes on with a line of the method. -/
theorem goes_lt (h : m.Confined) {pc pc' : Nat} (goes : Goes m.code pc pc') :
    pc' < m.code.length := by
  cases goes with
  | next found falls =>
    obtain ⟨inside, -⟩ := List.getElem?_eq_some_iff.1 found
    rcases Nat.lt_or_eq_of_le (Nat.succ_le_of_lt inside) with lt | last
    · exact lt
    · -- The last line is a return instruction, and control does not go on behind it.
      have returns := h.returns
      rw [List.getLast?_eq_getElem?, ← last, Nat.succ_sub_one, found] at returns
      cases returns
      cases falls
  | branch _ _ label =>
    obtain ⟨l, found⟩ := label_of_findIdx? label
    exact (List.getElem?_eq_some_iff.1 found).1

end Method.Confined

/-! ### Runs -/

/-- In a class of confined methods, all activations are at a line of their method. -/
theorem activations_inside {P : Platform} {cls : ClassFile}
    (confined : ∀ m ∈ cls.methods, m.Confined) {method : Method} (isMethod : method ∈ cls.methods)
    {args : List (Datum P)} {mem₀ : Memory P} {n : Nat} {s : MachineState P}
    (h : stateAfter cls ⟨[method.activate args], mem₀⟩ n = some s) :
    ∀ a ∈ s.calls, a.pc < a.code.length := by
  -- By induction on the steps: only the two activations on top can change.
  induction n generalizing s with
  | zero =>
    cases Option.some.inj h
    intro a mem
    obtain rfl := List.mem_singleton.1 mem
    exact (confined method isMethod).length_pos
  | succ n ih =>
    obtain ⟨x, rest, mem', before, -, moves⟩ := exists_moves_of_succ h
    obtain ⟨m, own, code⟩ := code_of_mem_calls isMethod before x (List.mem_cons_self ..)
    obtain ⟨-, others⟩ := List.forall_mem_cons.1 (ih before)
    have inside {pc : Nat} (goes : Goes x.code x.pc pc) : pc < x.code.length := by
      rw [code] at goes ⊢
      exact (confined m own).goes_lt goes
    cases moves with
    | goes _ _ same goes => exact List.forall_mem_cons.2 ⟨same ▸ inside goes, others⟩
    | @calls ref callee _ _ line found =>
      have called : callee ∈ cls.methods := by
        unfold ClassFile.method? at found
        split at found
        · exact List.mem_of_find?_eq_some found
        · cases found
      exact List.forall_mem_cons.2 ⟨(confined callee called).length_pos,
        List.forall_mem_cons.2 ⟨inside (.next line rfl), others⟩⟩
    | returns => exact others

/-! ### Methods as they are written -/

section

variable {ctx : Context} {c c' : LabelCounters} {lines : List Line} {u : Unit}

theorem Emits.of_emitLines {ls : List Line} (h : Emits (emitLines ls) c lines c' u) :
    lines = ls ∧ c' = c := by
  have same := Eq.trans (Eq.symm h) (emitLines_emits ls)
  cases same
  exact ⟨rfl, rfl⟩

theorem Emits.of_withFreshLabels {x : Emit Unit} (h : Emits (withFreshLabels x) c lines c' u) :
    ∃ c', Emits x {} lines c' u := by
  unfold Emits withFreshLabels at *
  generalize inner : x {} = e at h
  obtain ⟨ls, c₁, result⟩ := e
  cases h
  exact ⟨c₁, rfl⟩

/-- Statements that end with a return statement end with its instruction. -/
theorem emitStmts_ends {nodes : List Node} (ends : endsWithReturn nodes = true)
    (h : Emits (emitStmts ctx nodes) c lines c' u) : lines.getLast? = some (.instr .ret) := by
  induction nodes generalizing c lines with
  | nil => cases ends
  | cons node nodes ih =>
    obtain ⟨c₁, _, ls, ms, first, others, rfl⟩ := h.of_bind
    cases nodes with
    | cons next nodes =>
      have last : ms.getLast? = some (.instr .ret) :=
        ih (by simpa [endsWithReturn] using ends) others
      rw [List.getLast?_append, last, Option.some_or]
    | nil =>
      obtain ⟨rfl, rfl⟩ := Emits.of_pure others
      obtain ⟨kind, ty, children⟩ := node
      obtain rfl : kind = .ret := by simpa [endsWithReturn] using ends
      have returns : Emits (emitReturn ctx .ret children) c ls c' _ := first
      unfold emitReturn at returns
      split at returns
      · exact absurd returns Emits.not_invalid
      · obtain ⟨_, _, _, _, -, h₁, rfl⟩ := returns.of_bind
        obtain ⟨_, _, _, _, -, h₂, rfl⟩ := h₁.of_bind
        obtain ⟨_, _, _, _, -, last, rfl⟩ := h₂.of_bind
        obtain ⟨rfl, -⟩ := Emits.of_line last
        simp

/-- The initializer is one block of lines, which are closed and end with a return instruction. -/
theorem emitInitializer_block {statements : List Node}
    (h : Emits (emitInitializer ctx statements) c lines c' u) :
    ∃ c₁ body, Closed [] {} c₁ body ∧ body.getLast? = some (.instr .ret) ∧
      lines = methodBlock ctx.options .initializer initializerSignature 1 body := by
  obtain ⟨_, h⟩ := h.of_withFreshLabels
  obtain ⟨_, _, _, _, starts, h₁, rfl⟩ := h.of_bind
  obtain ⟨rfl, rfl⟩ := starts.of_emitLines
  obtain ⟨c₁, _, body, _, runs, ends, rfl⟩ := h₁.of_bind
  obtain ⟨rfl, rfl⟩ := ends.of_emitLines
  refine ⟨_, body ++ [.instr .ret], (emitStmts_closed _ runs).append (.asLines [.ret] ?_), by simp,
    ?_⟩
  · simp [Instr.target?]
  · simp [methodBlock, methodStart]

/-- The method of a function is one block of lines, which are closed and end with a return
instruction. -/
theorem emitMethod_block {node : Node} (h : Emits (emitMethod ctx node) c lines c' u) :
    ∃ signature locals c₁ body, Closed [] {} c₁ body ∧ body.getLast? = some (.instr .ret) ∧
      lines = methodBlock ctx.options .static_ signature locals body := by
  unfold emitMethod at h
  split at h
  · rename_i index body _ _
    obtain ⟨_, h⟩ := h.of_withFreshLabels
    obtain ⟨_, f, _, _, found, h₁, rfl⟩ := h.of_bind
    obtain ⟨rfl, rfl, -⟩ := found.of_require
    obtain ⟨_, _, _, _, starts, h₂, rfl⟩ := h₁.of_bind
    obtain ⟨rfl, rfl⟩ := starts.of_emitLines
    obtain ⟨c₁, _, code, _, runs, h₃, rfl⟩ := h₂.of_bind
    have closed := emitBlock_closed _ runs
    split at h₃
    · -- A return instruction is added.
      obtain ⟨_, _, _, _, returns, ends, rfl⟩ := h₃.of_bind
      obtain ⟨rfl, rfl⟩ := Emits.of_line returns
      obtain ⟨rfl, rfl⟩ := Emits.of_line ends
      refine ⟨f.signature, localCount (.ofFunction index f.isEntryPoint) f, _,
        code ++ [.instr .ret], closed.append (.asLines [.ret] ?_), by simp, ?_⟩
      · simp [Instr.target?]
      · simp [methodBlock, methodStart]
    · rename_i stays
      obtain ⟨rfl, rfl⟩ := Emits.of_line h₃
      obtain ⟨kind, ty, children⟩ := body
      have statements : Emits (emitStmts _ children) _ code _ _ := runs
      refine ⟨f.signature, localCount (.ofFunction index f.isEntryPoint) f, _, code, closed,
        emitStmts_ends (by simpa using stays) statements, ?_⟩
      simp [methodBlock, methodStart]
  · exact absurd h Emits.not_invalid

/-- A block of closed lines is a confined method. -/
theorem confined_of_block {access : Access} {signature : Signature} {locals : Nat}
    {body rest : List Line} {options : Options} (closed : Closed [] c c' body)
    (last : body.getLast? = some (.instr .ret))
    (others : ∀ m ∈ ClassFile.methodsOf rest, m.Confined) :
    ∀ m ∈ ClassFile.methodsOf (methodBlock options access signature locals body ++ rest),
      m.Confined := by
  rw [ClassFile.methodsOf_methodBlock closed.isCode]
  exact List.forall_mem_cons.2 ⟨closed.confined last, others⟩

theorem emitMethods_confined {nodes : List Node} (h : Emits (emitMethods ctx nodes) c lines c' u) :
    ∀ m ∈ ClassFile.methodsOf lines, m.Confined := by
  induction nodes generalizing c lines with
  | nil =>
    obtain ⟨rfl, -⟩ := Emits.of_pure h
    exact fun m mem => absurd mem List.not_mem_nil
  | cons node nodes ih =>
    obtain ⟨_, _, _, rest, first, others, rfl⟩ := h.of_bind
    obtain ⟨signature, locals, c₁, body, closed, last, rfl⟩ := emitMethod_block first
    exact confined_of_block closed last (ih others)

/-- The constructor is confined, and so are the methods behind it. -/
theorem constructor_confined {rest : List Line}
    (others : ∀ m ∈ ClassFile.methodsOf rest, m.Confined) :
    ∀ m ∈ ClassFile.methodsOf (constructorLines ++ rest), m.Confined := by
  have first : ClassCode.constructorMethod.Confined := by
    refine ⟨?_, ?_, ?_, rfl⟩
    · intro k k' l l' found
      have mem := List.mem_of_getElem? found
      simp [ClassCode.constructorMethod] at mem
    · intro i l mem target
      simp only [ClassCode.constructorMethod, List.mem_cons, Line.instr.injEq, List.not_mem_nil,
        or_false] at mem
      rcases mem with rfl | rfl | rfl <;> cases target
    · intro k l found
      have mem := List.mem_of_getElem? found
      simp [ClassCode.constructorMethod] at mem
  exact List.forall_mem_cons.2 ⟨first, others⟩

/-- All methods of a class are confined. -/
theorem emitProgram_confined {program : Node} (h : Emits (emitProgram ctx program) c lines c' u) :
    ∀ m ∈ ClassFile.methodsOf lines, m.Confined := by
  unfold emitProgram at h
  split at h
  · obtain ⟨_, _, _, _, header, h₁, rfl⟩ := h.of_bind
    obtain ⟨rfl, rfl⟩ := Emits.of_emitLines header
    obtain ⟨_, _, _, rest, constructor, h₂, rfl⟩ := h₁.of_bind
    obtain ⟨rfl, rfl⟩ := Emits.of_emitLines constructor
    rw [ClassFile.methodsOf_append (ClassCode.headerLines_ne_method ctx)]
    refine constructor_confined ?_
    split at h₂
    · obtain ⟨_, _, _, _, initializer, methods, rfl⟩ := h₂.of_bind
      obtain ⟨c₁, body, closed, last, rfl⟩ := emitInitializer_block initializer
      exact confined_of_block closed last (emitMethods_confined methods)
    · exact emitMethods_confined h₂
  · exact absurd h Emits.not_invalid

end

/-- In the assembly of a tree, each method has its labels once and in front of an instruction,
branches to its own labels and ends with a return instruction. No run gets behind the end of a
method. -/
theorem generate_confined {program : Node} {tables : Tables} {options : Options} {text : String}
    (h : generate program tables options = .ok text) :
    ∃ lines, (emission program tables options).lines = lines ∧ text = Line.render lines ∧
      (∀ m ∈ (ClassFile.ofLines lines).methods, m.Confined) ∧
      ∀ {P : Platform} {method : Method}, method ∈ (ClassFile.ofLines lines).methods →
        ∀ (args : List (Datum P)) (mem : Memory P) {n : Nat} {s : MachineState P},
          stateAfter (.ofLines lines) ⟨[method.activate args], mem⟩ n = some s →
          ∀ a ∈ s.calls, a.pc < a.code.length := by
  unfold generate at h
  generalize emitted : emission program tables options = e at h
  obtain ⟨lines, c', result⟩ := e
  cases result with
  | error e => cases h
  | ok u =>
    cases h
    have confined := @emitProgram_confined { tables, options } _ _ _ _ _ emitted
    exact ⟨lines, rfl, rfl, confined,
      fun isMethod args mem _ _ => activations_inside confined isMethod⟩

/-- A comparison of a string with an int, as if both were ints. -/
def mistypedTest : Node := .mk (.op .lt) .int [.leaf (.strVal "x") .string, .leaf (.intVal 1) .int]

/-- A function with a chain of conditional statements. Its tests are not typed, and its last branch
is a loop. -/
def mistypedProgram : Node :=
  .statement .program [.statement (.function 0) [.statement .block [.statement .cond
    [.statement .block [.statement .ret []],
      .statement .cond [.statement .block [],
      .statement .repeat_ [.statement .block [], mistypedTest], mistypedTest],
        .mk (.op .and) .bool [.mk (.op .or) .bool [mistypedTest, mistypedTest], mistypedTest]]]]]

/-- The chain has one exit, each of its tests has a label to go on at, and the disjunction joins
behind its operands. -/
theorem mistypedProgram_confined :
    ∃ text lines, generate mistypedProgram ⟨{}, ⟨[⟨"f", 1, [], [], {}⟩]⟩⟩ {} = .ok text ∧
      text = Line.render lines ∧
      labelsOf lines = [.join 0, .elseOf 0, .elseOf 1, .loopTop 0, .loopEnd 0, .endOf 0] ∧
      ∀ m ∈ (ClassFile.ofLines lines).methods, m.Confined := by
  have generated : ∃ text, generate mistypedProgram ⟨{}, ⟨[⟨"f", 1, [], [], {}⟩]⟩⟩ {} = .ok text :=
    ⟨_, rfl⟩
  obtain ⟨text, generated⟩ := generated
  obtain ⟨lines, emitted, rendered, confined, -⟩ := generate_confined generated
  exact ⟨text, lines, generated, rendered, by rw [← emitted]; decide +kernel, confined⟩

end MiniGo
