import MiniGo.Proofs.Depth
import MiniGo.Proofs.Machine.History

/-!
# Operands

An instruction takes values from the top of the stack and puts others there. What is below stays as
it is, also while a method is called. So the code of a value puts one value on the stack, whatever
else happens in between.

* `Instr.Turns`: what an instruction makes of the operand stack.
* `Ran`: instructions that an activation ran one after the other, with its stack before and behind
  them.
* `exists_ran`: the instructions before a line were run when the line is reached.
* `ValueCode.ran`, `ArgumentsCode.ran`: what the code of values has put on the stack.
-/

namespace MiniGo

variable {P : Platform} {cls : ClassFile}

/-! ### Single instructions -/

/-- How many values the machine puts on the stack for an instruction. A field always holds one
value, and the results of a call are not on the stack. -/
def Instr.puts : Instr → Nat
  | getStatic _ => 1
  | invokeStatic _ => 0
  | i => i.pushes

/-- What an instruction makes of the operand stack: it puts values in the place of those that it
takes. -/
def Instr.Turns (i : Instr) (stk stk' : List (Datum P)) : Prop :=
  i.pops ≤ stk.length ∧ ∃ top, top.length = i.puts ∧ stk' = top ++ stk.drop i.pops

section

variable {i : Instr} {stk stk' rest : List (Datum P)}

/-- What is below the operands stays as it is. -/
theorem Instr.Turns.below {top : List (Datum P)} (h : i.Turns (top ++ rest) stk')
    (pops : i.pops = top.length) :
    ∃ top', top'.length = i.puts ∧ stk' = top' ++ rest := by
  obtain ⟨-, top', puts, rfl⟩ := h
  exact ⟨top', puts, by rw [pops, List.drop_left]⟩

/-- An instruction that puts one value in the place of its operands. -/
theorem Instr.Turns.one (top : List (Datum P)) (h : i.Turns (top ++ rest) stk')
    (pops : i.pops = top.length) (puts : i.puts = 1) :
    ∃ d, stk' = d :: rest := by
  obtain ⟨top', one, rfl⟩ := h.below pops
  obtain ⟨d, rfl⟩ := List.length_eq_one_iff.1 (one.trans puts)
  exact ⟨d, rfl⟩

/-- A method of the library takes its arguments and its object, and leaves its result. -/
theorem libraryCall_turns {m : MethodRef} {mem mem' : Memory P}
    (h : libraryCall m stk mem = some (stk', mem')) :
    (Instr.invokeVirtual m).Turns stk stk' := by
  unfold libraryCall at h
  split at h
  · rename_i isConcat
    subst isConcat
    split at h <;> cases h
    exact ⟨by simp [Instr.pops, Library.concat], [_], rfl, rfl⟩
  split at h
  · rename_i isCompareTo
    subst isCompareTo
    split at h <;> cases h
    exact ⟨by simp [Instr.pops, Library.compareTo], [_], rfl, rfl⟩
  split at h
  · rename_i d x className rest found
    have println : m = Library.println d := by simpa using List.find?_some found
    subst println
    split at h
    · obtain ⟨v, -, same⟩ := Option.map_eq_some_iff.1 h
      cases same
      exact ⟨by simp [Instr.pops, Library.println], [], rfl, rfl⟩
    · cases h
  · cases h
  · split at h
    · split at h
      · rename_i ty found
        have scan : Library.scan? ty = some m := by simpa using List.find?_some found
        obtain ⟨⟨v, input⟩, -, same⟩ := Option.map_eq_some_iff.1 h
        cases same
        cases ty <;> cases scan <;> exact ⟨by simp [Instr.pops], [_], rfl, rfl⟩
      · cases h
    · cases h
  · cases h

/-- A constructor takes its arguments and its object. -/
theorem libraryConstruct_turns {m : MethodRef} (h : libraryConstruct m stk = some stk') :
    (Instr.invokeSpecial m).Turns stk stk' := by
  unfold libraryConstruct at h
  split at h
  · split at h <;> cases h
    rename_i same
    obtain ⟨rfl, -⟩ := same
    exact ⟨by simp [Instr.pops, Library.constructor], [], rfl, rfl⟩
  · split at h <;> cases h
    rename_i isConstructor _
    subst isConstructor
    exact ⟨by simp [Instr.pops, Library.constructor], [], rfl, rfl⟩
  · cases h

/-- An instruction with an effect takes its operands only. -/
theorem Instr.effect_turns {w w' : Work P} :
    i.effect cls w = some w' → i.Turns w.stack w'.stack := by
  fun_cases Instr.effect cls i w with
  | case5 | case8 =>
    -- A slot is loaded
    intro h
    obtain ⟨d, -, rest⟩ := Option.bind_eq_some_iff.1 h
    split at rest <;> cases rest
    exact ⟨Nat.zero_le _, [_], rfl, rfl⟩
  | case9 =>
    -- An element is loaded
    intro h
    obtain ⟨object, -, inner⟩ := Option.bind_eq_some_iff.1 h
    obtain ⟨d, -, rest⟩ := Option.bind_eq_some_iff.1 inner
    split at rest <;> cases rest
    exact ⟨by simp [pops], [_], rfl, rfl⟩
  | case10 =>
    -- An element is stored
    intro h
    obtain ⟨object, -, rest⟩ := Option.bind_eq_some_iff.1 h
    split at rest <;> cases rest
    exact ⟨by simp [pops], [], rfl, rfl⟩
  | case16 =>
    intro h
    obtain ⟨⟨stack, mem⟩, call, rest⟩ := Option.bind_eq_some_iff.1 h
    cases rest
    exact libraryCall_turns call
  | case17 =>
    intro h
    obtain ⟨stack, construct, rest⟩ := Option.bind_eq_some_iff.1 h
    cases rest
    exact libraryConstruct_turns construct
  | case22 =>
    -- An operation on numbers
    intro h
    obtain ⟨d, -, rest⟩ := Option.bind_eq_some_iff.1 h
    cases rest
    exact ⟨by simp [pops], [_], rfl, rfl⟩
  | case6 | case14 =>
    -- A value is stored
    intro h
    cases h
    exact ⟨by simp [pops], [], rfl, rfl⟩
  | case21 =>
    -- A value is put there twice
    intro h
    cases h
    exact ⟨by simp [pops], [_, _], rfl, rfl⟩
  | _ =>
    intro h
    cases h <;> exact ⟨by simp [pops], [_], rfl, rfl⟩

end

/-! ### Instructions one after the other -/

/-- At a time, an activation stands at a line of given code, with a given stack. -/
def StandsAt (cls : ClassFile) (start : MachineState P) (code : List Line)
    (callers : List (Activation P)) (t pc : Nat) (stk : List (Datum P)) : Prop :=
  ∃ locals mem, stateAfter cls start t = some ⟨⟨code, pc, stk, locals⟩ :: callers, mem⟩

/-- An activation ran instructions one after the other, from one time and stack to another. It may
have waited for methods that it called. -/
inductive Ran (cls : ClassFile) (start : MachineState P) (code : List Line)
    (callers : List (Activation P)) : List Instr → Nat → Nat → List (Datum P) → Nat →
      List (Datum P) → Prop
  | nil {pc t : Nat} {stk : List (Datum P)} (stands : StandsAt cls start code callers t pc stk) :
      Ran cls start code callers [] pc t stk t stk
  | cons {i : Instr} {is : List Instr} {pc t t' t'' : Nat} {stk stk' stk'' : List (Datum P)}
      (stands : StandsAt cls start code callers t pc stk) (turns : i.Turns stk stk')
      (later : t < t') (others : Ran cls start code callers is (pc + 1) t' stk' t'' stk'') :
      Ran cls start code callers (i :: is) pc t stk t'' stk''

section

variable {start : MachineState P} {code : List Line} {callers : List (Activation P)}
  {is js : List Instr}
  {i : Instr} {pc q t t' n : Nat} {stk stk' stk'' : List (Datum P)}

namespace Ran

theorem first (h : Ran cls start code callers is pc t stk t' stk') :
    StandsAt cls start code callers t pc stk := by
  cases h <;> assumption

theorem le (h : Ran cls start code callers is pc t stk t' stk') : t ≤ t' := by
  induction h with
  | nil => exact le_rfl
  | cons _ _ later _ ih => exact le_trans (Nat.le_of_lt later) ih

/-- One more instruction behind others. -/
theorem snoc (h : Ran cls start code callers is pc t stk t' stk') (turns : i.Turns stk' stk'')
    (later : t' < n) (stands : StandsAt cls start code callers n (pc + is.length + 1) stk'') :
    Ran cls start code callers (is ++ [i]) pc t stk n stk'' := by
  induction h with
  | nil here => exact .cons here turns later (.nil stands)
  | cons here first after _ ih =>
    refine .cons here first after (ih turns later ?_)
    rwa [Nat.add_right_comm _ 1]

/-- Instructions in two parts were run one part after the other. -/
theorem split (h : Ran cls start code callers (is ++ js) pc t stk n stk'') :
    ∃ t' stk', Ran cls start code callers is pc t stk t' stk' ∧
      Ran cls start code callers js (pc + is.length) t' stk' n stk'' := by
  induction is generalizing pc t stk with
  | nil => exact ⟨t, stk, .nil h.first, h⟩
  | cons i is ih =>
    cases h with
    | cons here turns later others =>
      obtain ⟨t', stk', first, second⟩ := ih others
      refine ⟨t', stk', .cons here turns later first, ?_⟩
      rwa [List.length_cons, ← Nat.add_assoc, Nat.add_right_comm]

/-- A single instruction. -/
theorem turns (h : Ran cls start code callers [i] pc t stk n stk') : i.Turns stk stk' := by
  cases h with
  | cons _ turns _ others =>
    cases others
    exact turns

end Ran

variable {method : Method} {args : List (Datum P)} {mem₀ : Memory P}

/-- How a line was reached behind an instruction that does not branch. -/
theorem StandsAt.previous
    (h : StandsAt cls ⟨[method.activate args], mem₀⟩ code callers n (q + 1) stk)
    (line : code[q]? = some (.instr i)) (straight : i.target? = none)
    (noLabel : ∀ l, code[q + 1]? ≠ some (.label l)) :
    ∃ t stk', t < n ∧ StandsAt cls ⟨[method.activate args], mem₀⟩ code callers t q stk' ∧
      i.Turns stk' stk := by
  obtain ⟨locals, mem, state⟩ := h
  obtain ⟨n, rfl, ⟨stays, ⟨_, _, stk', locals'⟩, mem', rfl, rfl, before⟩ | ⟨b, ret⟩⟩ :=
    exists_before state rfl line noLabel
  · refine ⟨n, stk', Nat.lt_succ_self n, ⟨locals', mem', before⟩, ?_⟩
    -- The instruction has an effect of its own.
    obtain ⟨s, same, stepped⟩ := exists_stateAfter_of_succ state
    rw [before] at same
    cases same
    simp only [step, line] at stepped
    unfold Instr.step at stepped
    split at stepped
    · cases straight
    · cases straight
    · cases straight
    · cases stays
    · cases stays
    · obtain ⟨w, effect, rest⟩ := Option.bind_eq_some_iff.1 stepped
      cases rest
      exact Instr.effect_turns effect
  · -- A call returned, which was made at the instruction.
    obtain ⟨ref, callee, j, waits⟩ := exists_waitsSince [] ret.state
    obtain ⟨⟨code', pc', stk', locals'⟩, mem', rfl, next, call⟩ := waits.call
    obtain rfl : pc' = q := by simpa using next
    have same := call.line.symm.trans line
    cases same
    refine ⟨j, stk', Nat.lt_succ_of_lt waits.before, ⟨locals', mem', call.state⟩, ?_⟩
    obtain ⟨ys, b', mem'', above, -⟩ := waits.above (j + 1) (Nat.lt_succ_self j) waits.before
    obtain ⟨s, same, stepped⟩ := exists_stateAfter_of_succ above
    rw [call.state] at same
    cases same
    simp only [step, line, Instr.step] at stepped
    obtain ⟨method', -, rest⟩ := Option.bind_eq_some_iff.1 stepped
    split at rest
    · rename_i enough
      injection rest with same
      injection same with calls
      obtain rfl : ys = [] := by
        have lengths := congrArg List.length calls
        simp only [List.length_cons, List.length_append] at lengths
        exact List.length_eq_zero_iff.1 (by omega)
      injection calls with _ others
      injection others with caller
      injection caller with _ _ stack
      exact ⟨enough, [], rfl, stack.symm⟩
    · cases rest

/-- The instructions before a line were run one after the other when the line is reached. -/
theorem exists_ran {before : List Line}
    (h : StandsAt cls ⟨[method.activate args], mem₀⟩ code callers n pc stk)
    (bound : pc ≤ code.length) (given : code.take pc = before ++ asLines is)
    (straight : ∀ i ∈ is, i.target? = none) (noLabel : ∀ l, code[pc]? ≠ some (.label l)) :
    ∃ t stk₀,
      Ran cls ⟨[method.activate args], mem₀⟩ code callers is before.length t stk₀ n stk := by
  -- The run is followed backwards, from the last instruction to the first one.
  induction is using List.reverseRecOn generalizing pc n stk with
  | nil =>
    have length := congrArg List.length given
    simp only [List.length_take, List.length_append, List.length_map, List.length_nil,
      Nat.min_eq_left bound] at length
    obtain rfl : pc = before.length := length
    exact ⟨n, stk, .nil h⟩
  | append_singleton is i ih =>
    have length := congrArg List.length given
    simp only [List.length_take, List.length_append, List.length_map, List.length_singleton,
      Nat.min_eq_left bound] at length
    obtain rfl : pc = before.length + is.length + 1 := by omega
    have line : code[before.length + is.length]? = some (.instr i) := by
      rw [← List.getElem?_take_of_lt (Nat.lt_succ_self _), given]
      simp
    have given' : code.take (before.length + is.length) = before ++ asLines is := by
      have shorter := congrArg (List.take (before.length + is.length)) given
      rw [List.take_take, Nat.min_eq_left (Nat.le_succ _)] at shorter
      rw [shorter, asLines, List.map_append, ← List.append_assoc]
      exact List.take_left' (by simp)
    obtain ⟨straightBefore, straightLast⟩ := List.forall_mem_append.1 straight
    obtain ⟨t, stk', later, earlier, turns⟩ :=
      h.previous line (straightLast i (List.mem_singleton_self i)) noLabel
    obtain ⟨t₀, stk₀, ran⟩ := ih earlier (by omega) given' straightBefore (by simp [line])
    exact ⟨t₀, stk₀, ran.snoc turns later h⟩

end

/-! ### Values -/

section

variable {ctx : Context} {s : Scope} {start : MachineState P} {code : List Line}
  {callers : List (Activation P)}
  {is : List Instr} {pc t n : Nat} {d : Datum P} {stk stk' : List (Datum P)}

/-- An instruction that puts one value on the stack. -/
theorem Ran.push {i : Instr} (h : Ran cls start code callers [i] pc t stk n stk')
    (pops : i.pops = 0) (puts : i.puts = 1) : ∃ d, stk' = d :: stk :=
  h.turns.one [] pops puts

/-- The code of a variable puts one value on the stack. -/
theorem Ran.load {v : VarRef} {x : Variable}
    (h : Ran cls start code callers [ctx.loadInstr v x] pc t stk n stk') :
    ∃ d, stk' = d :: stk := by
  unfold Context.loadInstr at h
  split at h <;> exact h.push rfl rfl

/-- The code of an address puts an array and an offset on the stack. -/
theorem Ran.address {v : VarRef} {x : Variable} {k : Nat}
    (h : Ran cls start code callers (ctx.addressCode v x k) pc t stk n stk') :
    ∃ a k', stk' = k' :: a :: stk := by
  have parts :
      Ran cls start code callers ([ctx.loadInstr v x] ++ [.ldc (.int k)]) pc t stk n stk' := h
  obtain ⟨_, _, load, offset⟩ := parts.split
  obtain ⟨a, rfl⟩ := load.load
  obtain ⟨k', rfl⟩ := offset.push rfl rfl
  exact ⟨a, k', rfl⟩

/-- A conversion puts a value in the place of the one on top. -/
theorem Ran.convert {value wanted : Ty}
    (h : Ran cls start code callers (convertCode value wanted) pc t (d :: stk) n stk') :
    ∃ d', stk' = d' :: stk := by
  unfold convertCode at h
  split at h
  · exact h.turns.one [d] rfl rfl
  · cases h
    exact ⟨d, rfl⟩

/-- What is pushed for a call before its arguments. -/
def Function.leading (f : Function) : List Instr := if f.isEntryPoint then [.nullConst] else []

/-- A call takes what was pushed for it, and leaves nothing on the stack. -/
theorem Ran.call {f : Function} {className : String} {lead data : List (Datum P)}
    (h : Ran cls start code callers [.invokeStatic ⟨className, f.signature⟩] pc t
      (data ++ lead ++ stk) n stk') (leads : lead.length = f.leading.length)
    (count : data.length = f.params.length) : stk' = stk := by
  have pops : (Instr.invokeStatic ⟨className, f.signature⟩).pops = (data ++ lead).length := by
    rw [List.length_append, leads, count, Instr.pops]
    unfold Function.leading Function.signature
    split
    · rename_i main
      simp [(Function.isEntryPoint_iff.1 main).2]
    · simp [methodType]
  obtain ⟨top, none, rfl⟩ := h.turns.below pops
  rw [List.length_eq_zero_iff.1 none, List.nil_append]

/-- What is pushed before the arguments. -/
theorem Ran.leading {f : Function} (h : Ran cls start code callers f.leading pc t stk n stk') :
    ∃ lead, lead.length = f.leading.length ∧ stk' = lead ++ stk := by
  unfold Function.leading at h ⊢
  split at h
  · rename_i main
    obtain ⟨d, rfl⟩ := h.push rfl rfl
    exact ⟨[d], by simp [main], rfl⟩
  · rename_i other
    cases h
    exact ⟨[], by simp [other], rfl⟩

mutual

/-- The code of a value has put one value on the stack. -/
theorem ValueCode.ran {node : Node} {is : List Instr} {pc t n : Nat} {stk stk' : List (Datum P)} :
    ValueCode ctx s node is → Ran cls start code callers is pc t stk n stk' → ∃ d, stk' = d :: stk
  | .int .., h | .float, h | .bool, h | .string, h => h.push rfl rfl
  | .name .., h => h.load
  | .element .., h => by
    obtain ⟨_, _, address, element⟩ := h.split
    obtain ⟨a, k, rfl⟩ := address.address
    exact element.turns.one [k, a] rfl rfl
  | .arithmetic _ _ _ _ leftCode rightCode, h => by
    obtain ⟨_, _, operands, operation⟩ := h.split
    obtain ⟨_, _, operands, convertRight⟩ := operands.split
    obtain ⟨_, _, first, second⟩ := operands.split
    obtain ⟨_, _, first, convertLeft⟩ := first.split
    obtain ⟨l, rfl⟩ := leftCode.ran first
    obtain ⟨l', rfl⟩ := convertLeft.convert
    obtain ⟨r, rfl⟩ := rightCode.ran second
    obtain ⟨r', rfl⟩ := convertRight.convert
    exact operation.turns.one [r', l'] rfl rfl
  | .concat _ _ leftCode rightCode, h => by
    obtain ⟨_, _, operands, operation⟩ := h.split
    obtain ⟨_, _, first, second⟩ := operands.split
    obtain ⟨l, rfl⟩ := leftCode.ran first
    obtain ⟨r, rfl⟩ := rightCode.ran second
    exact operation.turns.one [r, l] rfl rfl
  | .call _ _ _ argsCode, h => by
    obtain ⟨_, _, call, result⟩ := h.split
    obtain ⟨_, _, given, invoke⟩ := call.split
    obtain ⟨_, _, leading, arguments⟩ := given.split
    obtain ⟨lead, leads, rfl⟩ := Ran.leading leading
    obtain ⟨data, count, rfl, -⟩ := argsCode.ran arguments
    rw [← List.append_assoc] at invoke
    obtain rfl := invoke.call leads (by rw [List.length_reverse]; exact count)
    exact result.push rfl rfl

/-- The code of arguments has put one value for each of them on the stack, one after the other. -/
theorem ArgumentsCode.ran {nodes : List Node} {tys : List Ty} {is : List Instr} {pc t n : Nat}
    {stk stk' : List (Datum P)} :
    ArgumentsCode ctx s nodes tys is → Ran cls start code callers is pc t stk n stk' →
      ∃ data : List (Datum P), data.length = tys.length ∧ stk' = data.reverse ++ stk ∧
        ∀ k ≤ tys.length, ∃ first t', ArgumentsCode ctx s (nodes.take k) (tys.take k) first ∧
          first <+: is ∧
          t ≤ t' ∧ t' ≤ n ∧ StandsAt cls start code callers t' (pc + first.length)
            ((data.take k).reverse ++ stk)
  | .nil, h => by
    refine ⟨[], rfl, by cases h; rfl,
      fun k none => ⟨[], t, ?_, List.nil_prefix, le_rfl, h.le, by simpa using h.first⟩⟩
    simpa using .nil
  | .cons takes first others, h => by
    obtain ⟨t', _, converted, rest⟩ := h.split
    obtain ⟨_, _, value, convert⟩ := converted.split
    obtain ⟨d, rfl⟩ := first.ran value
    obtain ⟨d', rfl⟩ := convert.convert
    obtain ⟨data, count, rfl, prefixes⟩ := others.ran rest
    -- The first value lies below the others, so any number of arguments lie in their order.
    refine ⟨d' :: data, by simp [count], by simp, fun k upTo => ?_⟩
    cases k with
    | zero =>
      exact ⟨[], t, by simpa using .nil, List.nil_prefix, le_rfl, h.le, by simpa using h.first⟩
    | succ k =>
      obtain ⟨before, t'', code, part, after, upTo', stands⟩ :=
        prefixes k (Nat.le_of_succ_le_succ upTo)
      refine ⟨_, t'', .cons takes first code, (List.prefix_append_right_inj _).2 part,
        converted.le.trans after, upTo', ?_⟩
      simpa [Nat.add_assoc] using stands

end

end

end MiniGo
