import MiniGo.Proofs.Flow

/-!
# The history of a run

A run is a sequence of states, one for each number of steps. What the activation on top is doing
tells what happened before.

* `Moves`: what one step does to the activations, and `step_moves`.
* `Instr.Changes`, `Acts`: what an instruction and a step do to slots, fields and arrays.
* `exists_waitsSince`: an activation that waits for another one has called it.
* `exists_before`: how a line was reached that is not a label, and `before_straight`, for several
  lines.
* `exists_lastCall`: behind a call, this call was the last one.
* `statics_eq_of_unwritten`: a field keeps what it holds until something is stored there.
-/

namespace MiniGo

variable {P : Platform} {cls : ClassFile}

/-- The state after a number of steps, if the machine gets that far. -/
def stateAfter (cls : ClassFile) (start : MachineState P) : Nat → Option (MachineState P)
  | 0 => some start
  | n + 1 => (stateAfter cls start n).bind (step cls)

/-- After a number of steps, an activation is on top of others and at an instruction. -/
structure IsAt (cls : ClassFile) (start : MachineState P) (n : Nat) (a : Activation P)
    (callers : List (Activation P)) (mem : Memory P) (i : Instr) : Prop where
  state : stateAfter cls start n = some ⟨a :: callers, mem⟩
  line : a.code[a.pc]? = some (.instr i)

/-- There is only one instruction at a time. -/
theorem IsAt.unique {start : MachineState P} {n : Nat} {a b : Activation P}
    {callers callers' : List (Activation P)} {mem mem' : Memory P} {i i' : Instr}
    (h : IsAt cls start n a callers mem i) (h' : IsAt cls start n b callers' mem' i') :
    callers = callers' ∧ i = i' := by
  have same := h.state.symm.trans h'.state
  cases same
  have line := h.line.symm.trans h'.line
  cases line
  exact ⟨rfl, rfl⟩

/-- The line at which the activation on top is. -/
def MachineState.line? (s : MachineState P) : Option Line :=
  s.calls.head?.bind fun a => a.code[a.pc]?

theorem exists_isAt_iff {start : MachineState P} {n : Nat} {i : Instr} :
    (∃ a callers mem, IsAt cls start n a callers mem i) ↔
      (stateAfter cls start n).bind MachineState.line? = some (.instr i) := by
  constructor
  · rintro ⟨a, callers, mem, state, line⟩
    rw [state]
    exact line
  · intro h
    obtain ⟨⟨calls, mem⟩, state, line⟩ := Option.bind_eq_some_iff.1 h
    cases calls with
    | nil => cases line
    | cons a callers => exact ⟨a, callers, mem, state, line⟩

/-! ### Single steps -/

/-- Whether a line leaves control in its activation. -/
def Line.stays : Line → Bool
  | .instr (.invokeStatic _) | .instr .ret => false
  | _ => true

/-- What one step does to the activations: the one on top goes on, or calls a method, or returns. -/
inductive Moves (cls : ClassFile) (a : Activation P) (callers : List (Activation P))
    (mem : Memory P) : MachineState P → Prop
  | goes {l : Line} {a' : Activation P} {mem' : Memory P} (line : a.code[a.pc]? = some l)
      (stays : l.stays = true) (code : a'.code = a.code) (goes : Goes a.code a.pc a'.pc) :
      Moves cls a callers mem ⟨a' :: callers, mem'⟩
  | calls {ref : MethodRef} {method : Method} {args stack : List (Datum P)}
      (line : a.code[a.pc]? = some (.instr (.invokeStatic ref)))
      (found : cls.method? ref = some method) :
      Moves cls a callers mem ⟨method.activate args :: { a.next with stack } :: callers, mem⟩
  | returns (line : a.code[a.pc]? = some (.instr .ret)) : Moves cls a callers mem ⟨callers, mem⟩

section

variable {a : Activation P} {callers : List (Activation P)} {mem : Memory P} {s : MachineState P}
  {i : Instr}

/-- An instruction with an effect goes on with the next line. -/
theorem Instr.next_of_effect {w w' : Work P} (h : i.effect cls w = some w') :
    (Line.instr i).stays = true ∧ (Line.instr i).fallsThrough = true := by
  cases i with
  | invokeStatic | ret | goto => simp [Instr.effect] at h
  | _ => exact ⟨rfl, rfl⟩

/-- A branch goes to its label or to the next line. -/
theorem Activation.goes_of_branch {b b' : Activation P} {jumps : Bool} {l : Label}
    (h : b.branch jumps l = some b') (line : b.code[b.pc]? = some (.instr i))
    (target : i.target? = some l) (falls : (Line.instr i).fallsThrough = true) :
    b'.code = b.code ∧ Goes b.code b.pc b'.pc := by
  unfold Activation.branch at h
  split at h
  · obtain ⟨pc, label, rfl⟩ := Option.map_eq_some_iff.1 h
    exact ⟨rfl, .branch line target label⟩
  · cases h
    exact ⟨rfl, .next line falls⟩

theorem Instr.step_moves (line : a.code[a.pc]? = some (.instr i)) :
    i.step cls a callers mem = some s → Moves cls a callers mem s := by
  intro h
  unfold Instr.step at h
  split at h
  · obtain ⟨a', jump, rfl⟩ := Option.map_eq_some_iff.1 h
    obtain ⟨pc, label, rfl⟩ := Option.map_eq_some_iff.1 jump
    exact .goes line rfl rfl (.branch line rfl label)
  · obtain ⟨a', branch, rfl⟩ := Option.map_eq_some_iff.1 h
    obtain ⟨code, goes⟩ := Activation.goes_of_branch branch line rfl rfl
    exact .goes line rfl code goes
  · obtain ⟨a', branch, rfl⟩ := Option.map_eq_some_iff.1 h
    obtain ⟨code, goes⟩ := Activation.goes_of_branch branch line rfl rfl
    exact .goes line rfl code goes
  · cases h
    exact .returns line
  · obtain ⟨method, found, rest⟩ := Option.bind_eq_some_iff.1 h
    simp only at rest
    split at rest <;> cases rest
    exact .calls line found
  · obtain ⟨w, effect, rest⟩ := Option.bind_eq_some_iff.1 h
    cases rest
    obtain ⟨stays, falls⟩ := Instr.next_of_effect effect
    exact .goes line stays rfl (.next line falls)

/-- What one step does. -/
theorem step_moves (h : step cls ⟨a :: callers, mem⟩ = some s) : Moves cls a callers mem s := by
  unfold step at h
  simp only at h
  split at h
  · rename_i i line
    exact Instr.step_moves line h
  -- Labels and limits are passed.
  all_goals cases h
  all_goals
    rename_i line
    exact .goes line rfl rfl (.next line rfl)

/-! ### Slots and memory -/

/-- A method of the library changes neither fields nor arrays. -/
theorem libraryCall_memory {m : MethodRef} {stack stack' : List (Datum P)} {mem mem' : Memory P}
    (h : libraryCall m stack mem = some (stack', mem')) :
    mem'.statics = mem.statics ∧ mem'.heap = mem.heap := by
  unfold libraryCall at h
  split at h
  · split at h <;> cases h
    exact ⟨rfl, rfl⟩
  split at h
  · split at h <;> cases h
    exact ⟨rfl, rfl⟩
  split at h
  · split at h
    · obtain ⟨v, -, same⟩ := Option.map_eq_some_iff.1 h
      cases same
      exact ⟨rfl, rfl⟩
    · cases h
  · cases h
  · split at h
    · split at h
      · obtain ⟨⟨v, input⟩, -, same⟩ := Option.map_eq_some_iff.1 h
        cases same
        exact ⟨rfl, rfl⟩
      · cases h
    · cases h
  · cases h

/-- What an instruction does to slots, fields and arrays: at most one of them is changed, and only
by the instruction that is for it. -/
inductive Instr.Changes (w : Work P) : Instr → Work P → Prop
  | nothing {i : Instr} {stack : List (Datum P)} {mem : Memory P}
      (statics : mem.statics = w.memory.statics) (heap : mem.heap = w.memory.heap) :
      Changes w i ⟨stack, w.locals, mem⟩
  | slot {kind : ValueKind} {slot : Nat} {d : Datum P} {stack : List (Datum P)} :
      Changes w (.store kind slot) ⟨stack, Function.update w.locals slot (some d), w.memory⟩
  | field {f : FieldRef} {d : Datum P} {stack : List (Datum P)} :
      Changes w (.putStatic f) ⟨stack, w.locals, w.memory.put f d⟩
  | element {kind : ElementKind} {d : Datum P} {j : BitVec 32} {address : Nat}
      {stack : List (Datum P)} {object : ArrayObject P}
      (operands : w.stack = d :: .int j :: .array address :: stack)
      (found : w.memory.heap[address]? = some object) :
      Changes w (.elementStore kind) ⟨stack, w.locals, { w.memory with
        heap := w.memory.heap.set address
          ⟨object.type, object.elements.set j.toNat (object.type.kept d)⟩ }⟩
  | array {type : ArrayType} {object : ArrayObject P} {stack : List (Datum P)} :
      Changes w (.newArray type) ⟨stack, w.locals, w.memory.allocate object⟩

theorem Instr.effect_changes {w w' : Work P} : i.effect cls w = some w' → i.Changes w w' := by
  fun_cases Instr.effect cls i w with
  | case5 | case8 =>
    -- A slot is loaded
    intro h
    obtain ⟨d, -, rest⟩ := Option.bind_eq_some_iff.1 h
    split at rest <;> cases rest
    exact .nothing rfl rfl
  | case6 =>
    intro h
    cases h
    exact .slot
  | case9 =>
    -- An element is loaded
    intro h
    obtain ⟨object, -, inner⟩ := Option.bind_eq_some_iff.1 h
    obtain ⟨d, -, rest⟩ := Option.bind_eq_some_iff.1 inner
    split at rest <;> cases rest
    exact .nothing rfl rfl
  | case10 =>
    -- An element is stored
    intro h
    obtain ⟨object, found, rest⟩ := Option.bind_eq_some_iff.1 h
    split at rest <;> cases rest
    exact .element rfl found
  | case14 =>
    intro h
    cases h
    exact .field
  | case16 =>
    intro h
    obtain ⟨⟨stack, mem⟩, call, rest⟩ := Option.bind_eq_some_iff.1 h
    cases rest
    exact .nothing (libraryCall_memory call).1 (libraryCall_memory call).2
  | case19 =>
    intro h
    cases h
    exact .array
  | case17 | case22 =>
    -- A constructor, or an operation on numbers
    intro h
    obtain ⟨d, -, rest⟩ := Option.bind_eq_some_iff.1 h
    cases rest
    exact .nothing rfl rfl
  | _ =>
    intro h
    cases h <;> exact .nothing rfl rfl

/-- An instruction leaves all fields as they are, except for the one that it stores into. -/
theorem Instr.effect_statics {w w' : Work P} {key : FieldKey}
    (other : ∀ f, i = .putStatic f → f.key ≠ key) (h : i.effect cls w = some w') :
    w'.memory.statics key = w.memory.statics key := by
  cases Instr.effect_changes h with
  | nothing statics => exact congrFun statics key
  | field => exact Function.update_of_ne (other _ rfl).symm _ _
  | slot | element | array => rfl

/-- What one step does to slots and memory: an instruction has its effect, or control goes
elsewhere. -/
inductive Acts (cls : ClassFile) (a : Activation P) (callers : List (Activation P))
    (mem : Memory P) : MachineState P → Prop
  | effect {i : Instr} {w : Work P} (line : a.code[a.pc]? = some (.instr i))
      (effect : i.effect cls ⟨a.stack, a.locals, mem⟩ = some w) :
      Acts cls a callers mem (w.at a.code (a.pc + 1) callers)
  | goes {a' : Activation P} (code : a'.code = a.code) (locals : a'.locals = a.locals) :
      Acts cls a callers mem ⟨a' :: callers, mem⟩
  | calls {callee a' : Activation P} (code : a'.code = a.code) (locals : a'.locals = a.locals) :
      Acts cls a callers mem ⟨callee :: a' :: callers, mem⟩
  | returns : Acts cls a callers mem ⟨callers, mem⟩

theorem Activation.same_of_branch {b b' : Activation P} {jumps : Bool} {l : Label}
    (h : b.branch jumps l = some b') :
    b'.code = b.code ∧ b'.locals = b.locals := by
  unfold Activation.branch at h
  split at h
  · obtain ⟨pc, -, rfl⟩ := Option.map_eq_some_iff.1 h
    exact ⟨rfl, rfl⟩
  · cases h
    exact ⟨rfl, rfl⟩

/-- What one step does. -/
theorem step_acts (h : step cls ⟨a :: callers, mem⟩ = some s) : Acts cls a callers mem s := by
  unfold step at h
  simp only at h
  split at h
  · rename_i i line
    unfold Instr.step at h
    split at h
    · obtain ⟨a', jump, rfl⟩ := Option.map_eq_some_iff.1 h
      obtain ⟨pc, -, rfl⟩ := Option.map_eq_some_iff.1 jump
      exact .goes rfl rfl
    · obtain ⟨a', branch, rfl⟩ := Option.map_eq_some_iff.1 h
      exact .goes (Activation.same_of_branch branch).1 (Activation.same_of_branch branch).2
    · obtain ⟨a', branch, rfl⟩ := Option.map_eq_some_iff.1 h
      exact .goes (Activation.same_of_branch branch).1 (Activation.same_of_branch branch).2
    · cases h
      exact .returns
    · obtain ⟨method, -, rest⟩ := Option.bind_eq_some_iff.1 h
      simp only at rest
      split at rest <;> cases rest
      exact .calls rfl rfl
    · obtain ⟨w, effect, rest⟩ := Option.bind_eq_some_iff.1 h
      cases rest
      exact .effect line effect
  -- Labels and limits are passed.
  all_goals cases h
  all_goals exact .goes rfl rfl

/-! ### Fields -/

/-- A step leaves all fields as they are, except for the one that it stores into. -/
theorem step_statics {key : FieldKey} (h : step cls ⟨a :: callers, mem⟩ = some s)
    (other : ∀ f, a.code[a.pc]? = some (.instr (.putStatic f)) → f.key ≠ key) :
    s.memory.statics key = mem.statics key := by
  cases step_acts h with
  | effect line effect => exact Instr.effect_statics (fun f same => other f (same ▸ line)) effect
  | goes | calls | returns => rfl

/-- A field holds what was stored there. -/
theorem step_putStatic {f : FieldRef} (h : step cls ⟨a :: callers, mem⟩ = some s)
    (line : a.code[a.pc]? = some (.instr (.putStatic f))) :
    ∃ d rest, a.stack = d :: rest ∧ s.memory.statics f.key = d := by
  simp only [step, line, Instr.step] at h
  obtain ⟨w, effect, rest⟩ := Option.bind_eq_some_iff.1 h
  cases rest
  cases stack : a.stack with
  | nil => simp [stack, Instr.effect] at effect
  | cons d rest =>
    rw [stack] at effect
    simp only [Instr.effect] at effect
    split at effect <;> cases effect
    exact ⟨d, rest, rfl, Function.update_self _ _ _⟩

end

/-! ### Activations that wait -/

section

variable {start : MachineState P} {n r : Nat} {a : Activation P} {callers : List (Activation P)}
  {mem : Memory P} {s : MachineState P}

theorem exists_stateAfter_of_succ (h : stateAfter cls start (n + 1) = some s) :
    ∃ s', stateAfter cls start n = some s' ∧ step cls s' = some s :=
  Option.bind_eq_some_iff.1 h

/-- A state with a next one has an activation that runs. -/
theorem exists_moves_of_succ (h : stateAfter cls start (n + 1) = some s) :
    ∃ a callers mem, stateAfter cls start n = some ⟨a :: callers, mem⟩ ∧
      step cls ⟨a :: callers, mem⟩ = some s ∧ Moves cls a callers mem s := by
  obtain ⟨⟨calls, mem⟩, before, stepped⟩ := exists_stateAfter_of_succ h
  cases calls with
  | nil => cases stepped
  | cons a callers => exact ⟨a, callers, mem, before, stepped, step_moves stepped⟩

/-- An activation has called a method at one time, and waits for it up to another time. -/
structure WaitsSince (cls : ClassFile) (start : MachineState P) (a : Activation P)
    (callers : List (Activation P)) (ref : MethodRef) (method : Method) (j r : Nat) : Prop where
  before : j < r
  call : ∃ a' mem, a'.code = a.code ∧ a'.pc + 1 = a.pc ∧
      IsAt cls start j a' callers mem (.invokeStatic ref)
  found : cls.method? ref = some method
  above : ∀ t, j < t → t ≤ r → ∃ ys b mem,
    stateAfter cls start t = some ⟨ys ++ b :: a :: callers, mem⟩ ∧ b.code = method.code

theorem WaitsSince.succ {ref : MethodRef} {method : Method} {j : Nat}
    (h : WaitsSince cls start a callers ref method j r) {ys : List (Activation P)}
    {b : Activation P} (state : stateAfter cls start (r + 1) = some ⟨ys ++ b :: a :: callers, mem⟩)
    (code : b.code = method.code) : WaitsSince cls start a callers ref method j (r + 1) := by
  refine ⟨Nat.lt_succ_of_lt h.before, h.call, h.found, fun t after upTo => ?_⟩
  rcases Nat.lt_or_eq_of_le upTo with lt | rfl
  · exact h.above t after (Nat.le_of_lt_succ lt)
  · exact ⟨ys, b, mem, state, code⟩

/-- The activation that was called runs the code of its method. -/
theorem WaitsSince.code_eq {ref : MethodRef} {method : Method} {j : Nat}
    (h : WaitsSince cls start a callers ref method j r) (ys : List (Activation P))
    {b : Activation P} (state : stateAfter cls start r = some ⟨ys ++ b :: a :: callers, mem⟩) :
    b.code = method.code := by
  obtain ⟨ys', b', mem', state', code⟩ := h.above r h.before (Nat.le_refl r)
  rw [state] at state'
  have calls : (ys ++ [b]) ++ a :: callers = (ys' ++ [b']) ++ a :: callers := by
    simpa using congrArg (Option.map MachineState.calls) state'
  have bottom := List.append_inj_right' (List.append_cancel_right calls) rfl
  rw [← code, List.cons.inj bottom |>.1]

/-- An activation that waits has called a method, in a run that starts with a single activation. -/
theorem exists_waitsSince {single : Activation P} {mem₀ : Memory P} (ys : List (Activation P))
    {b : Activation P}
    (h : stateAfter cls ⟨[single], mem₀⟩ r = some ⟨ys ++ b :: a :: callers, mem⟩) :
    ∃ ref method j, WaitsSince cls ⟨[single], mem₀⟩ a callers ref method j r := by
  -- By induction on the time: what the last step did tells whether the call was made right now or
  -- before.
  induction r generalizing ys b mem with
  | zero =>
    have calls : [single] = ys ++ b :: a :: callers :=
      congrArg MachineState.calls (Option.some.inj h)
    have length := congrArg List.length calls
    simp only [List.length_append, List.length_cons, List.length_nil] at length
    omega
  | succ r ih =>
    have earlier (xs : List (Activation P)) {x : Activation P} {mem' : Memory P}
        (before : stateAfter cls ⟨[single], mem₀⟩ r = some ⟨xs ++ x :: a :: callers, mem'⟩)
        (code : b.code = x.code) :
        ∃ ref method j, WaitsSince cls ⟨[single], mem₀⟩ a callers ref method j (r + 1) := by
      obtain ⟨ref, method, j, waits⟩ := ih _ before
      exact ⟨ref, method, j, waits.succ h (code.trans (waits.code_eq xs before))⟩
    obtain ⟨x, rest, mem', before, -, moves⟩ := exists_moves_of_succ h
    generalize state : MachineState.mk (ys ++ b :: a :: callers) mem = s at moves
    cases moves with
    | goes _ _ code =>
      cases ys with
      | nil =>
        cases state
        exact earlier [] before code
      | cons y ys =>
        cases state
        exact earlier (x :: ys) before rfl
    | calls line found =>
      cases ys with
      | nil =>
        cases state
        refine ⟨_, _, r, Nat.lt_succ_self r, ⟨x, _, rfl, rfl, before, line⟩, found,
          fun t after upTo => ?_⟩
        obtain rfl : t = r + 1 := by omega
        exact ⟨[], _, _, h, rfl⟩
      | cons y ys =>
        cases ys with
        | nil =>
          cases state
          exact earlier [] before rfl
        | cons y' ys =>
          cases state
          exact earlier (x :: ys) before rfl
    | returns =>
      cases state
      exact earlier (x :: ys) before rfl

/-! ### How a line was reached -/

/-- A line that is no label was reached from the line before it, or by the return of a call
there. -/
theorem exists_before {method : Method} {args : List (Datum P)} {mem₀ : Memory P} {q : Nat}
    {l : Line} (h : stateAfter cls ⟨[method.activate args], mem₀⟩ n = some ⟨a :: callers, mem⟩)
    (pc : a.pc = q + 1) (line : a.code[q]? = some l)
    (noLabel : ∀ l', a.code[q + 1]? ≠ some (.label l')) :
    ∃ n', n = n' + 1 ∧
      ((l.stays = true ∧ ∃ a' mem', a'.code = a.code ∧ a'.pc = q ∧
          stateAfter cls ⟨[method.activate args], mem₀⟩ n' = some ⟨a' :: callers, mem'⟩) ∨
        ∃ b, IsAt cls ⟨[method.activate args], mem₀⟩ n' b (a :: callers) mem .ret) := by
  cases n with
  | zero =>
    cases Option.some.inj h
    cases pc
  | succ n =>
    refine ⟨n, rfl, ?_⟩
    obtain ⟨x, rest, mem', before, -, moves⟩ := exists_moves_of_succ h
    generalize state : MachineState.mk (a :: callers) mem = s at moves
    cases moves with
    | @goes l' _ _ found stays code goes =>
      cases state
      rw [pc] at goes
      generalize target : q + 1 = k at goes
      -- Without a label here, the instruction before must have come first.
      cases goes with
      | next =>
        obtain rfl : x.pc = q := by omega
        rw [code, found, Option.some.injEq] at line
        exact .inl ⟨line ▸ stays, x, mem', code.symm, rfl, before⟩
      | branch _ _ label =>
        obtain ⟨l'', labelled⟩ := label_of_findIdx? label
        rw [← target, ← code] at labelled
        exact absurd labelled (noLabel l'')
    | calls =>
      cases state
      cases pc
    | returns ret =>
      cases state
      exact .inr ⟨x, before, ret⟩

/-- The last of the instructions before a line, counted backwards. -/
theorem line_of_reverse {code before : List Line} {pc : Nat} {is : List Instr}
    (bound : pc ≤ code.length) (given : code.take pc = before ++ asLines is) {t : Nat} {i : Instr}
    (h : is.reverse[t]? = some i) :
    t + 1 ≤ pc ∧ code[pc - (t + 1)]? = some (.instr i) := by
  obtain ⟨inside, rfl⟩ := List.getElem?_eq_some_iff.1 h
  rw [List.length_reverse] at inside
  have length := congrArg List.length given
  simp only [List.length_take, List.length_append, List.length_map, Nat.min_eq_left bound] at length
  refine ⟨by omega, ?_⟩
  have here : pc - (t + 1) = before.length + (is.length - 1 - t) := by omega
  rw [← List.getElem?_take_of_lt (j := pc) (by omega), given, here,
    List.getElem?_append_right (by omega), Nat.add_sub_cancel_left, List.getElem_reverse,
    List.getElem?_map, List.getElem?_eq_getElem (by omega)]
  rfl

theorem exists_instr_before {code before : List Line} {pc : Nat} {is : List Instr} {i : Instr}
    (line : code[pc]? = some (.instr i)) (given : code.take pc = before ++ asLines is) {t : Nat}
    (upTo : t ≤ is.length) : t ≤ pc ∧ ∃ i', code[pc - t]? = some (.instr i') := by
  cases t with
  | zero => exact ⟨Nat.zero_le pc, i, line⟩
  | succ t =>
    rw [← List.length_reverse] at upTo
    obtain ⟨inside, -⟩ := List.getElem?_eq_some_iff.1 line
    obtain ⟨le, found⟩ :=
      line_of_reverse (Nat.le_of_lt inside) given (List.getElem?_eq_getElem upTo)
    exact ⟨le, _, found⟩

/-- Instructions that stay in their activation were run one after the other. -/
theorem before_straight {method : Method} {args : List (Datum P)} {mem₀ : Memory P}
    {before : List Line} {is : List Instr} {i : Instr}
    (h : IsAt cls ⟨[method.activate args], mem₀⟩ n a callers mem i)
    (given : a.code.take a.pc = before ++ asLines is)
    (stays : ∀ i ∈ is, (Line.instr i).stays = true) {t : Nat} (upTo : t ≤ is.length) :
    t ≤ n ∧ ∃ a' mem', a'.code = a.code ∧ a'.pc + t = a.pc ∧
      stateAfter cls ⟨[method.activate args], mem₀⟩ (n - t) = some ⟨a' :: callers, mem'⟩ := by
  induction t with
  | zero => exact ⟨Nat.zero_le n, a, mem, rfl, rfl, h.state⟩
  | succ t ih =>
    obtain ⟨le, a', mem', code, pc, state⟩ := ih (Nat.le_of_succ_le upTo)
    obtain ⟨inside, -⟩ := List.getElem?_eq_some_iff.1 h.line
    have reversed : t < is.reverse.length := by rwa [List.length_reverse]
    obtain ⟨behind, found⟩ :=
      line_of_reverse (Nat.le_of_lt inside) given (List.getElem?_eq_getElem reversed)
    have noLabel : ∀ l, a'.code[a.pc - (t + 1) + 1]? ≠ some (.label l) := by
      obtain ⟨-, i', instr⟩ := exists_instr_before h.line given (Nat.le_of_succ_le upTo)
      rw [code, show a.pc - (t + 1) + 1 = a.pc - t by omega, instr]
      simp
    obtain ⟨n', time, ⟨-, a'', mem'', code', pc', state'⟩ | ⟨b, ret⟩⟩ :=
      exists_before state (by omega) (code ▸ found) noLabel
    · refine ⟨by omega, a'', mem'', code'.trans code, by omega, ?_⟩
      rwa [show n - (t + 1) = n' by omega]
    · -- The line before is no call, so no call can have returned to this line.
      obtain ⟨ref, method', j, waits⟩ := exists_waitsSince [] ret.state
      obtain ⟨a'', mem'', code', pc', call⟩ := waits.call
      have same := call.line
      rw [code', code, show a''.pc = a.pc - (t + 1) by omega, found, Option.some.injEq] at same
      have stayed := stays _ (List.mem_reverse.1 (List.getElem_mem reversed))
      rw [same] at stayed
      cases stayed

/-- Each of them was run at a time of its own. -/
theorem exists_isAt_before {method : Method} {args : List (Datum P)} {mem₀ : Memory P}
    {before : List Line} {is : List Instr} {i i' : Instr}
    (h : IsAt cls ⟨[method.activate args], mem₀⟩ n a callers mem i)
    (given : a.code.take a.pc = before ++ asLines is)
    (stays : ∀ i ∈ is, (Line.instr i).stays = true) {t : Nat} (found : is.reverse[t]? = some i') :
    t + 1 ≤ n ∧ ∃ a' mem', a'.code = a.code ∧
      IsAt cls ⟨[method.activate args], mem₀⟩ (n - (t + 1)) a' callers mem' i' := by
  obtain ⟨upTo, -⟩ := List.getElem?_eq_some_iff.1 found
  rw [List.length_reverse] at upTo
  obtain ⟨le, a', mem', code, pc, state⟩ := before_straight h given stays upTo
  obtain ⟨inside, -⟩ := List.getElem?_eq_some_iff.1 h.line
  obtain ⟨-, line⟩ := line_of_reverse (Nat.le_of_lt inside) given found
  refine ⟨le, a', mem', code, state, ?_⟩
  rwa [code, show a'.pc = a.pc - (t + 1) by omega]

/-! ### Calls -/

/-- A call: an activation called a method at one time, and waited for it until it returned at
another time. -/
structure CallOf (cls : ClassFile) (start : MachineState P) (caller : Activation P)
    (callers : List (Activation P)) (ref : MethodRef) (j r : Nat) : Prop where
  called : j < r
  call : ∃ a mem, IsAt cls start j a callers mem (.invokeStatic ref)
  runs : ∀ t, j < t → t ≤ r → ∃ ys b mem, stateAfter cls start t =
      some ⟨ys ++ b :: caller :: callers, mem⟩
  ret : ∃ b mem, IsAt cls start r b (caller :: callers) mem .ret

/-- The last call before a time: since it returned, the activation that made it has called nothing
else. -/
structure LastCall (cls : ClassFile) (start : MachineState P) (caller : Activation P)
    (callers : List (Activation P)) (ref : MethodRef) (j r n : Nat) : Prop
    extends CallOf cls start caller callers ref j r where
  returned : r < n
  since : ∀ t, r < t → t ≤ n → ∃ a mem, stateAfter cls start t = some ⟨a :: callers, mem⟩

theorem WaitsSince.callOf {ref : MethodRef} {method : Method} {j : Nat} {b : Activation P}
    (h : WaitsSince cls start a callers ref method j r)
    (ret : IsAt cls start r b (a :: callers) mem .ret) :
    CallOf cls start a callers ref j r := by
  obtain ⟨a', mem', -, -, call⟩ := h.call
  refine ⟨h.before, ⟨a', mem', call⟩, fun t after upTo => ?_, ⟨b, mem, ret⟩⟩
  obtain ⟨ys, b', mem'', state, -⟩ := h.above t after upTo
  exact ⟨ys, b', mem'', state⟩

/-- Behind a call and instructions that stay in the activation, the call is the last one. -/
theorem exists_lastCall {method : Method} {args : List (Datum P)} {mem₀ : Memory P}
    {before : List Line} {between : List Instr} {ref : MethodRef} {i : Instr}
    (h : IsAt cls ⟨[method.activate args], mem₀⟩ n a callers mem i)
    (given : a.code.take a.pc = before ++ asLines ([.invokeStatic ref] ++ between))
    (stays : ∀ i ∈ between, (Line.instr i).stays = true) :
    ∃ caller callee j r, r + 1 + between.length = n ∧
      WaitsSince cls ⟨[method.activate args], mem₀⟩ caller callers ref callee j r ∧
      LastCall cls ⟨[method.activate args], mem₀⟩ caller callers ref j r n := by
  have given' : a.code.take a.pc = (before ++ asLines [.invokeStatic ref]) ++ asLines between := by
    rw [given, asLines, List.map_append, List.append_assoc]
  obtain ⟨inside, -⟩ := List.getElem?_eq_some_iff.1 h.line
  obtain ⟨behind, found⟩ := line_of_reverse (t := between.length) (i := .invokeStatic ref)
    (Nat.le_of_lt inside) given (by simp)
  obtain ⟨le, a', mem', code, pc, state⟩ := before_straight h given' stays (Nat.le_refl _)
  have noLabel : ∀ l, a'.code[a.pc - (between.length + 1) + 1]? ≠ some (.label l) := by
    obtain ⟨-, i', instr⟩ := exists_instr_before h.line given' (Nat.le_refl _)
    rw [code, show a.pc - (between.length + 1) + 1 = a.pc - between.length by omega, instr]
    simp
  -- A call does not stay in its method, so the step before was a return to it.
  obtain ⟨r, time, ⟨stayed, -⟩ | ⟨b, ret⟩⟩ := exists_before state (by omega) (code ▸ found) noLabel
  · cases stayed
  · obtain ⟨ref', callee, j, waits⟩ := exists_waitsSince [] ret.state
    obtain ⟨a₀, mem₁, code₀, pc₀, call⟩ := waits.call
    have same := call.line
    rw [code₀, code, show a₀.pc = a.pc - (between.length + 1) by omega, found] at same
    cases same
    refine ⟨a', callee, j, r, by omega, waits, waits.callOf ret, by omega, fun t after upTo => ?_⟩
    obtain ⟨-, a'', mem'', -, -, state'⟩ := before_straight h given' stays (t := n - t) (by omega)
    exact ⟨a'', mem'', by rwa [show n - (n - t) = t by omega] at state'⟩

/-! ### Fields that nothing is stored into -/

/-- A field keeps what it holds as long as nothing is stored there. -/
theorem statics_eq_of_unwritten {key : FieldKey} {t : Nat} {s s' : MachineState P} (le : t ≤ n)
    (state : stateAfter cls start t = some s) (state' : stateAfter cls start n = some s')
    (unwritten : ∀ t', t ≤ t' → t' < n → ∀ a callers mem f,
      IsAt cls start t' a callers mem (.putStatic f) → f.key ≠ key) :
    s'.memory.statics key = s.memory.statics key := by
  induction n, le using Nat.le_induction generalizing s' with
  | base =>
    rw [state] at state'
    cases state'
    rfl
  | succ n le ih =>
    obtain ⟨a, callers, mem, before, stepped, -⟩ := exists_moves_of_succ state'
    rw [step_statics stepped fun f line => unwritten n le (Nat.lt_succ_self n) a callers mem f
      ⟨before, line⟩]
    exact ih before fun t' from_ lt => unwritten t' from_ (Nat.lt_succ_of_lt lt)

/-- All activations of a run that starts with a method of the class run methods of the class. -/
theorem code_of_mem_calls {method : Method} (isMethod : method ∈ cls.methods)
    {args : List (Datum P)} {mem₀ : Memory P}
    (h : stateAfter cls ⟨[method.activate args], mem₀⟩ n = some s) :
    ∀ a ∈ s.calls, ∃ m ∈ cls.methods, a.code = m.code := by
  induction n generalizing s with
  | zero =>
    cases Option.some.inj h
    intro a mem
    obtain rfl := List.mem_singleton.1 mem
    exact ⟨method, isMethod, rfl⟩
  | succ n ih =>
    obtain ⟨x, rest, mem', before, -, moves⟩ := exists_moves_of_succ h
    obtain ⟨⟨m, own, code⟩, others⟩ := List.forall_mem_cons.1 (ih before)
    cases moves with
    | goes _ _ same => exact List.forall_mem_cons.2 ⟨⟨m, own, same.trans code⟩, others⟩
    | @calls ref callee _ _ _ found =>
      have called : callee ∈ cls.methods := by
        unfold ClassFile.method? at found
        split at found
        · exact List.mem_of_find?_eq_some found
        · cases found
      exact List.forall_mem_cons.2
        ⟨⟨callee, called, rfl⟩, List.forall_mem_cons.2 ⟨⟨m, own, code⟩, others⟩⟩
    | returns => exact others

end

end MiniGo
