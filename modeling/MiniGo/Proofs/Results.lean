import MiniGo.Proofs.Linking
import MiniGo.Proofs.Machine.History
import MiniGo.Proofs.Preservation

/-!
# The results of calls

The results of a call are left in fields, and read there after the call. What is read is what this
very call has left: all results are stored right before a return, and nothing else is stored into
their fields until they are read. A function that reaches the end of its body without a return
statement has no results to store.

* `compile_reads_last_call`: a result that is read was stored by the last call.
-/

namespace MiniGo

variable {P : Platform}

/-- The field of a result of a function. -/
def Function.resultField (f : Function) (options : Options) (k : Nat) (ty : Ty) : FieldRef :=
  ⟨options.className, .result f.name k, ty.descriptor⟩

/-- All results of a function were stored by the activation that returned at a time, one instruction
after the other right before the return, and they still are in their fields. -/
def ResultsStored (cls : ClassFile) (start : MachineState P) (options : Options) (f : Function)
    (callers : List (Activation P)) (j r : Nat) (mem : Memory P) : Prop :=
  ∀ k ty, f.returns[k]? = some ty → j < r - (k + 1) ∧ ∃ b mem' d rest,
    IsAt cls start (r - (k + 1)) b callers mem' (.putStatic (f.resultField options k ty)) ∧
      b.stack = d :: rest ∧ mem.statics (f.resultField options k ty).key = d

/-- An activation of a function returned at the end of a body that does not end with a return
statement. -/
def LeftAtEnd (cls : ClassFile) (start : MachineState P) (p : Program) (f : Function)
    (callers : List (Activation P)) (r : Nat) : Prop :=
  ∃ b mem i body, IsAt cls start r b callers mem .ret ∧ b.pc + 1 = b.code.length ∧
    p.tables.functions.get? i = some f ∧ functionNode i body ∈ p.root.children ∧
    Emission.endsWithReturn body = false

/-- A result that is read was left by the last call. All results of this call were stored before it
returned, or it returned at the end of a body that does not end with a return statement. -/
def ReadsLastCall (cls : ClassFile) (start : MachineState P) (p : Program) (options : Options)
    (n : Nat) (callers : List (Activation P)) (mem : Memory P) (g : FieldRef) : Prop :=
  ∃ f ∈ p.tables.functions.entries, ∃ i ty caller j r, f.returns[i]? = some ty ∧
    g = f.resultField options i ty ∧
    LastCall cls start caller callers ⟨options.className, f.signature⟩ j r n ∧
    (ResultsStored cls start options f (caller :: callers) j r mem ∨
      LeftAtEnd cls start p f (caller :: callers) r)

/-- A call that returns at a time is one of a function. It has stored all results, or it returns at
the end of a body that does not end with a return statement. -/
def ReturnsResults (cls : ClassFile) (start : MachineState P) (p : Program) (options : Options)
    (r : Nat) (caller : Activation P) (callers : List (Activation P)) (mem : Memory P) : Prop :=
  ∃ f ∈ p.tables.functions.entries, ∃ j,
    CallOf cls start caller callers ⟨options.className, f.signature⟩ j r ∧
    (ResultsStored cls start options f (caller :: callers) j r mem ∨
      LeftAtEnd cls start p f (caller :: callers) r)

/-! ### Lines that stay -/

theorem Instr.stays_of_isStraight {i : Instr} (h : i.isStraight = true) :
    (Line.instr i).stays = true := by
  cases i with
  | invokeStatic | ret => cases h
  | _ => rfl

theorem stays_of_mem_resultStores {ctx : Context} {f : Function} {tys : List Ty} :
    ∀ i ∈ resultStores ctx f tys, (Line.instr i).stays = true := by
  intro i mem
  simp only [resultStores, List.mem_reverse, List.mem_mapIdx] at mem
  obtain ⟨k, bound, rfl⟩ := mem
  rfl

theorem getElem?_reverse_resultStores {ctx : Context} {f : Function} {k : Nat} {ty : Ty}
    (h : f.returns[k]? = some ty) :
    (resultStores ctx f f.returns).reverse[k]? = some (.putStatic (ctx.resultOf f k ty)) := by
  rw [resultStores, List.reverse_reverse, List.getElem?_mapIdx, h]
  rfl

/-! ### Methods -/

section

variable {p : Program} {options : Options} {role : Role} {m : Method} {pc : Nat} {g : FieldRef}

/-- A result is read behind the call that leaves it. -/
theorem Method.InPlace.getStatic (h : m.InPlace p options role)
    (line : m.code[pc]? = some (.instr (.getStatic g))) (result : g.isResult = true) :
    ∃ before between j i f ty, p.tables.functions.get? j = some f ∧ f.returns[i]? = some ty ∧
      g = f.resultField options i ty ∧ (∀ i ∈ between, i.isStraight = true) ∧
      m.code.take pc = before ++
        asLines ([.invokeStatic ⟨options.className, f.signature⟩] ++ between) := by
  rcases h pc _ line with stands | ⟨ret, -⟩
  · generalize m.code.take pc = given at stands
    cases stands with
    | plain plain => simp [Line.isPlain, Instr.isPlain, result] at plain
    | @result before between j i f ty callee found straight =>
      exact ⟨before, between, j, i, f, ty, callee, found, rfl, straight, rfl⟩
  · cases ret

/-- What is stored into a field is a global variable or a result of the function itself. -/
theorem Method.InPlace.putStatic (h : m.InPlace p options role)
    (line : m.code[pc]? = some (.instr (.putStatic g))) :
    (∃ x ∈ p.tables.globals.entries, g = (p.context options role.frame).fieldOf x) ∨
    g.isResult = true := by
  rcases h pc _ line with stands | ⟨ret, -⟩
  · generalize m.code.take pc = given at stands
    cases stands with
    | plain plain => cases plain
    | global scope entry => exact .inl ⟨_, mem_globals_of_var? scope entry, rfl⟩
    | store => exact .inr rfl
  · cases ret

/-- What is called is the method of a function. -/
theorem Method.InPlace.invokeStatic {ref : MethodRef} (h : m.InPlace p options role)
    (line : m.code[pc]? = some (.instr (.invokeStatic ref))) :
    ∃ i f, p.tables.functions.get? i = some f ∧ ref = ⟨options.className, f.signature⟩ := by
  rcases h pc _ line with stands | ⟨ret, -⟩
  · generalize m.code.take pc = given at stands
    cases stands with
    | plain plain => cases plain
    | call callee => exact ⟨_, _, callee, rfl⟩
  · cases ret

/-- A return stands behind the stores of all results, or at the end of a body without one. -/
theorem Method.InPlace.ret {i : Nat} {f : Function} {body : List Node}
    (h : m.InPlace p options (.function i f body)) (function : p.tables.functions.get? i = some f)
    (line : m.code[pc]? = some (.instr .ret)) :
    (∃ before, m.code.take pc =
      before ++ asLines (resultStores (p.context options (.ofFunction i f.isEntryPoint))
      f f.returns)) ∨ (pc + 1 = m.code.length ∧ Emission.endsWithReturn body = false) := by
  rcases h pc _ line with stands | ⟨-, last, adds⟩
  · generalize m.code.take pc = given at stands
    cases stands with
    | plain plain => cases plain
    | @ret before j f' own caller =>
      cases own
      obtain rfl : f = f' := Option.some.inj (function.symm.trans caller)
      exact .inl ⟨before, rfl⟩
  · exact .inr ⟨last, by simpa [Role.addsReturn] using adds⟩

end

/-! ### Stored results -/

section

variable {p : Program} {options : Options} {frame : Frame} {cls : ClassFile} {method : Method}
  {args : List (Datum P)} {mem₀ mem : Memory P} {b : Activation P} {callers : List (Activation P)}
  {f : Function} {r k : Nat} {ty : Ty} {before : List Line}

/-- The results were stored after the call. -/
theorem call_before_stores (ret : IsAt cls ⟨[method.activate args], mem₀⟩ r b callers mem .ret)
    (given : b.code.take b.pc =
      before ++ asLines (resultStores (p.context options frame) f f.returns))
    (result : f.returns[k]? = some ty) {j : Nat} {a : Activation P} {callers' : List (Activation P)}
    {mem' : Memory P} {ref : MethodRef}
    (call : IsAt cls ⟨[method.activate args], mem₀⟩ j a callers' mem' (.invokeStatic ref))
    (lt : j < r) :
    j < r - (k + 1) := by
  by_contra early
  obtain ⟨inside, -⟩ := List.getElem?_eq_some_iff.1 result
  -- Otherwise a result would have been stored at the time of the call.
  obtain ⟨k', inside', rfl⟩ : ∃ k', k' < f.returns.length ∧ j = r - (k' + 1) :=
    ⟨r - j - 1, by omega, by omega⟩
  obtain ⟨-, _, _, -, other⟩ := exists_isAt_before ret given stays_of_mem_resultStores
    (getElem?_reverse_resultStores (List.getElem?_eq_getElem inside'))
  cases (call.unique other).2

/-- What was stored before a return is there when the activation returns. -/
theorem exists_stored (ret : IsAt cls ⟨[method.activate args], mem₀⟩ r b callers mem .ret)
    (given : b.code.take b.pc =
      before ++ asLines (resultStores (p.context options frame) f f.returns))
    (result : f.returns[k]? = some ty) :
    ∃ b' mem' d rest, IsAt cls ⟨[method.activate args], mem₀⟩ (r - (k + 1)) b' callers mem'
      (.putStatic (f.resultField options k ty)) ∧ b'.stack = d :: rest ∧
        mem.statics (f.resultField options k ty).key = d := by
  obtain ⟨early, b', mem', -, store⟩ := exists_isAt_before ret given stays_of_mem_resultStores
    (getElem?_reverse_resultStores result)
  obtain ⟨inside, -⟩ := List.getElem?_eq_some_iff.1 result
  have next : ∃ s', stateAfter cls ⟨[method.activate args], mem₀⟩ (r - (k + 1) + 1) = some s' := by
    obtain ⟨-, b'', mem'', -, -, state'⟩ :=
      before_straight ret given stays_of_mem_resultStores (t := k)
        (by simp [resultStores, Nat.le_of_lt inside])
    exact ⟨_, by rwa [show r - (k + 1) + 1 = r - k by omega]⟩
  obtain ⟨s', after⟩ := next
  obtain ⟨_, state', stepped⟩ := exists_stateAfter_of_succ after
  obtain rfl := Option.some.inj (state'.symm.trans store.state)
  obtain ⟨d, rest, stack, held⟩ := step_putStatic stepped store.line
  refine ⟨b', mem', d, rest, store, stack, Eq.trans ?_ held⟩
  -- The results before this one are stored into other fields.
  refine statics_eq_of_unwritten (by omega) after ret.state
    fun t from_ lt a callers' mem'' g put => ?_
  obtain ⟨k', lt', rfl⟩ : ∃ k', k' < k ∧ t = r - (k' + 1) := ⟨r - t - 1, by omega, by omega⟩
  obtain ⟨-, _, _, -, other⟩ := exists_isAt_before ret given stays_of_mem_resultStores
    (getElem?_reverse_resultStores (List.getElem?_eq_getElem (Nat.lt_trans lt' inside)))
  cases (put.unique other).2
  exact resultOf_key_ne (Nat.ne_of_lt lt')

end

/-! ### The class of a program -/

namespace ClassCode

variable {p : Program} {options : Options}

/-- Between the return of a call and the read of a result, nothing is stored into the fields of
results. -/
theorem key_ne_of_straight {m : Method} {role : Role} (inPlace : m.InPlace p options role)
    (globals : ∀ x ∈ p.tables.globals.entries, NameText x.name) {cls : ClassFile} {method : Method}
    {args : List (Datum P)} {mem₀ mem mem' : Memory P} {n t : Nat} {a a' : Activation P}
    {callers callers' : List (Activation P)} {i : Instr} {before : List Line} {between : List Instr}
    {g : FieldRef} (code : a.code = m.code)
    (here : IsAt cls ⟨[method.activate args], mem₀⟩ n a callers mem i)
    (given : a.code.take a.pc = before ++ asLines between)
    (straight : ∀ i ∈ between, i.isStraight = true) (after : n ≤ t + between.length) (lt : t < n)
    (put : IsAt cls ⟨[method.activate args], mem₀⟩ t a' callers' mem' (.putStatic g)) (f : Function)
    (k : Nat) (ty : Ty) : g.key ≠ (f.resultField options k ty).key := by
  obtain ⟨t', inside, rfl⟩ : ∃ t', t' < between.length ∧ t = n - (t' + 1) :=
    ⟨n - t - 1, by omega, by omega⟩
  rw [← List.length_reverse] at inside
  obtain ⟨-, b, mem'', bcode, other⟩ := exists_isAt_before here given
    (fun i mem => Instr.stays_of_isStraight (straight i mem)) (List.getElem?_eq_getElem inside)
  obtain ⟨-, same⟩ := put.unique other
  have noResult := straight _ (List.mem_reverse.1 (List.getElem_mem inside))
  rw [← same] at noResult other
  have line := other.line
  rw [bcode, code] at line
  rcases inPlace.putStatic line with ⟨x, found, rfl⟩ | isResult
  · exact fieldOf_key_ne_resultOf (globals x found).plain
  · simp [Instr.isStraight, isResult] at noResult

/-- A call of a function that returns has stored all results, or it returns at the end of its
body. -/
theorem return_stores (k : ClassCode p options) (wf : p.tables.WellFormed) {m callee : Method}
    {args : List (Datum P)} {mem₀ mem : Memory P} {b caller : Activation P}
    {callers : List (Activation P)} {f : Function} {i j r : Nat}
    (function : p.tables.functions.get? i = some f)
    (waits : WaitsSince (ClassFile.ofLines k.lines) ⟨[m.activate args], mem₀⟩ caller callers
      ⟨options.className, f.signature⟩ callee j r)
    (ret : IsAt (ClassFile.ofLines k.lines) ⟨[m.activate args], mem₀⟩ r b
      (caller :: callers) mem .ret) :
    ResultsStored (ClassFile.ofLines k.lines) ⟨[m.activate args], mem₀⟩ options f
      (caller :: callers) j r mem ∨
      LeftAtEnd (ClassFile.ofLines k.lines) ⟨[m.activate args], mem₀⟩ p f
        (caller :: callers) r := by
  obtain ⟨body, method, rfl⟩ := k.method_of_function function
  obtain rfl : callee = body.method options i :=
    Option.some.inj (waits.found.symm.trans (k.method?_eq wf method))
  have code := waits.code_eq [] ret.state
  rcases (k.method_inPlace method).ret function (code ▸ ret.line) with
    ⟨before, stores⟩ | ⟨last, ends⟩
  · rw [← code] at stores
    obtain ⟨a, mem', -, -, call⟩ := waits.call
    exact .inl fun k' ty returns =>
      ⟨call_before_stores ret stores returns call waits.before, exists_stored ret stores returns⟩
  · exact .inr ⟨b, mem, i, body.body, ret, code ▸ last, function, k.functionNode_mem method, ends⟩

/-- In the class of a program, a call that returns is one of a function, and has stored its
results. -/
theorem returns (k : ClassCode p options) (typed : p.WellTyped) {m : Method}
    (isMethod : m ∈ ClassFile.methodsOf k.lines) {args : List (Datum P)} {mem₀ mem : Memory P}
    {r : Nat} {b caller : Activation P} {callers : List (Activation P)}
    (ret : IsAt (ClassFile.ofLines k.lines) ⟨[m.activate args], mem₀⟩ r b
      (caller :: callers) mem .ret) :
    ReturnsResults (ClassFile.ofLines k.lines)
      ⟨[m.activate args], mem₀⟩ p options r caller callers mem := by
  obtain ⟨ref, callee, j, waits⟩ := exists_waitsSince [] ret.state
  obtain ⟨a, mem', -, -, call⟩ := waits.call
  obtain ⟨m', isMethod', code⟩ := code_of_mem_calls isMethod call.state a (List.mem_cons_self ..)
  obtain ⟨role, -, -, inPlace, -⟩ := k.methods_inPlace typed m' isMethod'
  obtain ⟨i, f, function, rfl⟩ := inPlace.invokeStatic (code ▸ call.line)
  exact ⟨f, List.mem_of_getElem? function, j, waits.callOf ret,
    k.return_stores typed.tables function waits ret⟩

/-- In the class of a program, a result that is read was left by the last call. -/
theorem reads_last_call (k : ClassCode p options) (typed : p.WellTyped)
    (globals : ∀ x ∈ p.tables.globals.entries, NameText x.name) {m : Method}
    (isMethod : m ∈ ClassFile.methodsOf k.lines) {args : List (Datum P)} {mem₀ mem : Memory P}
    {n : Nat} {a : Activation P} {callers : List (Activation P)} {g : FieldRef}
    (read : IsAt (ClassFile.ofLines k.lines) ⟨[m.activate args], mem₀⟩ n a callers mem
      (.getStatic g)) (result : g.isResult = true) :
    ReadsLastCall (ClassFile.ofLines k.lines)
      ⟨[m.activate args], mem₀⟩ p options n callers mem g := by
  obtain ⟨m', isMethod', code⟩ := code_of_mem_calls isMethod read.state a (List.mem_cons_self ..)
  obtain ⟨role, -, -, inPlace, -⟩ := k.methods_inPlace typed m' isMethod'
  obtain ⟨before, between, index, i, f, ty, function, returns, rfl, straight, given⟩ :=
    inPlace.getStatic (code ▸ read.line) result
  rw [← code] at given
  obtain ⟨caller, callee, j, r, time, waits, lastCall⟩ := exists_lastCall read given
    fun i mem => Instr.stays_of_isStraight (straight i mem)
  obtain ⟨b, mem', ret⟩ := lastCall.ret
  refine ⟨f, List.mem_of_getElem? function, i, ty, caller, j, r, returns, rfl, lastCall, ?_⟩
  refine (k.return_stores typed.tables function waits ret).imp_left fun stored k' ty' returns' => ?_
  obtain ⟨after, b', mem'', d, rest, store, stack, held⟩ := stored k' ty' returns'
  refine ⟨after, b', mem'', d, rest, store, stack, Eq.trans ?_ held⟩
  -- Since the return, nothing was stored into the fields of results.
  refine statics_eq_of_unwritten (Nat.le_of_lt lastCall.returned) ret.state read.state
    fun t from_ lt a' callers' mem'' g put => ?_
  have given' : a.code.take a.pc =
      (before ++ asLines [.invokeStatic ⟨options.className, f.signature⟩]) ++ asLines between := by
    rw [given, asLines, List.map_append, List.append_assoc]
  rcases Nat.lt_or_eq_of_le from_ with later | rfl
  · exact key_ne_of_straight inPlace globals code read given' straight (by omega) lt put _ _ _
  · cases (put.unique ret).2

end ClassCode

/-! ### Source texts -/

/-- In a compiled class, whatever method is run and in whatever memory, a call returns with all its
results stored, and a result that is read is that of the last call. The only exception is a function
that reaches the end of its body without a return statement there. -/
theorem compile_reads_last_call {source text : String} {options : Options}
    (h : compile source options = .ok text) :
    ∃ p lines, analyzeSource source = .ok p ∧
      emission p.root p.tables options = ⟨lines, {}, .ok ()⟩ ∧
      text = Line.render lines ∧
      ∀ (P : Platform) (m : Method), m ∈ (ClassFile.ofLines lines).methods →
        ∀ (args : List (Datum P)) (mem₀ : Memory P),
          (∀ r b caller callers mem,
            IsAt (ClassFile.ofLines lines) ⟨[m.activate args], mem₀⟩ r b
              (caller :: callers) mem .ret →
              ReturnsResults (ClassFile.ofLines lines)
                ⟨[m.activate args], mem₀⟩ p options r caller callers mem) ∧
          ∀ n a callers mem g,
            IsAt (ClassFile.ofLines lines) ⟨[m.activate args], mem₀⟩ n a callers mem
              (.getStatic g) → g.isResult = true →
                ReadsLastCall (ClassFile.ofLines lines)
                  ⟨[m.activate args], mem₀⟩ p options n callers mem g := by
  obtain ⟨file, p, parsed, analyzed, typed, k, emitted, rfl⟩ := compile_eq_ok h
  refine ⟨p, k.lines, analyzeSource_eq_ok_iff.2 ⟨_, parsed, analyzed⟩, emitted, rfl, ?_⟩
  refine fun P m isMethod args mem₀ =>
    ⟨fun r b caller callers mem ret => k.returns typed isMethod ret, ?_⟩
  intro n a callers mem g read result
  exact k.reads_last_call typed (globals_nameText parsed analyzed) isMethod read result

/-- The state in which the entry point of a class is started, without arguments or input. -/
def Method.entryState (main : Method) : MachineState .words :=
  ⟨[main.activate [.array 0]], (Memory.start []).allocate ⟨.string, []⟩⟩

/-- A function with two results. -/
def pairSource : String :=
  "func f(n int) (int, int) \x7b\nreturn n, n + 1\n\x7d\n" ++
    "func main() \x7b\na, b := f(3)\nwrite(a + b)\n\x7d\n"

theorem pairSource_reads_last_call : ∃ p lines, analyzeSource pairSource = .ok p ∧
    compile pairSource {} = .ok (Line.render lines) ∧ ∃ main ∈ (ClassFile.ofLines lines).methods,
      ∃ a callers mem, IsAt (ClassFile.ofLines lines) main.entryState 15 a callers mem
        (.getStatic ⟨"GoProgram", .result "f" 1, .int⟩) ∧
      ReadsLastCall (ClassFile.ofLines lines) main.entryState p {} 15 callers mem
        ⟨"GoProgram", .result "f" 1, .int⟩ := by
  obtain ⟨p, lines, analyzed, emitted, compiled, checked⟩ := exists_lines_of_check pairSource {}
    (fun lines => (ClassFile.ofLines lines).methods.any fun main =>
      (stateAfter (ClassFile.ofLines lines) main.entryState 15).bind MachineState.line? =
        some (.instr (.getStatic ⟨"GoProgram", .result "f" 1, .int⟩))) (by decide +kernel)
  obtain ⟨main, isMethod, line⟩ := List.any_eq_true.1 checked
  obtain ⟨a, callers, mem, read⟩ := exists_isAt_iff.2 (of_decide_eq_true line)
  refine ⟨p, lines, analyzed, compiled, main, isMethod, a, callers, mem, read, ?_⟩
  obtain ⟨p', lines', analyzed', emitted', -, reads⟩ := compile_reads_last_call compiled
  obtain rfl : p = p' := Except.ok.inj (analyzed.symm.trans analyzed')
  obtain rfl : lines = lines' := congrArg Emission.lines (emitted.symm.trans emitted')
  exact (reads .words main isMethod _ _).2 15 a callers mem _ read rfl

/-- Whether a line stores into a field. -/
def Line.isFieldStore : Line → Bool
  | .instr (.putStatic _) => true
  | _ => false

/-- A function without a return statement, although it has a result. -/
def unreturnedSource : String := "func f() int \x7b\n\x7d\nfunc main() \x7b\nwrite(f())\n\x7d\n"

/-- The result of the call is read, and nothing was ever stored into any field. -/
theorem unreturnedSource_reads_default : ∃ p lines, analyzeSource unreturnedSource = .ok p ∧
    compile unreturnedSource {} = .ok (Line.render lines) ∧
      ∃ main ∈ (ClassFile.ofLines lines).methods,
      main.signature = entrySignature ∧
      (∃ a callers mem, IsAt (ClassFile.ofLines lines) main.entryState 7 a callers mem
        (.getStatic ⟨"GoProgram", .result "f" 0, .int⟩)) ∧
      ∀ t < 7, ∀ a callers mem g,
        ¬ IsAt (ClassFile.ofLines lines) main.entryState t a callers mem (.putStatic g) := by
  obtain ⟨p, lines, analyzed, -, compiled, checked⟩ := exists_lines_of_check unreturnedSource {}
    (fun lines => (ClassFile.ofLines lines).methods.any fun main =>
      main.signature = entrySignature &&
      (stateAfter (ClassFile.ofLines lines) main.entryState 7).bind MachineState.line? =
        some (.instr (.getStatic ⟨"GoProgram", .result "f" 0, .int⟩)) &&
      (List.range 7).all fun t =>
        ((stateAfter (ClassFile.ofLines lines) main.entryState t).bind MachineState.line?).all
          (!Line.isFieldStore ·)) (by decide +kernel)
  obtain ⟨main, isMethod, checked⟩ := List.any_eq_true.1 checked
  simp only [Bool.and_eq_true, decide_eq_true_eq, List.all_eq_true, List.mem_range] at checked
  obtain ⟨⟨signature, line⟩, unwritten⟩ := checked
  refine ⟨p, lines, analyzed, compiled, main, isMethod, signature, exists_isAt_iff.2 line, ?_⟩
  intro t lt a callers mem g put
  have none := unwritten t lt
  rw [exists_isAt_iff.1 ⟨a, callers, mem, put⟩] at none
  cases none

end MiniGo
