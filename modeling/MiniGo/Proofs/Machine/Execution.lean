import MiniGo.Proofs.Machine.History

/-!
# Executions

A whole execution of a class is a sequence of states: those of a run of the initializer, and then
those of a run of the entry point. It has a state for each number of steps, whether or not it comes
to an end.

* `Execution`, `Execution.moment`: an execution, and where it is after a number of steps.
* `Execution.executes_iff`: it ends in the memories in which the class is said to be executed.
* `Execution.exists_run`: each of its states is one of a run of a method of the class.
* `Execution.ComesTo`, `Execution.ComesTo.next`: an execution comes to instructions, and goes on
  behind the first one.
* `Execution.invariant`: what each step preserves is true at all later times.
-/

namespace MiniGo

variable {P : Platform}

/-- A class with what it is executed on. -/
structure Execution (P : Platform) where
  cls : ClassFile
  arguments : List P.Text
  input : P.Input

/-- Where an execution is: whether the entry point was started, and the state of the machine. -/
structure Moment (P : Platform) where
  entered : Bool
  state : MachineState P

namespace Execution

/-- The entry point of the class. -/
def main? (e : Execution P) : Option Method :=
  e.cls.method? ⟨e.cls.name, mainName, [.array .string], .void⟩

/-- At first, the initializer is started, if there is one. -/
def start (e : Execution P) : Moment P :=
  ⟨false, ⟨(e.cls.initializer?.map fun m => m.activate []).toList, .start e.input⟩⟩

/-- The entry point is started with an array of arguments. -/
def enter (e : Execution P) (mem : Memory P) : Option (Moment P) :=
  e.main?.map fun main =>
    ⟨true, ⟨[main.activate [.array mem.heap.length]],
      mem.allocate ⟨.string, e.arguments.map .text⟩⟩⟩

/-- One step. When the initializer has come to its end, the entry point is started. -/
def next (e : Execution P) : Moment P → Option (Moment P)
  | ⟨false, ⟨[], mem⟩⟩ => e.enter mem
  | ⟨entered, s⟩ => (step e.cls s).map (⟨entered, ·⟩)

/-- Where the execution is after a number of steps, if it gets that far. -/
def moment (e : Execution P) : Nat → Option (Moment P)
  | 0 => some e.start
  | t + 1 => (e.moment t).bind e.next

/-- The state of the machine after a number of steps. -/
def state (e : Execution P) (t : Nat) : Option (MachineState P) := (e.moment t).map Moment.state

variable {e : Execution P} {t n : Nat} {m m' : Moment P} {s s' : MachineState P} {a : Activation P}
  {callers : List (Activation P)} {mem : Memory P}

/-! ### Single steps -/

/-- While a method is run, the machine goes on. -/
theorem next_run {entered : Bool} : e.next ⟨entered, ⟨a :: callers, mem⟩⟩ =
    (step e.cls ⟨a :: callers, mem⟩).map (⟨entered, ·⟩) := by
  cases entered <;> rfl

/-- What a step can do: the machine goes on, or the entry point is started. -/
theorem next_cases (h : e.next m = some m') :
    (∃ a callers mem, m.state = ⟨a :: callers, mem⟩ ∧ step e.cls m.state = some m'.state ∧
      m'.entered = m.entered) ∨
      ∃ mem, m = ⟨false, ⟨[], mem⟩⟩ ∧ e.enter mem = some m' := by
  obtain ⟨entered, ⟨calls, mem⟩⟩ := m
  cases calls with
  | nil =>
    cases entered with
    | false => exact .inr ⟨mem, rfl, h⟩
    | true => cases h
  | cons a callers =>
    rw [next_run] at h
    obtain ⟨s, stepped, rfl⟩ := Option.map_eq_some_iff.1 h
    exact .inl ⟨a, callers, mem, rfl, stepped, rfl⟩

theorem exists_moment_of_succ (h : e.moment (t + 1) = some m') :
    ∃ m, e.moment t = some m ∧ e.next m = some m' :=
  Option.bind_eq_some_iff.1 h

/-- What a step can do to the machine. -/
theorem state_succ_cases (h : e.state (t + 1) = some s') :
    (∃ a callers mem, e.state t = some ⟨a :: callers, mem⟩ ∧
      step e.cls ⟨a :: callers, mem⟩ = some s') ∨
      ∃ main mem, e.state t = some ⟨[], mem⟩ ∧
        s' = ⟨[main], mem.allocate ⟨.string, e.arguments.map .text⟩⟩ := by
  obtain ⟨m', found, rfl⟩ := Option.map_eq_some_iff.1 h
  obtain ⟨m, before, next⟩ := exists_moment_of_succ found
  have here : e.state t = some m.state := by rw [state, before, Option.map_some]
  rcases next_cases next with ⟨a, callers, mem, running, stepped, -⟩ | ⟨mem, rfl, entered⟩
  · rw [running] at here stepped
    exact .inl ⟨a, callers, mem, here, stepped⟩
  · obtain ⟨main, -, rfl⟩ := Option.map_eq_some_iff.1 entered
    exact .inr ⟨_, mem, here, rfl⟩

/-- While a method is run, the next state is that of the machine. -/
theorem state_succ (h : e.state t = some ⟨a :: callers, mem⟩) :
    e.state (t + 1) = step e.cls ⟨a :: callers, mem⟩ := by
  obtain ⟨⟨entered, s⟩, found, rfl⟩ := Option.map_eq_some_iff.1 h
  rw [state, moment, found, Option.bind_some, next_run, Option.map_map]
  exact Option.map_id'

/-- An execution that gets to a time gets to all earlier ones. -/
theorem exists_state_of_le (h : e.state n = some s) (le : t ≤ n) : ∃ s', e.state t = some s' := by
  induction n, le using Nat.le_induction generalizing s with
  | base => exact ⟨s, h⟩
  | succ n _ ih =>
    rcases state_succ_cases h with ⟨_, _, _, before, -⟩ | ⟨_, _, before, -⟩
    · exact ih before
    · exact ih before

/-- What each step preserves is true at all later times. -/
theorem invariant (holds : MachineState P → Prop) (h : e.state t = some s) (start : holds s)
    (le : t ≤ n)
    (preserved : ∀ t', t ≤ t' → t' < n → ∀ s s', e.state t' = some s → e.state (t' + 1) = some s' →
      holds s → holds s') (h' : e.state n = some s') : holds s' := by
  induction n, le using Nat.le_induction generalizing s' with
  | base =>
    rw [h] at h'
    cases h'
    exact start
  | succ n le ih =>
    obtain ⟨s'', before⟩ := exists_state_of_le h' (Nat.le_succ n)
    refine preserved n le (Nat.lt_succ_self n) s'' s' before h' (ih (fun t' from_ lt => ?_) before)
    exact preserved t' from_ (Nat.lt_succ_of_lt lt)

/-! ### Where executions end -/

/-- An execution follows the machine. -/
theorem exists_moment_of_reaches {entered : Bool} (h : e.moment t = some ⟨entered, s⟩)
    (reaches : Reaches e.cls s s') :
    ∃ t', e.moment t' = some ⟨entered, s'⟩ := by
  induction reaches with
  | refl => exact ⟨t, h⟩
  | @tail s' s'' _ stepped ih =>
    obtain ⟨t', found⟩ := ih
    obtain ⟨calls, mem⟩ := s'
    cases calls with
    | nil => cases stepped
    | cons a callers =>
      exact ⟨t' + 1, by rw [moment, found, Option.bind_some, next_run, stepped, Option.map_some]⟩

/-- Before the entry point is started, the initializer is run. -/
theorem initializes_iff :
    e.cls.Initializes (.start e.input) mem ↔ Reaches e.cls e.start.state ⟨[], mem⟩ := by
  unfold ClassFile.Initializes start
  cases e.cls.initializer? with
  | some m => rfl
  | none =>
    refine ⟨fun same => same ▸ .refl, fun reaches => ?_⟩
    rcases Relation.ReflTransGen.cases_head reaches with same | ⟨s, first, -⟩
    · exact (congrArg MachineState.memory same).symm
    · cases first

/-- The moments of an execution: first those that the initializer reaches, and then those that the
entry point reaches from the memory that the initializer leaves. -/
theorem reaches_of_moment (h : e.moment t = some m) :
    (m.entered = false ∧ Reaches e.cls e.start.state m.state) ∨
      m.entered = true ∧ ∃ mem started, e.cls.Initializes (.start e.input) mem ∧
        e.enter mem = some started ∧
        Reaches e.cls started.state m.state := by
  induction t generalizing m with
  | zero =>
    cases h
    exact .inl ⟨rfl, .refl⟩
  | succ t ih =>
    obtain ⟨m', before, next⟩ := exists_moment_of_succ h
    rcases next_cases next with ⟨_, _, _, -, stepped, same⟩ | ⟨mem, rfl, entered⟩
    · rw [same]
      rcases ih before with ⟨phase, reaches⟩ | ⟨phase, mem, started, init, entered, reaches⟩
      · exact .inl ⟨phase, reaches.trans (.single stepped)⟩
      · exact .inr ⟨phase, mem, started, init, entered, reaches.trans (.single stepped)⟩
    · rcases ih before with ⟨-, reaches⟩ | ⟨phase, -⟩
      · have phase : m.entered = true := by
          obtain ⟨main, -, rfl⟩ := Option.map_eq_some_iff.1 entered
          rfl
        exact .inr ⟨phase, mem, m, initializes_iff.2 reaches, entered, .refl⟩
      · cases phase

/-- An execution comes to an end in the memories in which the class is executed. -/
theorem executes_iff :
    e.cls.Executes e.arguments e.input mem ↔ ∃ t, e.moment t = some ⟨true, ⟨[], mem⟩⟩ := by
  constructor
  · rintro ⟨main, initialized, found, init, completes⟩
    obtain ⟨t, ended⟩ := exists_moment_of_reaches (t := 0) rfl (initializes_iff.1 init)
    have entered : e.moment (t + 1) = e.enter initialized := by
      rw [moment, ended]
      rfl
    rw [enter, main?, found] at entered
    exact exists_moment_of_reaches entered completes
  · rintro ⟨t, found⟩
    rcases reaches_of_moment found with
      ⟨phase, -⟩ | ⟨-, initialized, started, init, entered, reaches⟩
    · cases phase
    · obtain ⟨main, isMain, rfl⟩ := Option.map_eq_some_iff.1 entered
      exact ⟨main, initialized, isMain, init, reaches⟩

/-! ### Runs of methods -/

/-- Each state of an execution is one of a run of a method of the class, unless all methods have
come to an end. -/
theorem exists_run (h : e.moment t = some m) : m.state.calls = [] ∨
    ∃ method ∈ e.cls.methods, ∃ args mem₀ k,
      stateAfter e.cls ⟨[method.activate args], mem₀⟩ k = some m.state := by
  induction t generalizing m with
  | zero =>
    cases h
    cases init : e.cls.initializer? with
    | none => exact .inl (by simp [start, init])
    | some method =>
      refine .inr ⟨method, List.mem_of_find?_eq_some init, [], .start e.input, 0, ?_⟩
      simp [start, init, stateAfter]
  | succ t ih =>
    obtain ⟨m', before, next⟩ := exists_moment_of_succ h
    rcases next_cases next with ⟨a, callers, mem, running, stepped, -⟩ | ⟨mem, rfl, entered⟩
    · rcases ih before with ended | ⟨method, isMethod, args, mem₀, k, run⟩
      · rw [running] at ended
        cases ended
      · exact .inr ⟨method, isMethod, args, mem₀,
          k + 1, by rw [stateAfter, run, Option.bind_some, stepped]⟩
    · obtain ⟨main, isMain, rfl⟩ := Option.map_eq_some_iff.1 entered
      refine .inr ⟨main, ?_, _, _, 0, rfl⟩
      unfold main? ClassFile.method? at isMain
      split at isMain
      · exact List.mem_of_find?_eq_some isMain
      · cases isMain

/-- All activations of an execution run methods of the class. -/
theorem code_of_mem_calls (h : e.state t = some s) (mem : a ∈ s.calls) :
    ∃ m ∈ e.cls.methods, a.code = m.code := by
  obtain ⟨m, found, rfl⟩ := Option.map_eq_some_iff.1 h
  rcases exists_run found with ended | ⟨method, isMethod, args, mem₀, k, run⟩
  · rw [ended] at mem
    cases mem
  · exact MiniGo.code_of_mem_calls isMethod run a mem

/-- From one time up to another, an activation above given ones goes on. It may wait for methods
that it called. -/
def GoesOn (e : Execution P) (callers : List (Activation P)) (t n : Nat) : Prop :=
  ∀ t', t ≤ t' → t' ≤ n → ∃ ys b mem, e.state t' = some ⟨ys ++ b :: callers, mem⟩

/-! ### Coming to instructions -/

/-- At a time, an execution comes to instructions in the code of an activation. -/
structure ComesTo (e : Execution P) (t : Nat) (code : List Line) (pc : Nat)
    (callers : List (Activation P)) (w : Work P) (is : List Instr) : Prop where
  state : e.state t = some (w.at code pc callers)
  seg : Seg code pc (asLines is)

section

variable {code : List Line} {pc : Nat} {w w' : Work P} {i : Instr} {is : List Instr}

theorem ComesTo.line (h : e.ComesTo t code pc callers w (i :: is)) : code[pc]? = some (.instr i) :=
  h.seg.line

/-- Whether an execution comes to instructions, as a check. -/
def isAt (e : Execution P) (t : Nat) (is : List Instr) : Bool :=
  (e.state t).any fun s => s.calls.head?.any fun a => (asLines is).isPrefixOf (a.code.drop a.pc)

theorem isAt_iff : e.isAt t is = true ↔ ∃ code pc callers w, e.ComesTo t code pc callers w is := by
  simp only [isAt, Option.any_eq_true, List.isPrefixOf_iff_prefix]
  constructor
  · rintro ⟨⟨calls, mem⟩, found, a, top, seg⟩
    obtain ⟨callers, rfl⟩ := List.head?_eq_some_iff.1 top
    exact ⟨a.code, a.pc, callers, ⟨a.stack, a.locals, mem⟩, found, seg⟩
  · rintro ⟨code, pc, callers, w, found, seg⟩
    exact ⟨_, found, _, rfl, seg⟩

/-- An instruction with an effect goes on with the next one. -/
theorem ComesTo.next (h : e.ComesTo t code pc callers w (i :: is))
    (effect : i.effect e.cls w = some w') :
    e.ComesTo (t + 1) code (pc + 1) callers w' is := by
  have seg : Seg code pc ([.instr i] ++ asLines is) := h.seg
  refine ⟨?_, seg.right⟩
  rw [state_succ h.state]
  simp only [step, h.line]
  exact Instr.step_of_effect effect

/-- An instruction that neither branches, calls nor returns stops the machine if it has no
effect. -/
theorem ComesTo.stops (h : e.ComesTo t code pc callers w (i :: is)) (straight : i.target? = none)
    (stays : (Line.instr i).stays = true) (stuck : i.effect e.cls w = none) :
    e.state (t + 1) = none := by
  rw [state_succ h.state]
  simp only [step, h.line]
  unfold Instr.step
  split
  · cases straight
  · cases straight
  · cases straight
  · cases stays
  · cases stays
  · rw [stuck]
    rfl

end

end Execution

end MiniGo
