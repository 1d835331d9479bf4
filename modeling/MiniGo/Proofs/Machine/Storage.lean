import MiniGo.Proofs.Machine.Execution

/-!
# What is kept

One step changes at most one local slot, one field or one element of an array, and that only where
something is stored there. So each of them keeps what it holds as long as nothing is stored there,
whatever else happens in between.

* `Instr.effect_locals`, `Instr.effect_element`: what an instruction leaves as it is.
* `step_slot`, `step_element`: what one step leaves as it is.
* `Execution.statics_kept`, `Execution.slot_kept`, `Execution.element_kept`: the same for any number
  of steps.
-/

namespace MiniGo

variable {P : Platform} {cls : ClassFile}

/-! ### Single instructions -/

/-- An array, as far as it matters for one of its elements: its type, and what is there. -/
def Memory.element? (mem : Memory P) (address index : Nat) :
    Option (ArrayType × Option (Datum P)) :=
  mem.heap[address]?.map fun object => (object.type, object.elements[index]?)

/-- An instruction stores into an element of an array. -/
def Instr.StoresElement (i : Instr) (w : Work P) (address : Nat) (index : BitVec 32) : Prop :=
  ∃ kind d rest, i = .elementStore kind ∧ w.stack = d :: .int index :: .array address :: rest

section

variable {i : Instr} {w w' : Work P}

/-- An instruction leaves all slots as they are, except for the one that it stores into. -/
theorem Instr.effect_locals {slot : Nat} (other : ∀ kind, i ≠ .store kind slot)
    (h : i.effect cls w = some w') :
    w'.locals slot = w.locals slot := by
  cases Instr.effect_changes h with
  | @slot kind slot' => exact Function.update_of_ne (fun same => other kind (by rw [same])) _ _
  | nothing | field | element | array => rfl

/-- A new array leaves the others as they are. -/
theorem Memory.element?_allocate {mem : Memory P} {address index : Nat}
    {r : ArrayType × Option (Datum P)} (here : mem.element? address index = some r)
    (object : ArrayObject P) :
    (mem.allocate object).element? address index = some r := by
  obtain ⟨old, found, rfl⟩ := Option.map_eq_some_iff.1 here
  obtain ⟨bound, -⟩ := List.getElem?_eq_some_iff.1 found
  rw [Memory.element?, Memory.allocate, List.getElem?_append_left bound, found, Option.map_some]

/-- An instruction leaves all elements of arrays as they are, except for the one that it stores
into. -/
theorem Instr.effect_element {address : Nat} {index : BitVec 32} {r : ArrayType × Option (Datum P)}
    (other : ¬ i.StoresElement w address index)
    (here : w.memory.element? address index.toNat = some r) (h : i.effect cls w = some w') :
    w'.memory.element? address index.toNat = some r := by
  cases Instr.effect_changes h with
  | nothing _ heap => simpa only [Memory.element?, heap] using here
  | slot | field => exact here
  | array => exact Memory.element?_allocate here _
  | @element kind d j a stack object operands found =>
    -- The store is into another array, or at another index.
    by_cases same : a = address
    · subst same
      have ne : j.toNat ≠ index.toNat := by
        intro same
        exact other ⟨kind, d, stack, rfl, by rw [operands, BitVec.eq_of_toNat_eq same]⟩
      simp only [Memory.element?, found, Option.map_some, Option.some.injEq] at here
      obtain ⟨bound, -⟩ := List.getElem?_eq_some_iff.1 found
      simp only [Memory.element?, List.getElem?_set_self bound, Option.map_some,
        List.getElem?_set_ne ne, here]
    · simpa only [Memory.element?, List.getElem?_set_ne same] using here

end

/-! ### Single steps -/

section

variable {a b b' : Activation P} {callers ys ys' : List (Activation P)} {mem mem' : Memory P}
  {s s' : MachineState P}

/-- An activation above given ones is determined. -/
theorem above_unique (ys ys' : List (Activation P))
    (h : ys ++ b :: callers = ys' ++ b' :: callers) :
    ys = ys' ∧ b = b' := by
  obtain ⟨above, same⟩ := List.append_inj' h rfl
  exact ⟨above, (List.cons.inj same).1⟩

/-- A step leaves the slots of an activation as they are, except for the one that it stores into
itself. -/
theorem step_slot (slot : Nat)
    (h : step cls ⟨ys ++ b :: callers, mem⟩ = some ⟨ys' ++ b' :: callers, mem'⟩)
    (other : ys = [] → ∀ kind, b.code[b.pc]? ≠ some (.instr (.store kind slot))) :
    b'.code = b.code ∧ b'.locals slot = b.locals slot := by
  generalize after : MachineState.mk (ys' ++ b' :: callers) mem' = s at h
  cases ys with
  | nil =>
    cases step_acts h with
    | effect line effect =>
      obtain ⟨-, rfl⟩ := above_unique _ [] (congrArg MachineState.calls after)
      exact ⟨rfl, Instr.effect_locals (fun kind same => other rfl kind (same ▸ line)) effect⟩
    | goes code locals =>
      obtain ⟨-, rfl⟩ := above_unique _ [] (congrArg MachineState.calls after)
      exact ⟨code, congrFun locals slot⟩
    | calls code locals =>
      obtain ⟨-, rfl⟩ := above_unique _ [_] (congrArg MachineState.calls after)
      exact ⟨code, congrFun locals slot⟩
    | returns =>
      have lengths := congrArg (List.length ∘ MachineState.calls) after
      simp only [Function.comp, List.length_append, List.length_cons] at lengths
      omega
  | cons y ys =>
    -- Another activation is on top.
    cases step_acts h with
    | effect =>
      obtain ⟨-, rfl⟩ := above_unique _ (_ :: ys) (congrArg MachineState.calls after)
      exact ⟨rfl, rfl⟩
    | goes =>
      obtain ⟨-, rfl⟩ := above_unique _ (_ :: ys) (congrArg MachineState.calls after)
      exact ⟨rfl, rfl⟩
    | calls =>
      obtain ⟨-, rfl⟩ := above_unique _ (_ :: _ :: ys) (congrArg MachineState.calls after)
      exact ⟨rfl, rfl⟩
    | returns =>
      obtain ⟨-, rfl⟩ := above_unique _ _ (congrArg MachineState.calls after)
      exact ⟨rfl, rfl⟩

/-- A step leaves the elements of arrays as they are, except for the one that it stores into. -/
theorem step_element {address : Nat} {index : BitVec 32} {r : ArrayType × Option (Datum P)}
    (h : step cls ⟨a :: callers, mem⟩ = some s)
    (other : ∀ i, a.code[a.pc]? = some (.instr i) →
      ¬ i.StoresElement ⟨a.stack, a.locals, mem⟩ address index)
    (here : mem.element? address index.toNat = some r) :
    s.memory.element? address index.toNat = some r := by
  cases step_acts h with
  | effect line effect => exact Instr.effect_element (other _ line) here effect
  | goes | calls | returns => exact here

end

/-! ### Executions -/

namespace Execution

variable {e : Execution P} {t n : Nat} {s s' : MachineState P} {a b b' : Activation P}
  {callers : List (Activation P)} {mem mem' : Memory P}

/-- An execution comes to the line of the activation on top. -/
theorem comesTo_line {i : Instr} (h : e.state t = some ⟨a :: callers, mem⟩)
    (line : a.code[a.pc]? = some (.instr i)) :
    e.ComesTo t a.code a.pc callers ⟨a.stack, a.locals, mem⟩ [i] := by
  obtain ⟨bound, same⟩ := List.getElem?_eq_some_iff.1 line
  exact ⟨h, a.code.drop (a.pc + 1), by rw [List.drop_eq_getElem_cons bound, same]; rfl⟩

/-- A field keeps what it holds as long as nothing is stored there. -/
theorem statics_kept (key : FieldKey) (h : e.state t = some s) (h' : e.state n = some s')
    (le : t ≤ n)
    (unwritten : ∀ t', t ≤ t' → t' < n → ∀ code pc callers w f,
      e.ComesTo t' code pc callers w [.putStatic f] → f.key ≠ key) :
    s'.memory.statics key = s.memory.statics key := by
  refine invariant (fun s' => s'.memory.statics key = s.memory.statics key) h rfl le ?_ h'
  intro t' from_ before s₁ s₂ here next kept
  rw [← kept]
  rcases state_succ_cases next with ⟨a, callers, mem, here', stepped⟩ | ⟨main, mem, here', rfl⟩
  · obtain rfl := Option.some.inj (here.symm.trans here')
    exact step_statics stepped fun f line =>
      unwritten t' from_ before _ _ _ _ f (comesTo_line here' line)
  · obtain rfl := Option.some.inj (here.symm.trans here')
    rfl

/-- An element of an array keeps what it holds as long as nothing is stored there. -/
theorem element_kept {address : Nat} (index : BitVec 32) {r : ArrayType × Option (Datum P)}
    (h : e.state t = some s) (holds : s.memory.element? address index.toNat = some r)
    (h' : e.state n = some s') (le : t ≤ n)
    (unwritten : ∀ t', t ≤ t' → t' < n → ∀ code pc callers w i,
      e.ComesTo t' code pc callers w [i] → ¬ i.StoresElement w address index) :
    s'.memory.element? address index.toNat = some r := by
  refine invariant (fun s' => s'.memory.element? address index.toNat = some r) h holds le ?_ h'
  intro t' from_ before s₁ s₂ here next kept
  rcases state_succ_cases next with ⟨a, callers, mem, here', stepped⟩ | ⟨main, mem, here', rfl⟩
  · obtain rfl := Option.some.inj (here.symm.trans here')
    exact step_element stepped
      (fun i line => unwritten t' from_ before _ _ _ _ i (comesTo_line here' line)) kept
  · obtain rfl := Option.some.inj (here.symm.trans here')
    exact Memory.element?_allocate kept _

/-- A slot of an activation keeps what it holds as long as the activation goes on and stores nothing
there. -/
theorem slot_kept {slot : Nat} (ys : List (Activation P)) (h : e.state t = some ⟨b :: callers, mem⟩)
    (h' : e.state n = some ⟨ys ++ b' :: callers, mem'⟩) (le : t ≤ n) (goesOn : e.GoesOn callers t n)
    (unwritten : ∀ t', t ≤ t' → t' < n →
      ∀ pc w kind, ¬ e.ComesTo t' b.code pc callers w [.store kind slot]) :
    b'.code = b.code ∧ b'.locals slot = b.locals slot := by
  refine invariant (fun s => ∀ ys b' mem', s = ⟨ys ++ b' :: callers, mem'⟩ →
    b'.code = b.code ∧ b'.locals slot = b.locals slot) h ?_ le ?_ h' ys b' mem' rfl
  · intro ys b' mem' same
    obtain ⟨-, rfl⟩ := above_unique [] _ (congrArg MachineState.calls same)
    exact ⟨rfl, rfl⟩
  · rintro t' from_ before s₁ s₂ here next kept ys' b' mem' rfl
    obtain ⟨xs, x, mem₁, here'⟩ := goesOn t' from_ (Nat.le_of_lt before)
    obtain rfl := Option.some.inj (here.symm.trans here')
    obtain ⟨code, held⟩ := kept xs x mem₁ rfl
    have stepped : step e.cls ⟨xs ++ x :: callers, mem₁⟩ = some ⟨ys' ++ b' :: callers, mem'⟩ := by
      cases xs with
      | nil => exact (state_succ here').symm.trans next
      | cons y xs => exact (state_succ here').symm.trans next
    have other : xs = [] → ∀ kind, x.code[x.pc]? ≠ some (.instr (.store kind slot)) := by
      rintro rfl kind line
      exact unwritten t' from_ before _ _ kind (code ▸ comesTo_line here' line)
    obtain ⟨code', held'⟩ := step_slot slot stepped other
    exact ⟨code'.trans code, held'.trans held⟩

end Execution

end MiniGo
