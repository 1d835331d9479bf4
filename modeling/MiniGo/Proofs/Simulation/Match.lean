import MiniGo.Proofs.Machine.Run
import MiniGo.Proofs.Meaning.Inversion

/-!
# Variables and memory

How the variables of a program are kept in the memory of the machine, and what a step must leave
alone.

* `Shows`: a datum shows what is in a cell. The elements of an array are on the heap.
* `Matches`: all variables that can be seen in a scope are shown, and no two share an array.
* `Keeps`: what may happen to memory while a function runs. It leaves all arrays alone that were
  there before, except those of global variables.
-/

namespace MiniGo

variable {P : Platform}

/-! ### Data of values -/

namespace Value.HasTy

variable {v : Value P} {ty : Ty}

theorem kind_datum (h : v.HasTy ty) : v.datum.kind = ty.valueKind := by
  cases h <;> rfl

theorem isScalar (h : v.HasTy ty) : ty.isScalar = true := by
  cases h <;> rfl

end Value.HasTy

theorem Value.datum_ne_array (v : Value P) (a : Nat) : v.datum ≠ .array a := by
  cases v <;> simp [Value.datum]

theorem Value.hasTy_initial {ty : Ty} (h : ty.isScalar = true) :
    (Value.initial ty : Value P).HasTy ty := by
  cases ty <;> first | constructor | cases h

theorem Value.hasTy_zero {ty : Ty} (h : ty.isScalar = true) :
    (Value.zero ty : Value P).HasTy ty := by
  cases ty <;> first | constructor | cases h

theorem Value.datum_initial (ty : Ty) :
    (Value.initial ty : Value P).datum = ty.descriptor.initial := by
  cases ty <;> rfl

theorem Value.datum_initial_arrayType (ty : Ty) :
    (Value.initial ty : Value P).datum = ty.arrayType.initial := by
  cases ty <;> rfl

/-- An array keeps the datum of a value of its element type. -/
theorem Value.HasTy.kept {v : Value P} {ty : Ty} (h : v.HasTy ty) :
    ty.arrayType.kept v.datum = v.datum := by
  cases h with
  | @bool b => cases b <;> rfl
  | _ => rfl

/-! ### Cells and data -/

/-- A datum shows what is in the cell of a variable. -/
inductive Shows (heap : List (ArrayObject P)) (x : Variable) : Cell P → Option (Datum P) → Prop
  | empty {d : Option (Datum P)} (noArray : ∀ a, d ≠ some (.array a)) : Shows heap x .empty d
  | scalar {v : Value P} (plain : x.array? = none) (typed : v.HasTy x.ty) :
      Shows heap x (.scalar v) (some v.datum)
  | array {a : Nat} {shape : ArrayShape} {vs : List (Value P)} (array : x.array? = some shape)
      (length : vs.length = shape.length) (short : shape.length < arrayLimit)
      (typed : ∀ v ∈ vs, v.HasTy shape.element)
      (object : heap[a]? = some ⟨shape.element.arrayType, vs.map Value.datum⟩) :
      Shows heap x (.array vs) (some (.array a))

namespace Shows

variable {heap heap' : List (ArrayObject P)} {x : Variable} {c : Cell P} {d : Option (Datum P)}

/-- Only the array of a variable matters. -/
theorem of_heap (h : Shows heap x c d) (same : ∀ a, d = some (.array a) → heap'[a]? = heap[a]?) :
    Shows heap' x c d := by
  cases h with
  | empty noArray => exact .empty noArray
  | scalar plain typed => exact .scalar plain typed
  | array array length short typed object =>
    exact .array array length short typed ((same _ rfl).trans object)

/-- An array that is shown is on the heap. -/
theorem address_lt {a : Nat} (h : Shows heap x c (some (.array a))) : a < heap.length := by
  generalize eq : some (Datum.array a) = d at h
  cases h with
  | empty noArray => exact absurd eq.symm (noArray a)
  | @scalar v _ _ => exact absurd (Option.some.inj eq).symm (v.datum_ne_array a)
  | array _ _ _ _ object =>
    cases eq
    exact (List.getElem?_eq_some_iff.1 object).1

/-- A variable that shows an array is one of arrays. -/
theorem array?_ne_none {a : Nat} (h : Shows heap x c (some (.array a))) : x.array? ≠ none := by
  generalize eq : some (Datum.array a) = d at h
  cases h with
  | empty noArray => exact absurd eq.symm (noArray a)
  | @scalar v _ _ => exact absurd (Option.some.inj eq).symm (v.datum_ne_array a)
  | array array => simp [array]

end Shows

/-! ### Places of variables -/

namespace Context

/-- The datum in the place of a variable: its field or its local slot. -/
def place (ctx : Context) (mem : Memory P) (locals : Nat → Option (Datum P)) (v : VarRef)
    (x : Variable) : Option (Datum P) :=
  match v.scope with
  | .globals => some (mem.statics (ctx.fieldOf x).key)
  | .function _ => locals (ctx.frame.slot v.slot)

/-- The local slots after storing into the place of a variable. -/
def putLocals (ctx : Context) (locals : Nat → Option (Datum P)) (v : VarRef) (d : Datum P) :
    Nat → Option (Datum P) :=
  match v.scope with
  | .globals => locals
  | .function _ => Function.update locals (ctx.frame.slot v.slot) (some d)

/-- The memory after storing into the place of a variable. -/
def putMemory (ctx : Context) (mem : Memory P) (v : VarRef) (x : Variable) (d : Datum P) :
    Memory P :=
  match v.scope with
  | .globals => mem.put (ctx.fieldOf x) d
  | .function _ => mem

end Context

section

variable {ctx : Context} {mem : Memory P} {locals : Nat → Option (Datum P)} {s : Scope}
  {v v' : VarRef}
  {x x' : Variable} {d : Datum P}

@[simp] theorem putMemory_heap : (ctx.putMemory mem v x d).heap = mem.heap := by
  unfold Context.putMemory
  split <;> rfl

@[simp] theorem putMemory_input : (ctx.putMemory mem v x d).input = mem.input := by
  unfold Context.putMemory
  split <;> rfl

@[simp] theorem putMemory_output : (ctx.putMemory mem v x d).output = mem.output := by
  unfold Context.putMemory
  split <;> rfl

theorem place_put_self :
    ctx.place (ctx.putMemory mem v x d) (ctx.putLocals locals v d) v x = some d := by
  obtain ⟨slot, scope⟩ := v
  cases scope <;> simp [Context.place, Context.putMemory, Context.putLocals, Memory.put]

/-- The entry of a global variable is one of the globals. -/
theorem mem_globals_of_var? {t : Tables} (scope : v.scope = .globals) (entry : t.var? v = some x) :
    x ∈ t.globals.entries := by
  simp only [Tables.var?, Tables.table?, scope, Option.bind_some] at entry
  exact List.mem_of_getElem? entry

theorem fieldOf_key_ne (h : x.name ≠ x'.name) : (ctx.fieldOf x).key ≠ (ctx.fieldOf x').key := by
  intro same
  exact h (congrArg FieldKey.name same)

/-- Different variables that a scope sees have different places. -/
theorem place_put_other (wf : ctx.tables.WellFormed) (sees : s.Sees v) (sees' : s.Sees v')
    (entry : ctx.tables.var? v = some x) (entry' : ctx.tables.var? v' = some x') (ne : v' ≠ v) :
    ctx.place (ctx.putMemory mem v x d) (ctx.putLocals locals v d) v' x' =
      ctx.place mem locals v' x' := by
  obtain ⟨slot, scope⟩ := v
  obtain ⟨slot', scope'⟩ := v'
  cases scope with
  | globals =>
    cases scope' with
    | globals =>
      have slots : slot' ≠ slot := fun same => ne (by rw [same])
      have names : x'.name ≠ x.name := fun same =>
        slots (index_eq_of_nodup wf.globals.distinct entry' entry same)
      simp [Context.place, Context.putMemory, Memory.put,
        Function.update_of_ne (fieldOf_key_ne names)]
    | function i => rfl
  | function i =>
    cases scope' with
    | globals => rfl
    | function j =>
      -- Both belong to the scope, so they differ in their slots.
      obtain rfl : Scope.function i = s := by simpa [Scope.Sees] using sees
      obtain rfl : j = i := by simpa [Scope.Sees] using sees'
      have slots : ctx.frame.slot slot' ≠ ctx.frame.slot slot := by
        intro same
        apply ne
        rw [Nat.add_left_cancel same]
      simp [Context.place, Context.putLocals, Function.update_of_ne slots]

end

/-! ### The invariant -/

/-- The variables that a scope sees are kept in memory. Arrays of a function are above a floor,
below which are those of its callers. -/
structure Matches (ctx : Context) (s : Scope) (floor : Nat) (σ : Store P)
    (locals : Nat → Option (Datum P)) (mem : Memory P) : Prop where
  shows : ∀ {v x}, s.Sees v → ctx.tables.var? v = some x →
    Shows mem.heap x (σ.cell v) (ctx.place mem locals v x)
  apart : ∀ {v v' x x' a}, s.Sees v → s.Sees v' → ctx.tables.var? v = some x →
    ctx.tables.var? v' = some x' → ctx.place mem locals v x = some (.array a) →
    ctx.place mem locals v' x' = some (.array a) → v = v'
  above : ∀ {v x a}, s.Sees v → ctx.tables.var? v = some x → v.scope ≠ .globals →
    ctx.place mem locals v x = some (.array a) → floor ≤ a
  room : floor ≤ mem.heap.length
  input : mem.input = σ.world.input
  output : mem.output = σ.world.output

/-- Memory keeps the global variables, the input and the output of a world. -/
def Shared (ctx : Context) (w : World P) (mem : Memory P) : Prop :=
  Matches { ctx with frame := .initializer } .globals 0 ⟨fun _ => .empty, w⟩ (fun _ => none) mem

/-- What may happen to memory while a function runs: arrays below a bound are changed only if they
belong to global variables, and these keep their arrays. -/
structure Keeps (ctx : Context) (bound : Nat) (mem mem' : Memory P) : Prop where
  grows : mem.heap.length ≤ mem'.heap.length
  heap : ∀ {a}, a < bound →
    (∀ x ∈ ctx.tables.globals.entries, x.array? ≠ none →
      mem.statics (ctx.fieldOf x).key ≠ .array a) → mem'.heap[a]? = mem.heap[a]?
  arrays : ∀ x ∈ ctx.tables.globals.entries, x.array? ≠ none →
    mem'.statics (ctx.fieldOf x).key = mem.statics (ctx.fieldOf x).key

namespace Keeps

variable {ctx : Context} {bound bound' : Nat} {mem mem' mem'' : Memory P}

theorem refl : Keeps ctx bound mem mem := ⟨le_rfl, fun _ _ => rfl, fun _ _ _ => rfl⟩

theorem mono (h : Keeps ctx bound mem mem') (le : bound' ≤ bound) : Keeps ctx bound' mem mem' :=
  ⟨h.grows, fun lt => h.heap (lt.trans_le le), h.arrays⟩

theorem trans (h : Keeps ctx bound mem mem') (h' : Keeps ctx bound mem' mem'') :
    Keeps ctx bound mem mem'' where
  grows := h.grows.trans h'.grows
  heap {a} lt free := by
    have free' : ∀ x ∈ ctx.tables.globals.entries, x.array? ≠ none →
        mem'.statics (ctx.fieldOf x).key ≠ .array a := by
      intro x mem array
      rw [h.arrays x mem array]
      exact free x mem array
    rw [h'.heap lt free', h.heap lt free]
  arrays x mem array := (h'.arrays x mem array).trans (h.arrays x mem array)

/-- One run after the other, each of which leaves alone what it finds. -/
theorem append (h : Keeps ctx mem.heap.length mem mem')
    (h' : Keeps ctx mem'.heap.length mem' mem'') :
    Keeps ctx mem.heap.length mem mem'' :=
  h.trans (h'.mono h.grows)

end Keeps

end MiniGo
