import MiniGo.Proofs.Simulation.Match

/-!
# Changing variables

What stores into variables and array elements do to the invariant between variables and memory.

* `Matches.setCell`: one variable changes, and the others stay as they are.
* `Matches.assign`, `Matches.declare`, `Matches.setElement`: a new value, a new array, and a new
  element.
* `Matches.resume`: the variables of a function after a call.
-/

namespace MiniGo

variable {P : Platform}

/-! ### Cells -/

namespace Store

variable {σ : Store P} {s : Scope} {v v' : VarRef} {c : Cell P}

theorem cell_setCell_self : (σ.setCell v c).cell v = c := by
  obtain ⟨slot, scope⟩ := v
  cases scope <;> simp [cell, setCell, World.cell]

theorem cell_setCell_other (sees : s.Sees v) (sees' : s.Sees v') (ne : v' ≠ v) :
    (σ.setCell v c).cell v' = σ.cell v' := by
  obtain ⟨slot, scope⟩ := v
  obtain ⟨slot', scope'⟩ := v'
  cases scope with
  | globals =>
    cases scope' with
    | globals =>
      have slots : slot' ≠ slot := fun same => ne (by rw [same])
      simp [cell, setCell, World.cell, Function.update_of_ne slots]
    | function i => rfl
  | function i =>
    cases scope' with
    | globals => rfl
    | function j =>
      obtain rfl : Scope.function i = s := by simpa [Scope.Sees] using sees
      obtain rfl : j = i := by simpa [Scope.Sees] using sees'
      have slots : slot' ≠ slot := fun same => ne (by rw [same])
      simp [cell, setCell, World.cell, Function.update_of_ne slots]

theorem input_setCell : (σ.setCell v c).world.input = σ.world.input := by
  unfold setCell
  split <;> rfl

theorem output_setCell : (σ.setCell v c).world.output = σ.world.output := by
  unfold setCell
  split <;> rfl

end Store

/-! ### One variable changes -/

namespace Matches

variable {ctx : Context} {s : Scope} {floor : Nat} {σ : Store P}
  {locals locals' : Nat → Option (Datum P)}
  {mem mem' : Memory P} {v : VarRef} {x : Variable}

/-- One variable changes. The others keep their places and their arrays, and it gets none of
these. -/
theorem setCell (h : Matches ctx s floor σ locals mem) {c : Cell P} (sees : s.Sees v)
    (others : ∀ {v' x'}, s.Sees v' → ctx.tables.var? v' = some x' → v' ≠ v →
      ctx.place mem' locals' v' x' = ctx.place mem locals v' x')
    (heap : ∀ {v' x' a}, s.Sees v' → ctx.tables.var? v' = some x' → v' ≠ v →
      ctx.place mem locals v' x' = some (.array a) →
      mem'.heap[a]? = mem.heap[a]? ∧ ctx.place mem' locals' v x ≠ some (.array a))
    (entry : ctx.tables.var? v = some x) (shows : Shows mem'.heap x c (ctx.place mem' locals' v x))
    (above : v.scope ≠ .globals → ∀ a, ctx.place mem' locals' v x = some (.array a) → floor ≤ a)
    (grows : mem.heap.length ≤ mem'.heap.length) (input : mem'.input = mem.input)
    (output : mem'.output = mem.output) :
    Matches ctx s floor (σ.setCell v c) locals' mem' where
  shows {v' x'} sees' entry' := by
    by_cases same : v' = v
    · subst same
      rw [entry] at entry'
      cases entry'
      rw [Store.cell_setCell_self]
      exact shows
    · rw [Store.cell_setCell_other sees sees' same, others sees' entry' same]
      exact (h.shows sees' entry').of_heap fun a place => (heap sees' entry' same place).1
  apart {v₁ v₂ x₁ x₂ a} sees₁ sees₂ entry₁ entry₂ place₁ place₂ := by
    by_cases same₁ : v₁ = v
    · by_cases same₂ : v₂ = v
      · rw [same₁, same₂]
      · rw [others sees₂ entry₂ same₂] at place₂
        subst same₁
        rw [entry] at entry₁
        cases entry₁
        exact absurd place₁ (heap sees₂ entry₂ same₂ place₂).2
    · rw [others sees₁ entry₁ same₁] at place₁
      by_cases same₂ : v₂ = v
      · subst same₂
        rw [entry] at entry₂
        cases entry₂
        exact absurd place₂ (heap sees₁ entry₁ same₁ place₁).2
      · rw [others sees₂ entry₂ same₂] at place₂
        exact h.apart sees₁ sees₂ entry₁ entry₂ place₁ place₂
  above {v' x' a} sees' entry' scope place := by
    by_cases same : v' = v
    · subst same
      rw [entry] at entry'
      cases entry'
      exact above scope a place
    · rw [others sees' entry' same] at place
      exact h.above sees' entry' scope place
  room := h.room.trans grows
  input := by rw [input, h.input, Store.input_setCell]
  output := by rw [output, h.output, Store.output_setCell]

/-- A variable gets a value. -/
theorem assign (h : Matches ctx s floor σ locals mem) (wf : ctx.tables.WellFormed) (sees : s.Sees v)
    (entry : ctx.tables.var? v = some x) (plain : x.array? = none) {value : Value P}
    (typed : value.HasTy x.ty) :
    Matches ctx s floor (σ.setCell v (.scalar value)) (ctx.putLocals locals v value.datum)
      (ctx.putMemory mem v x value.datum) := by
  have noArray : ∀ a, some value.datum ≠ some (.array a) := fun a same =>
    value.datum_ne_array a (Option.some.inj same)
  refine h.setCell sees (fun sees' entry' ne => place_put_other wf sees sees' entry entry' ne) ?_
    entry ?_ ?_ (by simp) (by simp) (by simp)
  · intro v' x' a _ _ _ _
    rw [place_put_self]
    exact ⟨by simp, noArray a⟩
  · rw [place_put_self]
    exact .scalar plain typed
  · intro _ a same
    rw [place_put_self] at same
    exact absurd same (noArray a)

/-- A variable gets a new array. -/
theorem declare (h : Matches ctx s floor σ locals mem) (wf : ctx.tables.WellFormed)
    (sees : s.Sees v) (entry : ctx.tables.var? v = some x) {shape : ArrayShape}
    (array : x.array? = some shape) (short : shape.length < arrayLimit) {object : ArrayObject P}
    (new : object = ⟨shape.element.arrayType,
      .replicate shape.length shape.element.arrayType.initial⟩) :
    Matches ctx s floor
      (σ.setCell v (.array (.replicate shape.length (.initial shape.element))))
      (ctx.putLocals locals v (.array mem.heap.length))
      (ctx.putMemory (mem.allocate object) v x (.array mem.heap.length)) := by
  have scalar := ((wf.var? entry).of_array array).2
  have old : ∀ {v' : VarRef} {x' : Variable},
      ctx.place (mem.allocate object) locals v' x' = ctx.place mem locals v' x' := rfl
  refine h.setCell sees (fun sees' entry' ne => ?_) ?_ entry ?_ ?_ ?_ (by simp [Memory.allocate])
    (by simp [Memory.allocate])
  · rw [place_put_other wf sees sees' entry entry' ne, old]
  · -- The new array is behind all others in the heap, so nothing else has its address.
    intro v' x' a sees' entry' _ place
    have shown := h.shows sees' entry'
    rw [place] at shown
    have bound := shown.address_lt
    rw [place_put_self, putMemory_heap]
    refine ⟨List.getElem?_append_left bound, ?_⟩
    rintro ⟨⟩
    exact absurd bound (lt_irrefl _)
  · rw [place_put_self, putMemory_heap]
    refine .array array (by simp) short ?_ ?_
    · intro value mem
      rw [List.eq_of_mem_replicate mem]
      exact Value.hasTy_initial scalar
    · simp [Memory.allocate, new, Value.datum_initial_arrayType]
  · intro _ a same
    rw [place_put_self] at same
    cases same
    exact h.room
  · simp [Memory.allocate]

/-- An element of an array gets a value. -/
theorem setElement (h : Matches ctx s floor σ locals mem) (sees : s.Sees v)
    (entry : ctx.tables.var? v = some x) {shape : ArrayShape} (array : x.array? = some shape)
    {vs : List (Value P)} {a k : Nat} {value : Value P} (cell : σ.cell v = .array vs)
    (place : ctx.place mem locals v x = some (.array a)) (typed : value.HasTy shape.element) :
    Matches ctx s floor (σ.setCell v (.array (vs.set k value))) locals
      { mem with
        heap := mem.heap.set a
          ⟨shape.element.arrayType, (vs.map Value.datum).set k value.datum⟩ } := by
  have shown := h.shows sees entry
  rw [cell, place] at shown
  have same : ∀ {v' : VarRef} {x' : Variable} {heap : List (ArrayObject P)},
      ctx.place { mem with heap } locals v' x' = ctx.place mem locals v' x' := rfl
  refine h.setCell sees (fun _ _ _ => rfl) ?_ entry ?_ ?_ (by simp) rfl rfl
  · intro v' x' a' sees' entry' ne place'
    -- No other variable has this array.
    have distinct : a ≠ a' := by
      rintro rfl
      exact ne (h.apart sees' sees entry' entry place' place)
    refine ⟨List.getElem?_set_ne distinct, ?_⟩
    rw [same, place]
    rintro ⟨⟩
    exact distinct rfl
  · rw [same, place]
    cases shown with
    | array array' length short typed' object =>
      rw [array] at array'
      cases array'
      refine .array array (by simpa using length) short ?_ ?_
      · intro u mem
        rcases List.mem_or_eq_of_mem_set mem with mem | rfl
        · exact typed' u mem
        · exact typed
      · rw [List.getElem?_set_self (List.getElem?_eq_some_iff.1 object).1, List.map_set]
  · intro scope a' place'
    rw [same, place] at place'
    cases place'
    exact h.above sees entry scope place

/-! ### Calls -/

/-- What is known of global variables does not depend on the function. -/
theorem globals (h : Matches ctx s floor σ locals mem) (frame : Frame) (ls : Nat → Cell P)
    (locals' : Nat → Option (Datum P)) :
    Matches { ctx with frame } .globals 0 ⟨ls, σ.world⟩ locals' mem := by
  have see : ∀ {v : VarRef}, Scope.globals.Sees v → v.scope = .globals ∧ s.Sees v := by
    intro v sees
    have scope : v.scope = .globals := by simpa [Scope.Sees] using sees
    exact ⟨scope, .inl scope⟩
  have places : ∀ {v : VarRef} {x : Variable}, v.scope = .globals →
      Context.place { ctx with frame } mem locals' v x = ctx.place mem locals v x := by
    intro v x scope
    simp [Context.place, scope, Context.fieldOf]
  constructor
  · intro v x sees entry
    obtain ⟨scope, sees⟩ := see sees
    have shown := h.shows sees entry
    rw [places scope]
    simpa [Store.cell, World.cell, scope] using shown
  · intro v v' x x' a sees sees' entry entry' place place'
    obtain ⟨scope, sees⟩ := see sees
    obtain ⟨scope', sees'⟩ := see sees'
    rw [places scope] at place
    rw [places scope'] at place'
    exact h.apart sees sees' entry entry' place place'
  · intro v x a sees _ scope _
    exact absurd (see sees).1 scope
  · exact Nat.zero_le _
  · exact h.input
  · exact h.output

/-- The part of the invariant that all functions share. -/
theorem shared (h : Matches ctx s floor σ locals mem) : Shared ctx σ.world mem := h.globals _ _ _

/-- The variables of a function after a call: the callee changes global variables, and leaves all
arrays of the caller alone. -/
theorem resume (h : Matches ctx s floor σ locals mem) {w : World P} (after : Shared ctx w mem')
    (keeps : Keeps ctx mem.heap.length mem mem') :
    Matches ctx s floor ⟨σ.locals, w⟩ locals mem' := by
  have shownGlobal : ∀ {v : VarRef} {x : Variable}, v.scope = .globals →
      ctx.tables.var? v = some x → Shows mem'.heap x (Store.cell ⟨σ.locals, w⟩ v)
        (ctx.place mem' locals v x) := by
    intro v x scope entry
    have shown := after.shows (v := v) (.inl scope) entry
    simpa [Store.cell, World.cell, Context.place, scope, Context.fieldOf] using shown
  have placeLocal : ∀ {v : VarRef} {x : Variable}, v.scope ≠ .globals →
      ctx.place mem' locals v x = ctx.place mem locals v x := by
    intro v x scope
    obtain ⟨slot, scope'⟩ := v
    cases scope' with
    | globals => exact absurd rfl scope
    | function i => rfl
  -- No variable got an array that it did not have before.
  have placeArray : ∀ {v : VarRef} {x : Variable} {a : Nat}, ctx.tables.var? v = some x →
      ctx.place mem' locals v x = some (.array a) → ctx.place mem locals v x = some (.array a) := by
    intro v x a entry place
    by_cases scope : v.scope = .globals
    · have shown := shownGlobal scope entry
      rw [place] at shown
      have same := keeps.arrays x (mem_globals_of_var? scope entry) shown.array?_ne_none
      simpa [Context.place, scope, same] using place
    · rwa [placeLocal scope] at place
  constructor
  · intro v x sees entry
    by_cases scope : v.scope = .globals
    · exact shownGlobal scope entry
    · have shown := h.shows sees entry
      rw [placeLocal scope]
      have cell : Store.cell ⟨σ.locals, w⟩ v = σ.cell v := by
        obtain ⟨slot, scope'⟩ := v
        cases scope' with
        | globals => exact absurd rfl scope
        | function i => rfl
      rw [cell]
      refine shown.of_heap fun a place => ?_
      rw [place] at shown
      refine keeps.heap shown.address_lt fun y found _ same => scope ?_
      -- An array of the function is not the array of a global variable.
      obtain ⟨j, hj⟩ := List.mem_iff_getElem?.1 found
      have global : ctx.tables.var? ⟨j, .globals⟩ = some y := hj
      have placeGlobal : ctx.place mem locals ⟨j, .globals⟩ y = some (.array a) :=
        congrArg some same
      rw [h.apart sees (.inl rfl) entry global place placeGlobal]
  · intro v v' x x' a sees sees' entry entry' place place'
    exact h.apart sees sees' entry entry' (placeArray entry place) (placeArray entry' place')
  · intro v x a sees entry scope place
    exact h.above sees entry scope (placeArray entry place)
  · exact h.room.trans keeps.grows
  · exact after.input
  · exact after.output

end Matches

/-- Only the globals can be seen outside of functions. -/
theorem Shared.matches_globals {ctx : Context} {w : World P} {mem : Memory P} (h : Shared ctx w mem)
    (ls : Nat → Cell P) (locals : Nat → Option (Datum P)) :
    Matches ctx .globals 0 ⟨ls, w⟩ locals mem :=
  Matches.globals h ctx.frame ls locals

end MiniGo
