import MiniGo.Proofs.Simulation.Value

/-!
# The code of stores

Code that stores into variables, array elements and the fields of results.

* `PlaceCode.stores`: the code of a target before and after that of its value.
* `ResultsCode.runs`: the results of a call are stored into targets.
* `resultStores_does`: values on the stack are stored into the fields of results.
-/

namespace MiniGo

variable {P : Platform}

/-! ### Fields -/

section

variable {cls : ClassFile} {ctx : Context} {x y : Variable}

/-- A global variable is not kept in the field of a result. -/
theorem fieldOf_key_ne_resultOf {f : Function} {j : Nat} {ty : Ty} (plain : '$' ∉ x.name.toList) :
    (ctx.fieldOf x).key ≠ (ctx.resultOf f j ty).key := by
  intro same
  have names : x.name = (FieldName.result f.name j).text := congrArg FieldKey.name same
  apply plain
  rw [names]
  simp only [FieldName.text, String.toList_append, List.mem_append]
  exact .inl (.inr (by decide))

theorem resultOf_key_ne {f : Function} {i j : Nat} {ty ty' : Ty} (ne : i ≠ j) :
    (ctx.resultOf f i ty).key ≠ (ctx.resultOf f j ty').key := by
  intro same
  have names : (FieldName.result f.name i).text = (FieldName.result f.name j).text :=
    congrArg FieldKey.name same
  apply ne
  apply toString_injective
  simpa [FieldName.text, String.append_assoc] using names

/-- A scalar and an array among the global variables have different fields. -/
theorem fieldOf_key_ne_of_array {t : VarTable} (wf : t.WellFormed) (hx : x ∈ t.entries)
    (hy : y ∈ t.entries) (plain : x.array? = none) (array : y.array? ≠ none) :
    (ctx.fieldOf y).key ≠ (ctx.fieldOf x).key := by
  refine fieldOf_key_ne fun same => array ?_
  rw [List.inj_on_of_nodup_map wf.distinct hy hx same, plain]

end

theorem Ty.valueKind_elementKind (ty : Ty) : ty.elementKind.valueKind = ty.valueKind := by
  cases ty <;> rfl

/-! ### What stores leave alone -/

section

variable {ctx : Context} {s : Scope} {floor bound : Nat} {σ : Store P}
  {locals : Nat → Option (Datum P)}
  {mem : Memory P} {v : VarRef} {x : Variable} {d : Datum P}

/-- All fields of results are as before. -/
def SameResults (ctx : Context) (mem mem' : Memory P) : Prop :=
  ∀ f j ty, mem'.statics (ctx.resultOf f j ty).key = mem.statics (ctx.resultOf f j ty).key

/-- A value in a variable. -/
theorem Keeps.put (wf : ctx.tables.WellFormed) (entry : ctx.tables.var? v = some x)
    (plain : x.array? = none) : Keeps ctx bound mem (ctx.putMemory mem v x d) := by
  refine ⟨by simp, fun _ _ => by simp, fun y found array => ?_⟩
  obtain ⟨slot, scope⟩ := v
  cases scope with
  | globals =>
    exact Function.update_of_ne
      (fieldOf_key_ne_of_array wf.globals (mem_globals_of_var? rfl entry) found plain array) _ _
  | function i => rfl

theorem SameResults.put {cls : ClassFile} (linked : Linked cls ctx)
    (entry : ctx.tables.var? v = some x) :
    SameResults ctx mem (ctx.putMemory mem v x d) := by
  intro f j ty
  obtain ⟨slot, scope⟩ := v
  cases scope with
  | globals =>
    have plain := linked.plain x (mem_globals_of_var? rfl entry)
    exact Function.update_of_ne (fieldOf_key_ne_resultOf plain).symm _ _
  | function i => rfl

/-- An element of an array, which belongs to a global variable or is above the floor. -/
theorem Keeps.setElement (inv : Matches ctx s floor σ locals mem) (sees : s.Sees v)
    (entry : ctx.tables.var? v = some x) (array : x.array? ≠ none) {a : Nat}
    (place : ctx.place mem locals v x = some (.array a)) (object : ArrayObject P) :
    Keeps ctx floor mem { mem with heap := mem.heap.set a object } := by
  refine ⟨by simp, fun {a'} below free => ?_, fun _ _ _ => rfl⟩
  refine List.getElem?_set_ne ?_
  rintro rfl
  by_cases scope : v.scope = .globals
  · refine free x (mem_globals_of_var? scope entry) array ?_
    simpa [Context.place, scope] using place
  · exact absurd (inv.above sees entry scope place) (not_le_of_gt below)

end

/-! ### Places -/

section

variable {cls : ClassFile} {ctx : Context} {s : Scope} {floor : Nat} {σ σ' : Store P}
  {locals : Nat → Option (Datum P)} {mem : Memory P}

/-- What the code of a target does: `before` it pushes an address, if there is one, and `after` it
takes the address and the value from the stack. Between them memory may change, but no variable gets
another array. -/
structure PlaceRuns (cls : ClassFile) (ctx : Context) (s : Scope) (floor : Nat) (σ' : Store P)
    (locals : Nat → Option (Datum P)) (mem : Memory P) (d : Datum P) (before after : List Instr)
    (locals' : Nat → Option (Datum P)) (mem' : Memory P) (address : List (Datum P)) : Prop where
  inv : Matches ctx s floor σ' locals' mem'
  keeps : Keeps ctx floor mem mem'
  same : SameResults ctx mem mem'
  before : ∀ stk mem₀, (∀ x ∈ ctx.tables.globals.entries, x.array? ≠ none →
    mem.statics (ctx.fieldOf x).key = mem₀.statics (ctx.fieldOf x).key) →
    Does cls before ⟨stk, locals, mem₀⟩ ⟨address ++ stk, locals, mem₀⟩
  after : ∀ stk, Does cls after ⟨d :: (address ++ stk), locals, mem⟩ ⟨stk, locals', mem'⟩

/-- A scalar variable as a target. -/
theorem storeInstr_runs (linked : Linked cls ctx) (inv : Matches ctx s floor σ locals mem)
    {v : VarRef} {x : Variable} (sees : s.Sees v) (entry : ctx.tables.var? v = some x)
    (scalar : x.ty.isScalar = true) {u : Value P} (typed : u.HasTy x.ty) :
    PlaceRuns cls ctx s floor (σ.setCell v (.scalar u)) locals mem u.datum [] [ctx.storeInstr v x]
      (ctx.putLocals locals v u.datum) (ctx.putMemory mem v x u.datum) [] := by
  have plain := (linked.wf.var? entry).array?_eq_none scalar
  exact ⟨inv.assign linked.wf sees entry plain typed, .put linked.wf entry plain, .put linked entry,
    fun _ _ _ => .nil, fun _ => .effect (storeInstr_effect linked entry typed.kind_datum)⟩

/-- The code of a target stores a value of its type. -/
theorem PlaceCode.stores {target : Node} {before after : List Instr}
    (h : PlaceCode ctx s target before after) (linked : Linked cls ctx)
    (inv : Matches ctx s floor σ locals mem) {u : Value P} (typed : u.HasTy target.ty)
    (assigned : σ.assign target u = some σ') :
    ∃ locals' mem' address,
      PlaceRuns cls ctx s floor σ' locals mem u.datum before after locals' mem' address := by
  cases h with
  | name sees entry scalar =>
    cases assigned
    exact ⟨_, _, _, storeInstr_runs linked inv sees entry scalar typed⟩
  | declared own entry scalar =>
    cases assigned
    exact ⟨_, _, _, storeInstr_runs linked inv (.inr own) entry scalar typed⟩
  | @element v x shape k sees entry array bound =>
    simp only [Store.assign, Node.kind_mk, Option.map_eq_some_iff] at assigned
    obtain ⟨c, replaced, rfl⟩ := assigned
    obtain ⟨vs, cell, rfl⟩ : ∃ vs, σ.cell v = .array vs ∧ .array (vs.set k u) = c := by
      revert replaced
      cases σ.cell v <;> simp [Cell.setElement?]
    obtain ⟨a, place, length, short, -, object⟩ := inv.element sees entry array cell
    have isArray : x.array? ≠ none := by simp [array]
    refine ⟨locals, _, [.int (.ofInt 32 k), .array a],
      inv.setElement sees entry array cell place typed, .setElement inv sees entry isArray place _,
      fun _ _ _ => rfl, fun stk mem₀ same => ?_,
      fun stk => .effect ?_⟩
    · -- The address is pushed before the value is computed; the memory may be another one by then.
      refine addressCode_does linked entry array ?_
      by_cases scope : v.scope = .globals
      · have found := same x (mem_globals_of_var? scope entry) isArray
        simpa [Context.place, scope, found] using place
      · obtain ⟨slot, scope'⟩ := v
        cases scope' with
        | globals => exact absurd rfl scope
        | function i => exact place
    · have index := toNat_ofInt (bound.trans short)
      have kind : u.datum.kind = shape.element.elementKind.valueKind := by
        rw [typed.kind_datum, Ty.valueKind_elementKind, Node.ty_mk]
      have inside : k < (vs.map Value.datum).length := by rwa [List.length_map, length]
      have kept : shape.element.arrayType.kept u.datum = u.datum := Value.HasTy.kept typed
      simp only [List.cons_append, List.nil_append, Instr.effect, object, Option.bind_eq_bind,
        Option.bind_some, index, elementKind_arrayType, kind, inside, and_self, if_true, kept]

/-! ### Results -/

/-- The results of a call are stored into targets, from the `i`-th on. -/
theorem ResultsCode.runs (linked : Linked cls ctx) {f : Function}
    (found : f ∈ ctx.tables.functions.entries) {i : Nat} {targets : List Node} {tys : List Ty}
    {code : List Instr} (h : ResultsCode ctx s f i targets tys code)
    (inv : Matches ctx s floor σ locals mem) {vs : List (Value P)}
    (typed : List.Forall₂ Value.HasTy vs tys)
    (holds : ∀ ⦃j v ty⦄, vs[j]? = some v → f.returns[i + j]? = some ty →
      mem.statics (ctx.resultOf f (i + j) ty).key = v.datum)
    (assigned : σ.assignResults targets tys vs = some σ') :
    ∃ locals' mem', Matches ctx s floor σ' locals' mem' ∧ Keeps ctx floor mem mem' ∧
      ∀ stk, Does cls code ⟨stk, locals, mem⟩ ⟨stk, locals', mem'⟩ := by
  induction h generalizing σ locals mem vs with
  | nil =>
    cases typed
    cases assigned
    exact ⟨locals, mem, inv, .refl, fun _ => .nil⟩
  | @cons i target targets ty tys before after rest takes result place _ ih =>
    cases typed with
    | @cons v _ vs _ typedFirst typedOthers =>
      simp only [Store.assignResults, Option.bind_eq_bind, Option.bind_eq_some_iff] at assigned
      obtain ⟨u, converted, σ₁, assignedFirst, assignedOthers⟩ := assigned
      obtain ⟨typed', converts⟩ := typedFirst.convert cls takes converted
      obtain ⟨locals₁, mem₁, address, stores⟩ := place.stores linked inv typed' assignedFirst
      -- A store into a target leaves the fields of the other results alone.
      have holdsOthers : ∀ ⦃j w ty⦄, vs[j]? = some w → f.returns[i + 1 + j]? = some ty →
          mem₁.statics (ctx.resultOf f (i + 1 + j) ty).key = w.datum := by
        intro j w ty hw returns
        rw [stores.same, Nat.add_assoc, Nat.add_comm 1 j]
        rw [Nat.add_assoc, Nat.add_comm 1 j] at returns
        exact holds (j := j + 1) hw returns
      obtain ⟨locals₂, mem₂, inv₂, keeps₂, does₂⟩ :=
        ih stores.inv typedOthers holdsOthers assignedOthers
      refine ⟨locals₂, mem₂, inv₂, stores.keeps.trans keeps₂, fun stk => ?_⟩
      have scalar := (linked.wf.functions f found).returns ty (List.mem_of_getElem? result)
      have loads : Does cls [.getStatic (ctx.resultOf f i ty)] ⟨address ++ stk, locals, mem⟩
          ⟨v.datum :: (address ++ stk), locals, mem⟩ := by
        have held : mem.statics (ctx.resultOf f i ty).key = v.datum := holds (j := 0) rfl result
        refine .effect ?_
        rw [getStatic_effect (linked.results f found result) (Ty.descriptor_eq_object scalar), held]
      have addressed := stores.before stk mem fun _ _ _ => rfl
      exact (((addressed.append loads).append (converts _ _ _)).append (stores.after stk)).append
        (does₂ stk)

end

section

variable {cls : ClassFile} {ctx : Context} {f : Function}

/-- Memory differs in the first `n` fields of results only. -/
structure ResultsOnly (ctx : Context) (f : Function) (n : Nat) (mem mem' : Memory P) : Prop where
  heap : mem'.heap = mem.heap
  input : mem'.input = mem.input
  output : mem'.output = mem.output
  statics : ∀ key, (∀ j < n, ∀ ty, key ≠ (ctx.resultOf f j ty).key) → mem'.statics key =
      mem.statics key

/-- Values on the stack are stored into the fields of results, the last one first. -/
theorem resultStores_does {returns : List Ty} {vs : List (Value P)}
    (count : vs.length = returns.length)
    (fields : ∀ ⦃j ty⦄, returns[j]? = some ty → cls.hasField (ctx.resultOf f j ty) = true)
    (mem : Memory P) :
    ∃ mem', ResultsOnly ctx f returns.length mem mem' ∧
      (∀ ⦃j v ty⦄, vs[j]? = some v → returns[j]? = some ty →
        mem'.statics (ctx.resultOf f j ty).key = v.datum) ∧
      ∀ stk locals, Does cls (resultStores ctx f returns)
        ⟨(vs.map Value.datum).reverse ++ stk, locals, mem⟩ ⟨stk, locals, mem'⟩ := by
  induction returns using List.reverseRecOn generalizing vs mem with
  | nil =>
    obtain rfl := List.length_eq_zero_iff.1 count
    exact ⟨mem, ⟨rfl, rfl, rfl, fun _ _ => rfl⟩, by simp, fun _ _ => .nil⟩
  | append_singleton returns ty ih =>
    obtain ⟨us, v, rfl⟩ : ∃ us v, vs = us ++ [v] := by
      rcases List.eq_nil_or_concat vs with rfl | ⟨us, v, rfl⟩
      · simp at count
      · exact ⟨us, v, by simp⟩
    have count' : us.length = returns.length := by simpa using count
    have field : cls.hasField (ctx.resultOf f returns.length ty) = true := fields (by simp)
    obtain ⟨mem', only, holds, does⟩ := ih count'
      (fun j ty' h => fields
      (by rw [List.getElem?_append_left (List.getElem?_eq_some_iff.1 h).1]; exact h))
        (mem.put (ctx.resultOf f returns.length ty) v.datum)
    -- The last result is stored first, and no later store goes to its field.
    have last : mem'.statics (ctx.resultOf f returns.length ty).key = v.datum := by
      rw [only.statics _ fun j lt ty' => resultOf_key_ne (Nat.ne_of_gt lt)]
      exact Function.update_self _ _ _
    refine ⟨mem', ⟨only.heap, only.input, only.output, ?_⟩, ?_, fun stk locals => ?_⟩
    · intro key other
      rw [List.length_append, List.length_singleton] at other
      rw [only.statics key fun j lt => other j (Nat.lt_succ_of_lt lt)]
      exact Function.update_of_ne (other _ (Nat.lt_succ_self _) ty) _ _
    · intro j u ty' hu returned
      by_cases inside : j < returns.length
      · rw [List.getElem?_append_left (count' ▸ inside)] at hu
        rw [List.getElem?_append_left inside] at returned
        exact holds hu returned
      · have bound := (List.getElem?_eq_some_iff.1 returned).1
        rw [List.length_append, List.length_singleton] at bound
        obtain rfl : j = returns.length := by omega
        have isLast : u = v := by simpa [← count'] using hu.symm
        have isTy : ty' = ty := by simpa using returned.symm
        rw [isLast, isTy]
        exact last
    · have stored : Does cls [.putStatic (ctx.resultOf f returns.length ty)]
          ⟨v.datum :: ((us.map Value.datum).reverse ++ stk), locals, mem⟩
          ⟨(us.map Value.datum).reverse ++ stk, locals,
            mem.put (ctx.resultOf f returns.length ty) v.datum⟩ :=
        .effect (by simp [Instr.effect, field])
      have all := stored.append (does stk locals)
      simpa [resultStores, List.mapIdx_append] using all

/-- The variables do not depend on the fields of results. -/
theorem Matches.of_resultsOnly {s : Scope} {floor n : Nat} {σ : Store P}
    {locals : Nat → Option (Datum P)} {mem mem' : Memory P} (linked : Linked cls ctx)
    (inv : Matches ctx s floor σ locals mem) (only : ResultsOnly ctx f n mem mem') :
    Matches ctx s floor σ locals mem' ∧ Keeps ctx floor mem mem' := by
  -- No global variable is named like the field of a result.
  have statics : ∀ x ∈ ctx.tables.globals.entries,
      mem'.statics (ctx.fieldOf x).key = mem.statics (ctx.fieldOf x).key := fun x found =>
    only.statics _ fun j _ ty => fieldOf_key_ne_resultOf (linked.plain x found)
  have places : ∀ {v x}, ctx.tables.var? v = some x →
      ctx.place mem' locals v x = ctx.place mem locals v x := by
    intro v x entry
    obtain ⟨slot, scope⟩ := v
    cases scope with
    | globals => exact congrArg some (statics x (mem_globals_of_var? rfl entry))
    | function i => rfl
  refine ⟨⟨?_, ?_, ?_, ?_, ?_, ?_⟩, ?_, ?_, ?_⟩
  · intro v x sees entry
    rw [places entry, only.heap]
    exact inv.shows sees entry
  · intro v v' x x' a sees sees' entry entry' place place'
    rw [places entry] at place
    rw [places entry'] at place'
    exact inv.apart sees sees' entry entry' place place'
  · intro v x a sees entry scope place
    rw [places entry] at place
    exact inv.above sees entry scope place
  · rw [only.heap]
    exact inv.room
  · rw [only.input, inv.input]
  · rw [only.output, inv.output]
  · rw [only.heap]
  · intro a _ _
    rw [only.heap]
  · exact fun x found _ => statics x found

end

end MiniGo
