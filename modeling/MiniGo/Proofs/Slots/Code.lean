import MiniGo.Proofs.Slots.Basic

/-!
# Loads and stores in the code of statements

Each node does something to variables, in an order that can be read off the tree, and its code does
the same to their slots.

* `Node.reads`, `Node.accesses`: what a node does to variables, in the order in which it does so.
* `FirstLoad`, `DeclaredFirst`: a variable is loaded before it is declared; it is declared before
  all else.
* `Node.Keeps`: control can get through a statement without a store into a variable.
* `ValueCode.touches`, `PlaceCode.touches`: the code of a node does the same to the slot of the
  variable.
-/

namespace MiniGo

/-! ### What nodes do to variables -/

/-- What is done to a variable. A declaration stores its first value. -/
inductive VarAccess where
  | load (v : VarRef)
  | store (v : VarRef)
  | declare (v : VarRef)
deriving DecidableEq

/-- What is done to a variable, if it is a given one. -/
def VarAccess.touch? (v : VarRef) : VarAccess → Option Touch
  | load w => if w = v then some .load else none
  | store w | declare w => if w = v then some .store else none

/-- What accesses do to a variable, in order. -/
def touches (v : VarRef) (accesses : List VarAccess) : List Touch :=
  accesses.filterMap (VarAccess.touch? v)

/-! ### Accesses in order -/

section

variable {v : VarRef} {as bs : List VarAccess}

@[simp] theorem touches_append (as bs : List VarAccess) :
    touches v (as ++ bs) = touches v as ++ touches v bs :=
  List.filterMap_append

/-- A declaration is a store. -/
theorem store_mem_touches (h : .declare v ∈ as) : Touch.store ∈ touches v as :=
  List.mem_filterMap.2 ⟨_, h, by simp [VarAccess.touch?]⟩

/-- A load of a variable comes before any declaration of it. -/
def FirstLoad (v : VarRef) (accesses : List VarAccess) : Prop :=
  ∃ before after, accesses = before ++ .load v :: after ∧ .declare v ∉ before

theorem FirstLoad.append_left (h : FirstLoad v as) : FirstLoad v (as ++ bs) := by
  obtain ⟨before, after, rfl, free⟩ := h
  exact ⟨before, after ++ bs, by simp, free⟩

theorem FirstLoad.append_right (h : FirstLoad v bs) (free : .declare v ∉ as) :
    FirstLoad v (as ++ bs) := by
  obtain ⟨before, after, rfl, free'⟩ := h
  refine ⟨as ++ before, after, by simp, ?_⟩
  rw [List.mem_append, not_or]
  exact ⟨free, free'⟩

theorem FirstLoad.mem (h : FirstLoad v as) : .load v ∈ as := by
  obtain ⟨before, after, rfl, -⟩ := h
  simp

/-- If the first thing that is done to a variable is a load, nothing declares it before. -/
theorem FirstLoad.of_touches (h : (touches v as).head? = some .load) : FirstLoad v as := by
  induction as with
  | nil => cases h
  | cons a as ih =>
    cases touch : a.touch? v with
    | none =>
      have rest : FirstLoad v as := ih (by rwa [touches, List.filterMap_cons_none touch] at h)
      have free : .declare v ∉ [a] := by
        rintro mem
        obtain rfl := List.mem_singleton.1 mem
        simp [VarAccess.touch?] at touch
      exact FirstLoad.append_right rest free
    | some t =>
      rw [touches, List.filterMap_cons_some touch, List.head?_cons, Option.some.injEq] at h
      subst h
      cases a with
      | load w =>
        obtain rfl : w = v := by simpa [VarAccess.touch?] using touch
        exact ⟨[], as, rfl, by simp⟩
      | store w => simp [VarAccess.touch?] at touch
      | declare w => simp [VarAccess.touch?] at touch

theorem FirstLoad.of_reads {reads : List VarRef} (h : v ∈ reads) :
    FirstLoad v (reads.map .load) := by
  obtain ⟨before, after, rfl⟩ := List.append_of_mem h
  exact ⟨before.map .load, after.map .load, by simp, by simp⟩

/-- Nothing is done to a variable before a declaration of it. -/
def DeclaredFirst (v : VarRef) (accesses : List VarAccess) : Prop :=
  ∀ before after, accesses = before ++ .declare v :: after → touches v before = []

theorem DeclaredFirst.nil : DeclaredFirst v [] := by
  intro before after split
  simp at split

/-- An access to another variable before. -/
theorem DeclaredFirst.cons {a : VarAccess} (other : a.touch? v = none) (h : DeclaredFirst v as) :
    DeclaredFirst v (a :: as) := by
  rintro (_ | ⟨b, before⟩) after split
  · rfl
  · obtain ⟨rfl, rfl⟩ := List.cons.inj split
    rw [touches, List.filterMap_cons_none other]
    exact h before after rfl

/-- A declaration that is the only one. -/
theorem DeclaredFirst.declare (once : .declare v ∉ as) : DeclaredFirst v (.declare v :: as) := by
  rintro (_ | ⟨b, before⟩) after split
  · rfl
  · obtain ⟨rfl, rfl⟩ := List.cons.inj split
    exact absurd (by simp) once

theorem DeclaredFirst.left (h : DeclaredFirst v (as ++ bs)) : DeclaredFirst v as := by
  rintro before after rfl
  exact h before (after ++ bs) (by simp)

theorem DeclaredFirst.right (h : DeclaredFirst v (as ++ bs)) : DeclaredFirst v bs := by
  rintro before after rfl
  have none := h (as ++ before) after (by simp)
  rw [touches_append] at none
  exact (List.append_eq_nil_iff.1 none).2

/-- Accesses before those that declare a variable are accesses to other variables. -/
theorem DeclaredFirst.touches_left (h : DeclaredFirst v (as ++ bs)) (declares : .declare v ∈ bs) :
    touches v as = [] := by
  obtain ⟨before, after, rfl⟩ := List.append_of_mem declares
  have none := h (as ++ before) after (by simp)
  rw [touches_append] at none
  exact (List.append_eq_nil_iff.1 none).1

end

/-! ### Accesses of nodes -/

namespace Node

mutual

/-- The variables that the code of a value or a condition loads, in order. -/
def reads : Node → List VarRef
  | mk kind _ children =>
    match kind with
    | .varUse v | .arrayUse v _ => [v]
    | _ => readsAll children

/-- The variables that the code of values loads, in order. -/
def readsAll : List Node → List VarRef
  | [] => []
  | n :: ns => n.reads ++ readsAll ns

end

/-- What is done before the value of a target is computed. -/
def addressAccesses (n : Node) : List VarAccess :=
  match n.kind with
  | .arrayUse v _ => [.load v]
  | _ => []

/-- What is done to store into a target. -/
def storeAccesses (n : Node) : List VarAccess :=
  match n.kind with
  | .varUse v => [.store v]
  | .varDecl v => [.declare v]
  | _ => []

/-- What a statement does that has no statements within it. -/
def ownAccesses (n : Node) : List VarAccess :=
  match n.kind with
  | .varDecl v => [.declare v]
  | .assign =>
    match n.children with
    | [mk .varList _ targets, call] =>
      call.reads.map .load ++ targets.flatMap fun n => n.addressAccesses ++ n.storeAccesses
    | [target, value] => target.addressAccesses ++ value.reads.map .load ++ target.storeAccesses
    | _ => []
  | .read => n.children.flatMap fun n => n.addressAccesses ++ n.storeAccesses
  | .call _ | .ret | .write => (readsAll n.children).map .load
  | _ => []

/-- The variables that the condition of a statement loads; it is the last child. -/
def conditionReads (children : List Node) : List VarRef := (children.getLast?.map reads).getD []

mutual

/-- What a statement does to variables. The branches come one after the other, behind the
condition. -/
def accesses : Node → List VarAccess
  | mk kind ty children =>
    match kind with
    | .block => accessesAll children
    | .cond | .repeat_ => (conditionReads children).map .load ++ accessesOfBranches children
    | _ => ownAccesses (mk kind ty children)
termination_by structural node => node

/-- What statements do to variables. -/
def accessesAll : List Node → List VarAccess
  | [] => []
  | n :: ns => n.accesses ++ accessesAll ns
termination_by structural nodes => nodes

/-- What the branches of a statement do to variables, of which the last one is a condition. -/
def accessesOfBranches : List Node → List VarAccess
  | [] => []
  | n :: ns => if ns.isEmpty then [] else n.accesses ++ accessesOfBranches ns
termination_by structural nodes => nodes

end

mutual

/-- Control may get through a statement without a store into a variable. A branch may always be left
out. -/
def Keeps (v : VarRef) : Node → Prop
  | mk kind ty children =>
    match kind with
    | .block => KeepsAll v children
    | .cond | .repeat_ => True
    | _ => Touch.store ∉ touches v (ownAccesses (mk kind ty children))
termination_by structural node => node

/-- Control may get through statements without a store into a variable. -/
def KeepsAll (v : VarRef) : List Node → Prop
  | [] => True
  | n :: ns => n.Keeps v ∧ KeepsAll v ns
termination_by structural nodes => nodes

end

end Node

/-! ### Slots of variables -/

/-- A variable of a function is kept in a slot. -/
structure Context.Places (ctx : Context) (s : Scope) (v : VarRef) (slot : Nat) : Prop where
  inFunction : s ≠ .globals
  own : v.scope = s
  slot : ctx.frame.slot v.slot = slot

variable {ctx : Context} {s : Scope} {v : VarRef} {slot : Nat}

section

variable {w : VarRef} {x : Variable}

/-- Two variables of the same function are kept in different slots. -/
theorem Context.Places.slot_eq_iff (places : ctx.Places s v slot) (own : w.scope = s) :
    ctx.frame.slot w.slot = slot ↔ w = v := by
  obtain ⟨wSlot, wScope⟩ := w
  obtain ⟨vSlot, vScope⟩ := v
  obtain ⟨-, rfl, rfl⟩ := places
  obtain rfl : wScope = _ := own
  simp [Frame.slot]

theorem load_touch (places : ctx.Places s v slot) (sees : s.Sees w) :
    (ctx.loadInstr w x).touch? slot = (VarAccess.load w).touch? v := by
  unfold Context.loadInstr
  split
  · rename_i global
    have other : w ≠ v := by
      rintro rfl
      exact places.inFunction (places.own.symm.trans global)
    simp [Instr.touch?, VarAccess.touch?, other]
  · rename_i i scope
    have own : w.scope = s := sees.resolve_left (by simp [scope])
    simp only [Instr.touch?, VarAccess.touch?, places.slot_eq_iff own]

theorem store_touch (places : ctx.Places s v slot) (sees : s.Sees w) :
    (ctx.storeInstr w x).touch? slot = (VarAccess.store w).touch? v := by
  unfold Context.storeInstr
  split
  · rename_i global
    have other : w ≠ v := by
      rintro rfl
      exact places.inFunction (places.own.symm.trans global)
    simp [Instr.touch?, VarAccess.touch?, other]
  · rename_i i scope
    have own : w.scope = s := sees.resolve_left (by simp [scope])
    simp only [Instr.touch?, VarAccess.touch?, places.slot_eq_iff own]

end

/-! ### Values -/

@[simp] theorem slotTouches_append (is js : List Instr) :
    slotTouches slot (is ++ js) = slotTouches slot is ++ slotTouches slot js :=
  List.filterMap_append

theorem slotTouches_eq_nil {is : List Instr} (h : ∀ i ∈ is, i.touch? slot = none) :
    slotTouches slot is = [] :=
  List.filterMap_eq_nil_iff.2 h

@[simp] theorem slotTouches_convertCode {value wanted : Ty} :
    slotTouches slot (convertCode value wanted) = [] := by
  unfold convertCode
  split <;> rfl

theorem slotTouches_singleton (i : Instr) : slotTouches slot [i] = (i.touch? slot).toList := by
  cases h : i.touch? slot <;> simp [slotTouches, h]

theorem touches_singleton (a : VarAccess) : touches v [a] = (a.touch? v).toList := by
  cases h : a.touch? v <;> simp [touches, h]

theorem address_touches {w : VarRef} {x : Variable} (places : ctx.Places s v slot) (sees : s.Sees w)
    (k : Nat) :
    slotTouches slot (ctx.addressCode w x k) = touches v [.load w] := by
  have split : ctx.addressCode w x k = [ctx.loadInstr w x] ++ [.ldc (.int k)] := rfl
  rw [split, slotTouches_append, slotTouches_singleton, load_touch places sees, touches_singleton]
  exact List.append_nil _

theorem call_touches {f : Function} (code : List Instr) :
    slotTouches slot (callCode ctx f code) = slotTouches slot code := by
  have first : slotTouches slot (if f.isEntryPoint then [.nullConst] else []) = [] := by
    split <;> rfl
  rw [callCode, slotTouches_append, slotTouches_append, first, slotTouches_singleton]
  exact List.append_nil _

mutual

/-- The code of a value loads the slots of the variables that the node reads. -/
theorem ValueCode.touches (places : ctx.Places s v slot) {n : Node} {code : List Instr} :
    ValueCode ctx s n code → slotTouches slot code = touches v (n.reads.map .load)
  | .int .. | .float | .bool | .string => rfl
  | .name sees _ _ => by
    rw [slotTouches_singleton, load_touch places sees, ← touches_singleton]
    rfl
  | .element sees _ _ _ => by
    rw [slotTouches_append, address_touches places sees, slotTouches_singleton]
    exact List.append_nil _
  | .arithmetic _ _ _ _ leftCode rightCode => by
    simp only [slotTouches_append, leftCode.touches places, rightCode.touches places,
      slotTouches_convertCode, slotTouches_singleton, Instr.touch?, Node.reads, Node.readsAll,
      List.map_append, touches_append, List.append_nil, Option.toList_none]
  | .concat _ _ leftCode rightCode => by
    simp only [slotTouches_append, leftCode.touches places, rightCode.touches places,
      slotTouches_singleton, Instr.touch?, Node.reads, Node.readsAll, List.map_append,
      touches_append, List.append_nil, Option.toList_none]
  | .call _ _ _ argsCode => by
    simp only [slotTouches_append, call_touches, argsCode.touches places, slotTouches_singleton,
      Instr.touch?, Node.reads, List.append_nil, Option.toList_none]

/-- The code of arguments loads the slots of the variables that they read. -/
theorem ArgumentsCode.touches (places : ctx.Places s v slot) {args : List Node} {tys : List Ty}
    {code : List Instr} :
    ArgumentsCode ctx s args tys code →
    slotTouches slot code = touches v ((Node.readsAll args).map .load)
  | .nil => rfl
  | .cons _ first others => by
    simp only [slotTouches_append, first.touches places, others.touches places,
      slotTouches_convertCode, Node.readsAll, List.map_append, touches_append, List.append_nil]

end

/-! ### Conditions -/

theorem mem_reads_of_touches {n : Node} {t : Touch} (h : t ∈ touches v (n.reads.map .load)) :
    v ∈ n.reads := by
  obtain ⟨a, mem, touch⟩ := List.mem_filterMap.1 h
  obtain ⟨w, found, rfl⟩ := List.mem_map.1 mem
  simp only [VarAccess.touch?] at touch
  split at touch
  · rename_i same
    exact same ▸ found
  · cases touch

/-- A value whose code touches the slot of a variable reads the variable. -/
theorem ValueCode.reads_of_touch (places : ctx.Places s v slot) {n : Node} {code : List Instr}
    (h : ValueCode ctx s n code) {i : Instr} {t : Touch} (mem : i ∈ code)
    (touch : i.touch? slot = some t) :
    v ∈ n.reads := by
  have found : t ∈ slotTouches slot code := List.mem_filterMap.2 ⟨i, mem, touch⟩
  rw [h.touches places] at found
  exact mem_reads_of_touches found

theorem touch?_convertCode {value wanted : Ty} :
    ∀ i ∈ convertCode value wanted, i.touch? slot = none := by
  unfold convertCode
  split <;> simp [Instr.touch?]

theorem touch?_compareCode {o : BinaryOp} {ty : Ty} {code : CondCode} {l : Label} :
    ∀ i ∈ compareCode o ty code l, i.touch? slot = none := by
  unfold compareCode
  split <;> simp [Instr.touch?]

/-- A condition whose code touches the slot of a variable reads the variable. -/
theorem ConditionCode.reads_of_touch (places : ctx.Places s v slot) {jump : Emission.Jump}
    {c c' : LabelCounters} {n : Node} {lines : List Line}
    (h : ConditionCode ctx s jump c n lines c') {l : Line} {t : Touch} (mem : l ∈ lines)
    (touch : l.touch? slot = some t) : v ∈ n.reads := by
  -- Only the code of operands touches slots; conversions, comparisons and jumps do not.
  induction h with
  | value _ valueCode =>
    obtain ⟨i, found, rfl⟩ := List.mem_map.1 mem
    rcases List.mem_append.1 found with found | found
    · exact valueCode.reads_of_touch places found touch
    · obtain rfl := List.mem_singleton.1 found
      cases touch
  | comparison _ _ _ _ leftCode rightCode =>
    obtain ⟨i, found, rfl⟩ := List.mem_map.1 mem
    simp only [List.mem_append] at found
    simp only [Node.reads, Node.readsAll, List.append_nil, List.mem_append]
    rcases found with (((found | found) | found) | found) | found
    · exact .inl (leftCode.reads_of_touch places found touch)
    · simp [Line.touch?, touch?_convertCode i found] at touch
    · exact .inr (rightCode.reads_of_touch places found touch)
    · simp [Line.touch?, touch?_convertCode i found] at touch
    · simp [Line.touch?, touch?_compareCode i found] at touch
  | both _ _ _ ihl ihr =>
    simp only [Node.reads, Node.readsAll, List.append_nil, List.mem_append]
    exact (List.mem_append.1 mem).imp ihl ihr
  | skip _ _ _ ihl ihr =>
    simp only [Node.reads, Node.readsAll, List.append_nil, List.mem_append]
    rcases List.mem_append.1 mem with mem | mem
    · exact (List.mem_append.1 mem).imp ihl ihr
    · obtain rfl := List.mem_singleton.1 mem
      cases touch

/-! ### Places -/

/-- A place loads its address and stores into its variable. -/
theorem PlaceCode.touches (places : ctx.Places s v slot) {target : Node} {before after : List Instr}
    (h : PlaceCode ctx s target before after) :
    slotTouches slot before = MiniGo.touches v target.addressAccesses ∧
      slotTouches slot after = MiniGo.touches v target.storeAccesses := by
  cases h with
  | name sees =>
    refine ⟨rfl, ?_⟩
    rw [slotTouches_singleton, store_touch places sees, ← touches_singleton]
    rfl
  | declared own =>
    refine ⟨rfl, ?_⟩
    rw [slotTouches_singleton, store_touch places (.inr own)]
    exact (touches_singleton _).symm
  | element sees =>
    exact ⟨address_touches places sees _, rfl⟩

theorem ResultsCode.touches (places : ctx.Places s v slot) {f : Function} {i : Nat}
    {targets : List Node} {tys : List Ty} {code : List Instr}
    (h : ResultsCode ctx s f i targets tys code) :
    slotTouches slot code =
      MiniGo.touches v (targets.flatMap fun n => n.addressAccesses ++ n.storeAccesses) := by
  induction h with
  | nil => rfl
  | cons _ _ place _ ih =>
    simp only [slotTouches_append, (place.touches places).1, (place.touches places).2, ih,
      slotTouches_convertCode, slotTouches_singleton, Instr.touch?, List.flatMap_cons,
      touches_append, List.append_assoc, Option.toList_none, List.nil_append]

/-- A target is not a list of targets, so there is one value for it. -/
theorem PlaceCode.ownAccesses_assign {target value : Node} {before after : List Instr} {ty : Ty}
    (h : PlaceCode ctx s target before after) :
    (Node.mk .assign ty [target, value]).ownAccesses =
      target.addressAccesses ++ value.reads.map .load ++ target.storeAccesses := by
  cases h <;> rfl

theorem touch?_resultStores {f : Function} {tys : List Ty} :
    ∀ i ∈ resultStores ctx f tys, i.touch? slot = none := by
  intro i mem
  simp only [resultStores, List.mem_reverse, List.mem_mapIdx] at mem
  obtain ⟨_, _, rfl⟩ := mem
  rfl

theorem touch?_scanCode {method : MethodRef} : ∀ i ∈ scanCode method, i.touch? slot = none := by
  simp [scanCode, Instr.touch?]

theorem touch?_defaultCode {x : Variable} : ∀ i ∈ defaultCode x, i.touch? slot = none := by
  unfold defaultCode
  split
  · simp [Instr.touch?]
  · cases x.ty <;> simp [zeroInstr, Instr.touch?]

end MiniGo
