import MiniGo.Proofs.WellTyped.Expr

/-!
# Expressions under other indices of functions

An expression is typed with the names and the signatures of functions, and with the variables that
its scope sees. Where the indices of functions are others, the node is the same up to these indices.

* `Node.rename`: a node with other indices of functions.
* `Tables.Renames`: tables in which functions have other indices, as far as a scope can tell.
* `Report.Maps`: a report with another value and the same errors, with rules for its steps.
* `lowerExpr_maps`, `lowerPrimary_maps`, `lowerValues_maps`: expressions have the same errors, and
  renamed nodes.
-/

namespace MiniGo

variable {ρ : Nat → Nat}

/-! ### Renaming -/

/-- A scope with another index of its function. -/
def Scope.rename (ρ : Nat → Nat) : Scope → Scope
  | globals => globals
  | function index => function (ρ index)

@[simp] theorem rename_scope_id (s : Scope) : s.rename id = s := by
  cases s <;> rfl

/-- A variable in a renamed scope. -/
def VarRef.rename (ρ : Nat → Nat) (v : VarRef) : VarRef := { v with scope := v.scope.rename ρ }

namespace NodeKind

/-- A kind with other indices of functions. -/
def rename (ρ : Nat → Nat) : NodeKind → NodeKind
  | varDecl v => varDecl (v.rename ρ)
  | varUse v => varUse (v.rename ρ)
  | arrayUse v offset => arrayUse (v.rename ρ) offset
  | function index => function (ρ index)
  | call index => call (ρ index)
  | kind => kind

@[simp] theorem isJumpOnly_rename (kind : NodeKind) :
    (kind.rename ρ).isJumpOnly = kind.isJumpOnly := by
  cases kind <;> rfl

@[simp] theorem isReference_rename (kind : NodeKind) :
    (kind.rename ρ).isReference = kind.isReference := by
  cases kind <;> rfl

@[simp] theorem name_rename (kind : NodeKind) : (kind.rename ρ).name = kind.name := by
  cases kind <;> rfl

end NodeKind

namespace Node

mutual

/-- A node with other indices of functions. -/
def rename (ρ : Nat → Nat) : Node → Node
  | mk kind ty children => mk (kind.rename ρ) ty (renameList ρ children)

/-- Nodes with other indices of functions. -/
def renameList (ρ : Nat → Nat) : List Node → List Node
  | [] => []
  | n :: ns => n.rename ρ :: renameList ρ ns

end

@[simp] theorem renameList_eq_map (ns : List Node) : renameList ρ ns = ns.map (rename ρ) := by
  induction ns with
  | nil => rfl
  | cons n ns ih => rw [renameList, ih, List.map_cons]

@[simp] theorem rename_mk (kind : NodeKind) (ty : Ty) (children : List Node) :
    (mk kind ty children).rename ρ = mk (kind.rename ρ) ty (children.map (rename ρ)) := by
  rw [rename, renameList_eq_map]

@[simp] theorem rename_leaf (kind : NodeKind) (ty : Ty) :
    (leaf kind ty).rename ρ = leaf (kind.rename ρ) ty := rfl

@[simp] theorem rename_statement (kind : NodeKind) (children : List Node) :
    (statement kind children).rename ρ = statement (kind.rename ρ) (children.map (rename ρ)) :=
  rename_mk ..

mutual

/-- Without other indices a node stays the same. -/
theorem rename_id : ∀ n : Node, n.rename id = n
  | mk kind ty children => by
    have same : kind.rename id = kind := by cases kind <;>
      simp [NodeKind.rename, VarRef.rename, rename_scope_id]
    rw [rename, same, renameList_id children]

theorem renameList_id : ∀ ns : List Node, renameList id ns = ns
  | [] => rfl
  | n :: ns => by rw [renameList, rename_id n, renameList_id ns]

end

@[simp] theorem ty_rename (n : Node) : (n.rename ρ).ty = n.ty := by
  cases n
  rfl

@[simp] theorem kind_rename (n : Node) : (n.rename ρ).kind = n.kind.rename ρ := by
  cases n
  rfl

@[simp] theorem isJumpOnly_rename (n : Node) : (n.rename ρ).isJumpOnly = n.isJumpOnly := by
  simp [isJumpOnly]

@[simp] theorem isCondition_rename (n : Node) : (n.rename ρ).isCondition = n.isCondition := by
  simp [isCondition]

@[simp] theorem widen_rename (n : Node) : (n.rename ρ).widen = n.widen.rename ρ := by
  obtain ⟨kind, ty, children⟩ := n
  simp only [rename_mk, widen, NodeKind.isReference_rename]
  split <;> rw [rename_mk]

end Node

/-- A function without its variables. -/
def Function.head (f : Function) : Function := { f with vars := {} }

/-- Tables in which functions have other indices. For each index there is the same function, apart
from its variables, and a scope has the same variables as its renaming. -/
structure Tables.Renames (ρ : Nat → Nat) (s : Scope) (t t' : Tables) : Prop where
  globals : t'.globals = t.globals
  find? : ∀ name, t'.functions.find? name = (t.functions.find? name).map ρ
  heads : ∀ i, (t'.functions.get? (ρ i)).map Function.head = (t.functions.get? i).map Function.head
  own : t'.table? (s.rename ρ) = t.table? s

namespace Tables.Renames

variable {s : Scope} {t t' : Tables}

theorem refl (t : Tables) : t.Renames id s t := ⟨rfl, by simp, fun _ => rfl, by simp⟩

/-- A name means the same variable, in the renamed scope. -/
theorem resolve? (h : t.Renames ρ s t') (name : String) :
    t'.resolve? name (s.rename ρ) = (t.resolve? name s).map (VarRef.rename ρ) := by
  have own := h.own
  unfold Tables.resolve?
  rw [h.globals]
  cases s with
  | globals => cases t.globals.find? name <;> rfl
  | function i =>
    simp only [Scope.rename] at own ⊢
    rw [own]
    cases (t.table? (.function i)).bind (·.find? name) with
    | some slot => rfl
    | none => cases t.globals.find? name <;> rfl

/-- A variable that the scope sees has the same entry. -/
theorem var? (h : t.Renames ρ s t') {v : VarRef} (sees : s.Sees v) :
    t'.var? (v.rename ρ) = t.var? v := by
  obtain ⟨slot, scope⟩ := v
  unfold Tables.var?
  rcases sees with rfl | rfl
  · simp [VarRef.rename, Scope.rename, table?, h.globals]
  · simp [VarRef.rename, h.own]

/-- At a renamed index there is the same function, apart from its variables. -/
theorem get? (h : t.Renames ρ s t') (i : Nat) :
    t.functions.get? i = none ∧ t'.functions.get? (ρ i) = none ∨
      ∃ name line params returns vars vars',
        t.functions.get? i = some ⟨name, line, params, returns, vars⟩ ∧
        t'.functions.get? (ρ i) = some ⟨name, line, params, returns, vars'⟩ := by
  have heads := h.heads i
  cases found : t.functions.get? i with
  | none =>
    rw [found, Option.map_none, Option.map_eq_none_iff] at heads
    exact .inl ⟨rfl, heads⟩
  | some f =>
    rw [found, Option.map_some, Option.map_eq_some_iff] at heads
    obtain ⟨⟨name, line, params, returns, vars'⟩, found', same⟩ := heads
    obtain ⟨name', line', params', returns', vars⟩ := f
    cases same
    exact .inr ⟨name, line, params, returns, vars, vars', rfl, found'⟩

end Tables.Renames

/-! ### Reports -/

namespace Report

variable {α β γ δ : Type} {f : α → β} {g : γ → δ}

/-- A report with another value and the same errors. -/
def Maps (f : α → β) (r : Report α) (r' : Report β) : Prop := r' = ⟨f r.value, r.errors⟩

theorem Maps.pure {a : α} {b : β} (h : b = f a) : Maps f (Pure.pure a) (Pure.pure b) := by
  rw [h]
  rfl

theorem Maps.reject {e : SemanticError} : Maps (Option.map f) (.reject e) (.reject e) := rfl

theorem Maps.bind {r : Report α} {r' : Report β} {k : α → Report γ} {k' : β → Report δ}
    (h : Maps f r r') (next : ∀ a, Maps g (k a) (k' (f a))) : Maps g (r >>= k) (r' >>= k') := by
  have second := next r.value
  unfold Maps at *
  simp only [Bind.bind, h, second]

/-- A report that stays the same comes first. -/
theorem Maps.after {r : Report α} {k : α → Report γ} {k' : α → Report δ}
    (next : ∀ a, Maps g (k a) (k' a)) :
    Maps g (r >>= k) (r >>= k') :=
  Maps.bind (f := id) rfl next

theorem Maps.ite {c : Prop} [Decidable c] {r₁ r₂ : Report α} {r₁' r₂' : Report β}
    (h₁ : Maps f r₁ r₁') (h₂ : Maps f r₂ r₂') :
    Maps f (if c then r₁ else r₂) (if c then r₁' else r₂') := by
  split
  · exact h₁
  · exact h₂

theorem Maps.continueWith {a? : Option α} {k : α → Report (Option γ)} {k' : β → Report (Option δ)}
    (next : ∀ a, Maps (Option.map g) (k a) (k' (f a))) :
    Maps (Option.map g) (Analysis.continueWith a? k) (Analysis.continueWith (a?.map f) k') := by
  cases a? with
  | none => exact .pure rfl
  | some a => exact next a

/-- One step after the other. -/
theorem Maps.andThen {r : Report (Option α)} {r' : Report (Option β)} {k : α → Report (Option γ)}
    {k' : β → Report (Option δ)} (h : Maps (Option.map f) r r')
    (next : ∀ a, Maps (Option.map g) (k a) (k' (f a))) :
    Maps (Option.map g) (r >>= (Analysis.continueWith · k)) (r' >>= (Analysis.continueWith · k')) :=
  h.bind fun _ => .continueWith next

end Report

namespace Analysis

open Report

variable {s : Scope} {t t' : Tables} {line : Nat}

/-! ### Steps on typed parts -/

/-- Typing gives the same node up to the indices of functions, with the same errors. -/
def NodeMaps (ρ : Nat → Nat) (r r' : Report (Option Node)) : Prop :=
  Maps (Option.map (Node.rename ρ)) r r'

theorem asValue_maps (n : Node) : NodeMaps ρ (asValue line n) (asValue line (n.rename ρ)) := by
  unfold asValue
  rw [Node.isJumpOnly_rename, Node.kind_rename, NodeKind.name_rename, Node.ty_rename]
  exact .ite .reject (.pure rfl)

theorem asCondition_maps (construct : String) (n : Node) :
    NodeMaps ρ (asCondition construct line n) (asCondition construct line (n.rename ρ)) := by
  unfold asCondition
  rw [Node.isCondition_rename, Node.ty_rename]
  exact .ite (.pure rfl) .reject

theorem assignTo_maps (target : Ty) (value : Node) (operator : String) :
    NodeMaps ρ (assignTo target value operator line)
      (assignTo target (value.rename ρ) operator line) := by
  unfold assignTo
  rw [Node.ty_rename, Node.widen_rename]
  refine .ite (.pure ?_) .reject
  split <;> rfl

theorem binaryTy_rename (op : BinaryOp) (left right : Node) :
    binaryTy op (left.rename ρ) (right.rename ρ) line = binaryTy op left right line := by
  simp only [binaryTy, binaryTy?, Node.isCondition_rename, Node.ty_rename]

theorem lowerOperation_maps (op : BinaryOp) (left right : Node) :
    NodeMaps ρ (lowerOperation op line left right)
      (lowerOperation op line (left.rename ρ) (right.rename ρ)) := by
  unfold lowerOperation
  rw [binaryTy_rename]
  refine Maps.after fun ty? => ?_
  cases ty? with
  | none => exact .pure rfl
  | some ty =>
    refine .pure ?_
    simp only [Node.ty_rename, Node.widen_rename, Option.map_some, Node.rename_mk, NodeKind.rename]
    split <;> rfl

theorem rename_zeroNode (ty : Ty) : (zeroNode ty).rename ρ = zeroNode ty := by
  unfold zeroNode
  split <;> rfl

theorem lowerSigned_maps (sign : Sign) (n : Node) :
    NodeMaps ρ (lowerSigned sign line n) (lowerSigned sign line (n.rename ρ)) := by
  refine (asValue_maps n).andThen fun n => ?_
  rw [Node.ty_rename]
  refine .ite (.pure ?_) .reject
  cases sign with
  | plus => rfl
  | minus => simp [NodeKind.rename, rename_zeroNode]

theorem lowerLiteral_maps (lit : Literal) (negate : Bool) :
    NodeMaps ρ (lowerLiteral lit negate) (lowerLiteral lit negate) := by
  unfold lowerLiteral
  dsimp only
  split
  · -- Whatever its kind, a literal becomes a leaf that mentions no function.
    rename_i n found
    refine .pure ?_
    split at found
    · unfold intLiteral? at found
      simp only [Option.bind_eq_bind, Option.bind_eq_some_iff] at found
      obtain ⟨i, -, found⟩ := found
      rw [Option.ite_none_right_eq_some] at found
      obtain ⟨-, same⟩ := found
      cases same
      rfl
    · unfold floatLiteral? at found
      simp only [Option.bind_eq_bind, Option.bind_eq_some_iff] at found
      obtain ⟨x, -, found⟩ := found
      cases found
      rfl
    · cases found
      rfl
    · cases found
      rfl
  · exact .reject

/-! ### Names, elements and calls -/

theorem lowerVariable_maps (h : t.Renames ρ s t') (name : Ident) :
    NodeMaps ρ (lowerVariable t s name) (lowerVariable t' (s.rename ρ) name) := by
  unfold lowerVariable
  rw [h.resolve?]
  cases found : t.resolve? name.name s with
  | none => exact .reject
  | some v =>
    refine .pure ?_
    rw [h.var? (Tables.sees_of_resolve? found), Option.map_map]
    rfl

theorem lowerIndex_maps (h : t.Renames ρ s t') (array : Ident) (index : Expr) :
    NodeMaps ρ (lowerIndex t s array index) (lowerIndex t' (s.rename ρ) array index) := by
  unfold lowerIndex
  rw [h.resolve?]
  cases found : t.resolve? array.name s with
  | none => exact .reject
  | some v =>
    dsimp only [Option.map_some]
    rw [h.var? (Tables.sees_of_resolve? found)]
    cases t.var? v with
    | none => exact .pure rfl
    | some entry =>
      dsimp only [continueWith]
      cases entry.array? with
      | none => exact .reject
      | some shape =>
        dsimp only
        cases constantInt? index with
        | none => exact .reject
        | some i => exact .ite (.pure rfl) .reject

theorem matchArguments_maps (callee : Ident) (position : Nat) (args : List (Option Node))
    (params : List Ty) :
    Maps (Option.map (List.map (Node.rename ρ))) (matchArguments callee line position args params)
      (matchArguments callee line position (args.map (Option.map (Node.rename ρ))) params) := by
  induction args generalizing position params with
  | nil => exact .pure rfl
  | cons arg? args ih =>
    cases params with
    | nil => exact .pure rfl
    | cons param params =>
      -- The check of one argument looks at its type only, which a renaming keeps.
      have first : NodeMaps ρ
          (continueWith arg? fun arg => if arg.ty = param then pure (some arg)
            else .reject (.argumentTypeMismatch callee.name line position param arg.ty))
          (continueWith (arg?.map (Node.rename ρ)) fun arg => if arg.ty = param then pure (some arg)
            else .reject (.argumentTypeMismatch callee.name line position param arg.ty)) := by
        refine .continueWith fun arg => ?_
        rw [Node.ty_rename]
        exact .ite (.pure rfl) .reject
      refine first.bind fun arg? => (ih (position + 1) params).bind fun args? => .pure ?_
      cases arg? <;> cases args? <;> rfl

theorem lowerCall_maps (h : t.Renames ρ s t') (callee : Ident) (args : List (Option Node)) :
    NodeMaps ρ (lowerCall t callee args line)
      (lowerCall t' callee (args.map (Option.map (Node.rename ρ))) line) := by
  unfold lowerCall
  rw [h.find?]
  cases t.functions.find? callee.name with
  | none => exact .reject
  | some index =>
    dsimp only [Option.map_some]
    -- The callee has another index, but it is the same function up to its variables.
    rcases h.get? index with ⟨found, found'⟩ | ⟨name, fline, params, returns, vars, vars', found,
      found'⟩
    · rw [found, found']
      exact .pure rfl
    · rw [found, found', List.length_map]
      refine .ite ?_ .reject
      exact (matchArguments_maps callee 1 args params).andThen fun children =>
        .pure (by simp [NodeKind.rename]; rfl)

theorem asCallValue_maps (callee : Ident) (call : Node) :
    NodeMaps ρ (asCallValue callee line call) (asCallValue callee line (call.rename ρ)) := by
  unfold asCallValue
  rw [Node.ty_rename]
  exact .ite .reject (.pure rfl)

/-! ### Expressions -/

/-- An operand of an operation that is not logical must have a value. -/
theorem asOperand_maps {α β : Type} {g : α → β} {logical : Bool} {node? : Option Node}
    {k : Option Node → Report α} {k' : Option Node → Report β}
    (next : ∀ node?, Maps g (k node?) (k' (node?.map (Node.rename ρ)))) :
    Maps g (if logical then pure node? >>= k else continueWith node? (asValue line) >>= k)
      (if logical then pure (node?.map (Node.rename ρ)) >>= k'
        else continueWith (node?.map (Node.rename ρ)) (asValue line) >>= k') :=
  .ite (Maps.bind (.pure rfl) next) (Maps.bind (.continueWith asValue_maps) next)

mutual

/-- An expression has the same node up to the indices of functions, with the same errors. -/
theorem lowerExpr_maps (h : t.Renames ρ s t') :
    ∀ e, NodeMaps ρ (lowerExpr t s e) (lowerExpr t' (s.rename ρ) e)
  | .binary op line left right =>
    (lowerExpr_maps h left).bind fun _ => asOperand_maps fun _ =>
      (lowerExpr_maps h right).bind fun _ => asOperand_maps fun _ =>
        .continueWith fun left => .continueWith fun right => lowerOperation_maps op left right
  | .operand sign primary line => by
    simp only [lowerExpr]
    split
    · exact lowerLiteral_maps ..
    · refine (lowerPrimary_maps h primary).bind fun node? => ?_
      cases sign with
      | none => exact .pure rfl
      | some sign => exact .continueWith (lowerSigned_maps sign)

/-- An operand has the same node up to the indices of functions, with the same errors. -/
theorem lowerPrimary_maps (h : t.Renames ρ s t') {line : Nat} :
    ∀ primary, NodeMaps ρ (lowerPrimary t s line primary)
      (lowerPrimary t' (s.rename ρ) line primary)
  | .literal lit => lowerLiteral_maps lit false
  | .name id => lowerVariable_maps h id
  | .call callee args =>
    (lowerValues_maps h args).bind fun args =>
      (lowerCall_maps h callee args).andThen (asCallValue_maps callee)
  | .index array index => lowerIndex_maps h array index
  | .paren inner => lowerExpr_maps h inner

/-- Values have the same nodes up to the indices of functions, with the same errors. -/
theorem lowerValues_maps (h : t.Renames ρ s t') :
    ∀ es, Maps (List.map (Option.map (Node.rename ρ))) (lowerValues t s es)
      (lowerValues t' (s.rename ρ) es)
  | [] => .pure rfl
  | e :: es => (lowerExpr_maps h e).bind fun _ => (Maps.continueWith asValue_maps).bind fun _ =>
      (lowerValues_maps h es).bind fun _ => .pure rfl

end

theorem lowerValue_maps (h : t.Renames ρ s t') (e : Expr) :
    NodeMaps ρ (lowerValue t s e) (lowerValue t' (s.rename ρ) e) :=
  (lowerExpr_maps h e).andThen asValue_maps

theorem lowerCondition_maps (h : t.Renames ρ s t') (e : Expr) (construct : String) :
    NodeMaps ρ (lowerCondition t s e construct line)
      (lowerCondition t' (s.rename ρ) e construct line) :=
  (lowerExpr_maps h e).andThen (asCondition_maps construct)

theorem checkExprs_maps (h : t.Renames ρ s t') (es : List Expr) :
    checkExprs t' (s.rename ρ) es = checkExprs t s es := by
  induction es with
  | nil => rfl
  | cons e es ih =>
    have first : lowerExpr t' (s.rename ρ) e = _ := lowerExpr_maps h e
    simp only [checkExprs, ih, first]
    rfl

theorem lowerTarget_maps (h : t.Renames ρ s t') (target : Target) :
    NodeMaps ρ (lowerTarget t s target) (lowerTarget t' (s.rename ρ) target) := by
  have scalar (node : Node) : NodeMaps ρ
      (if node.ty.isScalar then pure (some node)
      else .reject (.typeMismatch target.line "=" node.ty node.ty))
        (if (node.rename ρ).ty.isScalar then pure (some (node.rename ρ))
        else .reject (.typeMismatch target.line "=" (node.rename ρ).ty (node.rename ρ).ty)) := by
    rw [Node.ty_rename]
    exact .ite (.pure rfl) .reject
  cases target with
  | name id => exact (lowerVariable_maps h id).andThen scalar
  | index array index => exact (lowerIndex_maps h array index).andThen scalar

end Analysis

end MiniGo
