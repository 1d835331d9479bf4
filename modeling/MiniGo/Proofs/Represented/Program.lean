import MiniGo.Proofs.Names.Functions
import MiniGo.Proofs.Represented.Stmt

/-!
# Nothing of a source file is dropped

If the analysis of a source file succeeds, each declaration and each statement of the file has its
nodes in the typed tree, in the order of the source text. Wherever something is left out on the way,
there is an error.

* `Reached`: the tables and scopes at which an analysis can be.
* `analyze_becomes`: a file that is analyzed has all its nodes.
* `Analysis.nothing_dropped`: the whole statement, for expressions, declarations, statements and
  files.
-/

namespace MiniGo

theorem Tables.Fills.adds {t t' : Tables} (h : t.Fills t') : t.Adds t' := ⟨h.toExtends, h.size⟩

namespace Analysis

open Report

variable {t : Tables} {s : Scope}

/-! ### States of an analysis -/

/-- The tables and the scope at which an analysis can be. It declares variables and signatures of
functions, enters the scopes of functions, and goes on behind each statement, whether that has
errors or not. -/
inductive Reached : Tables → Scope → Prop
  | start : Reached {} .globals
  | declaration {t : Tables} {s : Scope} (decl : VarDecl) (before : Reached t s) :
      Reached ((lowerVarDecl s decl).run t).value.2 s
  | signature {t : Tables} (func : FuncDecl) (before : Reached t .globals) :
      Reached ((declareFunction func).run t).value.2 .globals
  | enter {t : Tables} {s : Scope} {i : Nat} (before : Reached t s)
      (declared : i < t.functions.size) :
      Reached t (.function i)
  | statement {t : Tables} {i : Nat} (stmt : Stmt) (before : Reached t (.function i)) :
      Reached ((lowerStmt (.function i) stmt).run t).value.2 (.function i)

/-- Declaring a function keeps the tables well formed, also if there are errors. -/
theorem declareFunction_wellFormed (func : FuncDecl) (wf : t.WellFormed) :
    ((declareFunction func).run t).value.2.WellFormed := by
  have runs : Runs (fun t t' => t.WellFormed → t'.WellFormed) t (declareFunction func) fun _ _ =>
      True := by
    unfold declareFunction
    refine .report (.report ?_)
    split
    · rename_i params returns hparams hreturns
      refine .get ?_
      split
      · exact ⟨id, trivial⟩
      · rename_i functions declared
        have wellFormed :
            Function.WellFormed ⟨func.name.name, func.line, params.map Prod.snd, returns, {}⟩ :=
          ⟨lowerParams_isScalar hparams, lowerResults_isScalar hreturns, by simp, by simp⟩
        obtain ⟨grows, -⟩ :=
          @declareParams_runs { t with functions } t.functions.size params wellFormed.params
        exact ⟨fun wf => grows.wellFormed (wf.declare wellFormed declared), trivial⟩
    · exact ⟨id, trivial⟩
  exact runs.1 wf

/-- At each place of an analysis the tables are well formed, and they have a table for the scope. -/
theorem Reached.ready (h : Reached t s) : Ready s t := by
  induction h with
  | start => exact ⟨⟨⟨by simp, by simp⟩, by simp, by simp⟩, rfl⟩
  | declaration decl _ ih => exact ih.grows (lowerVarDecl_typed ih.toWellFormed).1
  | signature func _ ih => exact ⟨declareFunction_wellFormed func ih.toWellFormed, rfl⟩
  | enter _ declared ih => exact ⟨ih.toWellFormed, Tables.hasScope_function declared⟩
  | statement stmt _ ih => exact ih.grows (lowerStmt_typed stmt ih.toWellFormed).1

/-! ### Programs -/

theorem lowerGlobals_become (decls : List VarDecl) : Clean Tables.Adds t (lowerGlobals decls)
    fun t' nodes => Become (VarDecl.Become t' .globals) decls nodes := by
  induction decls generalizing t with
  | nil => exact .pure rfl
  | cons decl decls ih =>
    refine (lowerVarDecl_become decl (show t.HasScope .globals from rfl)).bind
      fun t' first adds become => ?_
    refine ih.bind fun t'' rest adds' becomeRest => .pure ?_
    exact ⟨first, rest, rfl, become.mono adds'.toExtends, becomeRest⟩

/-- The node of a function whose body is that of a declaration. -/
def BodyBecomes (t : Tables) (i : Nat) (decl : FuncDecl) (n : Node) : Prop :=
  ∃ body, n = .statement (.function i) [body] ∧ decl.body.Becomes t (.function i) body

theorem lowerFunction_becomes {i : Nat} (func : FuncDecl) (scope : t.HasScope (.function i)) :
    Clean Tables.Adds t (lowerFunction func i) fun t' node => BodyBecomes t' i func node :=
  (lowerBlock_becomes func.body scope).bind fun _ body _ becomes => .pure ⟨body, rfl, becomes⟩

/-- The bodies of functions that are declared one after the other. -/
theorem lowerFunctions_become {funcs : List FuncDecl} {k : Nat} (wf : t.WellFormed)
    (declared : k + funcs.length ≤ t.functions.size) :
    Clean Tables.Fills t (lowerFunctions funcs ((List.range' k funcs.length).map some))
      fun t' nodes => nodes.length = funcs.length ∧
        ∀ j decl node, funcs[j]? = some decl → nodes[j]? = some node →
          BodyBecomes t' (k + j) decl node := by
  refine (lowerFunctions_each wf).imp fun t' nodes _ found => ?_
  obtain ⟨count, -, each⟩ := found
  refine ⟨count, fun j decl node atDecl atNode => ?_⟩
  obtain ⟨node', u, u', atNode', run, fillsTo, -, fillsFrom, -⟩ := each j decl atDecl
  obtain rfl : node' = node := Option.some.inj (atNode'.symm.trans atNode)
  have scope : u.HasScope (.function (k + j)) := by
    have inside : j < funcs.length := (List.getElem?_eq_some_iff.1 atDecl).1
    refine Tables.hasScope_function ?_
    rw [fillsTo.size]
    omega
  obtain ⟨body, rfl, becomes⟩ := (lowerFunction_becomes decl scope).result run
  exact ⟨body, rfl, Block.Becomes.mono fillsFrom.adds becomes⟩

end Analysis

/-- A file that is analyzed without errors has all its nodes. -/
theorem analyze_becomes {file : File} {p : Program} (h : analyze file = .ok p) :
    file.Becomes p.tables p.root := by
  have names := functions_names h
  obtain ⟨noErrors, rfl⟩ := analyze_eq_ok h
  obtain ⟨globals, bodies, t₀, t₁, t₂, phase₀, none, -, -, declares, -, phase₂, fills, -, -,
    result⟩ :=
    Analysis.lowerProgram_runs noErrors
  rw [result] at names ⊢
  have becomeGlobals := (@Analysis.lowerGlobals_become {} file.varDecls).result phase₀
  have declared : 0 + file.funcDecls.length ≤ t₁.functions.size := by
    rw [declares.size]
    omega
  obtain ⟨count, each⟩ :=
    (Analysis.lowerFunctions_become declares.sound.toWellFormed declared).result phase₂
  refine ⟨globals, bodies.mapIdx functionNode, rfl, ?_, count, fun i decl node atDecl atNode => ?_⟩
  · exact MiniGo.Become.imp
      (fun _ _ become => become.mono (declares.toExtends.trans fills.toExtends)) becomeGlobals
  · obtain ⟨body, rfl, becomes⟩ := each i decl node atDecl atNode
    rw [Nat.zero_add] at becomes ⊢
    refine ⟨body, rfl, ?_, becomes⟩
    -- The functions of the tables have the names of the declarations, in order.
    have named : (t₂.functions.entries.map Function.name)[i]? = some decl.name.name := by
      rw [names, List.getElem?_map, atDecl]
      rfl
    rw [List.getElem?_map, Option.map_eq_some_iff] at named
    exact named

namespace Analysis

open Report

/-- Nothing is dropped without an error. An expression, a condition, a target, an array element and
a call have a node exactly if no error is recorded for them. At each place of an analysis, a
declaration, a statement or a block without errors has its nodes, all of them and in order. So a
file that is analyzed has all its nodes. -/
theorem nothing_dropped :
    (∀ (t : Tables) (s : Scope) (line : Nat),
      (∀ e, Exact (lowerExpr t s e)) ∧ (∀ e, Exact (lowerValue t s e)) ∧
      (∀ e construct, Exact (lowerCondition t s e construct line)) ∧
      (∀ target, Exact (lowerTarget t s target)) ∧
      (∀ array index, Exact (lowerIndex t s array index)) ∧
      ∀ callee args, Exact (lowerValues t s args >>= fun args => lowerCall t callee args line)) ∧
    (∀ (t t' : Tables) (s : Scope) (decl : VarDecl) (nodes : List Node), Reached t s →
      (lowerVarDecl s decl).run t = ⟨(nodes, t'), []⟩ → decl.Become t' s nodes) ∧
    (∀ (t t' : Tables) (i : Nat) (stmt : Stmt) (nodes : List Node), Reached t (.function i) →
      (lowerStmt (.function i) stmt).run t = ⟨(nodes, t'), []⟩ →
      stmt.Become t' (.function i) nodes) ∧
    (∀ (t t' : Tables) (i : Nat) (block : Block) (node : Node), Reached t (.function i) →
      (lowerBlock (.function i) block).run t = ⟨(node, t'), []⟩ →
      block.Becomes t' (.function i) node) ∧
    ∀ (file : File) (p : Program), analyze file = .ok p → file.Becomes p.tables p.root := by
  refine ⟨fun t s line => ?_, ?_, ?_, ?_, fun file p => analyze_becomes⟩
  · exact ⟨lowerExpr_exact, lowerValue_exact, lowerCondition_exact, lowerTarget_exact,
      lowerIndex_exact, lowerCall_exact⟩
  · intro t t' s decl nodes reached run
    exact (lowerVarDecl_become decl reached.ready.table).result run
  · intro t t' i stmt nodes reached run
    exact (lowerStmt_become stmt reached.ready.table).result run
  · intro t t' i block node reached run
    exact (lowerBlock_becomes block reached.ready.table).result run

/-- A function whose body has a loop with a nested block in it. -/
def loopingMain : FuncDecl :=
  let int (text : String) : Expr := .operand none (.literal ⟨.int, text, 2⟩) 2
  let name (text : String) : Expr := .operand none (.name ⟨text, 2⟩) 2
  let body : Block :=
    .mk [.block (.mk [.call ⟨"read", 3⟩ [name "a"] 3] 3 3),
      .assign [.name ⟨"b", 3⟩] [name "a"] 3] 3 4
  ⟨⟨"main", 1⟩, [], [],
    .mk [.define [⟨"a", 2⟩, ⟨"b", 2⟩] [int "1", int "2"] 2,
      .loop (.binary .lt 3 (name "a") (name "b")) body 3] 1 5, 1⟩

/-- Two nodes for the two names, and then one for the loop. -/
theorem loopingMain_becomes :
    (∃ t t' a b loop, Reached t (.function 0) ∧
      (lowerBlock (.function 0) loopingMain.body).run t =
        ⟨(.statement .block [a, b, loop], t'), []⟩ ∧
      loopingMain.body.Becomes t' (.function 0) (.statement .block [a, b, loop])) ∧
    ∃ p, analyze ⟨none, [.func loopingMain]⟩ = .ok p ∧
      File.Becomes p.tables ⟨none, [.func loopingMain]⟩ p.root := by
  have reached : Reached ((declareFunction loopingMain).run {}).value.2 (.function 0) :=
    .enter (.signature loopingMain .start) (by decide)
  refine ⟨⟨_, _, _, _, _, reached, rfl, ?_⟩, _, rfl, ?_⟩
  · exact nothing_dropped.2.2.2.1 _ _ _ _ _ reached rfl
  · exact nothing_dropped.2.2.2.2 _ _ rfl

end Analysis

end MiniGo
