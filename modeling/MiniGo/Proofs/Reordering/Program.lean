import Mathlib.Logic.Equiv.Basic
import MiniGo.Proofs.Analyzer.Agreement
import MiniGo.Proofs.Reordering.Signatures
import MiniGo.Proofs.Reordering.Stmt

/-!
# The order of functions does not matter

Before any body is typed, all signatures are known. So a body is typed in the same way wherever its
function stands, and a file whose functions stand in another order gives the same program, up to the
indices of functions.

* `lowerFunctions_apart`: bodies that are typed one after the other give what each of them gives on
  its own.
* `File.Reorders`, `Program.Reordered`: files and programs with the same functions in another order.
* `File.exists_reorders`: each order of the functions comes from a renaming of their indices.
* `analyze_reorders`: files with the same functions in another order give the same program, or both
  have errors.
-/

namespace MiniGo

namespace Analysis

variable {t t' : Tables}

/-! ### Bodies -/

variable {ρ : Nat → Nat}

theorem lowerFunction_maps (func : FuncDecl) {i : Nat} (h : t.Renames ρ (.function i) t') :
    LowerMaps ρ (.function i) t t' (Node.rename ρ) (lowerFunction func i)
      (lowerFunction func (ρ i)) :=
  (lowerBlock_maps func.body h).bind fun _ _ _ h => .pure h (by simp [NodeKind.rename])

/-- A body declares variables in its own function only. -/
theorem lowerFunction_differIn (func : FuncDecl) (i : Nat) :
    t.DifferIn (.function i) ((lowerFunction func i).run t).value.2 :=
  (lowerFunction_maps func (.refl t)).differ

/-- What comes out when bodies are typed one after the other, in the functions from an index on: the
same as when each of them is typed on its own. -/
structure BodiesApart (t : Tables) (k : Nat) (funcs : List FuncDecl)
    (r : Report (List Node × Tables)) : Prop where
  errors : r.errors = [] ↔
    ∀ j func, funcs[j]? = some func → ((lowerFunction func (k + j)).run t).errors = []
  count : r.value.1.length = funcs.length
  nodes : ∀ j, r.value.1[j]? =
      funcs[j]?.map fun func => ((lowerFunction func (k + j)).run t).value.1
  own : ∀ j func, funcs[j]? = some func →
    r.value.2.table? (.function (k + j)) = ((lowerFunction func (k + j)).run t).value.2.table?
      (.function (k + j))
  others : ∀ s, (∀ j < funcs.length, s ≠ .function (k + j)) → r.value.2.table? s = t.table? s
  heads : ∀ i, (r.value.2.functions.get? i).map Function.head =
      (t.functions.get? i).map Function.head

theorem lowerFunctions_apart (funcs : List FuncDecl) (k : Nat) (t : Tables) :
    BodiesApart t k funcs
      ((lowerFunctions funcs ((List.range' k funcs.length).map some)).run t) := by
  induction funcs generalizing t k with
  | nil =>
    exact ⟨by simp [lowerFunctions], rfl, by simp [lowerFunctions], by simp, fun _ _ => rfl,
      fun _ => rfl⟩
  | cons func funcs ih =>
    have differ := lowerFunction_differIn (t := t) func k
    -- The bodies behind the first one cannot tell that it was typed before them.
    have apart (j : Nat) (func' : FuncDecl) :=
      lowerFunction_maps func' (differ.renames (s := .function (k + 1 + j)) (by simp; omega))
    have rest := ih (k + 1) ((lowerFunction func k).run t).value.2
    have next (j : Nat) : k + (j + 1) = k + 1 + j := by omega
    simp only [List.length_cons, List.range'_succ, List.map_cons, lowerFunctions]
    refine ⟨?_, congrArg (· + 1) rest.count, fun j => ?_, fun j func' found => ?_,
      fun s others => ?_, fun i => ?_⟩
    · rw [errors_bind_eq_nil, errors_bind_eq_nil, rest.errors]
      constructor
      · rintro ⟨first, others, -⟩ j func' found
        cases j with
        | zero =>
          cases found
          exact first
        | succ j =>
          rw [next j]
          exact (apart j func').errors ▸ others j func' found
      · intro all
        refine ⟨all 0 func rfl, fun j func' found => ?_, rfl⟩
        have own := all (j + 1) func' found
        rw [next j] at own
        exact (apart j func').errors.trans own
    · cases j with
      | zero => rfl
      | succ j =>
        rw [next j]
        refine (rest.nodes j).trans (congrArg (funcs[j]?.map ·) (funext fun func' => ?_))
        exact (apart j func').value.trans (Node.rename_id _)
    · cases j with
      | zero =>
        cases found
        exact rest.others _ fun j _ => by simp; omega
      | succ j =>
        rw [next j]
        have same := (apart j func').renames.own
        rw [rename_scope_id] at same
        exact (rest.own j func' found).trans same
    · refine (rest.others s fun j bound => ?_).trans (differ.apart s (others 0 (by simp)))
      rw [← next j]
      exact others (j + 1) (by simpa using bound)
    · exact (rest.heads i).trans (differ.heads i)

/-! ### Phases -/

/-- The phases of an analysis without errors. -/
theorem lowerProgram_run_iff {file : File} {n : Node} : (lowerProgram file).run {} = ⟨(n, t'), []⟩ ↔
    ∃ globals t₀ indices t₁ functions, (lowerGlobals file.varDecls).run {} = ⟨(globals, t₀), []⟩ ∧
      (declareFunctions file.funcDecls).run t₀ = ⟨(indices, t₁), []⟩ ∧
      (checkMain t₁ file).errors = [] ∧
      (lowerFunctions file.funcDecls indices).run t₁ = ⟨(functions, t'), []⟩ ∧
      n = .statement .program (globals ++ functions) := by
  unfold lowerProgram
  constructor
  · intro h
    obtain ⟨globals, t₀, phase₀, h⟩ := run_bind_eq.1 h
    obtain ⟨indices, t₁, phase₁, h⟩ := run_bind_eq.1 h
    obtain ⟨_, main, h⟩ := run_lift_bind_eq.1 (run_get_bind_eq.1 h)
    obtain ⟨functions, t₂, phase₂, h⟩ := run_bind_eq.1 h
    obtain ⟨rfl, rfl⟩ := run_pure_eq.1 h
    exact ⟨globals, t₀, indices, t₁, functions, phase₀, phase₁, by rw [main], phase₂, rfl⟩
  · rintro ⟨globals, t₀, indices, t₁, functions, phase₀, phase₁, main, phase₂, rfl⟩
    have main' : checkMain t₁ file = ⟨(), []⟩ := by rw [← main]
    refine run_bind_eq.2 ⟨_, _, phase₀, run_bind_eq.2 ⟨_, _, phase₁, run_get_bind_eq.2 ?_⟩⟩
    exact run_lift_bind_eq.2 ⟨_, main', run_bind_eq.2 ⟨_, _, phase₂, rfl⟩⟩

/-- Global variables add no functions. -/
theorem functions_of_lowerGlobals {decls : List VarDecl} {globals : List Node}
    (h : (lowerGlobals decls).run {} = ⟨(globals, t), []⟩) : t.functions = {} := by
  have lowered := lowerGlobals_typed decls (t := {}) ⟨⟨by simp, by simp⟩, by simp, by simp⟩
  rw [Lowers, Runs, h] at lowered
  exact congrArg FuncTable.mk (List.eq_nil_of_length_eq_zero lowered.1.size)

/-- The check for the function `main` gives the same. -/
theorem checkMain_renames {s : Scope} (h : t.Renames ρ s t') {f g : File}
    (main : (checkMain t f).errors = []) :
    (checkMain t' g).errors = [] := by
  unfold checkMain at main ⊢
  rw [h.find?]
  cases found : t.functions.find? "main" with
  | none =>
    rw [found] at main
    cases main
  | some i =>
    rw [found] at main
    -- The entry point is found under its new index, with the same parameters.
    dsimp only [Option.map_some] at main ⊢
    rcases h.get? i with ⟨-, get'⟩ | ⟨_, _, params, _, _, _, get, get'⟩
    · rw [get']
      rfl
    · rw [get] at main
      rw [get']
      dsimp only at main ⊢
      split at main
      · rename_i empty
        rw [if_pos empty]
        rfl
      · cases main

end Analysis

theorem analyze_eq_ok_iff {file : File} {p : Program} :
    analyze file = .ok p ↔ (Analysis.lowerProgram file).run {} = ⟨(p.root, p.tables), []⟩ := by
  rw [analyze_eq_report]
  generalize (Analysis.lowerProgram file).run {} = r
  obtain ⟨⟨n, t⟩, errors⟩ := r
  cases errors with
  | nil =>
    constructor
    · intro h
      cases h
      rfl
    · intro h
      cases h
      rfl
  | cons e errors => simp

/-! ### Other orders -/

/-- The same functions in another order: each of them stands at the renamed index. -/
structure File.Reorders (ρ : Equiv.Perm Nat) (f g : File) : Prop where
  varDecls : g.varDecls = f.varDecls
  funcDecls : ∀ i, g.funcDecls[ρ i]? = f.funcDecls[i]?

/-- The same program up to the indices of functions: the global variables and their statements are
the same, and the table of functions and the nodes of functions are in the other order, with the
other indices. -/
structure Program.Reordered (ρ : Equiv.Perm Nat) (p q : Program) : Prop where
  globals : q.tables.globals = p.tables.globals
  functions : ∀ i, q.tables.functions.get? (ρ i) = p.tables.functions.get? i
  nodes : ∃ globals bodies bodies' : List Node, p.root = .statement .program (globals ++ bodies) ∧
    q.root = .statement .program (globals ++ bodies') ∧ bodies.length = p.tables.functions.size ∧
    bodies'.length = q.tables.functions.size ∧ ∀ i, bodies'[ρ i]? = bodies[i]?.map (Node.rename ρ)

variable {ρ : Equiv.Perm Nat} {f g : File}

theorem File.Reorders.symm (h : f.Reorders ρ g) : g.Reorders ρ.symm f where
  varDecls := h.varDecls.symm
  funcDecls i := by rw [← h.funcDecls, Equiv.apply_symm_apply]

/-- A renaming that keeps zero, and renames the numbers behind it. -/
def keepZero (ρ : Equiv.Perm Nat) : Equiv.Perm Nat where
  toFun
    | 0 => 0
    | i + 1 => ρ i + 1
  invFun
    | 0 => 0
    | i + 1 => ρ.symm i + 1
  left_inv := by rintro (_ | i) <;> simp
  right_inv := by rintro (_ | i) <;> simp

/-- The first two entries of a list change places. -/
theorem getElem?_swap {α : Type} {a b : α} {as : List α} (i : Nat) :
    (a :: b :: as)[Equiv.swap 0 1 i]? = (b :: a :: as)[i]? := by
  match i with
  | 0 => rfl
  | 1 => rfl
  | i + 2 =>
    rw [Equiv.swap_apply_of_ne_of_ne (by omega) (by omega)]
    rfl

/-- Each order of the entries of a list comes from a renaming of the places. -/
theorem exists_renaming {α : Type} {as bs : List α} (h : as.Perm bs) :
    ∃ ρ : Equiv.Perm Nat, ∀ i, bs[ρ i]? = as[i]? := by
  induction h with
  | nil => exact ⟨.refl _, fun _ => rfl⟩
  -- The induction is on the steps of the permutation. The first position stays under a common head.
  | cons a _ ih =>
    obtain ⟨ρ, same⟩ := ih
    refine ⟨keepZero ρ, fun i => ?_⟩
    cases i with
    | zero => rfl
    | succ i => exact same i
  | swap a b as =>
    exact ⟨.swap 0 1, getElem?_swap⟩
  | trans _ _ ih ih' =>
    obtain ⟨ρ, same⟩ := ih
    obtain ⟨ρ', same'⟩ := ih'
    exact ⟨ρ.trans ρ', fun i => (same' (ρ i)).trans (same i)⟩

/-- Each order of the functions of a file is one by a renaming of the indices. -/
theorem File.exists_reorders (varDecls : g.varDecls = f.varDecls)
    (h : f.funcDecls.Perm g.funcDecls) :
    ∃ ρ, f.Reorders ρ g := by
  obtain ⟨ρ, same⟩ := exists_renaming h
  exact ⟨ρ, varDecls, same⟩

theorem exists_forall₂ {α β : Type} {R : α → β → Prop} {as : List α} (h : ∀ a ∈ as, ∃ b, R a b) :
    ∃ bs, List.Forall₂ R as bs := by
  induction as with
  | nil => exact ⟨[], .nil⟩
  | cons a as ih =>
    obtain ⟨b, first⟩ := h a (.head _)
    obtain ⟨bs, rest⟩ := ih fun a mem => h a (.tail _ mem)
    exact ⟨b :: bs, .cons first rest⟩

/-- A function has the same entry in both orders. -/
theorem File.Reorders.entry {fs gs : List Function} {e : Function} {i : Nat} (h : f.Reorders ρ g)
    (entries : List.Forall₂ FuncDecl.HasEntry f.funcDecls fs)
    (entries' : List.Forall₂ FuncDecl.HasEntry g.funcDecls gs) (found : fs[i]? = some e) :
    gs[ρ i]? = some e := by
  obtain ⟨func, decl, entry⟩ := forall₂_getElem? entries.flip found
  rw [← h.funcDecls] at decl
  obtain ⟨e', found', entry'⟩ := forall₂_getElem? entries' decl
  rw [found', entry.unique entry']

/-- If each function has an entry in one order, so it has in the other. -/
theorem File.Reorders.exists_entries {fs : List Function} (h : f.Reorders ρ g)
    (entries : List.Forall₂ FuncDecl.HasEntry f.funcDecls fs) :
    ∃ gs, List.Forall₂ FuncDecl.HasEntry g.funcDecls gs ∧ ∀ i, gs[ρ i]? = fs[i]? := by
  obtain ⟨gs, entries'⟩ : ∃ gs, List.Forall₂ FuncDecl.HasEntry g.funcDecls gs := by
    refine exists_forall₂ fun func mem => ?_
    obtain ⟨j, decl⟩ := List.mem_iff_getElem?.1 mem
    rw [← h.symm.funcDecls] at decl
    obtain ⟨e, -, entry⟩ := forall₂_getElem? entries decl
    exact ⟨e, entry⟩
  refine ⟨gs, entries', fun i => Option.ext fun e => ⟨fun found => ?_, h.entry entries entries'⟩⟩
  simpa using h.symm.entry entries' entries found

/-- In another order, names are different if they were. -/
theorem nodup_of_reordered {α : Type} {as bs : List α} (same : ∀ i, bs[ρ i]? = as[i]?)
    (distinct : as.Nodup) :
    bs.Nodup := by
  rw [List.nodup_iff_getElem?_ne_getElem?]
  intro i j lt bound equal
  obtain ⟨i, rfl⟩ := ρ.surjective i
  obtain ⟨j, rfl⟩ := ρ.surjective j
  rw [same, same] at equal
  have inside : j < as.length :=
    (List.getElem?_eq_some_iff.1 ((same j).symm.trans (List.getElem?_eq_getElem bound))).1
  rw [(List.getElem?_inj inside distinct).1 equal.symm] at lt
  exact Nat.lt_irrefl _ lt

/-- A name is found exactly where a function has it, if names are different. -/
theorem FuncTable.find?_eq_some_iff {functions : FuncTable} {name : String} {i : Nat}
    (distinct : (functions.entries.map Function.name).Nodup) :
    functions.find? name = some i ↔ (functions.entries.map Function.name)[i]? = some name := by
  have named {j : Nat} (found : functions.find? name = some j) :
      (functions.entries.map Function.name)[j]? = some name := by
    obtain ⟨f, get, same⟩ := name_of_find? found
    rw [List.getElem?_map, show functions.entries[j]? = some f from get, Option.map_some, same]
  refine ⟨named, fun here => ?_⟩
  cases found : functions.find? name with
  | none =>
    rw [List.getElem?_map, Option.map_eq_some_iff] at here
    obtain ⟨f, get, same⟩ := here
    rw [find?, List.findIdx?_eq_none_iff] at found
    simpa [same] using found f (List.mem_of_getElem? get)
  | some j =>
    have bound : j < (functions.entries.map Function.name).length :=
      (List.getElem?_eq_some_iff.1 (named found)).1
    rw [(List.getElem?_inj bound distinct).1 ((named found).trans here.symm)]

/-- Tables with the same functions in another order. -/
theorem Tables.renames_of_reordered {globals : VarTable} {fs gs : List Function}
    (distinct : (fs.map Function.name).Nodup) (same : ∀ i, gs[ρ i]? = fs[i]?) (i : Nat) :
    Tables.Renames ρ (.function i) ⟨globals, ⟨fs⟩⟩ ⟨globals, ⟨gs⟩⟩ where
  globals := rfl
  find? name := by
    have same' (i : Nat) : (gs.map Function.name)[ρ i]? = (fs.map Function.name)[i]? := by
      rw [List.getElem?_map, List.getElem?_map, same]
    refine Option.ext fun j => ?_
    obtain ⟨j, rfl⟩ := ρ.surjective j
    rw [FuncTable.find?_eq_some_iff (nodup_of_reordered same' distinct), same',
      ← @FuncTable.find?_eq_some_iff ⟨fs⟩ name j distinct]
    simp
  heads i := congrArg (Option.map Function.head) (same i)
  own := congrArg (Option.map Function.vars) (same i)

theorem Function.eq_of_head {f? f'? : Option Function}
    (head : f'?.map Function.head = f?.map Function.head)
    (vars : f'?.map Function.vars = f?.map Function.vars) : f'? = f? := by
  cases f? with
  | none => simpa using head
  | some f =>
    cases f'? with
    | none => simp at head
    | some f' =>
      obtain ⟨name, line, params, returns, own⟩ := f
      obtain ⟨name', line', params', returns', own'⟩ := f'
      cases head
      cases vars
      rfl

namespace Analysis.BodiesApart

variable {t t' : Tables} {r r' : Report (List Node × Tables)}

/-- Bodies in another order have no errors if they had none. -/
theorem errors_reordered (h : f.Reorders ρ g) (renames : ∀ i, t.Renames ρ (.function i) t')
    (apart : BodiesApart t 0 f.funcDecls r) (apart' : BodiesApart t' 0 g.funcDecls r')
    (none : r.errors = []) :
    r'.errors = [] := by
  refine apart'.errors.2 fun j func found => ?_
  obtain ⟨i, rfl⟩ := ρ.surjective j
  rw [h.funcDecls] at found
  have own := apart.errors.1 none i func found
  rw [Nat.zero_add] at own ⊢
  exact (lowerFunction_maps func (renames i)).errors.trans own

/-- Bodies in another order have the same nodes, up to the indices of functions. -/
theorem nodes_reordered (h : f.Reorders ρ g) (renames : ∀ i, t.Renames ρ (.function i) t')
    (apart : BodiesApart t 0 f.funcDecls r) (apart' : BodiesApart t' 0 g.funcDecls r') (i : Nat) :
    r'.value.1[ρ i]? = r.value.1[i]?.map (Node.rename ρ) := by
  rw [apart'.nodes, apart.nodes, h.funcDecls, Option.map_map]
  refine congrArg (f.funcDecls[i]?.map ·) (funext fun func => ?_)
  rw [Nat.zero_add, Function.comp_apply, Nat.zero_add]
  exact (lowerFunction_maps func (renames i)).value

/-- Bodies in another order declare the same variables. -/
theorem functions_reordered (h : f.Reorders ρ g) (renames : ∀ i, t.Renames ρ (.function i) t')
    (apart : BodiesApart t 0 f.funcDecls r) (apart' : BodiesApart t' 0 g.funcDecls r') (i : Nat) :
    r'.value.2.functions.get? (ρ i) = r.value.2.functions.get? i := by
  refine Function.eq_of_head ?_ ?_
  · rw [apart'.heads, (renames i).heads, apart.heads]
  · -- The variables of a function come from its own body alone, which is the same in both files.
    change r'.value.2.table? (.function (ρ i)) = r.value.2.table? (.function i)
    have found := h.funcDecls i
    cases decl : f.funcDecls[i]? with
    | some func =>
      rw [decl] at found
      have own := apart.own i func decl
      have own' := apart'.own (ρ i) func found
      rw [Nat.zero_add] at own own'
      exact own'.trans ((lowerFunction_maps func (renames i)).renames.own.trans own.symm)
    | none =>
      rw [decl] at found
      -- Behind the last function of either file, no body adds variables.
      have outside {funcs : List FuncDecl} {i : Nat} (absent : funcs[i]? = none) :
          ∀ j < funcs.length, Scope.function i ≠ .function (0 + j) := by
        rintro j bound ⟨⟩
        rw [Nat.zero_add, List.getElem?_eq_none_iff] at absent
        exact Nat.not_lt.2 absent bound
      rw [apart.others _ (outside decl), apart'.others _ (outside found)]
      exact (renames i).own

end Analysis.BodiesApart

/-- If a file is analyzed without errors, so is one with its functions in another order, and the
program is the same up to the indices of functions. -/
theorem File.Reorders.exists_analyze {p : Program} (h : f.Reorders ρ g)
    (analyzed : analyze f = .ok p) :
    ∃ q, analyze g = .ok q ∧ p.Reordered ρ q := by
  obtain ⟨root, tables⟩ := p
  -- The phases of the analysis are followed one by one: globals, signatures, entry point, bodies.
  obtain ⟨globals, ⟨vars, functions⟩, indices, t₁, bodies, phase₀, phase₁, main, phase₂, rfl⟩ :=
    Analysis.lowerProgram_run_iff.1 (analyze_eq_ok_iff.1 analyzed)
  obtain rfl : functions = {} := Analysis.functions_of_lowerGlobals phase₀
  obtain ⟨fs, entries, distinct, rfl, rfl⟩ := Analysis.declareFunctions_first_run_iff.1 phase₁
  obtain ⟨gs, entries', same⟩ := h.exists_entries entries
  have distinct' : (gs.map Function.name).Nodup :=
    nodup_of_reordered (fun i => by rw [List.getElem?_map, List.getElem?_map, same]) distinct
  have phase₁' :=
    (@Analysis.declareFunctions_first_run_iff _ vars _ _).2 ⟨gs, entries', distinct', rfl, rfl⟩
  -- From here on, the tables of both files are the same up to the renaming.
  have renames := @Tables.renames_of_reordered ρ vars fs gs distinct same
  have apart := Analysis.lowerFunctions_apart f.funcDecls 0 ⟨vars, ⟨fs⟩⟩
  have apart' := Analysis.lowerFunctions_apart g.funcDecls 0 ⟨vars, ⟨gs⟩⟩
  rw [phase₂] at apart
  -- The bodies of the other file have no errors either, since each is typed apart from the others.
  have noErrors := apart.errors_reordered h renames apart' rfl
  rcases phase₂' : (Analysis.lowerFunctions g.funcDecls
    ((List.range' 0 g.funcDecls.length).map some)).run ⟨vars, ⟨gs⟩⟩ with
    ⟨⟨bodies', tables'⟩, errors'⟩
  rw [phase₂'] at apart' noErrors
  obtain rfl : errors' = [] := noErrors
  refine ⟨⟨.statement .program (globals ++ bodies'), tables'⟩, ?_, ?_⟩
  · refine analyze_eq_ok_iff.2 (Analysis.lowerProgram_run_iff.2 ?_)
    exact ⟨globals, _, _, _, bodies', by rw [h.varDecls, phase₀], phase₁',
      Analysis.checkMain_renames (renames 0) main, phase₂', rfl⟩
  · have size := congrArg List.length (FuncTable.map_head_congr apart.heads)
    have size' := congrArg List.length (FuncTable.map_head_congr apart'.heads)
    rw [List.length_map, List.length_map] at size size'
    refine ⟨?_, apart.functions_reordered h renames apart', globals, bodies, bodies', rfl, rfl, ?_,
      ?_, apart.nodes_reordered h renames apart'⟩
    · exact (Option.some.inj (apart'.others .globals (by simp))).trans
        (Option.some.inj (apart.others .globals (by simp))).symm
    · exact apart.count.trans (entries.length_eq.trans size.symm)
    · exact apart'.count.trans (entries'.length_eq.trans size'.symm)

/-- The order of functions does not matter. Two files with the same variables, and with the same
functions in whatever order, are both analyzed without errors or both not. Their order comes from a
renaming of the indices, and up to each such renaming the programs are the same. -/
theorem analyze_reorders (varDecls : g.varDecls = f.varDecls)
    (order : f.funcDecls.Perm g.funcDecls) :
    (∃ ρ, f.Reorders ρ g) ∧ ((∃ p, analyze f = .ok p) ↔ ∃ q, analyze g = .ok q) ∧
      ∀ ρ p q, f.Reorders ρ g → analyze f = .ok p → analyze g = .ok q → p.Reordered ρ q := by
  obtain ⟨ρ, h⟩ := File.exists_reorders varDecls order
  refine ⟨⟨ρ, h⟩, ⟨fun ⟨p, analyzed⟩ => ?_, fun ⟨q, analyzed⟩ => ?_⟩,
    fun ρ p q h analyzed analyzed' => ?_⟩
  · obtain ⟨q, analyzed', -⟩ := h.exists_analyze analyzed
    exact ⟨q, analyzed'⟩
  · obtain ⟨p, analyzed', -⟩ := h.symm.exists_analyze analyzed
    exact ⟨p, analyzed'⟩
  · obtain ⟨q', analyzed'', reordered⟩ := h.exists_analyze analyzed
    obtain rfl := Except.ok.inj (analyzed'.symm.trans analyzed'')
    exact reordered

/-- A global variable that a function can see. -/
def globalInt : VarDecl := ⟨[⟨[⟨"x", 1⟩], some (.named ⟨"int", 1⟩), [], 1⟩], 1⟩

/-- A function that calls one with the name of the output. -/
def callingMain : FuncDecl :=
  ⟨⟨"main", 2⟩, [], [], .mk [.call ⟨"write", 3⟩ [.operand none (.name ⟨"x", 3⟩) 3] 3] 2 4, 2⟩

/-- A function that takes precedence over the output, and calls itself. -/
def ownWrite : FuncDecl :=
  ⟨⟨"write", 5⟩, [⟨[⟨"n", 5⟩], ⟨"int", 5⟩⟩], [],
    .mk [.call ⟨"write", 6⟩ [.operand none (.name ⟨"n", 6⟩) 6] 6] 5 7, 5⟩

/-- A file that calls a function before it is declared. -/
def forwardFile : File := ⟨none, [.var globalInt, .func callingMain, .func ownWrite]⟩

/-- The same functions in the other order, one of them in front of the global variable. -/
def backwardFile : File := ⟨none, [.func ownWrite, .var globalInt, .func callingMain]⟩

theorem forwardFile_reorders : backwardFile.varDecls = forwardFile.varDecls ∧
    forwardFile.funcDecls.Perm backwardFile.funcDecls ∧
    ∃ p q, analyze forwardFile = .ok p ∧ analyze backwardFile = .ok q ∧
      p.Reordered (.swap 0 1) q := by
  have varDecls : backwardFile.varDecls = forwardFile.varDecls := rfl
  have order : forwardFile.funcDecls.Perm backwardFile.funcDecls := .swap ..
  have reorders : forwardFile.Reorders (.swap 0 1) backwardFile := ⟨varDecls, getElem?_swap⟩
  exact ⟨varDecls, order, _, _, rfl, rfl,
    (analyze_reorders varDecls order).2.2 _ _ _ reorders rfl rfl⟩

end MiniGo
