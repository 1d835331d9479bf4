import MiniGo.Proofs.Flow
import MiniGo.Proofs.Shapes.Statements

/-!
# Slots into which nothing was stored

Whether a line can be reached before anything was stored into a slot is answered piece by piece.

* `Unstored`: a line can be reached before anything was stored into a slot.
* `Guarded`: what can happen in a stretch of code that is entered at its start, as long as nothing
  is stored into the slot. It may be left at its end only under a condition, and the lines that load
  the slot have a property.
* `Guarded.append`, `Guarded.close`: how stretches are put together, and how exits are closed.
* `Guarded.exposes_of_unstored`: what follows for a method as a whole.
* `Untouched`: lines that neither load nor store a slot.
-/

namespace MiniGo

/-! ### Loads and stores of a slot -/

/-- What is done to a slot. -/
inductive Touch where
  | load
  | store
deriving DecidableEq

/-- What an instruction does to a slot. -/
def Instr.touch? (slot : Nat) : Instr → Option Touch
  | load _ slot' => if slot' = slot then some .load else none
  | loadThis => if slot = 0 then some .load else none
  | store _ slot' => if slot' = slot then some .store else none
  | _ => none

/-- What a line does to a slot. -/
def Line.touch? (slot : Nat) : Line → Option Touch
  | .instr i => i.touch? slot
  | _ => none

/-- What instructions do to a slot, in order. -/
def slotTouches (slot : Nat) (is : List Instr) : List Touch := is.filterMap (Instr.touch? slot)

/-- A line can be reached before anything was stored into a slot. Both ways out of a conditional
branch are open. -/
inductive Unstored (code : List Line) (slot : Nat) : Nat → Prop
  | start : Unstored code slot 0
  | step {pc pc' : Nat} {l : Line} (reached : Unstored code slot pc) (found : code[pc]? = some l)
      (keeps : l.touch? slot ≠ some .store) (goes : Goes code pc pc') : Unstored code slot pc'

/-! ### Stretches of code -/

/-- Where control can be in a stretch of code that was entered at its start, as long as nothing is
stored into a slot. The stretch is left at its end only if it keeps the slot as it is, and elsewhere
only at its exits. Only those loads of the slot are reached that the stretch exposes. -/
structure Tracks (code : List Line) (slot pc length : Nat) (exits : Nat → Prop) (keeps : Prop)
    (exposes reached : Nat → Prop) : Prop where
  enters : if length = 0 then keeps else reached pc
  step : ∀ {q q' : Nat} {l : Line}, pc ≤ q → q < pc + length → reached q → code[q]? = some l →
    l.touch? slot ≠ some .store → Goes code q q' →
      (pc ≤ q' ∧ q' < pc + length ∧ reached q') ∨ (q' = pc + length ∧ keeps) ∨ exits q'
  loads : ∀ {q : Nat} {l : Line}, pc ≤ q → q < pc + length → reached q → code[q]? = some l →
    l.touch? slot = some .load → exposes q

/-- A stretch of code keeps a slot as it is only under a condition, and exposes only certain loads
of it. -/
def Guarded (code : List Line) (slot pc length : Nat) (exits : Nat → Prop) (keeps : Prop)
    (exposes : Nat → Prop) :
    Prop :=
  ∃ reached, Tracks code slot pc length exits keeps exposes reached

namespace Guarded

variable {code : List Line} {slot pc n n' : Nat} {exits exits' exposes exposes' : Nat → Prop}
  {keeps keeps' : Prop}

theorem nil : Guarded code slot pc 0 exits True fun _ => False :=
  ⟨fun _ => False, trivial, fun _ _ h => h.elim, fun _ _ h => h.elim⟩

/-- One line. A branch leaves it by an exit. -/
theorem line {l : Line} (found : code[pc]? = some l)
    (branches : ∀ i l' q, l = .instr i → i.target? = some l' →
      code.findIdx? (Activation.isLabel l') = some q → exits q) :
    Guarded code slot pc 1 exits (l.touch? slot ≠ some .store) fun _ =>
      l.touch? slot = some .load := by
  refine ⟨fun _ => True, trivial, ?_, ?_⟩
  · intro q q' l' from_ upTo _ found' keeps goes
    obtain rfl : q = pc := by omega
    obtain rfl : l = l' := Option.some.inj (found.symm.trans found')
    cases goes with
    | next => exact .inr (.inl ⟨rfl, keeps⟩)
    | branch here target label =>
      exact .inr (.inr (branches _ _ _ (Option.some.inj (found.symm.trans here)) target label))
  · intro q l' from_ upTo _ found' load
    obtain rfl : q = pc := by omega
    obtain rfl : l = l' := Option.some.inj (found.symm.trans found')
    exact load

/-- Two stretches, one behind the other. The loads of the second one are exposed if the first one is
passed. -/
theorem append (h : Guarded code slot pc n exits keeps exposes)
    (h' : Guarded code slot (pc + n) n' exits keeps' exposes') :
    Guarded code slot pc (n + n') exits (keeps ∧ keeps')
      fun q => exposes q ∨ (keeps ∧ pc + n ≤ q ∧ exposes' q) := by
  obtain ⟨reached, tracks⟩ := h
  obtain ⟨reached', tracks'⟩ := h'
  -- The second stretch is entered at its start, from the end of the first one.
  refine ⟨fun q => (q < pc + n ∧ reached q) ∨ (pc + n ≤ q ∧ keeps ∧ reached' q), ?_, ?_, ?_⟩
  · by_cases empty : n = 0
    · have keep : keeps := by simpa [empty] using tracks.enters
      have enters := tracks'.enters
      by_cases empty' : n' = 0
      · rw [if_pos (by omega)]
        rw [if_pos empty'] at enters
        exact ⟨keep, enters⟩
      · rw [if_neg (by omega)]
        rw [if_neg empty'] at enters
        exact .inr ⟨by omega, keep, by simpa [empty] using enters⟩
    · have enters := tracks.enters
      rw [if_neg empty] at enters
      rw [if_neg (by omega)]
      exact .inl ⟨by omega, enters⟩
  · intro q q' l from_ upTo at_ found keep goes
    rcases at_ with ⟨lt, at_⟩ | ⟨le, kept, at_⟩
    · rcases tracks.step from_ lt at_ found keep goes with ⟨le, lt', at'⟩ | ⟨rfl, kept⟩ | exit
      · exact .inl ⟨le, by omega, .inl ⟨lt', at'⟩⟩
      · have enters := tracks'.enters
        by_cases empty' : n' = 0
        · rw [if_pos empty'] at enters
          exact .inr (.inl ⟨by omega, kept, enters⟩)
        · rw [if_neg empty'] at enters
          exact .inl ⟨by omega, by omega, .inr ⟨Nat.le_refl _, kept, enters⟩⟩
      · exact .inr (.inr exit)
    · rcases tracks'.step le (by omega) at_ found keep goes with
        ⟨le', lt', at'⟩ | ⟨rfl, kept'⟩ | exit
      · exact .inl ⟨by omega, by omega, .inr ⟨le', kept, at'⟩⟩
      · exact .inr (.inl ⟨by omega, kept, kept'⟩)
      · exact .inr (.inr exit)
  · intro q l from_ upTo at_ found load
    rcases at_ with ⟨lt, at_⟩ | ⟨le, kept, at_⟩
    · exact .inl (tracks.loads from_ lt at_ found load)
    · exact .inr ⟨kept, le, tracks'.loads le (by omega) at_ found load⟩

/-- Exits that lead to the start or to the end of the stretch are none. -/
theorem close (h : Guarded code slot pc n exits keeps exposes)
    (ends : ∀ q, exits q → (q = pc ∧ 0 < n) ∨ (q = pc + n ∧ keeps') ∨ exits' q)
    (keep : keeps → keeps') (expose : ∀ q, exposes q → exposes' q) :
    Guarded code slot pc n exits' keeps' exposes' := by
  obtain ⟨reached, tracks⟩ := h
  refine ⟨reached, ?_, ?_, fun from_ upTo at_ found load => expose _
    (tracks.loads from_ upTo at_ found load)⟩
  · have enters := tracks.enters
    by_cases empty : n = 0
    · rw [if_pos empty] at enters ⊢
      exact keep enters
    · rwa [if_neg empty] at enters ⊢
  · intro q q' l from_ upTo at_ found kept goes
    rcases tracks.step from_ upTo at_ found kept goes with inside | ⟨last, kept⟩ | exit
    · exact .inl inside
    · exact .inr (.inl ⟨last, keep kept⟩)
    · rcases ends q' exit with ⟨rfl, pos⟩ | last | exit
      · have enters := tracks.enters
        rw [if_neg (by omega)] at enters
        exact .inl ⟨Nat.le_refl _, by omega, enters⟩
      · exact .inr (.inl last)
      · exact .inr (.inr exit)

theorem mono (h : Guarded code slot pc n exits keeps exposes) (keep : keeps → keeps')
    (expose : ∀ q, exposes q → exposes' q) : Guarded code slot pc n exits keeps' exposes' :=
  h.close (fun _ exit => .inr (.inr exit)) keep expose

/-- In guarded code, a load that can be reached before a store is exposed. -/
theorem exposes_of_unstored (h : Guarded code slot 0 code.length (fun _ => False) keeps exposes)
    (reached : Unstored code slot pc) {l : Line} (found : code[pc]? = some l)
    (load : l.touch? slot = some .load) : exposes pc := by
  obtain ⟨within, tracks⟩ := h
  -- Control stays in the stretch, or is at its end.
  have stays : within pc ∨ pc = code.length := by
    clear found load
    induction reached with
    | start =>
      have enters := tracks.enters
      by_cases empty : code.length = 0
      · exact .inr empty.symm
      · rw [if_neg empty] at enters
        exact .inl enters
    | @step pc pc' l _ found keeps goes ih =>
      have inside := (List.getElem?_eq_some_iff.1 found).1
      have here := ih.resolve_right (by omega)
      rcases tracks.step (Nat.zero_le _) (by omega) here found keeps goes with
        ⟨-, -, at'⟩ | ⟨last, -⟩ | exit
      · exact .inl at'
      · exact .inr (by omega)
      · exact exit.elim
  have inside := (List.getElem?_eq_some_iff.1 found).1
  exact tracks.loads (Nat.zero_le _) (by omega) (stays.resolve_right (by omega)) found load

end Guarded

/-! ### Lines at a position -/

section

variable {code : List Line} {slot pc : Nat} {exits : Nat → Prop}

theorem Seg.getElem? {lines : List Line} (h : Seg code pc lines) {k : Nat} {l : Line}
    (found : lines[k]? = some l) : code[pc + k]? = some l := by
  obtain ⟨rest, eq⟩ := h
  have inside := (List.getElem?_eq_some_iff.1 found).1
  rw [← List.getElem?_drop, ← eq, List.getElem?_append_left inside, found]

/-- The lines of a stretch of code are those that stand there. -/
theorem Seg.mem {lines : List Line} (h : Seg code pc lines) {q : Nat} (from_ : pc ≤ q)
    (upTo : q < pc + lines.length) {l : Line} (found : code[q]? = some l) : l ∈ lines := by
  have here : lines[q - pc]? = some lines[q - pc] := List.getElem?_eq_getElem (by omega)
  have there := h.getElem? here
  rw [show pc + (q - pc) = q by omega, found] at there
  rw [Option.some.inj there]
  exact List.getElem_mem _

/-- The lines from one place up to another one neither load nor store a slot. -/
def Untouched (code : List Line) (slot first last : Nat) : Prop :=
  ∀ q l, first ≤ q → q < last → code[q]? = some l → l.touch? slot = none

theorem Untouched.of_seg {lines : List Line} (seg : Seg code pc lines)
    (free : ∀ l ∈ lines, l.touch? slot = none) :
    Untouched code slot pc (pc + lines.length) :=
  fun _ _ from_ upTo found => free _ (seg.mem from_ upTo found)

theorem Untouched.trans {first middle last : Nat} (h : Untouched code slot first middle)
    (h' : Untouched code slot middle last) : Untouched code slot first last := by
  intro q l from_ upTo found
  by_cases before : q < middle
  · exact h q l from_ before found
  · exact h' q l (Nat.le_of_not_lt before) upTo found

/-- A label of a stretch of code stands there only. -/
theorem Seg.findIdx?_label {lines : List Line} (h : Seg code pc lines) (unique : LabelsUnique code)
    {l : Label} (mem : .label l ∈ lines) {q : Nat}
    (found : code.findIdx? (Activation.isLabel l) = some q) :
    pc ≤ q ∧ q < pc + lines.length := by
  obtain ⟨k, inside⟩ := List.mem_iff_getElem?.1 mem
  have here := unique.findIdx? (h.getElem? inside)
  rw [found] at here
  cases here
  have bound := (List.getElem?_eq_some_iff.1 inside).1
  omega

/-- Any lines, if nothing is asked for. They branch to their own labels and to exits. -/
theorem Guarded.lines {lines : List Line} {P : Label → Prop} (seg : Seg code pc lines)
    (unique : LabelsUnique code) (branches : BranchTo lines fun l => .label l ∈ lines ∨ P l)
    (exit : ∀ l q, P l → code.findIdx? (Activation.isLabel l) = some q → exits q) :
    Guarded code slot pc lines.length exits True fun _ =>
      ∃ l ∈ lines, l.touch? slot = some .load := by
  refine ⟨fun _ => True, by split <;> trivial, ?_,
    fun from_ upTo _ found load => ⟨_, seg.mem from_ upTo found, load⟩⟩
  intro q q' l from_ upTo _ found _ goes
  cases goes with
  | next =>
    by_cases last : q + 1 = pc + lines.length
    · exact .inr (.inl ⟨last, trivial⟩)
    · exact .inl ⟨by omega, by omega, trivial⟩
  | @branch _ i l' here target label =>
    rcases branches i l' (seg.mem from_ upTo here) target with own | other
    · obtain ⟨le, lt⟩ := seg.findIdx?_label unique own label
      exact .inl ⟨le, lt, trivial⟩
    · exact .inr (.inr (exit l' q' other label))

/-- Instructions without a branch. -/
theorem Guarded.instrs {is : List Instr} (seg : Seg code pc (asLines is))
    (straight : ∀ i ∈ is, i.target? = none) :
    Guarded code slot pc is.length exits (Touch.store ∉ slotTouches slot is)
      fun _ => (slotTouches slot is).head? = some .load := by
  -- The induction is on the instructions: what is behind the first one is only reached through it.
  induction is generalizing pc with
  | nil => exact Guarded.nil.mono (by simp [slotTouches]) (by simp)
  | cons i is ih =>
    obtain ⟨first, others⟩ := List.forall_mem_cons.1 straight
    have here : Guarded code slot pc 1 exits (i.touch? slot ≠ some .store) fun _ =>
        i.touch? slot = some .load := by
      refine Guarded.line seg.line fun i' l' q same target => ?_
      cases same
      rw [first] at target
      cases target
    have split : Seg code pc ([.instr i] ++ asLines is) := seg
    have rest : Seg code (pc + 1) (asLines is) := split.right
    rw [List.length_cons, Nat.add_comm]
    refine (here.append (ih rest others)).mono ?_ ?_
    · rintro ⟨keep, keeps⟩
      cases touch : i.touch? slot with
      | none => rwa [slotTouches, List.filterMap_cons_none touch]
      | some t =>
        rw [slotTouches, List.filterMap_cons_some touch, List.mem_cons, not_or]
        exact ⟨fun same => keep (by rw [touch, same]), keeps⟩
    · rintro q (load | ⟨keep, -, expose⟩)
      · rw [slotTouches, List.filterMap_cons_some load]
        rfl
      · cases touch : i.touch? slot with
        | none => rwa [slotTouches, List.filterMap_cons_none touch]
        | some t =>
          cases t with
          | load =>
            rw [slotTouches, List.filterMap_cons_some touch]
            rfl
          | store => exact absurd touch keep

end

end MiniGo
