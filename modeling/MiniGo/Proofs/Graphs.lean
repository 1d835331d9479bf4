import Mathlib.Data.List.Forall2
import MiniGo.Proofs.GraphLabels

/-!
# Graphs of trees

The graph of a tree can be read back. Its lines are those of the tree: one for each node, numbered
from zero on in the order of the tree from the root down, and one for each edge. A label that is
read up to the quote that ends it, where a backslash makes the next character an ordinary one, is
the label before it was escaped. So no text gets out of its quotes.

* `DotLine.read?`, `readGraph?`: reading lines and graphs.
* `Node.paths`, `Node.nodes`: the places and the nodes of a tree, from the root down.
* `Node.drawFrom`: drawing with a counter for the numbers.
* `Node.DrawnBy`: what the lines of the graph of a tree are.
* `Node.toDot_drawnBy`: the graph of each tree, as text.
-/

namespace MiniGo

/-! ### Reading a graph -/

namespace DotLine

/-- Reads a label up to the quote that ends it. A backslash is left out, and the character behind it
is taken as it is. -/
def readLabel? : List Char → Option (List Char × List Char)
  | [] => none
  | '"' :: cs => some ([], cs)
  | '\\' :: c :: cs => (readLabel? cs).map fun (label, rest) => (c :: label, rest)
  | c :: cs => (readLabel? cs).map fun (label, rest) => (c :: label, rest)

/-- Reads a number of one or more digits. -/
def readNumber? (cs : List Char) : Option (Nat × List Char) :=
  let digits := cs.takeWhile Char.isDigit
  if digits.isEmpty then none else some (Nat.ofDigitChars 10 digits 0, cs.dropWhile Char.isDigit)

/-- Reads a line: a node with its label, or else an edge. -/
def read? (cs : List Char) : Option (DotLine × List Char) := do
  let cs ← cs.dropPrefix? "node".toList
  let (id, cs) ← readNumber? cs
  match cs.dropPrefix? "[label=\"".toList with
  | some cs =>
    let (label, cs) ← readLabel? cs
    let cs ← cs.dropPrefix? "];\n".toList
    some (.node id (String.ofList label), cs)
  | none =>
    let cs ← cs.dropPrefix? " -> node".toList
    let (child, cs) ← readNumber? cs
    let cs ← cs.dropPrefix? ";\n".toList
    some (.edge id child, cs)

/-- Reads lines up to the brace that ends a graph. -/
def readAll? (cs : List Char) : Option (List DotLine) :=
  if cs = "\x7d\n".toList then some []
  else
    match read? cs with
    | some (line, rest) => if rest.length < cs.length then (readAll? rest).map (line :: ·) else none
    | none => none
termination_by cs.length

/-- The digits of a number are read up to the first character that is no digit. -/
theorem readNumber?_toDigits (n : Nat) {rest : List Char}
    (stop : ∀ c ∈ rest.head?, c.isDigit = false) :
    readNumber? (Nat.toDigits 10 n ++ rest) = some (n, rest) := by
  have all : ∀ d ∈ Nat.toDigits 10 n, d.isDigit = true :=
    fun _ => Nat.isDigit_of_mem_toDigits (by decide) (by decide)
  have some : (Nat.toDigits 10 n).isEmpty = false := by simp
  have ends : rest.takeWhile Char.isDigit = [] ∧ rest.dropWhile Char.isDigit = rest := by
    cases rest with
    | nil => exact ⟨rfl, rfl⟩
    | cons c cs => simp [stop c rfl]
  rw [readNumber?, List.takeWhile_append_of_pos all, List.dropWhile_append_of_pos all, ends.1,
    ends.2, List.append_nil]
  simp [some]

/-- A label is read back as it was before it was escaped, up to its own closing quote. -/
theorem readLabel?_escape (label : String) (rest : List Char) :
    readLabel? ((escape label).toList ++ '"' :: rest) = some (label.toList, rest) := by
  rw [escape, String.toList_ofList]
  induction label.toList with
  | nil => rfl
  | cons c cs ih =>
    rw [List.flatMap_cons]
    by_cases special : c = '\\' ∨ c = '"'
    · rw [if_pos special]
      simp only [List.cons_append, List.nil_append, readLabel?, ih]
      rfl
    · obtain ⟨noBackslash, noQuote⟩ := not_or.1 special
      rw [if_neg special, List.singleton_append, List.cons_append, readLabel?]
      · rw [ih]
        rfl
      · exact noQuote
      · intro d ds same
        exact absurd same noBackslash

theorem toList_text_node (id : Nat) (label : String) :
    (node id label).text.toList =
      "node".toList ++ (Nat.toDigits 10 id ++
        ("[label=\"".toList ++ ((escape label).toList ++ "\"];\n".toList))) := by
  simp only [text, String.toList_append, List.append_assoc, Nat.toString_eq_ofList_toDigits,
    String.toList_ofList]
  rfl

theorem toList_text_edge (parent child : Nat) :
    (edge parent child).text.toList =
      "node".toList ++ (Nat.toDigits 10 parent ++
        (" -> node".toList ++ (Nat.toDigits 10 child ++ ";\n".toList))) := by
  simp only [text, String.toList_append, List.append_assoc, Nat.toString_eq_ofList_toDigits,
    String.toList_ofList]
  rfl

/-- A line is read back, whatever follows it. -/
theorem read?_text (line : DotLine) (rest : List Char) :
    read? (line.text.toList ++ rest) = some (line, rest) := by
  cases line with
  | node id label =>
    have number :=
      @readNumber?_toDigits id ("[label=\"".toList ++
        ((escape label).toList ++ ("\"];\n".toList ++ rest))) (by rintro c ⟨⟩; rfl)
    have label := readLabel?_escape label ("];\n".toList ++ rest)
    simp only [read?, toList_text_node, List.append_assoc, dropPrefix?_append, number,
      Option.bind_eq_bind, Option.bind_some]
    rw [show "\"];\n".toList ++ rest = '"' :: ("];\n".toList ++ rest) from rfl, label]
    simp only [Option.bind_some, dropPrefix?_append, String.ofList_toList]
  | edge parent child =>
    have number :=
      @readNumber?_toDigits parent (" -> node".toList ++
        (Nat.toDigits 10 child ++ (";\n".toList ++ rest))) (by rintro c ⟨⟩; rfl)
    have number' := @readNumber?_toDigits child (";\n".toList ++ rest) (by rintro c ⟨⟩; rfl)
    have other (cs : List Char) : (" -> node".toList ++ cs).dropPrefix? "[label=\"".toList =
        none := rfl
    simp only [read?, toList_text_edge, List.append_assoc, dropPrefix?_append, number, number',
      other, Option.bind_eq_bind, Option.bind_some]

/-- A line has a character in front that is not a brace. -/
theorem exists_text_cons (line : DotLine) : ∃ cs, line.text.toList = 'n' :: cs := by
  cases line with
  | node id label => exact ⟨_, toList_text_node id label⟩
  | edge parent child => exact ⟨_, toList_text_edge parent child⟩

/-- Lines are read back. -/
theorem readAll?_text (lines : List DotLine) :
    readAll? ((lines.flatMap fun line => line.text.toList) ++ "\x7d\n".toList) = some lines := by
  induction lines with
  | nil =>
    rw [readAll?]
    rfl
  | cons line lines ih =>
    obtain ⟨cs, first⟩ := line.exists_text_cons
    have shorter (rest : List Char) : rest.length < (line.text.toList ++ rest).length := by
      rw [first, List.cons_append, List.length_cons, List.length_append]
      omega
    have other (rest : List Char) : line.text.toList ++ rest ≠ "\x7d\n".toList := by
      rw [first]
      exact fun same => absurd (List.cons.inj same).1 (by decide)
    rw [List.flatMap_cons, List.append_assoc, readAll?, if_neg (other _), read?_text]
    dsimp only
    rw [if_pos (shorter _), ih]
    rfl

theorem toList_lines (head tail : String) (lines : List DotLine) :
    (head ++ String.join (lines.map text) ++ tail).toList =
      head.toList ++ ((lines.flatMap fun line => line.text.toList) ++ tail.toList) := by
  rw [String.toList_append, String.toList_append, List.append_assoc, String.toList_join,
    List.flatMap_map]

/-- The number and the label of a node. -/
def node? : DotLine → Option (Nat × String)
  | node id label => some (id, label)
  | edge _ _ => none

/-- The number of a child of the node with a given number. -/
def childOf? (id : Nat) : DotLine → Option Nat
  | node _ _ => none
  | edge parent child => if parent = id then some child else none

end DotLine

/-- Reads a graph. -/
def readGraph? (text : String) : Option (List DotLine) := do
  DotLine.readAll? (← text.toList.dropPrefix? "digraph \x7b\ngraph [ordering=\"out\"];\n".toList)

/-! ### Escaping in two steps -/

/-- Puts a text in place of each occurrence of a character. -/
def replaceChar (c : Char) (text cs : List Char) : List Char :=
  cs.flatMap fun d => if d = c then text else [d]

/-- A label can be escaped in two steps: first each backslash is doubled, and then a backslash is
put in front of each quote. -/
theorem DotLine.toList_escape (label : String) :
    (escape label).toList =
      replaceChar '"' ['\\', '"'] (replaceChar '\\' ['\\', '\\'] label.toList) := by
  rw [escape, String.toList_ofList, replaceChar, replaceChar, List.flatMap_assoc]
  congr 1
  funext c
  by_cases backslash : c = '\\'
  · subst backslash
    rfl
  · by_cases quote : c = '"'
    · subst quote
      rfl
    · simp [backslash, quote]

namespace Node

/-! ### Places in a tree -/

/-- The node at a place, which is given by the positions of the children on the way from the
root. -/
def at? (n : Node) : List Nat → Option Node
  | [] => some n
  | i :: path => n.children[i]?.bind fun child => child.at? path

mutual

/-- The places of a tree: the root, and then those of each child, one after the other. -/
def paths : Node → List (List Nat)
  | mk _ _ children => [] :: pathsAll 0 children

/-- The places of trees, the first of which is at a given position. -/
def pathsAll (i : Nat) : List Node → List (List Nat)
  | [] => []
  | n :: ns => n.paths.map (i :: ·) ++ pathsAll (i + 1) ns

end

mutual

/-- The nodes of a tree: the root, and then those of each child, one after the other. -/
def nodes : Node → List Node
  | mk kind ty children => mk kind ty children :: nodesAll children

/-- The nodes of trees, one after the other. -/
def nodesAll : List Node → List Node
  | [] => []
  | n :: ns => n.nodes ++ nodesAll ns

end

mutual

theorem length_nodes : ∀ n : Node, n.nodes.length = n.size
  | mk _ _ children => by rw [nodes, size, List.length_cons, length_nodesAll children]

theorem length_nodesAll : ∀ ns : List Node, (nodesAll ns).length = sizeList ns
  | [] => rfl
  | n :: ns => by rw [nodesAll, sizeList, List.length_append, length_nodes n, length_nodesAll ns]

end

mutual

theorem map_some_nodes : ∀ n : Node, n.nodes.map some = n.paths.map n.at?
  | mk kind ty children => by
    rw [nodes, paths, List.map_cons, List.map_cons,
      map_some_nodesAll children (mk kind ty children) 0 rfl]
    rfl

/-- The nodes of the last children of a node. -/
theorem map_some_nodesAll : ∀ (ns : List Node) (n : Node) (i : Nat), n.children.drop i = ns →
    (nodesAll ns).map some = (pathsAll i ns).map n.at?
  | [], _, _, _ => rfl
  | child :: ns, n, i, rest => by
    have here : n.children[i]? = some child := by
      rw [← Nat.add_zero i, ← List.getElem?_drop, rest]
      rfl
    have behind : n.children.drop (i + 1) = ns := by
      rw [← List.drop_drop, rest, List.drop_one, List.tail_cons]
    rw [nodesAll, pathsAll, List.map_append, List.map_append, map_some_nodes child,
      map_some_nodesAll ns n (i + 1) behind, List.map_map]
    congr 1
    refine List.map_congr_left fun path _ => ?_
    rw [Function.comp_apply, at?, here, Option.bind_some]

end

theorem length_paths (n : Node) : n.paths.length = n.size := by
  rw [← length_nodes, ← List.length_map n.at?, ← map_some_nodes, List.length_map]

theorem mem_pathsAll {ns : List Node} {child : Node} {path : List Nat} (inside : path ∈ child.paths)
    {i k : Nat} (position : ns[k]? = some child) : (i + k) :: path ∈ pathsAll i ns := by
  induction ns generalizing i k with
  | nil => cases position
  | cons n ns ih =>
    rw [pathsAll, List.mem_append]
    cases k with
    | zero =>
      obtain rfl := Option.some.inj position
      exact .inl (List.mem_map_of_mem inside)
    | succ k =>
      have later := @ih (i + 1) k position
      rw [Nat.add_assoc, Nat.add_comm 1] at later
      exact .inr later

/-- The places of a tree are those at which there is a node. -/
theorem mem_paths_iff {n : Node} {path : List Nat} :
    path ∈ n.paths ↔ (n.at? path).isSome = true := by
  constructor
  · intro mem
    have listed : n.at? path ∈ n.nodes.map some := map_some_nodes n ▸ List.mem_map_of_mem mem
    obtain ⟨m, -, node⟩ := List.mem_map.1 listed
    rw [← node]
    rfl
  · intro node
    induction path generalizing n with
    | nil =>
      cases n
      exact .head _
    | cons i path ih =>
      obtain ⟨m, node⟩ := Option.isSome_iff_exists.1 node
      obtain ⟨child, position, node⟩ := Option.bind_eq_some_iff.1 node
      have inside := ih (Option.isSome_iff_exists.2 ⟨m, node⟩)
      have mem := @mem_pathsAll _ _ _ inside 0 i position
      rw [Nat.zero_add] at mem
      cases n
      exact .tail _ mem

mutual

/-- The places of a tree are in order: a node is in front of all that is below it, and this is in
front of the next node beside it. -/
theorem paths_increasing : ∀ n : Node, n.paths.Pairwise (· < ·)
  | mk _ _ children => by
    obtain ⟨shape, increasing⟩ := pathsAll_increasing children 0
    refine .cons (fun path mem => ?_) increasing
    obtain ⟨j, rest, -, rfl⟩ := shape path mem
    exact List.nil_lt_cons _ _

theorem pathsAll_increasing : ∀ (ns : List Node) (i : Nat),
    (∀ path ∈ pathsAll i ns, ∃ j rest, i ≤ j ∧ path = j :: rest) ∧ (pathsAll i ns).Pairwise (· < ·)
  | [], _ => ⟨nofun, .nil⟩
  | n :: ns, i => by
    obtain ⟨shape, increasing⟩ := pathsAll_increasing ns (i + 1)
    constructor
    · refine List.forall_mem_append.2 ⟨fun path mem => ?_, fun path mem => ?_⟩
      · obtain ⟨rest, -, rfl⟩ := List.mem_map.1 mem
        exact ⟨i, rest, Nat.le_refl i, rfl⟩
      · obtain ⟨j, rest, le, rfl⟩ := shape path mem
        exact ⟨j, rest, by omega, rfl⟩
    · refine List.pairwise_append.2 ⟨List.pairwise_map.2 ?_, increasing,
        fun path mem path' mem' => ?_⟩
      · exact (paths_increasing n).imp fun less => List.cons_lt_cons_iff.2 (.inr ⟨rfl, less⟩)
      · obtain ⟨rest, -, rfl⟩ := List.mem_map.1 mem
        obtain ⟨j, rest', le, rfl⟩ := shape path' mem'
        exact List.cons_lt_cons_iff.2 (.inl (by omega))

end

mutual

/-- Behind the place of a node, the places below it follow. -/
theorem paths_below : ∀ (n : Node) {a : Nat} {path : List Nat} {m : Node}, n.paths[a]? = some path →
    n.nodes[a]? = some m → m.paths.map (path ++ ·) <+: n.paths.drop a
  | mk _ _ children, 0, _, _, place, node => by
    obtain rfl := Option.some.inj place
    obtain rfl := Option.some.inj node
    simp
  | mk _ _ children, a + 1, _, _, place, node => pathsAll_below children place node

theorem pathsAll_below : ∀ (ns : List Node) {i a : Nat} {path : List Nat} {m : Node},
    (pathsAll i ns)[a]? = some path → (nodesAll ns)[a]? = some m →
      m.paths.map (path ++ ·) <+: (pathsAll i ns).drop a
  | [], _, _, _, _, _, node => by cases node
  | n :: ns, i, a, path, m, place, node => by
    have same : (n.paths.map (i :: ·)).length = n.nodes.length := by
      rw [List.length_map, length_paths, length_nodes]
    rw [pathsAll] at place ⊢
    rw [nodesAll] at node
    rcases Nat.lt_or_ge a n.nodes.length with inside | behind
    · rw [List.getElem?_append_left (same ▸ inside), List.getElem?_map] at place
      rw [List.getElem?_append_left inside] at node
      obtain ⟨rest, place', rfl⟩ := Option.map_eq_some_iff.1 place
      obtain ⟨more, below⟩ := paths_below n place' node
      refine ⟨more.map (i :: ·) ++ pathsAll (i + 1) ns, ?_⟩
      rw [List.drop_append_of_le_length (by omega), ← List.map_drop, ← below, List.map_append,
        List.map_map, List.append_assoc]
      rfl
    · rw [List.getElem?_append_right (same ▸ behind), same] at place
      rw [List.getElem?_append_right behind] at node
      have below := pathsAll_below ns place node
      rwa [List.drop_append, same, List.drop_eq_nil_of_le (same ▸ behind), List.nil_append]

end

/-! ### Drawing -/

mutual

/-- The lines of a tree whose root has the next number that is free, and the number that is free
behind it. -/
def drawFrom (t : Tables) (next : Nat) : Node → List DotLine × Nat
  | mk kind ty children =>
    let (lines, free) := drawChildren t next (next + 1) children
    (.node next ((mk kind ty children).dotLabel t) :: lines, free)

/-- The lines of the children of a node. The edge to a child is behind its lines. -/
def drawChildren (t : Tables) (parent next : Nat) : List Node → List DotLine × Nat
  | [] => ([], next)
  | n :: ns =>
    let (lines, free) := drawFrom t next n
    let (lines', free') := drawChildren t parent free ns
    (lines ++ .edge parent next :: lines', free')

end

section Drawing

variable (t : Tables)

mutual

/-- The counter goes on by the number of the nodes that are drawn. -/
theorem drawFrom_eq :
    ∀ (n : Node) (next : Nat), n.drawFrom t next = (n.dotLines t next, next + n.size)
  | mk _ _ children, next => by
    rw [drawFrom, drawChildren_eq children, dotLines, size, Nat.add_comm (sizeList children),
      Nat.add_assoc]

theorem drawChildren_eq : ∀ (ns : List Node) (parent next : Nat),
    drawChildren t parent next ns = (dotChildren t parent next ns, next + sizeList ns)
  | [], _, _ => rfl
  | n :: ns, parent, next => by
    rw [drawChildren, drawFrom_eq n, dotChildren, sizeList]
    dsimp only
    rw [drawChildren_eq ns, Nat.add_assoc]

end

mutual

/-- The node lines of a tree are those of its nodes in order, with consecutive numbers. -/
theorem filterMap_node?_dotLines :
    ∀ (n : Node) (id : Nat),
    (n.dotLines t id).filterMap DotLine.node? = (n.nodes.zipIdx id).map fun (m, i) =>
      (i, m.dotLabel t)
  | mk _ _ children, id => by
    rw [dotLines, List.filterMap_cons, filterMap_node?_dotChildren children, nodes,
      List.zipIdx_cons, List.map_cons]
    rfl

theorem filterMap_node?_dotChildren : ∀ (ns : List Node) (parent next : Nat),
    (dotChildren t parent next ns).filterMap DotLine.node? =
      ((nodesAll ns).zipIdx next).map fun (m, i) => (i, m.dotLabel t)
  | [], _, _ => rfl
  | n :: ns, parent, next => by
    rw [dotChildren, List.filterMap_append, List.filterMap_cons, filterMap_node?_dotLines n,
      filterMap_node?_dotChildren ns, nodesAll, List.zipIdx_append, List.map_append, length_nodes]
    rfl

end

mutual

/-- The edges in the lines of a tree begin at its nodes. -/
theorem filterMap_childOf?_outside : ∀ (n : Node) {id a : Nat}, a < id ∨ id + n.size ≤ a →
    (n.dotLines t id).filterMap (DotLine.childOf? a) = []
  | mk _ _ children, id, a, outside => by
    rw [size] at outside
    rw [dotLines, List.filterMap_cons]
    exact filterMap_childOf?_outsideAll children (by omega) (by omega)

theorem filterMap_childOf?_outsideAll :
    ∀ (ns : List Node) {parent next a : Nat}, parent ≠ a →
    a < next ∨ next + sizeList ns ≤ a →
    (dotChildren t parent next ns).filterMap (DotLine.childOf? a) = []
  | [], _, _, _, _, _ => rfl
  | n :: ns, parent, next, a, other, outside => by
    rw [sizeList] at outside
    rw [dotChildren, List.filterMap_append, List.filterMap_cons,
      filterMap_childOf?_outside n (by omega), filterMap_childOf?_outsideAll ns other (by omega),
      DotLine.childOf?, if_neg other]
    rfl

end

/-- The numbers of trees that are drawn one after the other. -/
def numbersFrom (next : Nat) : List Node → List Nat
  | [] => []
  | n :: ns => next :: numbersFrom (next + n.size) ns

/-- The edges from a node to its children are in order. -/
theorem filterMap_childOf?_parent (ns : List Node) {parent next : Nat} (before : parent < next) :
    (dotChildren t parent next ns).filterMap (DotLine.childOf? parent) = numbersFrom next ns := by
  induction ns generalizing next with
  | nil => rfl
  | cons n ns ih =>
    rw [dotChildren, List.filterMap_append, List.filterMap_cons,
      filterMap_childOf?_outside t n (.inl before), ih (by omega), DotLine.childOf?, if_pos rfl]
    rfl

mutual

/-- The edges from each node of a tree are those to its children, which are numbered from the next
number on. -/
theorem filterMap_childOf?_dotLines : ∀ (n : Node) {id a : Nat} {m : Node}, n.nodes[a]? = some m →
    (n.dotLines t id).filterMap (DotLine.childOf? (id + a)) = numbersFrom (id + a + 1) m.children
  | mk _ _ children, id, 0, m, node => by
    obtain rfl := Option.some.inj node
    rw [dotLines, List.filterMap_cons]
    exact filterMap_childOf?_parent t children (Nat.lt_succ_self id)
  | mk _ _ children, id, a + 1, m, node => by
    have below := filterMap_childOf?_dotChildren children (Nat.lt_succ_self id) node
    rw [show id + (a + 1) = id + 1 + a by omega, dotLines, List.filterMap_cons]
    exact below

theorem filterMap_childOf?_dotChildren :
    ∀ (ns : List Node) {parent next a : Nat} {m : Node}, parent < next →
    (nodesAll ns)[a]? = some m →
      (dotChildren t parent next ns).filterMap (DotLine.childOf? (next + a)) =
        numbersFrom (next + a + 1) m.children
  | [], _, _, _, _, _, node => by cases node
  | n :: ns, parent, next, a, m, before, node => by
    rw [nodesAll] at node
    rw [dotChildren, List.filterMap_append, List.filterMap_cons, DotLine.childOf?,
      if_neg (by omega)]
    rcases Nat.lt_or_ge a n.nodes.length with inside | behind
    · rw [List.getElem?_append_left inside] at node
      rw [length_nodes] at inside
      rw [filterMap_childOf?_dotLines n node, filterMap_childOf?_outsideAll t ns
        (by omega) (by omega)]
      exact List.append_nil _
    · rw [List.getElem?_append_right behind] at node
      rw [length_nodes] at behind node
      have later := @filterMap_childOf?_dotChildren ns parent (next + n.size) _ _ (by omega) node
      rw [show next + n.size + (a - n.size) = next + a by omega] at later
      rw [filterMap_childOf?_outside t n (by omega), later]
      rfl

end

end Drawing

theorem le_of_mem_numbersFrom {ns : List Node} {next b : Nat} (mem : b ∈ numbersFrom next ns) :
    next ≤ b ∧ b < next + sizeList ns := by
  induction ns generalizing next with
  | nil => cases mem
  | cons n ns ih =>
    have pos : 0 < n.size := by
      cases n
      exact Nat.succ_pos _
    rw [sizeList]
    rcases List.mem_cons.1 mem with rfl | later
    · omega
    · have := ih later
      omega

/-- The trees of a list are at the positions of their roots. -/
theorem map_getElem?_pathsAll (ns : List Node) (i next : Nat) :
    (numbersFrom next ns).map (fun b => (pathsAll i ns)[b - next]?) =
      (List.range ns.length).map fun j => some [i + j] := by
  induction ns generalizing i next with
  | nil => rfl
  | cons n ns ih =>
    have first : (pathsAll i (n :: ns))[next - next]? = some [i] := by
      cases n
      rw [Nat.sub_self, pathsAll, paths]
      rfl
    have later : ∀ b ∈ numbersFrom (next + n.size) ns,
        (pathsAll i (n :: ns))[b - next]? = (pathsAll (i + 1) ns)[b - (next + n.size)]? := by
      intro b mem
      have := le_of_mem_numbersFrom mem
      rw [pathsAll, List.getElem?_append_right (by rw [List.length_map, length_paths]; omega),
        List.length_map, length_paths, Nat.sub_sub]
    rw [numbersFrom, List.map_cons, first, List.map_congr_left later, ih, List.length_cons,
      List.range_succ_eq_map, List.map_cons, List.map_map, Nat.add_zero]
    congr 1
    refine List.map_congr_left fun j _ => ?_
    rw [Function.comp_apply, Nat.add_assoc, Nat.add_comm 1]

/-- The numbers of the children of a node are those of the places below its own. -/
theorem map_getElem?_paths {n m : Node} {id : Nat} {path : List Nat}
    (place : n.paths[id]? = some path) (node : n.nodes[id]? = some m) :
    (numbersFrom (id + 1) m.children).map (n.paths[·]?) =
      (List.range m.children.length).map fun i => some (path ++ [i]) := by
  obtain ⟨more, below⟩ := paths_below n place node
  cases m with
  | mk kind ty children =>
    -- Behind the number of a node, the paths below it follow in order.
    have each : ∀ b ∈ numbersFrom (id + 1) children,
        n.paths[b]? = ((pathsAll 0 children)[b - (id + 1)]?).map (path ++ ·) := by
      intro b mem
      obtain ⟨low, high⟩ := le_of_mem_numbersFrom mem
      have size : (mk kind ty children).paths.length = sizeList children + 1 := length_paths _
      rw [show b = id + (b - (id + 1) + 1) by omega, ← List.getElem?_drop, ← below,
        List.getElem?_append_left (by rw [List.length_map, size]; omega), List.getElem?_map, paths,
        List.getElem?_cons_succ]
      congr 3
      omega
    calc (numbersFrom (id + 1) children).map (n.paths[·]?)
        = ((numbersFrom (id + 1) children).map fun b => (pathsAll 0 children)[b - (id + 1)]?).map
            (Option.map (path ++ ·)) := by
          rw [List.map_map]
          exact List.map_congr_left each
      _ = (List.range children.length).map fun i => some (path ++ [i]) := by
          rw [map_getElem?_pathsAll, List.map_map]
          refine List.map_congr_left fun i _ => ?_
          rw [Function.comp_apply, Nat.zero_add]
          rfl

/-! ### Graphs -/

/-- What the lines of the graph of a tree are. -/
structure DrawnBy (t : Tables) (n : Node) (lines : List DotLine) : Prop where
  /-- They are those that a counter from zero on gives, which counts the nodes. -/
  counted : n.drawFrom t 0 = (lines, n.size)
  /-- The places in the tree are those at which there is a node. A node is before all that is below
  it, and this is before the next node beside it. -/
  places : ∀ path, path ∈ n.paths ↔ (n.at? path).isSome = true
  preorder : n.paths.Pairwise (· < ·)
  nodes : n.paths.map n.at? = n.nodes.map some
  /-- There is a line for each of the nodes, in this order, with consecutive numbers and with its
  label. -/
  numbers : (lines.filterMap DotLine.node?).map Prod.fst = List.range n.size
  labels : (lines.filterMap DotLine.node?).map Prod.snd = n.nodes.map (dotLabel t)
  /-- A label says the type of its node, and the name and number, the literal, or the operator or
  statement. -/
  shown : List.Forall₂ (Shown t) n.nodes ((lines.filterMap DotLine.node?).map Prod.snd)
  /-- The edges from a node are those to its first child, to its second child, and so on. -/
  edges : ∀ (id : Nat) (path : List Nat) (m : Node), n.paths[id]? = some path →
      n.at? path = some m →
    (lines.filterMap (DotLine.childOf? id)).map (n.paths[·]?) =
      (List.range m.children.length).map fun i => some (path ++ [i])
  /-- There are no other edges. -/
  inside : ∀ id, n.size ≤ id → lines.filterMap (DotLine.childOf? id) = []
  /-- A label is written with each backslash doubled and then a backslash in front of each quote. -/
  escaped : ∀ id label, DotLine.node id label ∈ lines →
    (DotLine.escape label).toList = replaceChar '"' ['\\', '"']
      (replaceChar '\\' ['\\', '\\'] label.toList)

/-- The labels of a tree are those of its nodes, in order. -/
theorem map_label_dotLines (t : Tables) (n : Node) :
    ((n.dotLines t 0).filterMap DotLine.node?).map Prod.snd = n.nodes.map (dotLabel t) := by
  rw [filterMap_node?_dotLines, List.map_map, ← List.zipIdx_map_fst 0 n.nodes, List.map_map,
    List.zipIdx_map_fst]
  rfl

theorem dotLines_drawnBy (t : Tables) (n : Node) : n.DrawnBy t (n.dotLines t 0) where
  counted := by rw [drawFrom_eq, Nat.zero_add]
  places _ := mem_paths_iff
  preorder := paths_increasing n
  nodes := (map_some_nodes n).symm
  numbers := by
    rw [filterMap_node?_dotLines, List.map_map, ← length_nodes, List.range_eq_range',
      ← List.zipIdx_map_snd 0 n.nodes]
    rfl
  labels := map_label_dotLines t n
  shown := by
    rw [map_label_dotLines, List.forall₂_map_right_iff, List.forall₂_same]
    exact fun m _ => m.shown_dotLabel
  edges id path m place node := by
    have listed : n.nodes[id]? = some m := by
      have same := congrArg (·[id]?) (map_some_nodes n)
      simp only [List.getElem?_map, place, Option.map_some, node] at same
      simpa using same
    have children := @filterMap_childOf?_dotLines t n 0 id m listed
    rw [Nat.zero_add] at children
    rw [children, map_getElem?_paths place listed]
  inside id behind := filterMap_childOf?_outside t n (.inr (by omega))
  escaped _ label _ := DotLine.toList_escape label

/-- The graph of a tree encodes it. The text is read back as lines, with each label up to its own
closing quote, and these lines are those of the nodes and of the edges of the tree. -/
theorem toDot_drawnBy (n : Node) (t : Tables) :
    ∃ lines, readGraph? (n.toDot t) = some lines ∧ n.DrawnBy t lines := by
  refine ⟨n.dotLines t 0, ?_, dotLines_drawnBy t n⟩
  have text :=
    DotLine.toList_lines "digraph \x7b\ngraph [ordering=\"out\"];\n" "\x7d\n" (n.dotLines t 0)
  have header := dropPrefix?_append "digraph \x7b\ngraph [ordering=\"out\"];\n".toList
    (((n.dotLines t 0).flatMap fun line => line.text.toList) ++ "\x7d\n".toList)
  rw [← text] at header
  exact (congrArg (·.bind DotLine.readAll?) header).trans (DotLine.readAll?_text _)

end Node

end MiniGo
