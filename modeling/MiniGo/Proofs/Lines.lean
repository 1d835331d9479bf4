import Mathlib.Data.List.TakeWhile
import MiniGo.Proofs.Reports

/-!
# Both ways to find a line

The line of an offset is computed in two ways. One is a search by halves in the offsets at which
lines begin, which ends with a hit at a line start and with a miss between two of them. The other
counts the newlines before the offset, and cuts the line out of the text by the newlines around the
offset. For each offset between characters, and for each one past the end, both give the same line,
and what is cut out is that line of the text.

* `search`, `searchLine`: the search by halves, and the line that it gives.
* `Searched`: what the result of a search in increasing numbers means.
* `lines_induction`: induction on the lines of a text.
* `textOfLines`: lines as a text, with a newline behind each of them.
* `location_agrees`: both computations, and the text.
-/

namespace MiniGo

/-! ### Searching by halves -/

/-- Looks for `x` at the positions from `low` up to `high`: the position at which it is, or else the
one at which it belongs. -/
def search (xs : Array Nat) (x low high : Nat) (bound : high ≤ xs.size) : Except Nat Nat :=
  if nonempty : low < high then
    let middle := low + (high - low) / 2
    have inside : middle < xs.size := by omega
    if xs[middle] = x then .ok middle
    else if xs[middle] < x then search xs x (middle + 1) high bound
    else search xs x low middle (by omega)
  else .error low
termination_by high - low

/-- The line that a search in the line starts gives: that of the line start which is hit, or else of
the last one before the place of a miss. -/
def lineOfSearch : Except Nat Nat → Nat
  | .ok position => position + 1
  | .error position => position

/-- The line of an offset by a search. -/
def searchLine (starts : List Nat) (offset : Nat) : Nat :=
  lineOfSearch (search starts.toArray offset 0 starts.toArray.size (Nat.le_refl _))

/-- Where a number is in a list, or which of the numbers are smaller and which are greater. -/
def Searched (xs : Array Nat) (x : Nat) : Except Nat Nat → Prop
  | .ok position => ∃ inside : position < xs.size, xs[position] = x
  | .error position => position ≤ xs.size ∧
      ∀ (i : Nat) (inside : i < xs.size), (i < position → xs[i] < x) ∧ (position ≤ i → x < xs[i])

section Search

variable {xs : Array Nat} {x : Nat}

/-- A search leaves out positions with smaller numbers in front and positions with greater ones
behind. -/
theorem searched_search
    (increasing : ∀ (i j : Nat) (_ : i < j) (inside : j < xs.size), xs[i] < xs[j]) {low high : Nat}
    (bound : high ≤ xs.size) (ordered : low ≤ high)
    (smaller : ∀ (i : Nat) (inside : i < xs.size), i < low → xs[i] < x)
    (greater : ∀ (i : Nat) (inside : i < xs.size), high ≤ i → x < xs[i]) :
    Searched xs x (search xs x low high bound) := by
  fun_induction search xs x low high bound with
  | case1 low high bound nonempty middle inside hit => exact ⟨inside, hit⟩
  | case2 low high bound nonempty middle inside other less ih =>
    refine ih (by omega) (fun i bounded before => ?_) greater
    rcases Nat.lt_or_ge i middle with earlier | later
    · exact (increasing i middle earlier inside).trans less
    · obtain rfl : i = middle := by omega
      exact less
  | case3 low high bound nonempty middle inside other notLess ih =>
    have more : x < xs[middle] := by omega
    refine ih (by omega) smaller fun i bounded behind => ?_
    rcases Nat.lt_or_ge middle i with later | earlier
    · exact more.trans (increasing middle i later bounded)
    · obtain rfl : i = middle := by omega
      exact more
  | case4 low high bound empty =>
    exact ⟨by omega, fun i inside => ⟨smaller i inside, fun behind => greater i inside (by omega)⟩⟩

end Search

/-- Numbers are counted by a position if those before it have a property and those from it on do
not. -/
theorem countP_eq_of_split {p : Nat → Bool} {xs : List Nat} {k : Nat} (le : k ≤ xs.length)
    (split : ∀ (i : Nat) (inside : i < xs.length), p xs[i] = true ↔ i < k) : xs.countP p = k := by
  have front : (xs.take k).countP p = k := by
    rw [List.countP_eq_length.2 fun y mem => ?_, List.length_take, Nat.min_eq_left le]
    obtain ⟨i, inside, rfl⟩ := List.mem_take_iff_getElem.1 mem
    exact (split i _).2 (by omega)
  have back : (xs.drop k).countP p = 0 := by
    refine List.countP_eq_zero.2 fun y mem => ?_
    obtain ⟨i, inside, rfl⟩ := List.mem_drop_iff_getElem.1 mem
    exact (split (k + i) _).not.2 (by omega)
  rw [← List.take_append_drop k xs, List.countP_append, front, back, Nat.add_zero]

/-- A search gives the number of line starts up to the offset, both for a hit and for a miss. -/
theorem searchLine_eq_lineAt {starts : List Nat} (increasing : starts.Pairwise (· < ·))
    (offset : Nat) :
    searchLine starts offset = lineAt starts offset := by
  have increasing (i j : Nat) (less : i < j) (inside : j < starts.length) : starts[i] < starts[j] :=
    List.pairwise_iff_getElem.1 increasing i j (less.trans inside) inside less
  have searched := @searched_search starts.toArray offset
    (fun i j less inside => by simpa using increasing i j less inside) 0 _ (Nat.le_refl _)
    (Nat.zero_le _) (fun i _ before => absurd before (Nat.not_lt_zero i))
      (fun i inside behind => absurd inside (Nat.not_lt.2 behind))
  unfold searchLine lineAt
  generalize search starts.toArray offset 0 starts.toArray.size (Nat.le_refl _) = result at searched
  symm
  cases result with
  | ok position =>
    obtain ⟨inside, hit⟩ := searched
    rw [List.getElem_toArray] at hit
    rw [List.size_toArray] at inside
    rw [lineOfSearch]
    refine countP_eq_of_split inside fun i bounded => ?_
    rw [decide_eq_true_iff, ← hit]
    -- The start that is hit counts itself and all starts before it.
    rcases Nat.lt_trichotomy i position with less | rfl | more
    · exact iff_of_true (increasing i position less inside).le (by omega)
    · exact iff_of_true (le_refl _) (by omega)
    · exact iff_of_false (increasing position i more bounded).not_ge (by omega)
  | error position =>
    obtain ⟨le, around⟩ := searched
    rw [lineOfSearch]
    refine countP_eq_of_split (by simpa using le) fun i bounded => ?_
    obtain ⟨smaller, greater⟩ := around i (by simpa using bounded)
    rw [List.getElem_toArray] at smaller greater
    rw [decide_eq_true_iff]
    refine ⟨fun atMost => ?_, fun before => (smaller before).le⟩
    by_contra behind
    exact absurd (greater (Nat.not_lt.1 behind)) atMost.not_gt

/-! ### Lines of a text -/

/-- Induction on the lines of a text. The last one has no newline behind it. -/
theorem lines_induction {motive : List Char → Prop} (last : ∀ line, '\n' ∉ line → motive line)
    (cons : ∀ line rest, '\n' ∉ line → motive rest → motive (line ++ '\n' :: rest))
    (cs : List Char) : motive cs := by
  induction size : cs.length using Nat.strong_induction_on generalizing cs with
  | _ n ih =>
    by_cases some : '\n' ∈ cs
    · obtain ⟨line, rest, rfl, first⟩ := List.eq_append_cons_of_mem some
      exact cons line rest first (ih rest.length (by simp at size; omega) rest rfl)
    · exact last cs some

/-- Lines as a text, with a newline behind each of them. -/
def textOfLines (lines : List (List Char)) : List Char := lines.flatMap (· ++ ['\n'])

@[simp] theorem textOfLines_cons (line : List Char) (lines : List (List Char)) :
    textOfLines (line :: lines) = line ++ '\n' :: textOfLines lines := by
  simp [textOfLines]

section Lines

variable {line : List Char}

theorem lastLine_of_notMem (one : '\n' ∉ line) : lastLine line = line := by
  have all : ∀ c ∈ line.reverse, decide (c ≠ '\n') = true := by
    intro c mem
    exact decide_eq_true fun same => one (same ▸ List.mem_reverse.1 mem)
  rw [lastLine, List.takeWhile_eq_self_iff.2 all, List.reverse_reverse]

theorem lastLine_append_newline (line rest : List Char) :
    lastLine (line ++ '\n' :: rest) = lastLine rest := by
  have split : (line ++ '\n' :: rest).reverse = rest.reverse ++ '\n' :: line.reverse := by simp
  rw [lastLine, lastLine, split, List.takeWhile_append]
  split_ifs with whole
  · rw [List.takeWhile_cons_of_neg (by simp), List.append_nil,
      (List.takeWhile_prefix _).eq_of_length whole]
  · rfl

theorem firstLine_append (one : '\n' ∉ line) (rest : List Char) :
    firstLine (line ++ rest) = line ++ firstLine rest :=
  List.takeWhile_append_of_pos fun _ mem => decide_eq_true fun same => one (same ▸ mem)

/-- The first line of a text is what is before its first newline. -/
theorem head?_splitOn (cs : List Char) : (cs.splitOn '\n').head? = some (firstLine cs) := by
  induction cs using lines_induction with
  | last line one =>
    have first := firstLine_append one []
    rw [List.append_nil] at first
    rw [List.splitOn_eq_singleton one, first]
    simp [firstLine]
  | cons line rest one _ =>
    rw [List.splitOn_append_cons_self_of_not_mem one, firstLine_append one]
    simp [firstLine]

/-- The line around a place in a text, and the lines before it. -/
theorem splitOn_around (before after : List Char) :
    ((before ++ after).splitOn '\n')[before.count '\n']? =
      some (lastLine before ++ firstLine after) ∧
      textOfLines (((before ++ after).splitOn '\n').take (before.count '\n')) ++
        lastLine before = before := by
  induction before using lines_induction with
  | last line one =>
    rw [List.count_eq_zero.2 one, lastLine_of_notMem one, ← firstLine_append one, ← head?_splitOn,
      List.head?_eq_getElem?]
    exact ⟨rfl, rfl⟩
  | cons line rest one ih =>
    obtain ⟨around, lines⟩ := ih
    have split : ((line ++ '\n' :: rest) ++ after).splitOn '\n' =
        line :: (rest ++ after).splitOn '\n' := by
      rw [List.append_assoc, List.cons_append, List.splitOn_append_cons_self_of_not_mem one]
    have count : (line ++ '\n' :: rest).count '\n' = rest.count '\n' + 1 := by
      simp [List.count_eq_zero.2 one]
    rw [split, count, lastLine_append_newline, List.getElem?_cons_succ, List.take_succ_cons,
      textOfLines_cons, List.append_assoc, List.cons_append, lines]
    exact ⟨around, rfl⟩

/-! ### Line starts -/

theorem lineStartsFrom_append_newline (one : '\n' ∉ line) (n : Nat) (rest : List Char) :
    lineStartsFrom n (line ++ '\n' :: rest) =
      (n + byteSize line + 1) :: lineStartsFrom (n + byteSize line + 1) rest := by
  induction line generalizing n with
  | nil => rfl
  | cons c line ih =>
    obtain ⟨here, later⟩ : '\n' ≠ c ∧ '\n' ∉ line := by simpa using one
    rw [List.cons_append, lineStartsFrom, if_neg (Ne.symm here), ih later, byteSize_cons,
      Nat.add_assoc n]

/-- A line begins behind the lines before it. -/
theorem getElem?_lineStartsFrom (cs : List Char) (n i : Nat) (le : i < (cs.splitOn '\n').length) :
    (n :: lineStartsFrom n cs)[i]? =
      some (n + byteSize (textOfLines ((cs.splitOn '\n').take i))) := by
  induction cs using lines_induction generalizing n i with
  | last line one =>
    rw [List.splitOn_eq_singleton one] at le ⊢
    obtain rfl : i = 0 := by simpa using le
    rfl
  | cons line rest one ih =>
    rw [List.splitOn_append_cons_self_of_not_mem one] at le ⊢
    rw [lineStartsFrom_append_newline one]
    cases i with
    | zero => rfl
    | succ i =>
      have newline : '\n'.utf8Size = 1 := rfl
      rw [List.getElem?_cons_succ, ih _ _ (by simpa using le), List.take_succ_cons,
        textOfLines_cons, byteSize_append, byteSize_cons, newline]
      congr 1
      omega

/-- The line starts of a text are in order, and all but the first are behind its beginning. -/
theorem lineStartsFrom_increasing (n : Nat) (cs : List Char) :
    (∀ start ∈ lineStartsFrom n cs, n < start) ∧ (lineStartsFrom n cs).Pairwise (· < ·) := by
  induction cs generalizing n with
  | nil => exact ⟨nofun, .nil⟩
  | cons c cs ih =>
    rw [lineStartsFrom]
    split
    · obtain ⟨behind, increasing⟩ := ih (n + 1)
      refine ⟨List.forall_mem_cons.2 ⟨Nat.lt_succ_self n, fun start mem => ?_⟩,
        .cons behind increasing⟩
      exact (Nat.lt_succ_self n).trans (behind start mem)
    · obtain ⟨behind, increasing⟩ := ih (n + c.utf8Size)
      exact ⟨fun start mem => lt_of_le_of_lt (Nat.le_add_right _ _) (behind start mem), increasing⟩

theorem lineStarts_increasing (source : String) : (lineStarts source).Pairwise (· < ·) :=
  .cons (lineStartsFrom_increasing 0 _).1 (lineStartsFrom_increasing 0 _).2

/-- As many lines begin up to an offset as there are newlines before it. At the end of the text, the
offset may be past it. -/
theorem countP_lineStartsFrom {before after : List Char} {offset n : Nat}
    (le : n + byteSize before ≤ offset) (here : offset = n + byteSize before ∨ after = []) :
    (lineStartsFrom n (before ++ after)).countP (· ≤ offset) = before.count '\n' := by
  induction before generalizing n with
  | nil =>
    refine List.countP_eq_zero.2 fun start mem => ?_
    rcases here with here | rfl
    · rw [here]
      simpa using (lineStartsFrom_increasing n after).1 start mem
    · cases mem
  | cons c before ih =>
    rw [byteSize_cons, ← Nat.add_assoc] at le here
    rw [List.cons_append, lineStartsFrom]
    by_cases newline : c = '\n'
    · subst newline
      have one : '\n'.utf8Size = 1 := rfl
      rw [one] at le here
      rw [if_pos rfl, List.countP_cons_of_pos (by simp; omega), ih le here, List.count_cons_self]
    · rw [if_neg newline, ih le here, List.count_cons_of_ne newline]

end Lines

/-! ### Locations -/

section Locations

variable {source : String} {offset : Nat} {before after : List Char}

theorem takeBytes_of_le {n : Nat} {cs : List Char} (le : byteSize cs ≤ n) :
    takeBytes n cs = cs := by
  induction cs generalizing n with
  | nil => rfl
  | cons c cs ih =>
    rw [byteSize_cons] at le
    rw [takeBytes, if_pos (by omega), ih (by omega)]

/-- A place in a text: between two characters, or past the end. -/
structure CutAt (source : String) (offset : Nat) (before after : List Char) : Prop where
  text : source.toList = before ++ after
  clamped : min offset source.utf8ByteSize = byteSize before
  exact_or_end : offset = byteSize before ∨ after = []

/-- An offset between characters splits the text. -/
theorem exists_split_of_isValid (valid : String.Pos.Raw.IsValid source ⟨offset⟩) :
    ∃ before after, source.toList = before ++ after ∧ offset = byteSize before := by
  obtain ⟨before, after, rfl, same⟩ := String.Pos.Raw.isValid_iff_exists_append.1 valid
  exact ⟨before.toList, after.toList, String.toList_append,
    (congrArg String.Pos.Raw.byteIdx same).trans (utf8ByteSize_eq before)⟩

theorem exists_cutAt
    (place : String.Pos.Raw.IsValid source ⟨offset⟩ ∨ source.utf8ByteSize ≤ offset) :
    ∃ before after, CutAt source offset before after := by
  rcases place with valid | past
  · obtain ⟨before, after, text, size⟩ := exists_split_of_isValid valid
    refine ⟨before, after, text, ?_, .inl size⟩
    rw [utf8ByteSize_eq, text, byteSize_append, size]
    exact Nat.min_eq_left (Nat.le_add_right _ _)
  · refine ⟨source.toList, [], (List.append_nil _).symm, ?_, .inr rfl⟩
    rw [Nat.min_eq_right past, utf8ByteSize_eq]

namespace CutAt

theorem le (h : CutAt source offset before after) : byteSize before ≤ offset :=
  h.clamped ▸ Nat.min_le_left _ _

/-- The place is the same if it is clamped to the end of the text. -/
theorem ofOffset_eq (h : CutAt source offset before after) :
    Location.ofOffset source offset = Location.ofOffset source (byteSize before) := by
  rcases h.exact_or_end with rfl | rfl
  · rfl
  · have whole : source.toList = before := h.text.trans (List.append_nil _)
    have drop {n : Nat} (le : byteSize before ≤ n) : dropBytes n before = [] := by
      have cut := takeBytes_append_dropBytes n before
      rwa [takeBytes_of_le le, List.append_right_eq_self] at cut
    simp only [Location.ofOffset, whole, takeBytes_of_le h.le,
      takeBytes_of_le (le_refl (byteSize before)), drop h.le, drop (le_refl _)]

theorem ofOffset?_eq_some (h : CutAt source offset before after) :
    Location.ofOffset? source offset = some (Location.ofOffset source offset) := by
  rw [h.ofOffset_eq, ← Location.ofOffset?_eq_some h.text, ← h.clamped]
  simp only [Location.ofOffset?, utf8ByteSize_eq, Nat.min_assoc, Nat.min_self]

theorem location_eq (h : CutAt source offset before after) :
    Location.ofOffset source offset =
      { line := before.count '\n' + 1
        column := (lastLine before).length + 1
        content := String.ofList (lastLine before ++ firstLine after) } := by
  rw [h.ofOffset_eq, Location.ofOffset, h.text]
  simp only [takeBytes_byteSize_append, dropBytes_byteSize_append]

theorem lineAt_eq (h : CutAt source offset before after) :
    lineAt (lineStarts source) offset = before.count '\n' + 1 := by
  have le : 0 + byteSize before ≤ offset := (Nat.zero_add _).symm ▸ h.le
  have here : offset = 0 + byteSize before ∨ after = [] := (Nat.zero_add _).symm ▸ h.exact_or_end
  rw [lineAt, lineStarts, h.text, List.countP_cons_of_pos (by simp), countP_lineStartsFrom le here]

end CutAt

/-- What is right about the location of an offset in a source text. -/
structure Location.Agrees (source : String) (offset : Nat) (l : Location) : Prop where
  /-- The slices that the location is made from can be taken. -/
  sliced : Location.ofOffset? source offset = some l
  /-- The search in the line starts gives the same line. -/
  searched : searchLine (lineStarts source) offset = l.line
  counted : lineAt (lineStarts source) offset = l.line
  /-- Lines and columns are counted from one. -/
  fromOne : 1 ≤ l.line ∧ 1 ≤ l.column
  /-- The text shown is the line, of those between the newlines. -/
  content : (source.toList.splitOn '\n')[l.line - 1]? = some l.content.toList
  /-- The line begins behind the lines before it, and the characters in front of the column are
  those from its beginning up to the offset, or up to the end of the source. -/
  column : ∃ start, (lineStarts source)[l.line - 1]? = some start ∧
    start = byteSize (textOfLines ((source.toList.splitOn '\n').take (l.line - 1))) ∧
    l.column - 1 ≤ l.content.toList.length ∧
    slice? start (min offset source.utf8ByteSize) source.toList =
      some (l.content.toList.take (l.column - 1))

/-- Both computations give the same line for each offset between characters and for each one past
the end: the search in the line starts, and the count of the newlines before the offset. The text
shown is that line of the source, and the column says how many of its characters are before the
offset. -/
theorem location_agrees
    (place : String.Pos.Raw.IsValid source ⟨offset⟩ ∨ source.utf8ByteSize ≤ offset) :
    (Location.ofOffset source offset).Agrees source offset := by
  obtain ⟨before, after, cut⟩ := exists_cutAt place
  obtain ⟨around, lines⟩ := splitOn_around before after
  have inside : before.count '\n' < ((before ++ after).splitOn '\n').length :=
    (List.getElem?_eq_some_iff.1 around).1
  have start := getElem?_lineStartsFrom (before ++ after) 0 (before.count '\n') inside
  have sliced := cut.ofOffset?_eq_some
  have counted := cut.lineAt_eq
  rw [Nat.zero_add, ← cut.text] at start
  rw [cut.location_eq] at sliced ⊢
  refine ⟨sliced, ?_, counted, ⟨Nat.le_add_left .., Nat.le_add_left ..⟩, ?_, _, start, rfl, ?_, ?_⟩
  · rw [searchLine_eq_lineAt (lineStarts_increasing source), counted]
  · rw [cut.text, String.toList_ofList]
    exact around
  · simp
  · rw [String.toList_ofList, cut.clamped, cut.text]
    have characters : (lastLine before ++ firstLine after).take ((lastLine before).length + 1 - 1) =
        lastLine before :=
      List.take_left
    rw [characters]
    exact slice?_eq_some_iff.2 ⟨_, after, by rw [← List.append_assoc, lines], rfl, by rw [lines]⟩

/-- Behind a character of two bytes on the second line, and past the end, where the last line is
empty. -/
theorem location_agrees_wide :
    String.Pos.Raw.IsValid "ab\nü→\n" ⟨5⟩ ∧ (Location.ofOffset "ab\nü→\n" 5).Agrees "ab\nü→\n" 5 ∧
      Location.ofOffset "ab\nü→\n" 5 = ⟨2, 2, "ü→"⟩ ∧
      "ab\nü→\n".utf8ByteSize ≤ 20 ∧ (Location.ofOffset "ab\nü→\n" 20).Agrees "ab\nü→\n" 20 ∧
      Location.ofOffset "ab\nü→\n" 20 = ⟨3, 1, ""⟩ := by
  have valid : String.Pos.Raw.IsValid "ab\nü→\n" ⟨5⟩ :=
    isValid_byteSize ['a', 'b', '\n', 'ü'] ['→', '\n']
  have past : "ab\nü→\n".utf8ByteSize ≤ 20 := by decide +kernel
  exact ⟨valid, location_agrees (.inl valid), by decide +kernel, past,
    location_agrees (.inr past), by decide +kernel⟩

end Locations

end MiniGo
