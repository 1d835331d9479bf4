import Mathlib.Data.List.Infix
import MiniGo.Command.Host
import MiniGo.Proofs.Command.Requests

/-!
# A host obeys the laws

A file is renamed to the place to which its path leads, and no other file is touched. So the answers
of a host obey the laws for requests.

* `FileSystem.content?`: what the file that a path leads to holds.
* `FileSystem.SameDirectories`: two file systems in which paths lead to the same places.
* `FileSystem.renameTarget_eq_ok`: a file is renamed to the location to which its path leads.
* `FileSystem.Apart`: two paths that lead to different places.
* `FileSystem.content?_put`, `FileSystem.content?_put_of_apart`: the file holds the text, and what
  is apart from it stays.
* `Host.lawful`: the laws.
-/

namespace MiniGo

theorem bind_eq_ok {ε α β : Type} {x : Except ε α} {f : α → Except ε β} {b : β} :
    x >>= f = .ok b ↔ ∃ a, x = .ok a ∧ f a = .ok b := by
  cases x <;> simp [bind, Except.bind]

/-! ### Pieces of a path -/

namespace Path

/-- What does not end with a slash has a last piece that is not empty. -/
theorem exists_splitOn_append {c : Char} (other : c ≠ '/') (cs : List Char) :
    ∃ ps p, (cs ++ [c]).splitOn '/' = ps ++ [p ++ [c]] := by
  induction cs with
  | nil => exact ⟨[], [], by simp [List.splitOn_cons_eq_if_modifyHead, other]⟩
  | cons d cs ih =>
    obtain ⟨ps, p, split⟩ := ih
    rw [List.cons_append, List.splitOn_cons_eq_if_modifyHead, split]
    by_cases slash : d = '/'
    · exact ⟨[] :: ps, p, by simp [slash]⟩
    · cases ps with
      | nil => exact ⟨[], d :: p, by simp [slash]⟩
      | cons q ps => exact ⟨(d :: q) :: ps, p, by simp [slash]⟩

/-- The last piece of a path is empty only if the path is, or ends with a slash. -/
theorem getLast?_split_ne {path : String} (proper : path ≠ "") (h : endsWithSlash path = false) :
    (split path).getLast? ≠ some "" := by
  rcases List.eq_nil_or_concat path.toList with empty | ⟨cs, c, chars⟩
  · exact absurd (String.toList_eq_nil_iff.1 empty) proper
  · have other : c ≠ '/' := by simpa [endsWithSlash, chars] using h
    obtain ⟨ps, p, split⟩ := exists_splitOn_append other cs
    simp [Path.split, chars, split]

end Path

namespace FileSystem

variable {fs fs' : FileSystem} {location other : List String} {path s : String}
  {pieces : List String}

/-! ### Directories -/

theorem isDirectory_iff : fs.isDirectory location = true ↔
    location <+: fs.home ∨ (∃ dir ∈ fs.dirs, location <+: dir) ∨
      ∃ file ∈ fs.files, location <+: file.1 ∧ location.length < file.1.length := by
  simp [isDirectory, or_assoc]

/-- What a directory lies in is a directory. -/
theorem isDirectory_of_isPrefix (h : fs.isDirectory location = true) (le : other <+: location) :
    fs.isDirectory other = true := by
  rw [isDirectory_iff] at h ⊢
  rcases h with h | ⟨dir, mem, h⟩ | ⟨file, mem, h, lt⟩
  · exact .inl (le.trans h)
  · exact .inr (.inl ⟨dir, mem, le.trans h⟩)
  · exact .inr (.inr ⟨file, mem, le.trans h, le.length_le.trans_lt lt⟩)

/-- A location where a file can be: in a directory, and not itself a directory. -/
structure Fits (fs : FileSystem) (location : List String) : Prop where
  proper : location ≠ []
  parent : fs.isDirectory location.dropLast = true
  free : fs.isDirectory location = false

/-- A location above a place for a file is a directory. -/
theorem Fits.above (fits : fs.Fits location) (le : other <+: location)
    (lt : other.length < location.length) :
    fs.isDirectory other = true := by
  refine isDirectory_of_isPrefix fits.parent ?_
  rw [List.dropLast_eq_take]
  exact List.prefix_take_iff.2 ⟨le, by omega⟩

/-- Where a file can be, a new file makes no directory and takes none away. -/
theorem isDirectory_put (fits : fs.Fits location) :
    (fs.put location s).isDirectory other = fs.isDirectory other := by
  rw [Bool.eq_iff_iff]
  constructor
  · intro h
    rw [isDirectory_iff] at h
    rcases h with h | ⟨dir, mem, h⟩ | ⟨file, mem, h, lt⟩
    · exact isDirectory_iff.2 (.inl h)
    · exact isDirectory_iff.2 (.inr (.inl ⟨dir, mem, h⟩))
    · rcases List.mem_cons.1 mem with rfl | mem
      · exact fits.above h lt
      · exact isDirectory_iff.2 (.inr (.inr ⟨file, (List.mem_filter.1 mem).1, h, lt⟩))
  · intro h
    rw [isDirectory_iff] at h ⊢
    rcases h with h | ⟨dir, mem, h⟩ | ⟨file, mem, h, lt⟩
    · exact .inl h
    · exact .inr (.inl ⟨dir, mem, h⟩)
    · by_cases same : file.1 = location
      · exact .inr (.inr ⟨(location, .text s), List.mem_cons_self, same ▸ h, same ▸ lt⟩)
      · refine .inr (.inr ⟨file, List.mem_cons_of_mem _ (List.mem_filter.2 ⟨mem, ?_⟩), h, lt⟩)
        simpa using same

/-! ### Paths -/

/-- Two file systems with the same directories: paths lead to the same locations. -/
structure SameDirectories (fs fs' : FileSystem) : Prop where
  home : fs'.home = fs.home
  isDirectory : ∀ location, fs'.isDirectory location = fs.isDirectory location

namespace SameDirectories

variable (same : SameDirectories fs fs')

include same

theorem walk_eq_ok :
    fs'.walk location pieces = .ok other ↔ fs.walk location pieces = .ok other := by
  induction pieces generalizing location with
  | nil => rfl
  | cons piece pieces ih =>
    unfold walk
    rw [same.isDirectory]
    split
    · split
      · exact ih
      · split
        · exact ih
        · split
          · rfl
          · exact ih
    · constructor <;> intro h <;> split at h <;> cases h

theorem origin : fs'.origin path = fs.origin path := by
  unfold FileSystem.origin
  rw [same.home]

theorem locate_eq_ok : fs'.locate path = .ok location ↔ fs.locate path = .ok location := by
  simp only [locate, bind_eq_ok, same.origin, same.walk_eq_ok]

end SameDirectories

/-! ### Places for a file -/

theorem walk_append {more : List String} :
    fs.walk location (pieces ++ more) = fs.walk location pieces >>= fun l => fs.walk l more := by
  induction pieces generalizing location with
  | nil => rfl
  | cons piece pieces ih =>
    simp only [List.cons_append, walk, ih]
    split_ifs <;> rfl

/-- An empty piece leads nowhere else, and only from a directory. -/
theorem walk_empty_eq_ok (h : fs.walk location [""] = .ok other) :
    other = location ∧ fs.isDirectory location = true := by
  unfold walk at h
  split at h
  · rename_i directory
    cases h
    exact ⟨rfl, directory⟩
  · split at h <;> cases h

/-- A name leads into a directory. -/
theorem walk_name_eq_ok {name : String} (directory : fs.isDirectory location = true)
    (proper : name ≠ "") (plain : ¬ (name = "." ∨ name = ".."))
    (h : fs.walk location [name] = .ok other) : other = location ++ [name] := by
  rw [not_or] at plain
  unfold walk at h
  rw [if_pos directory, if_neg (by simp [proper, plain.1]), if_neg (by simp [plain.2])] at h
  split at h
  · cases h
  · cases h
    rfl

/-- Without a slash at its end, a path has a last piece that is not empty. -/
theorem reverse_dropWhile_split {parts : List String} (hparts : split path = .ok parts)
    (proper : (parts.reverse.dropWhile (· == "")).reverse ≠ [])
    (slash : Path.endsWithSlash path = false) :
    (parts.reverse.dropWhile (· == "")).reverse = parts ∧ parts.getLast? ≠ some "" := by
  unfold split at hparts
  split at hparts
  · cases hparts
  · cases hparts
    have nonempty : path ≠ "" := by
      rintro rfl
      exact proper (by decide)
    have last := Path.getLast?_split_ne nonempty slash
    refine ⟨?_, last⟩
    rw [← List.head?_reverse] at last
    cases pieces : (Path.split path).reverse with
    | nil => simpa using congrArg List.reverse pieces.symm
    | cons piece pieces' =>
      rw [pieces] at last
      have stays : piece ≠ "" := by simpa using last
      rw [List.dropWhile_cons_of_neg (by simpa using stays), ← pieces, List.reverse_reverse]

/-- A file can be renamed to the location that its path leads to, if a file can be there. -/
theorem renameTarget_eq_ok (h : fs.renameTarget path = .ok location) :
    fs.locate path = .ok location ∧ fs.Fits location := by
  -- A guard that throws lets nothing pass.
  have guard {c : Prop} [Decidable c] {e : FileError} {x : Except FileError (List String)}
      (h : (if c then throw e >>= fun (_ : Unit) => x else x) = .ok location) : ¬ c ∧
        x = .ok location := by
    split at h
    · cases h
    · rename_i holds
      exact ⟨holds, h⟩
  unfold renameTarget at h
  obtain ⟨parts, hparts, h⟩ := bind_eq_ok.1 h
  dsimp only at h
  split at h
  · cases h
  rename_i name last
  obtain ⟨parent, hparent, h⟩ := bind_eq_ok.1 h
  obtain ⟨dots, h⟩ := guard h
  obtain ⟨target, htarget, h⟩ := bind_eq_ok.1 h
  obtain ⟨slash, h⟩ := guard h
  obtain ⟨free, h⟩ := guard h
  cases h
  rw [Bool.not_eq_true] at slash
  have proper : (parts.reverse.dropWhile (· == "")).reverse ≠ [] := by
    intro empty
    rw [empty] at last
    cases last
  obtain ⟨all, nonempty⟩ := reverse_dropWhile_split hparts proper slash
  rw [all] at hparent last
  obtain ⟨directory, walks, hdirectory⟩ := bind_eq_ok.1 (walk_append.symm.trans hparent)
  obtain ⟨rfl, isDirectory⟩ := walk_empty_eq_ok hdirectory
  have ends : parts.dropLast ++ [name] = parts := List.dropLast_append_getLast? name last
  -- The last piece is a name, since it is neither empty nor a dot.
  have reached :=
    walk_name_eq_ok isDirectory (fun empty => nonempty (empty ▸ last)) (by simpa using dots) htarget
  refine ⟨bind_eq_ok.2 ⟨parts, hparts, ?_⟩, ?_⟩
  · rw [← ends, walk_append, walks]
    exact htarget
  · subst reached
    exact ⟨by simp, by simpa using isDirectory, by simpa using free⟩

/-! ### Contents -/

/-- What the file that a path leads to holds, if there is one. -/
def content? (fs : FileSystem) (path : String) : Option Content :=
  (fs.locate path).toOption.bind fs.file?

theorem file?_put : (fs.put location s).file? location = some (.text s) := by
  simp [file?, put]

theorem file?_put_of_ne (ne : other ≠ location) :
    (fs.put location s).file? other = fs.file? other := by
  have shadowed : ((location, Content.text s).1 == other) = false := by simpa using ne.symm
  have kept : (fun file : List String × Content =>
      decide ((file.1 != location) = true ∧ (file.1 == other) = true)) = (·.1 == other) := by
    funext file
    by_cases same : file.1 = other
    · simp [same, ne]
    · simp [same]
  simp only [file?, put, List.find?_cons, shadowed, List.find?_filter, kept]

/-- What is read is what a file holds. -/
theorem content?_of_read (h : fs.read path = .ok s) : fs.content? path = some (.text s) := by
  unfold read at h
  obtain ⟨location, located, h⟩ := bind_eq_ok.1 h
  rw [content?, located]
  split at h
  · rename_i found
    cases h
    exact found
  · cases h
  · cases h

/-- Two paths do not lead to the same location. -/
def Apart (fs : FileSystem) (path path' : String) : Prop :=
  ∀ location, fs.locate path = .ok location → fs.locate path' ≠ .ok location

theorem SameDirectories.apart {path' : String} (same : SameDirectories fs fs')
    (apart : fs.Apart path path') :
    fs'.Apart path path' := fun location located located' =>
  apart location (same.locate_eq_ok.1 located) (same.locate_eq_ok.1 located')

theorem Apart.of_ne {path' : String} (ne : (fs.locate path).toOption ≠ (fs.locate path').toOption) :
    fs.Apart path path' := fun _ located located' => ne (by rw [located, located'])

theorem Apart.symm {path' : String} (apart : fs.Apart path path') : fs.Apart path' path :=
  fun location located located' => apart location located' located

/-! ### Renaming a file -/

section

variable (target : fs.renameTarget path = .ok location)

include target

theorem sameDirectories_put : SameDirectories fs (fs.put location s) :=
  ⟨rfl, fun _ => isDirectory_put (renameTarget_eq_ok target).2⟩

/-- A file that was renamed holds its text. -/
theorem content?_put : (fs.put location s).content? path = some (.text s) := by
  have located := (sameDirectories_put target (s := s)).locate_eq_ok.2 (renameTarget_eq_ok target).1
  rw [content?, located]
  exact file?_put

/-- No other file is touched. -/
theorem content?_put_of_apart {path' : String} (apart : fs.Apart path path') :
    (fs.put location s).content? path' = fs.content? path' := by
  have same := sameDirectories_put target (s := s)
  unfold content?
  cases found : fs.locate path' with
  | ok other =>
    rw [same.locate_eq_ok.2 found]
    exact file?_put_of_ne fun equal => apart location (renameTarget_eq_ok target).1 (equal ▸ found)
  | error e =>
    cases found' : (fs.put location s).locate path' with
    | ok other =>
      rw [same.locate_eq_ok.1 found'] at found
      cases found
    | error e' => rfl

end

end FileSystem

/-! ### The laws of a host -/

namespace Command.Host

/-- What can be seen of a host. -/
def view : View Nat Host where
  content? h := h.files.content?
  accepted h file := (h.temporaries[file]?).elim "" fun t => t.stored ++ t.buffered
  stored h file := (h.temporaries[file]?).elim "" Temporary.stored
  Apart h := h.files.Apart

variable {h h' : Host} {file : Nat} {path text : String}

theorem temporary_eq_ok {t : Temporary} :
    h.temporary file = .ok t ↔ h.temporaries[file]? = some t := by
  unfold temporary
  split
  · rename_i missing
    simp [missing]
  · rename_i t' found
    simp [found]

theorem attempt_eq_ok {x : Except FileError Host} (granted : (h.attempt x).1 = .ok ()) :
    x = .ok (h.attempt x).2 := by
  cases x with
  | ok h' => rfl
  | error e => cases granted

theorem attempt_eq_error {x : Except FileError Host} {message : String}
    (refused : (h.attempt x).1 = .error message) : (h.attempt x).2 = h := by
  cases x with
  | ok h' => cases refused
  | error e => rfl

/-- A step that keeps the files keeps them also when it fails. -/
theorem files_attempt {x : Except FileError Host}
    (keeps : ∀ {h'}, x = .ok h' → h'.files = h.files) :
    (h.attempt x).2.files = h.files := by
  cases x with
  | ok h' => exact keeps rfl
  | error e => rfl

/-! ### Steps -/

theorem print_eq_ok (done : h.print text = .ok h') : h'.files = h.files := by
  unfold print at done
  split at done
  · cases done
    rfl
  · cases done

theorem write_eq_ok (done : h.write file text = .ok h') : ∃ t, h.temporaries[file]? = some t ∧
    h' = { h with
      temporaries := h.temporaries.set file { t with buffered := t.buffered ++ text } } := by
  obtain ⟨t, found, done⟩ := bind_eq_ok.1 done
  cases done
  exact ⟨t, temporary_eq_ok.1 found, rfl⟩

theorem flush_eq_ok (done : h.flush file = .ok h') : ∃ t room?, h.temporaries[file]? = some t ∧
    h' = { h with
      room?, temporaries := h.temporaries.set file ⟨t.stored ++ t.buffered, ""⟩ } := by
  obtain ⟨t, found, done⟩ := bind_eq_ok.1 done
  obtain ⟨room?, -, done⟩ := bind_eq_ok.1 done
  cases done
  exact ⟨t, room?, temporary_eq_ok.1 found, rfl⟩

theorem persist_eq_ok (done : h.persist file path = .ok h') : ∃ t location,
    h.temporaries[file]? = some t ∧ h.files.renameTarget path = .ok location ∧
      h' = { h with files := h.files.put location t.stored } := by
  unfold persist at done
  obtain ⟨t, found, done⟩ := bind_eq_ok.1 done
  obtain ⟨location, target, done⟩ := bind_eq_ok.1 done
  cases done
  exact ⟨t, location, temporary_eq_ok.1 found, target, rfl⟩

/-- The files are touched only when one is put in place. -/
theorem files_answer {r : Request Nat} (other : ∀ file path, r ≠ .persist file path) (h : Host) :
    (answer r h).2.files = h.files := by
  have flushed {file : Nat} {h' : Host} (done : h.flush file = .ok h') : h'.files = h.files := by
    obtain ⟨t, room?, -, rfl⟩ := flush_eq_ok done
    rfl
  cases r with
  | print text => exact files_attempt print_eq_ok
  | write file text =>
    refine files_attempt fun done => ?_
    obtain ⟨t, -, rfl⟩ := write_eq_ok done
    rfl
  | flush file | release file => exact files_attempt flushed
  | create directory =>
    show (h.create directory).2.files = h.files
    unfold create
    split <;> rfl
  | persist file path => exact absurd rfl (other file path)
  | printError text | read path | discard file => rfl

/-! ### Laws -/

/-- What a temporary file holds after a change. -/
theorem getElem?_set_of_some {t u : Temporary} (found : h.temporaries[file]? = some t) :
    (h.temporaries.set file u)[file]? = some u := by
  obtain ⟨lt, -⟩ := List.getElem?_eq_some_iff.1 found
  exact List.getElem?_set_self lt

theorem flushed (done : h.flush file = .ok h') :
    view.accepted h' file = view.accepted h file ∧ view.stored h' file = view.accepted h file := by
  obtain ⟨t, room?, found, rfl⟩ := flush_eq_ok done
  simp [view, found, getElem?_set_of_some found]

theorem accepted_create {directory : String} (made : (h.create directory).1 = .ok file) :
    view.accepted (h.create directory).2 file = "" := by
  unfold create at made ⊢
  split at made
  · cases made
  · cases made
    simp [view]

theorem apart_answer (r : Request Nat) {other : String} (apart : h.files.Apart path other) :
    (answer r h).2.files.Apart path other := by
  by_cases persists : ∃ file target, r = .persist file target
  · obtain ⟨file, target, rfl⟩ := persists
    show (h.attempt (h.persist file target)).2.files.Apart path other
    cases done : h.persist file target with
    | error e => exact apart
    | ok h' =>
      obtain ⟨t, location, -, place, rfl⟩ := persist_eq_ok done
      exact (FileSystem.sameDirectories_put place).apart apart
  · rw [files_answer fun file target same => persists ⟨file, target, same⟩]
    exact apart

/-- A host does what the laws ask for. -/
theorem lawful : Lawful answer view where
  symm := FileSystem.Apart.symm
  apart r _ _ _ := apart_answer r
  keeps {r} other h path := congrArg (FileSystem.content? · path) (files_answer other h)
  read {h path text} granted := by
    refine FileSystem.content?_of_read ?_
    change (h.files.read path).mapError FileError.message = .ok text at granted
    cases done : h.files.read path with
    | ok s =>
      rw [done] at granted
      cases granted
      rfl
    | error e =>
      rw [done] at granted
      cases granted
  create granted := accepted_create granted
  write {h file text} granted := by
    obtain ⟨t, found, same⟩ := write_eq_ok (attempt_eq_ok granted)
    show view.accepted (h.attempt (h.write file text)).2 file = _
    rw [same]
    simp [view, found, getElem?_set_of_some found, String.append_assoc]
  flush granted := flushed (attempt_eq_ok granted)
  release {h file} before := by
    show view.accepted (h.attempt (h.flush file)).2 file = _ ∧
      view.stored (h.attempt (h.flush file)).2 file = _
    cases done : h.flush file with
    | ok h' => exact flushed done
    | error e => exact ⟨rfl, before⟩
  persist {h file path} granted := by
    obtain ⟨t, location, found, target, same⟩ := persist_eq_ok (attempt_eq_ok granted)
    have files : (answer (.persist file path) h).2.files = h.files.put location t.stored :=
      congrArg Host.files same
    refine ⟨?_, fun apart => ?_⟩
    · simp only [view, files, found, Option.elim_some]
      exact FileSystem.content?_put target
    · simp only [view, files]
      exact FileSystem.content?_put_of_apart target apart
  persist_error refused other := by
    have same := attempt_eq_error refused
    exact congrArg (fun h : Host => h.files.content? other) same

end Command.Host

end MiniGo
