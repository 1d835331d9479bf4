import MiniGo.Proofs.ClassFile
import MiniGo.Proofs.Code.Labels
import MiniGo.Proofs.Lexing.Spelling
import MiniGo.Proofs.Shortest

/-!
# Reading an assembly

What a text in assembly language says. A line is read word by word, and each mnemonic is listed with
the instruction that it stands for. A reference is cut from its end, so the name of a class in it
may have any characters.

* `Descriptor.read?`, `FieldRef.read?`, `MethodRef.read?`, `Label.read?`, `Constant.read?`:
  operands.
* `Instr.words`, `Instr.readers`: instructions without and with an operand.
* `Line.read?`, `readLines?`, `ClassFile.read?`: lines, texts, and the class of a text.
* `Line.read?_text`: a legible line is read back from its text.
-/

namespace MiniGo

/-! ### Cutting texts -/

/-- The parts of a text before and behind the first place of a character. -/
def cutFirst? (c : Char) : List Char → Option (List Char × List Char)
  | [] => none
  | d :: cs =>
    if d = c then some ([], cs) else (cutFirst? c cs).map fun (before, behind) =>
      (d :: before, behind)

/-- The parts of a text before and behind the last place of a character. -/
def cutLast? (c : Char) (cs : List Char) : Option (List Char × List Char) :=
  (cutFirst? c cs.reverse).map fun (behind, before) => (before.reverse, behind.reverse)

section

variable {c : Char} {cs ds : List Char}

theorem cutFirst?_append (before : c ∉ cs) : cutFirst? c (cs ++ c :: ds) = some (cs, ds) := by
  induction cs with
  | nil => simp [cutFirst?]
  | cons d cs ih =>
    obtain ⟨other, before⟩ := List.ne_and_not_mem_of_not_mem_cons before
    simp [cutFirst?, ih before, other.symm]

theorem cutFirst?_eq_none (h : c ∉ cs) : cutFirst? c cs = none := by
  induction cs with
  | nil => rfl
  | cons d cs ih =>
    obtain ⟨other, rest⟩ := List.ne_and_not_mem_of_not_mem_cons h
    simp [cutFirst?, ih rest, other.symm]

theorem cutLast?_append (behind : c ∉ ds) : cutLast? c (cs ++ c :: ds) = some (cs, ds) := by
  have reversed : (cs ++ c :: ds).reverse = ds.reverse ++ c :: cs.reverse := by simp
  rw [cutLast?, reversed, cutFirst?_append (by simpa using behind)]
  simp

end

/-! ### Numbers -/

/-- Reads a natural number. -/
def readNat? (cs : List Char) : Option Nat := if isDigits cs then some (digitsValue cs) else none

/-- Reads an integer of any size, with an optional sign. -/
def readInt? (cs : List Char) : Option Int :=
  (readNat? (splitSign cs).2).map fun n => if (splitSign cs).1 then -(n : Int) else n

@[simp] theorem readNat?_toDigits (n : Nat) : readNat? (Nat.toDigits 10 n) = some n := by
  have digits : isDigits (Nat.toDigits 10 n) = true :=
    Binary32.isDigits_iff.2 ⟨decimalDigits_ne_nil n, fun _ => isDigit_of_mem_decimalDigits⟩
  rw [readNat?, if_pos digits]
  exact congrArg some (digitsValue_decimalDigits n)

theorem readInt?_repr (i : Int) : readInt? i.repr.toList = some i := by
  cases i with
  | ofNat n =>
    obtain ⟨d, ds, digits⟩ := List.exists_cons_of_ne_nil (decimalDigits_ne_nil n)
    have digit : d.isDigit = true := isDigit_of_mem_decimalDigits (n := n) (by simp [digits])
    have split := @Binary32.splitSign_of_isDigit d ds (.inl digit)
    have text : (Int.ofNat n).repr.toList = decimalDigits n := Nat.toList_repr
    rw [← digits] at split
    rw [readInt?, text, split, decimalDigits, readNat?_toDigits]
    rfl
  | negSucc n =>
    have text : (Int.negSucc n).repr.toList = '-' :: Nat.toDigits 10 (n + 1) := by
      rw [← Nat.toList_repr]
      simp [Int.repr]
    rw [readInt?, text]
    simp [splitSign, readNat?_toDigits, Int.negSucc_eq]

/-! ### Descriptors -/

namespace Descriptor

/-- A descriptor behind as many brackets as dimensions. -/
def nest : Nat → Descriptor → Descriptor
  | 0, d => d
  | n + 1, d => nest n (.array d)

mutual

/-- Reads descriptors, one behind the other. A number of brackets has been read before the first
one. -/
def readFrom? (brackets : Nat) : List Char → Option (List Descriptor)
  | [] => if brackets = 0 then some [] else none
  | 'Z' :: cs => (readFrom? 0 cs).map (nest brackets boolean :: ·)
  | 'I' :: cs => (readFrom? 0 cs).map (nest brackets int :: ·)
  | 'F' :: cs => (readFrom? 0 cs).map (nest brackets float :: ·)
  | 'V' :: cs => (readFrom? 0 cs).map (nest brackets void :: ·)
  | 'L' :: cs => readObject? brackets [] cs
  | '[' :: cs => readFrom? (brackets + 1) cs
  | _ => none

/-- Reads the name of a class up to its semicolon, of which the first characters have been read. -/
def readObject? (brackets : Nat) (name : List Char) : List Char → Option (List Descriptor)
  | [] => none
  | ';' :: cs => (readFrom? 0 cs).map (nest brackets (object (String.ofList name)) :: ·)
  | c :: cs => readObject? brackets (name ++ [c]) cs

end

/-- Reads any number of descriptors. -/
def readAll? (cs : List Char) : Option (List Descriptor) := readFrom? 0 cs

/-- Reads one descriptor. -/
def read? (cs : List Char) : Option Descriptor :=
  match readAll? cs with
  | some [d] => some d
  | _ => none

/-- Whether the names of classes in a descriptor are made of letters and slashes. -/
def isLegible : Descriptor → Bool
  | object className => className.toList.all fun c => c.isAlpha || c == '/'
  | array element => element.isLegible
  | _ => true

theorem readObject?_append {brackets : Nat} {front name rest : List Char} (h : ';' ∉ name) :
    readObject? brackets front (name ++ ';' :: rest) =
      (readFrom? 0 rest).map (nest brackets (object (String.ofList (front ++ name))) :: ·) := by
  induction name generalizing front with
  | nil => simp [readObject?]
  | cons c name ih =>
    obtain ⟨other, h⟩ := List.ne_and_not_mem_of_not_mem_cons h
    rw [List.cons_append, readObject?]
    · rw [ih h, List.append_assoc, List.singleton_append]
    · exact fun same => other same.symm

/-- A descriptor is read back, in front of any others. -/
theorem readFrom?_text {d : Descriptor} (h : d.isLegible = true) (brackets : Nat)
    (rest : List Char) :
    readFrom? brackets (d.text.toList ++ rest) = (readFrom? 0 rest).map (nest brackets d :: ·) := by
  induction d generalizing brackets with
  | object className =>
    have noEnd : ';' ∉ className.toList := fun mem => by simpa using List.all_eq_true.1 h _ mem
    have text : (object className).text.toList ++ rest =
        'L' :: (className.toList ++ ';' :: rest) := by simp [text]
    rw [text, readFrom?, readObject?_append noEnd]
    simp
  | array element ih =>
    have text : (array element).text.toList ++ rest = '[' :: (element.text.toList ++ rest) := by
      simp [text]
    rw [text, readFrom?, ih h]
    rfl
  | _ => simp [text, readFrom?]

theorem readAll?_text {ds : List Descriptor} (h : ∀ d ∈ ds, d.isLegible = true) :
    readAll? (ds.flatMap fun d => d.text.toList) = some ds := by
  induction ds with
  | nil => rfl
  | cons d ds ih =>
    obtain ⟨first, others⟩ := List.forall_mem_cons.1 h
    have rest : readFrom? 0 (ds.flatMap fun d => d.text.toList) = some ds := ih others
    rw [readAll?, List.flatMap_cons, readFrom?_text first, rest]
    rfl

theorem read?_text {d : Descriptor} (h : d.isLegible = true) : read? d.text.toList = some d := by
  have all := readAll?_text (List.forall_mem_singleton.2 h)
  rw [List.flatMap_singleton] at all
  rw [read?, all]

/-- The text of a descriptor has letters, slashes, brackets and semicolons only. -/
theorem notMem_text {d : Descriptor} (h : d.isLegible = true) {c : Char}
    (other : (c.isAlpha || c == '/' || c == '[' || c == ';') = false) : c ∉ d.text.toList := by
  simp only [Bool.or_eq_false_iff, beq_eq_false_iff_ne] at other
  obtain ⟨⟨⟨letter, slash⟩, bracket⟩, semicolon⟩ := other
  have ne {d : Char} (isLetter : d.isAlpha = true) : c ≠ d := by
    rintro rfl
    rw [isLetter] at letter
    cases letter
  induction d with
  | object className =>
    have inName : c ∉ className.toList := fun mem => by
      have allowed := List.all_eq_true.1 h _ mem
      simp [letter, slash] at allowed
    simp [text, inName, semicolon, ne (show 'L'.isAlpha = true from rfl)]
  | array element ih => simp [text, bracket, ih h]
  | boolean => simpa [text] using ne (show 'Z'.isAlpha = true from rfl)
  | int => simpa [text] using ne (show 'I'.isAlpha = true from rfl)
  | float => simpa [text] using ne (show 'F'.isAlpha = true from rfl)
  | void => simpa [text] using ne (show 'V'.isAlpha = true from rfl)

end Descriptor

/-! ### References -/

/-- Whether a name has none of the characters that stand behind a name or before it. -/
def isReferable (name : String) : Bool :=
  name.toList.all fun c => c != ' ' && c != '/' && c != '(' && c != '$'

theorem notMem_of_isReferable {name : String} (h : isReferable name = true) :
    ' ' ∉ name.toList ∧ '/' ∉ name.toList ∧ '(' ∉ name.toList ∧ '$' ∉ name.toList := by
  have all := List.all_eq_true.1 h
  refine ⟨fun mem => ?_, fun mem => ?_, fun mem => ?_, fun mem => ?_⟩ <;> cases all _ mem

namespace FieldName

/-- The name of the variable or function that a field belongs to. -/
def base : FieldName → String
  | named name => name
  | result function _ => function

/-- Reads the name of a field. That of a result has a dollar sign in it. -/
def read? (cs : List Char) : Option FieldName :=
  match cutFirst? '$' cs with
  | none => some (named (String.ofList cs))
  | some (function, 'r' :: 'e' :: 't' :: index) =>
    (readNat? index).map (result (String.ofList function))
  | some _ => none

theorem toList_result (function : String) (i : Nat) :
    (result function i).text.toList = function.toList ++ '$' :: ("ret" ++ toString i).toList := by
  simp only [text, String.toList_append, List.append_assoc]
  rfl

theorem read?_text {f : FieldName} (h : isReferable f.base = true) :
    read? f.text.toList = some f := by
  obtain ⟨-, -, -, noDollar⟩ := notMem_of_isReferable h
  cases f with
  | named name =>
    have none : cutFirst? '$' name.toList = none := cutFirst?_eq_none noDollar
    simp [text, read?, none]
  | result function i =>
    have name : '$' ∉ function.toList := noDollar
    have number : ("ret" ++ toString i).toList = 'r' :: 'e' :: 't' :: i.repr.toList := by simp
    rw [toList_result, number, read?, cutFirst?_append name]
    simp

/-- The characters of the name of a field that do not end a name. -/
theorem notMem_text {f : FieldName} (h : isReferable f.base = true) :
    ' ' ∉ f.text.toList ∧ '/' ∉ f.text.toList := by
  obtain ⟨noBlank, noSlash, -, -⟩ := notMem_of_isReferable h
  cases f with
  | named name => exact ⟨noBlank, noSlash⟩
  | result function i =>
    have digits {c : Char} (other : c.isDigit = false) : c ∉ Nat.toDigits 10 i := fun mem => by
      rw [Nat.isDigit_of_mem_toDigits (by decide) (by decide) mem] at other
      cases other
    have blank := digits (c := ' ') rfl
    have slash := digits (c := '/') rfl
    simp only [base] at noBlank noSlash
    simp [toList_result, noBlank, noSlash, blank, slash]

end FieldName

namespace FieldRef

/-- Reads a reference to a field. The last blank is in front of the descriptor, and the last slash
before it is in front of the name. -/
def read? (cs : List Char) : Option FieldRef := do
  let (path, descriptor) ← cutLast? ' ' cs
  let (owner, name) ← cutLast? '/' path
  return ⟨String.ofList owner, ← FieldName.read? name, ← Descriptor.read? descriptor⟩

/-- Whether a field can be read back from a reference to it, whatever the name of its class is. -/
def isLegible (f : FieldRef) : Bool := isReferable f.name.base && f.descriptor.isLegible

theorem read?_text {f : FieldRef} (h : f.isLegible = true) : read? f.text.toList = some f := by
  obtain ⟨name, descriptor⟩ := Bool.and_eq_true_iff.1 h
  have text : f.text.toList = (f.owner.toList ++ '/' :: f.name.text.toList) ++
      ' ' :: f.descriptor.text.toList := by
    simp [text]
  rw [read?, text, cutLast?_append (Descriptor.notMem_text descriptor rfl)]
  simp [cutLast?_append (FieldName.notMem_text name).2, FieldName.read?_text name,
    Descriptor.read?_text descriptor]

end FieldRef

namespace MethodType

/-- Reads the descriptor of a method behind its opening parenthesis. -/
def read? (cs : List Char) : Option MethodType := do
  let (params, result) ← cutFirst? ')' cs
  return ⟨← Descriptor.readAll? params, ← Descriptor.read? result⟩

/-- Whether all names of classes in a descriptor are made of letters and slashes. -/
def isLegible (m : MethodType) : Bool := m.params.all Descriptor.isLegible && m.result.isLegible

theorem toList_text (m : MethodType) :
    m.text.toList = '(' :: ((m.params.flatMap fun d => d.text.toList) ++
      ')' :: m.result.text.toList) := by
  simp [text, List.flatMap_map]

theorem notMem_params {m : MethodType} (h : m.isLegible = true) {c : Char}
    (other : (c.isAlpha || c == '/' || c == '[' || c == ';') = false) :
    c ∉ m.params.flatMap fun d => d.text.toList := by
  have params := List.all_eq_true.1 (Bool.and_eq_true_iff.1 h).1
  intro mem
  obtain ⟨d, param, mem⟩ := List.mem_flatMap.1 mem
  exact Descriptor.notMem_text (params d param) other mem

theorem read?_text {m : MethodType} (h : m.isLegible = true) :
    read? ((m.params.flatMap fun d => d.text.toList) ++ ')' :: m.result.text.toList) = some m := by
  obtain ⟨params, result⟩ := Bool.and_eq_true_iff.1 h
  rw [read?, cutFirst?_append (notMem_params h rfl)]
  simp [Descriptor.readAll?_text (List.all_eq_true.1 params), Descriptor.read?_text result]

/-- There is one opening parenthesis in the descriptor of a method, and no blank. -/
theorem notMem_text {m : MethodType} (h : m.isLegible = true) {c : Char}
    (other : (c.isAlpha || c == '/' || c == '[' || c == ';' || c == ')') = false) :
    c ∉ (m.params.flatMap fun d => d.text.toList) ++ ')' :: m.result.text.toList := by
  obtain ⟨inDescriptor, notClosing⟩ := Bool.or_eq_false_iff.1 other
  have result := Descriptor.notMem_text (Bool.and_eq_true_iff.1 h).2 inDescriptor
  simp only [List.mem_append, List.mem_cons, not_or]
  exact ⟨notMem_params h inDescriptor, by simpa using notClosing, result⟩

end MethodType

namespace Signature

/-- Reads a name and the descriptor behind it, from its last opening parenthesis on. -/
def read? (cs : List Char) : Option Signature := do
  let (name, type) ← cutLast? '(' cs
  return ⟨String.ofList name, ← MethodType.read? type⟩

/-- Whether a method can be read back from a reference to it, whatever the name of its class is. -/
def isLegible (s : Signature) : Bool := isReferable s.name && s.type.isLegible

theorem toList_text (s : Signature) :
    s.text.toList = s.name.toList ++ s.type.text.toList := by simp [text]

theorem read?_text {s : Signature} (h : s.isLegible = true) : read? s.text.toList = some s := by
  obtain ⟨-, type⟩ := Bool.and_eq_true_iff.1 h
  rw [read?, toList_text, MethodType.toList_text, cutLast?_append (MethodType.notMem_text type rfl)]
  simp [MethodType.read?_text type]

/-- There is no blank in a legible signature. -/
theorem blank_notMem_text {s : Signature} (h : s.isLegible = true) : ' ' ∉ s.text.toList := by
  obtain ⟨name, type⟩ := Bool.and_eq_true_iff.1 h
  rw [toList_text, MethodType.toList_text, List.mem_append, not_or, List.mem_cons, not_or]
  exact ⟨(notMem_of_isReferable name).1, by decide, MethodType.notMem_text type rfl⟩

end Signature

namespace MethodRef

/-- Reads a reference to a method. The last opening parenthesis is in front of the descriptor, and
the last slash before it is in front of the name. -/
def read? (cs : List Char) : Option MethodRef := do
  let (path, type) ← cutLast? '(' cs
  let (owner, name) ← cutLast? '/' path
  return ⟨String.ofList owner, String.ofList name, ← MethodType.read? type⟩

theorem read?_text {m : MethodRef} (h : m.signature.isLegible = true) :
    read? m.text.toList = some m := by
  obtain ⟨name, type⟩ := Bool.and_eq_true_iff.1 h
  have text : m.text.toList = (m.owner.toList ++ '/' :: m.signature.name.toList) ++
      '(' :: ((m.signature.type.params.flatMap fun d => d.text.toList) ++
        ')' :: m.signature.type.result.text.toList) := by
    simp [text, Signature.toList_text, MethodType.toList_text]
  rw [read?, text, cutLast?_append (MethodType.notMem_text type rfl)]
  simp [cutLast?_append (notMem_of_isReferable name).2.1, MethodType.read?_text type]

end MethodRef

/-! ### Labels and constants -/

/-- The label with a given word in front of its number. -/
def Label.ofWord? (word : String) (n : Nat) : Option Label :=
  match word with
  | "else" => some (elseOf n)
  | "endif" => some (endOf n)
  | "while_top" => some (loopTop n)
  | "while_end" => some (loopEnd n)
  | "sc" => some (join n)
  | _ => none

/-- Reads a label. Its number stands behind the last underscore. -/
def Label.read? (cs : List Char) : Option Label := do
  let (word, number) ← cutLast? '_' cs
  ofWord? (String.ofList word) (← readNat? number)

theorem Label.read?_stem (word : String) (n : Nat) :
    read? ((word ++ "_").toList ++ Nat.toDigits 10 n) = ofWord? word n := by
  have digits : '_' ∉ Nat.toDigits 10 n := fun mem => by
    cases Nat.isDigit_of_mem_toDigits (by decide) (by decide) mem
  have text : (word ++ "_").toList ++ Nat.toDigits 10 n = word.toList ++
      '_' :: Nat.toDigits 10 n := by simp
  rw [read?, text, cutLast?_append digits]
  simp

theorem Label.read?_text {l : Label} (numbered : l.stem? ≠ none) :
    read? l.text.toList = some l := by
  obtain ⟨stem, found⟩ := Option.ne_none_iff_exists'.1 numbered
  rw [text_eq found]
  cases l with
  | elseOf n => obtain rfl := Option.some.inj found; exact read?_stem "else" n
  | endOf n => obtain rfl := Option.some.inj found; exact read?_stem "endif" n
  | loopTop n => obtain rfl := Option.some.inj found; exact read?_stem "while_top" n
  | loopEnd n => obtain rfl := Option.some.inj found; exact read?_stem "while_end" n
  | join n => obtain rfl := Option.some.inj found; exact read?_stem "sc" n
  | named name => cases found

/-- A label starts neither with a tabulator nor with a full stop. -/
theorem Label.exists_text_cons {l : Label} (numbered : l.stem? ≠ none) :
    ∃ c cs, l.text.toList = c :: cs ∧ c ≠ '\t' ∧ c ≠ '.' := by
  obtain ⟨stem, found⟩ := Option.ne_none_iff_exists'.1 numbered
  rw [text_eq found]
  cases l <;> cases found <;> exact ⟨_, _, rfl, by decide, by decide⟩

/-- Reads a constant: a number with a point, one without, or a string token. -/
def Constant.read? (cs : List Char) : Option Constant :=
  if '"' ∈ cs then
    match tokenize (String.ofList cs) with
    | .ok [⟨.string text, _⟩] => some (string text)
    | _ => none
  else if '.' ∈ cs then (Binary32.read? (String.ofList cs)).map float
  else (readInt? cs).map int

/-- Whether a constant can be read back: a float is finite, and a string has the characters of a
string token. -/
def Constant.Legible : Constant → Prop
  | int _ => True
  | float x => x.isFinite = true
  | string text => (Token.string text).Legal

theorem Constant.read?_text {c : Constant} (h : c.Legible) : read? c.text.toList = some c := by
  cases c with
  | int i =>
    have digits (n : Nat) : ∀ c ∈ Nat.toDigits 10 n, c.isDigit = true ∨ c = '-' :=
      fun _ mem => .inl (isDigit_of_mem_decimalDigits mem)
    have characters : ∀ c ∈ i.repr.toList, c.isDigit = true ∨ c = '-' := by
      rw [Int.repr_eq_if]
      split
      · simpa using digits _
      · simpa using digits _
    have noQuote : '"' ∉ i.repr.toList := fun mem => by simpa using characters _ mem
    have noPoint : '.' ∉ i.repr.toList := fun mem => by simpa using characters _ mem
    have text : (int i).text = i.repr := rfl
    rw [text, read?, if_neg noQuote, if_neg noPoint, readInt?_repr]
    rfl
  | float x =>
    obtain ⟨point, characters⟩ := Binary32.literal_characters h
    have noQuote : '"' ∉ x.literal.toList := fun mem => by simpa using characters _ mem
    rw [text, read?, if_neg noQuote, if_pos point, String.ofList_toList, Binary32.read?_literal h]
    rfl
  | string text =>
    have quote : '"' ∈ (Token.string text).spelling.toList := by simp [Token.spelling]
    have spelling : (string text).text = (Token.string text).spelling := rfl
    rw [spelling, read?, if_pos quote, String.ofList_toList,
      Token.Legal.tokenize_alone (t := .string text) h]

/-! ### Instructions -/

/-- The operands of the instruction that makes an array of numbers or truth values. -/
def ArrayType.primitives : List (String × ArrayType) :=
  [("boolean", boolean), ("int", int), ("float", float)]

/-- The operands of the instruction that makes an array of references. -/
def ArrayType.references : List (String × ArrayType) := [("java/lang/String", string)]

namespace Instr

/-- The instructions that are a single word. -/
def words : List (String × Instr) :=
  [("iconst_0", intConst false), ("iconst_1", intConst true), ("fconst_0", floatZero),
    ("aconst_null", nullConst), ("aload_0", loadThis), ("dup", dup), ("i2f", intToFloat),
    ("return", ret), ("baload", elementLoad .byte), ("iaload", elementLoad .int),
    ("faload", elementLoad .float), ("aaload", elementLoad .ref), ("bastore", elementStore .byte),
    ("iastore", elementStore .int), ("fastore", elementStore .float),
    ("aastore", elementStore .ref), ("iadd", arith .int .add), ("isub", arith .int .sub),
    ("imul", arith .int .mul), ("idiv", arith .int .div), ("irem", arith .int .rem),
    ("fadd", arith .float .add), ("fsub", arith .float .sub), ("fmul", arith .float .mul),
    ("fdiv", arith .float .div), ("frem", arith .float .rem), ("fcmpg", floatCompare true),
    ("fcmpl", floatCompare false)]

/-- The words of instructions that compare with zero and jump, and of those that compare two
integers and jump. -/
def jumps : List (String × (Label → Instr)) :=
  [("ifeq", ifZero .eq), ("ifne", ifZero .ne), ("iflt", ifZero .lt), ("ifge", ifZero .ge),
    ("ifgt", ifZero .gt), ("ifle", ifZero .le), ("if_icmpeq", ifCompare .eq),
    ("if_icmpne", ifCompare .ne), ("if_icmplt", ifCompare .lt), ("if_icmpge", ifCompare .ge),
    ("if_icmpgt", ifCompare .gt), ("if_icmple", ifCompare .le), ("goto", goto)]

/-- The words of instructions with a local slot. -/
def slots : List (String × (Nat → Instr)) :=
  [("iload", load .int), ("fload", load .float), ("aload", load .ref), ("istore", store .int),
    ("fstore", store .float), ("astore", store .ref)]

/-- The words of instructions with a reference to a field. -/
def fields : List (String × (FieldRef → Instr)) :=
  [("getstatic", getStatic), ("putstatic", putStatic)]

/-- The words of instructions with a reference to a method. -/
def methods : List (String × (MethodRef → Instr)) :=
  [("invokestatic", invokeStatic), ("invokevirtual", invokeVirtual),
    ("invokespecial", invokeSpecial)]

/-- What is read behind the first word of an instruction with an operand. -/
def readers : List (String × (List Char → Option Instr)) :=
  [("ldc", fun cs => (Constant.read? cs).map ldc),
    ("new", fun cs => some (newObject (String.ofList cs))),
    ("newarray", fun cs => (ArrayType.primitives.lookup (String.ofList cs)).map newArray),
    ("anewarray", fun cs => (ArrayType.references.lookup (String.ofList cs)).map newArray)] ++
  slots.map (Prod.map id fun i cs => (readNat? cs).map i) ++
  fields.map (Prod.map id fun i cs => (FieldRef.read? cs).map i) ++
  methods.map (Prod.map id fun i cs => (MethodRef.read? cs).map i) ++
  jumps.map (Prod.map id fun i cs => (Label.read? cs).map i)

/-- Reads an instruction. -/
def read? (cs : List Char) : Option Instr :=
  match cutFirst? ' ' cs with
  | none => words.lookup (String.ofList cs)
  | some (word, operand) => (readers.lookup (String.ofList word)).bind fun read => read operand

/-- Whether an instruction can be read back. -/
def Legible : Instr → Prop
  | ldc c => c.Legible
  | getStatic f | putStatic f => f.isLegible = true
  | invokeStatic m | invokeVirtual m | invokeSpecial m => m.signature.isLegible = true
  | arith kind _ => kind ≠ .ref
  | ifCompare _ l | ifZero _ l | goto l => l.stem? ≠ none
  | _ => True

theorem read?_word {i : Instr} {word : String} (one : ' ' ∉ word.toList) (text : i.text = word)
    (listed : words.lookup word = some i) : read? i.text.toList = some i := by
  rw [text, read?, cutFirst?_eq_none one, String.ofList_toList]
  exact listed

theorem read?_words {i : Instr} (word operand : String) {read : List Char → Option Instr}
    (one : ' ' ∉ word.toList) (text : i.text = word ++ " " ++ operand)
    (listed : readers.lookup word = some read) (reads : read operand.toList = some i) :
    read? i.text.toList = some i := by
  have characters : i.text.toList = word.toList ++ ' ' :: operand.toList := by simp [text]
  rw [characters, read?, cutFirst?_append one]
  simp only [String.ofList_toList, listed, Option.bind_some, reads]

/-- An instruction with an operand of a kind that is read back. -/
theorem read?_of {α : Type} {read : List Char → Option α} {make : α → Instr} {a : α} (word : String)
    {operand : String} (reads : read operand.toList = some a) (one : ' ' ∉ word.toList)
    (text : (make a).text = word ++ " " ++ operand)
    (listed : readers.lookup word = some fun cs => (read cs).map make) :
    Instr.read? (make a).text.toList = some (make a) :=
  read?_words word operand one text listed (by rw [reads, Option.map_some])

theorem read?_slot (n : Nat) : readNat? (toString n).toList = some n := by
  rw [Nat.toString_eq_repr, Nat.toList_repr, readNat?_toDigits]

/-- An instruction is read back. -/
theorem read?_text {i : Instr} (h : i.Legible) : read? i.text.toList = some i := by
  cases i with
  | ldc c => exact read?_of "ldc" (Constant.read?_text h) (by decide) rfl rfl
  | load kind slot =>
    exact read?_of (kind.letter ++ "load") (read?_slot slot) (by cases kind <;> decide)
      (by cases kind <;> rfl) (by cases kind <;> rfl)
  | store kind slot =>
    exact read?_of (kind.letter ++ "store") (read?_slot slot) (by cases kind <;> decide)
      (by cases kind <;> rfl) (by cases kind <;> rfl)
  | getStatic f => exact read?_of "getstatic" (FieldRef.read?_text h) (by decide) rfl rfl
  | putStatic f => exact read?_of "putstatic" (FieldRef.read?_text h) (by decide) rfl rfl
  | invokeStatic m => exact read?_of "invokestatic" (MethodRef.read?_text h) (by decide) rfl rfl
  | invokeVirtual m => exact read?_of "invokevirtual" (MethodRef.read?_text h) (by decide) rfl rfl
  | invokeSpecial m => exact read?_of "invokespecial" (MethodRef.read?_text h) (by decide) rfl rfl
  | newObject className =>
    exact read?_words "new" className (by decide) rfl rfl (by rw [String.ofList_toList])
  | newArray type =>
    cases type with
    | string => exact read?_words "anewarray" "java/lang/String" (by decide) rfl rfl rfl
    | boolean => exact read?_words "newarray" "boolean" (by decide) rfl rfl rfl
    | int => exact read?_words "newarray" "int" (by decide) rfl rfl rfl
    | float => exact read?_words "newarray" "float" (by decide) rfl rfl rfl
  | ifCompare code l =>
    exact read?_of ("if_icmp" ++ code.text) (Label.read?_text h) (by cases code <;> decide) rfl
      (by cases code <;> rfl)
  | ifZero code l =>
    exact read?_of ("if" ++ code.text) (Label.read?_text h) (by cases code <;> decide) rfl
      (by cases code <;> rfl)
  | goto l => exact read?_of "goto" (Label.read?_text h) (by decide) rfl rfl
  | arith kind op =>
    cases kind with
    | ref => exact absurd rfl h
    | _ => cases op <;> exact read?_word (by decide) rfl rfl
  | elementLoad kind | elementStore kind => cases kind <;> exact read?_word (by decide) rfl rfl
  | intConst value | floatCompare value => cases value <;> exact read?_word (by decide) rfl rfl
  | floatZero | nullConst | loadThis | dup | intToFloat | ret =>
    exact read?_word (by decide) rfl rfl

end Instr

/-! ### Lines -/

/-- What the words in front of the signature of a method say about the access to it. -/
def Access.ofWords? (words : String) : Option Access :=
  [("public", instance_), ("static", initializer), ("public static", static_)].lookup words

namespace Line

/-- Reads the limit of a method. -/
def readLimit? (cs : List Char) : Option Line := do
  let (word, number) ← cutFirst? ' ' cs
  let limit ← [("stack", limitStack), ("locals", limitLocals)].lookup (String.ofList word)
  return limit (← readNat? number)

/-- Reads a line that is indented: a limit or an instruction. -/
def readIndented? (cs : List Char) : Option Line :=
  match cutFirst? ' ' cs with
  | some ('.' :: 'l' :: 'i' :: 'm' :: 'i' :: 't' :: [], rest) => readLimit? rest
  | _ => (Instr.read? cs).map instr

/-- Reads the name of the class. -/
def readClass? (cs : List Char) : Option Line := do
  let (access, name) ← cutFirst? ' ' cs
  if String.ofList access = "public" then some (classHeader (String.ofList name)) else none

/-- Reads a field. The last two words are its name and its descriptor. -/
def readField? (cs : List Char) : Option Line := do
  let (declaration, descriptor) ← cutLast? ' ' cs
  let (access, name) ← cutLast? ' ' declaration
  if String.ofList access = "public static" then
    return field (← FieldName.read? name) (← Descriptor.read? descriptor)
  else none

/-- Reads the first line of a method. The last word is its signature. -/
def readMethod? (cs : List Char) : Option Line := do
  let (access, signature) ← cutLast? ' ' cs
  return method (← Access.ofWords? (String.ofList access)) (← Signature.read? signature)

/-- What is read behind the first word of a line about a class, a field or a method. -/
def directives : List (String × (List Char → Option Line)) :=
  [("class", readClass?), ("super", fun cs => some (superclass (String.ofList cs))),
    ("field", readField?), ("method", readMethod?),
    ("end", fun cs => if String.ofList cs = "method" then some endMethod else none)]

/-- Reads a line. A label has a colon at its end. -/
def read? : List Char → Option Line
  | [] => some blank
  | '\t' :: cs => readIndented? cs
  | '.' :: cs => do
    let (word, rest) ← cutFirst? ' ' cs
    (← directives.lookup (String.ofList word)) rest
  | cs =>
    match cutLast? ':' cs with
    | some (l, []) => (Label.read? l).map label
    | _ => none

/-- Whether a line can be read back. -/
def Legible : Line → Prop
  | field name descriptor => isReferable name.base = true ∧ descriptor.isLegible = true
  | method _ signature => signature.isLegible = true
  | label l => l.stem? ≠ none
  | instr i => i.Legible
  | _ => True

/-- A line that starts with a full stop is read by its first word. -/
theorem read?_directive {l : Line} (word : String) (rest : List Char)
    {read : List Char → Option Line} (one : ' ' ∉ word.toList)
    (text : l.text.toList = '.' :: (word.toList ++ ' ' :: rest))
    (listed : directives.lookup word = some read) (reads : read rest = some l) :
    read? l.text.toList = some l := by
  rw [text, read?, cutFirst?_append one]
  simpa [listed] using reads

/-- No instruction begins with the word of a limit. -/
theorem readIndented?_text {i : Instr} (h : i.Legible) :
    readIndented? i.text.toList = some (instr i) := by
  unfold readIndented?
  split
  · rename_i rest cut
    have read := Instr.read?_text h
    rw [Instr.read?, cut] at read
    cases read
  · rw [Instr.read?_text h]
    rfl

theorem readLimit?_text {word : String} {limit : Nat → Line} (one : ' ' ∉ word.toList)
    (listed : [("stack", limitStack), ("locals", limitLocals)].lookup word = some limit) (n : Nat) :
    readLimit? (word.toList ++ ' ' :: Nat.toDigits 10 n) = some (limit n) := by
  rw [readLimit?, cutFirst?_append one]
  simp [listed]

theorem readMethod?_text {access : Access} {signature : Signature}
    (h : signature.isLegible = true) :
    readMethod? (access.text.toList ++ ' ' :: signature.text.toList) =
      some (method access signature) := by
  have words : Access.ofWords? access.text = some access := by cases access <;> rfl
  rw [readMethod?, cutLast?_append (Signature.blank_notMem_text h)]
  simp [words, Signature.read?_text h]

theorem readField?_text {name : FieldName} {d : Descriptor} (named : isReferable name.base = true)
    (typed : d.isLegible = true) :
    readField? ("public static".toList ++ ' ' :: name.text.toList ++ ' ' :: d.text.toList) =
      some (field name d) := by
  rw [readField?, cutLast?_append (Descriptor.notMem_text typed rfl)]
  simp only [Option.bind_eq_bind, Option.bind_some, cutLast?_append (FieldName.notMem_text named).1,
    String.ofList_toList, if_true, FieldName.read?_text named, Descriptor.read?_text typed]
  rfl

/-- A line with a limit is read back. -/
theorem read?_limit {l : Line} (word : String) {limit : Nat → Line} {n : Nat}
    (one : ' ' ∉ word.toList)
    (listed : [("stack", limitStack), ("locals", limitLocals)].lookup word = some limit)
    (text : l.text = "\t.limit " ++ word ++ " " ++ n.repr) (same : limit n = l) :
    read? l.text.toList = some l := by
  have characters : l.text.toList =
      '\t' :: (".limit".toList ++ ' ' :: (word.toList ++ ' ' :: Nat.toDigits 10 n)) := by
    simp [text]
  rw [characters, read?, readIndented?, cutFirst?_append (by decide), ← same]
  exact readLimit?_text one listed n

/-- A line is read back. -/
theorem read?_text {l : Line} (h : l.Legible) : read? l.text.toList = some l := by
  cases l with
  | blank | endMethod => rfl
  | classHeader name =>
    have named : readClass? ("public".toList ++ ' ' :: name.toList) = some (classHeader name) := by
      rw [readClass?, cutFirst?_append (by decide)]
      simp
    refine read?_directive "class" _ (by decide) ?_ rfl named
    exact String.toList_append
  | superclass name =>
    refine read?_directive "super" name.toList (by decide) ?_ rfl (by simp)
    exact String.toList_append
  | field name descriptor =>
    refine read?_directive "field" _ (by decide) ?_ rfl (readField?_text h.1 h.2)
    rw [show (field name descriptor).text = ".field public static " ++ name.text ++ " " ++
      descriptor.text from rfl]
    simp
  | method access signature =>
    refine read?_directive "method" _ (by decide) ?_ rfl (readMethod?_text h)
    rw [show (method access signature).text = ".method " ++ access.text ++ " " ++
      signature.text from rfl]
    simp
  | limitStack n => exact read?_limit "stack" (n := n) (by decide) rfl rfl rfl
  | limitLocals n => exact read?_limit "locals" (n := n) (by decide) rfl rfl rfl
  | label l =>
    have text : (label l).text.toList = l.text.toList ++ [':'] := String.toList_append
    have cut : cutLast? ':' (l.text.toList ++ [':']) = some (l.text.toList, []) :=
      cutLast?_append (by simp)
    have read := Label.read?_text h
    obtain ⟨c, cs, characters, noTab, noStop⟩ := Label.exists_text_cons h
    rw [text, characters, List.cons_append, read?]
    · rw [← List.cons_append, ← characters]
      simp only [cut, read, Option.map_some]
    · simp
    · rintro _ ⟨⟩
      exact noTab rfl
    · rintro _ ⟨⟩
      exact noStop rfl
  | instr i =>
    rw [show (instr i).text.toList = '\t' :: i.text.toList from String.toList_append]
    exact readIndented?_text h

end Line

/-! ### Texts -/

/-- Reads a text line by line. There is a line break at the end of each line. -/
def readLines? (text : String) : Option (List Line) :=
  let parts := text.toList.splitOn '\n'
  if parts.getLast? = some [] then parts.dropLast.mapM Line.read? else none

/-- The class of a text. -/
def ClassFile.read? (text : String) : Option ClassFile := (readLines? text).map ofLines

end MiniGo
