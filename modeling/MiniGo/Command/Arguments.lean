import MiniGo.Digits
import MiniGo.Emission.Basic

/-!
# Command line arguments

Arguments are read from left to right. Options have a long name, some also a letter; a value follows
the name after `=` or as the next argument, and a letter also directly. What is no option is the
source path, and everything is after `--`. The first argument that makes no sense ends the reading,
and so does a question for the version or for help.
-/

namespace MiniGo.Command

/-- What the command line asks for. -/
structure Arguments where
  source : String
  output? : Option String := none
  options : Options := {}
  dot? : Option String := none
  dumpTables : Bool := false
  verbose : Bool := false
deriving DecidableEq, Repr

/-- An option without a value. -/
inductive Flag where
  | dumpTables
  | verbose
  | help
  | version
deriving DecidableEq, Repr

/-- An option with a value. -/
inductive Setting where
  | output
  | className
  | stackLimit
  | dot
deriving DecidableEq, Repr

/-- An option. -/
inductive Opt where
  | flag (f : Flag)
  | setting (s : Setting)
deriving DecidableEq, Repr

/-- The option with a long name. -/
def Opt.ofLong? : String → Option Opt
  | "output" => some (.setting .output)
  | "class-name" => some (.setting .className)
  | "stack-limit" => some (.setting .stackLimit)
  | "dot" => some (.setting .dot)
  | "dump-tables" => some (.flag .dumpTables)
  | "verbose" => some (.flag .verbose)
  | "help" => some (.flag .help)
  | "version" => some (.flag .version)
  | _ => none

/-- The option with a letter. -/
def Opt.ofLetter? : Char → Option Opt
  | 'o' => some (.setting .output)
  | 'v' => some (.flag .verbose)
  | 'h' => some (.flag .help)
  | 'V' => some (.flag .version)
  | _ => none

/-- What has been read so far. -/
structure Found where
  source? : Option String := none
  output? : Option String := none
  className? : Option String := none
  stackLimit? : Option Nat := none
  dot? : Option String := none
  dumpTables : Bool := false
  verbose : Bool := false
deriving DecidableEq, Repr

/-- Why reading ended before the last argument. -/
inductive Stop where
  | usage
  | help
  | version
deriving DecidableEq, Repr

namespace Found

/-- A path that was not given before and is not empty. -/
def newPath (old : Option String) (path : String) : Except Stop (Option String) :=
  if old.isSome || path.isEmpty then .error .usage else .ok (some path)

/-- Takes the value of a setting. -/
def set (f : Found) (s : Setting) (value : String) : Except Stop Found :=
  match s with
  | .output => do return { f with output? := ← newPath f.output? value }
  | .dot => do return { f with dot? := ← newPath f.dot? value }
  | .className =>
    if f.className?.isSome then .error .usage else .ok { f with className? := some value }
  | .stackLimit =>
    if f.stackLimit?.isSome then .error .usage
    else
      match readNatural? value with
      | some n => .ok { f with stackLimit? := some n }
      | none => .error .usage

/-- Takes a flag. -/
def raise (f : Found) : Flag → Except Stop Found
  | .dumpTables => if f.dumpTables then .error .usage else .ok { f with dumpTables := true }
  | .verbose => if f.verbose then .error .usage else .ok { f with verbose := true }
  | .help => .error .help
  | .version => .error .version

/-- Takes the source path. -/
def position (f : Found) (path : String) : Except Stop Found := do
  return { f with source? := ← newPath f.source? path }

end Found

/-- What an argument is on its own. -/
inductive Form where
  /-- The mark after which all arguments are paths. -/
  | escape
  /-- A long name, with the value after `=` if there is one. -/
  | long (name : String) (value? : Option String)
  /-- One or more letters. -/
  | letters (cs : List Char)
  /-- Anything else. -/
  | plain
deriving DecidableEq, Repr

/-- The form of an argument. -/
def Form.of (arg : String) : Form :=
  match arg.toList with
  | ['-', '-'] => .escape
  | '-' :: '-' :: cs =>
    let name := String.ofList (cs.takeWhile (· != '='))
    match cs.dropWhile (· != '=') with
    | [] => .long name none
    | _ :: value => .long name (some (String.ofList value))
  | '-' :: c :: cs => .letters (c :: cs)
  | _ => .plain

/-- Takes letters. Gives the setting whose value is the next argument, if the last letter is one. -/
def takeLetters (f : Found) : List Char → Except Stop (Found × Option Setting)
  | [] => .ok (f, none)
  | c :: cs =>
    match Opt.ofLetter? c with
    | none => .error .usage
    | some (.flag flag) => do takeLetters (← f.raise flag) cs
    | some (.setting s) =>
      match cs with
      | [] => .ok (f, some s)
      | '=' :: value => do return (← f.set s (String.ofList value), none)
      | value => do return (← f.set s (String.ofList value), none)

/-- Takes a long name. Gives the setting whose value is the next argument, if there is one. -/
def takeLong (f : Found) (name : String) (value? : Option String) :
    Except Stop (Found × Option Setting) :=
  match Opt.ofLong? name, value? with
  | none, _ => .error .usage
  | some (.flag flag), none => do return (← f.raise flag, none)
  | some (.flag _), some _ => .error .usage
  | some (.setting s), none => .ok (f, some s)
  | some (.setting s), some value => do return (← f.set s value, none)

/-- Takes arguments that are all paths. -/
def takePaths (f : Found) : List String → Except Stop Found
  | [] => .ok f
  | path :: paths => do takePaths (← f.position path) paths

/-- Takes arguments; `pending?` is the setting whose value comes next. -/
def takeAll (f : Found) (pending? : Option Setting) : List String → Except Stop Found
  | [] => if pending?.isSome then .error .usage else .ok f
  | arg :: args =>
    match pending?, Form.of arg with
    | some s, .plain => do takeAll (← f.set s arg) none args
    | some _, _ => .error .usage
    | none, .escape => takePaths f args
    | none, .long name value? => do
      let (f, next?) ← takeLong f name value?
      takeAll f next? args
    | none, .letters cs => do
      let (f, next?) ← takeLetters f cs
      takeAll f next? args
    | none, .plain => do takeAll (← f.position arg) none args

/-- Reads the command line. -/
def Arguments.read (args : List String) : Except Stop Arguments := do
  let f ← takeAll {} none args
  match f.source? with
  | none => throw .usage
  | some source =>
    let defaults : Options := {}
    return {
      source
      output? := f.output?
      options := ⟨f.className?.getD defaults.className, f.stackLimit?.getD defaults.stackLimit⟩
      dot? := f.dot?
      dumpTables := f.dumpTables
      verbose := f.verbose }

end MiniGo.Command
