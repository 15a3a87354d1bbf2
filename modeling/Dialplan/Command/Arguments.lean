import Dialplan.Command.Lint
import Dialplan.Text.Width
/-!
# Arguments

The first argument names the command, the others belong to it in any order. An option has a long
name after two hyphens and may have a letter after one; letters can stand together. The value of an
option follows in the next argument, after an equals sign, or right after the letter. After `--`
nothing is an option any more. An option given twice, an unknown one or a value missing makes the
arguments unreadable.

* `Invocation`: a command with all it needs to know;
* `invocation?`: the command that arguments stand for.
-/

namespace Dialplan.Command

open Dialplan.Text

/-! ## 1. Options -/

/-- An option of a command. -/
structure Switch where
  long : String
  short : Option Char
  /-- Whether a value belongs to it. -/
  valued : Bool
deriving DecidableEq, Repr

/-- The options that were given, with their values, and the other arguments. -/
structure Given where
  switches : List (String × Option String)
  positional : List String
deriving DecidableEq, Repr

/-- What one argument stands for. -/
inductive Argument where
  | positional (value : String)
  | switches (given : List (String × Option String))
  /-- Options of which the last one waits for its value. -/
  | awaiting (given : List (String × Option String)) (last : String)

/-- Letters after one hyphen. -/
def letters? (known : List Switch) : List Char → Option Argument
  | [] => some (.switches [])
  | c :: rest =>
    match known.find? fun s => s.short = some c with
    | none => none
    | some s =>
      if s.valued then
        match rest with
        | [] => some (.awaiting [] s.long)
        | '=' :: value => some (.switches [(s.long, some (String.ofList value))])
        | value => some (.switches [(s.long, some (String.ofList value))])
      else
        match letters? known rest with
        | some (.switches given) => some (.switches ((s.long, none) :: given))
        | some (.awaiting given last) => some (.awaiting ((s.long, none) :: given) last)
        | _ => none

/-- A long name after two hyphens, maybe with a value. -/
def word? (known : List Switch) (body : List Char) : Option Argument :=
  let (name, value) := match cutAt '=' body with
    | some (name, value) => (String.ofList name, some (String.ofList value))
    | none => (String.ofList body, none)
  match known.find? fun s => s.long = name, value with
  | some s, some v => if s.valued then some (.switches [(name, some v)]) else none
  | some s, none => some (if s.valued then .awaiting [] name else .switches [(name, none)])
  | none, _ => none

/-- What an argument other than `--` stands for. -/
def argument? (known : List Switch) (arg : String) : Option Argument :=
  match arg.toList with
  | '-' :: '-' :: body => word? known body
  | '-' :: c :: body => letters? known (c :: body)
  | _ => some (.positional arg)

/-- Whether an argument can be the value of the option before it. -/
def isValue (arg : String) : Bool := !arg.startsWith "-" || arg = "-"

/-- The arguments of a command; `waiting` is the option that waits for its value. -/
def given? (known : List Switch) : Option String → List String → Option Given
  | none, [] => some ⟨[], []⟩
  | some _, [] => none
  | some name, arg :: rest =>
    if isValue arg then
      (given? known none rest).map fun g => { g with switches := (name, some arg) :: g.switches }
    else none
  | none, arg :: rest =>
    if arg = "--" then some ⟨[], rest⟩
    else match argument? known arg with
      | none => none
      | some (.positional value) =>
        (given? known none rest).map fun g => { g with positional := value :: g.positional }
      | some (.switches given) =>
        (given? known none rest).map fun g => { g with switches := given ++ g.switches }
      | some (.awaiting given last) =>
        (given? known (some last) rest).map fun g => { g with switches := given ++ g.switches }

namespace Given

/-- Whether an option was given. -/
def has (g : Given) (name : String) : Bool := g.switches.any fun s => s.1 == name

/-- The value of an option. -/
def value? (g : Given) (name : String) : Option String := (g.switches.lookup name).join

/-- Whether no option was given twice. -/
def once (g : Given) : Bool := decide (g.switches.map (·.1)).Nodup

/-- The only argument that belongs to no option; it is a path, and no path is empty. -/
def path? (g : Given) : Option String :=
  match g.positional with
  | [path] => if path.isEmpty then none else some path
  | _ => none

/-- The path that is the value of an option, if that was given. -/
def pathValue? (g : Given) (name : String) : Option (Option String) :=
  match g.value? name with
  | some path => if path.isEmpty then none else some (some path)
  | none => some none

end Given

/-! ## 2. Commands -/

/-- A command with all it needs to know. -/
inductive Invocation where
  | format (path : String) (write : Bool)
  | lint (path : String) (style : Style) (applications : Option String)
  | outline (path : String) (json : Bool)
  | rollback (details name : String) (continues : Bool) (output : Option String)
deriving DecidableEq, Repr

/-- The option that every command has. -/
def verbose : Switch := ⟨"verbose", some 'v', false⟩

/-- The options of a command, each given at most once. -/
def options? (known : List Switch) (args : List String) : Option Given :=
  match given? (verbose :: known) none args with
  | some g => if g.once then some g else none
  | none => none

/-- The arguments of `fmt`: one path, and `--write` where the file is to be written anew. -/
def format? (args : List String) : Option Invocation := do
  let g ← options? [⟨"write", some 'w', false⟩] args
  return .format (← g.path?) (g.has "write")

/-- The style with a name; without a name, words. -/
def style? : Option String → Option Style
  | none => some .text
  | some "text" => some .text
  | some "json" => some .json
  | some _ => none

/-- The arguments of `lint`: one path, the style of the report, and a file of applications. -/
def lint? (args : List String) : Option Invocation := do
  let g ← options? [⟨"format", some 'f', true⟩, ⟨"applications", some 'a', true⟩] args
  return .lint (← g.path?) (← style? (g.value? "format")) (← g.pathValue? "applications")

/-- The arguments of `tree`: one path, and `--json` for the projection itself. -/
def outline? (args : List String) : Option Invocation := do
  let g ← options? [⟨"json", none, false⟩] args
  return .outline (← g.path?) (g.has "json")

/-- The arguments of `rollback`, all of them options; only the file of detail rows must be given. -/
def rollback? (args : List String) : Option Invocation := do
  let g ← options? [⟨"details", some 'd', true⟩, ⟨"name", some 'n', true⟩,
    ⟨"continue", none, false⟩, ⟨"output", some 'o', true⟩] args
  let details ← (← g.pathValue? "details")
  if !g.positional.isEmpty then none
  return .rollback details ((g.value? "name").getD "") (g.has "continue") (← g.pathValue? "output")

/-- The command that its name and its arguments stand for. -/
def named? : List String → Option Invocation
  | "fmt" :: args => format? args
  | "lint" :: args => lint? args
  | "tree" :: args => outline? args
  | "rollback" :: args => rollback? args
  | _ => none

/-- The command that arguments stand for; the option that every command has may also stand before
    the command's name. -/
def invocation? : List String → Option Invocation
  | arg :: rest => if arg = "-v" || arg = "--verbose" then named? rest else named? (arg :: rest)
  | [] => none

end Dialplan.Command
