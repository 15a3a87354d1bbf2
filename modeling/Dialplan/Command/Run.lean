import Dialplan.Command.Arguments
import Dialplan.DetailRow
import Dialplan.Exchange.Projection
import Dialplan.Exchange.Row
import Dialplan.Markup.Printing
/-!
# Commands

* `format`: the printed form of a rule set, printed or written in its place;
* `lint`: the checks (in a module of its own);
* `outline`: what the visual editor would show;
* `rollback`: the rule set of a file of detail rows.

`run` does what arguments ask for and gives the exit status: 0 where all went well, 1 where a
command stopped or found errors, 2 where the arguments are not readable.
-/

namespace Dialplan.Command

open Dialplan.Text

variable {m : Type → Type} [Monad m] [Host m]

/-- The printed form of the rule set in a file. A file that has it already, but for blanks at its
    end, is not written. -/
def format (p : Project) (path : String) (write : Bool) : Work m Unit := do
  let (source, tree) ← readTree path
  let formatted := Markup.print p.indent tree
  if !write then say formatted
  else if trimmedEnd source = formatted then say ("✓ " ++ path ++ " (unchanged)")
  else
    keep path formatted
    say ("✓ Formatted " ++ path)

/-- The projection of the rule set in a file, as an outline or in JSON. -/
def outline (p : Project) (path : String) (json : Bool) : Work m Unit := do
  let (_, tree) ← readTree path
  let applications ← loadApplications p none
  let shown := Projection.of tree (applications.getD .none) 1
  if json then say (Exchange.ofProjection shown).pretty
  else ExceptT.lift (Host.out shown.text)

/-- The rows in a text. -/
def rowsIn? (text : String) : Option (List DetailRow) :=
  (Json.read? text).bind (Json.list? Exchange.row?)

/-- The attributes of an extension with a name and a continue flag. -/
def extensionAttributes (name : String) (continues : Bool) : Attributes :=
  .ofPairs [("name", name), ("continue", boolText continues)]

/-- The rule set of a file of detail rows, printed or written to another file. -/
def rollback (p : Project) (details name : String) (continues : Bool) (output : Option String) :
    Work m Unit := do
  match rowsIn? (← need details (.unreadable details)) with
  | none => throw (.badRows details)
  | some rows =>
    let markup := Markup.print p.indent (.ofRows (extensionAttributes name continues) rows)
    match output with
    | none => say markup
    | some path =>
      keep path markup
      say ("✓ Wrote " ++ path)

/-- A command; whether it found no error. -/
def perform : Invocation → Work m Bool := fun i => do
  let p ← loadProject
  match i with
  | .format path write =>
    format p path write
    return true
  | .lint path style applications => return (← lint p path style applications) = 0
  | .outline path json =>
    outline p path json
    return true
  | .rollback details name continues output =>
    rollback p details name continues output
    return true

/-- What is said of arguments that are not readable. -/
def usage : String := "Usage: dialplan [-v] <fmt|lint|tree|rollback> [OPTIONS] [PATH]\n"

/-- Does what arguments ask for; the exit status. -/
def run (args : List String) : m Nat := do
  match invocation? args with
  | none =>
    Host.err usage
    return 2
  | some i =>
    match ← (perform i : Work m Bool).run with
    | .ok clean => return if clean then 0 else 1
    | .error fault =>
      Host.err ("\nError: " ++ fault.message ++ "\n\n")
      return 1

end Dialplan.Command
