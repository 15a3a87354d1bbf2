import Dialplan.Exchange.Applications
import Dialplan.Exchange.Settings
import Dialplan.Folder
import Dialplan.Markup.Excerpt
import Dialplan.Markup.Reading
/-!
# What commands ask of a machine

A command reads and writes files and prints; it does so through a `Host`, so that it can run on a
real machine and on one that is a value. What stops a command is a `Fault`.

* `readTree`: the rule set in a file, with a report where it cannot be read;
* `loadProject`, `loadApplications`: the settings of the working folder.
-/

namespace Dialplan.Command

/-! ## 1. Machines -/

/-- What stands at a path. -/
inductive PathKind where
  | nothing
  | file
  | folder
deriving DecidableEq, Repr

/-- What a command can ask of a machine. Paths are written; those that do not start at the top start
    in the working folder. -/
class Host (m : Type → Type) where
  /-- The path of the working folder, from the top. -/
  workingFolder : m String
  kindOf : String → m PathKind
  /-- The text of a file, if it can be had. -/
  readText : String → m (Option String)
  /-- Writes a file anew; whether that went well. -/
  writeText : String → String → m Bool
  /-- The files anywhere below a folder, as steps from it, in any order. -/
  filesBelow : String → m (List (List String))
  /-- Prints to the standard output. -/
  out : String → m Unit
  /-- Prints to the standard error output. -/
  err : String → m Unit

/-- Why a command stops. -/
inductive Fault where
  | badProject (path : String)
  | noApplications (path : String)
  | unreadable (path : String)
  | notARuleSet (path : String)
  | noInput (path : String)
  | badRows (path : String)
  /-- The machine did not give or take a file. -/
  | unavailable (path : String)
deriving DecidableEq, Repr

/-- What the user is told when a command stops. -/
def Fault.message : Fault → String
  | .badProject path => "Invalid " ++ path
  | .noApplications path => "Cannot read applications file " ++ path
  | .unreadable path => "Cannot read " ++ path
  | .notARuleSet path => "✗ Failed to parse " ++ path
  | .noInput path => "Input path does not exist: " ++ path
  | .badRows path => "Invalid detail rows in " ++ path
  | .unavailable path => "File not available: " ++ path

/-- A part of a command on a machine. -/
abbrev Work (m : Type → Type) (α : Type) : Type := ExceptT Fault m α

variable {m : Type → Type} [Monad m] [Host m]

/-! ## 2. Files -/

/-- Prints a line. -/
def say (line : String) : Work m Unit := ExceptT.lift (Host.out (line ++ "\n"))

/-- Prints a line to the standard error output. -/
def complain (line : String) : Work m Unit := ExceptT.lift (Host.err (line ++ "\n"))

/-- The text of a file, or a fault. -/
def need (path : String) (fault : Fault) : Work m String := do
  match ← ExceptT.lift (Host.readText path) with
  | some text => return text
  | none => throw fault

/-- Writes a text and a line end. -/
def keep (path text : String) : Work m Unit := do
  if !(← ExceptT.lift (Host.writeText path (text ++ "\n"))) then throw (.unavailable path)

/-- The text and the rule set in a file. -/
def readTree (path : String) : Work m (String × Tree) := do
  let source ← need path (.unreadable path)
  match Markup.read source with
  | .ok tree => return (source, tree)
  | .error e =>
    complain (Markup.report e source path)
    throw (.notARuleSet path)

/-! ## 3. Settings -/

/-- The name of the file with the settings of a folder. -/
def projectFile : String := "dialplan.config.json"

/-- The settings of the working folder; without such a file, the standard ones. -/
def loadProject : Work m Project := do
  let path := FilePath.join (← ExceptT.lift Host.workingFolder) projectFile
  if (← ExceptT.lift (Host.kindOf path)) = .nothing then return .standard
  let text ← need path (.unavailable path)
  match (Json.read? text).bind Exchange.project? with
  | some p => return p
  | none => throw (.badProject path)

/-- The file of applications: the one asked for, or else the one in the settings. -/
def applicationsPath? (p : Project) (folder : String) (asked : Option String) : Option String :=
  match asked with
  | some path => some path
  | none => p.applicationsFile.map (FilePath.join folder)

/-- The applications of a folder, if there is a list of them. -/
def loadApplications (p : Project) (asked : Option String) : Work m (Option Applications) := do
  match applicationsPath? p (← ExceptT.lift Host.workingFolder) asked with
  | none => return none
  | some path => return some (Exchange.applicationsIn (← need path (.noApplications path)))

end Dialplan.Command
