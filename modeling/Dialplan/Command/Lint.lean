import Dialplan.Check
import Dialplan.Command.Host
import Dialplan.Exchange.Finding
import Dialplan.Hazard
import Dialplan.Json.Writer
/-!
# The command that checks files

One file is checked, or every file below a folder whose name ends in `.xml`. The findings of a file
are those of the rules, or the fault where the text is no rule set, followed by the applications in
it that start processes.

* `findingsIn`: the findings of a text;
* `fileLines`, `summary`: what is printed in words;
* `lint`: the command; it gives the number of errors.
-/

namespace Dialplan.Command

/-- How findings are printed. -/
inductive Style where
  | text
  | json
deriving DecidableEq, Repr

/-! ## 1. Findings of a text -/

/-- The fault that keeps a text from being a rule set, as a finding. -/
def faultFinding (e : Markup.Fault) : Finding :=
  ⟨.error, "parse-error", e.message, .offset e.pos, none⟩

/-- What a text reads as, looked at by the rules. -/
def treeFindings (applications : Option (List String)) : Except Markup.Fault Tree → List Finding
  | .ok tree => tree.findings (rulesFor applications)
  | .error e => [faultFinding e]

/-- All findings of a text. -/
def findingsIn (applications : Option (List String)) (source : String) : List Finding :=
  treeFindings applications (Markup.read source) ++ Hazard.scan source

/-! ## 2. In words -/

/-- The lines of a finding. -/
def findingLines (f : Finding) : List String :=
  ("  " ++ f.severity.text ++ " [" ++ f.rule ++ "] " ++ f.message ++ " (" ++ f.place.text ++ ")") ::
    (f.suggestion.map fun s => "    help: " ++ s).toList

/-- The lines of a file; a file without findings has none. -/
def fileLines (path : String) (findings : List Finding) : List String :=
  if findings.isEmpty then [] else path :: findings.flatMap findingLines ++ [""]

/-- How many findings are of a severity. -/
def countOf (severity : Severity) (findings : List Finding) : Nat :=
  findings.countP fun f => f.severity = severity

/-- The lines at the end. -/
def summary (files : Nat) (findings : List Finding) : List String :=
  let errors := countOf .error findings
  let warnings := countOf .warning findings
  [(if errors > 0 then "✗" else "✓") ++ " Files checked: " ++ toString files] ++
    (if errors > 0 then ["   Errors: " ++ toString errors] else []) ++
    (if warnings > 0 then ["   Warnings: " ++ toString warnings] else [])

/-- The findings of a file in JSON. -/
def fileReport (path : String) (findings : List Finding) : Json :=
  .obj [("file", .str path), ("diagnostics", .list Exchange.ofFinding findings)]

/-! ## 3. Files -/

/-- Whether a place comes no later than another: compared step by step. -/
def noLater : List String → List String → Bool
  | [], _ => true
  | _ :: _, [] => false
  | a :: as, b :: bs => a < b || (a == b && noLater as bs)

/-- Whether a place names a file of markup. -/
def isMarkupFile (place : List String) : Bool :=
  match place.getLast? with
  | some name => FilePath.hasExtension "xml" name
  | none => false

/-- The files of markup among places below a folder, as paths, in order. -/
def markupFiles (folder : String) (places : List (List String)) : List String :=
  ((places.filter isMarkupFile).mergeSort noLater).map fun place => place.foldl FilePath.join folder

variable {m : Type → Type} [Monad m] [Host m]

/-- The files that a path stands for. -/
def inputFiles (path : String) : Work m (List String) := do
  match ← ExceptT.lift (Host.kindOf path) with
  | .file => return [path]
  | .folder => return markupFiles path (← ExceptT.lift (Host.filesBelow path))
  | .nothing => throw (.noInput path)

/-- One file is checked and its findings are printed. -/
def lintFile (applications : Option (List String)) (style : Style) (path : String) :
    Work m (List Finding) := do
  let source ← need path (.unavailable path)
  let findings := findingsIn applications source
  match style with
  | .json => say (fileReport path findings).pretty
  | .text =>
    match Markup.read source with
    | .ok _ => pure ()
    | .error e => complain (Markup.report e source path)
    (fileLines path findings).forM say
  return findings

/-- The files of a path are checked; the number of errors. -/
def lint (p : Project) (path : String) (style : Style) (asked : Option String) : Work m Nat := do
  let applications ← loadApplications p asked
  let files ← inputFiles path
  let findings ← files.mapM (lintFile (applications.map Applications.names) style)
  if style = .text then (summary files.length findings.flatten).forM say
  return countOf .error findings.flatten

end Dialplan.Command
