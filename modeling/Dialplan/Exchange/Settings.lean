import Dialplan.Json.Shape
import Dialplan.Settings
/-!
# Settings in JSON

Every column of the three records has a value of its own when it is not given.
-/

namespace Dialplan.Exchange

open Dialplan.Json

/-- Preferences are an object of three members. -/
def ofPreferences (p : Preferences) : Json :=
  .obj [("indent", .str p.indent), ("autocompleteLimit", .nat p.autocompleteLimit),
    ("reconcileDebounceMs", .nat p.quietMillis)]

/-- The preferences in a value; what is not given is as in the standard ones. -/
def preferences? (j : Json) : Option Preferences := do
  let d := Preferences.standard
  match ← columns? [["indent"], ["autocompleteLimit"], ["reconcileDebounceMs"]] j with
  | [indent, limit, quiet] =>
    return ⟨← indent.defaulted d.indent text?, ← limit.defaulted d.autocompleteLimit nat64?,
      ← quiet.defaulted d.quietMillis nat64?⟩
  | _ => none

/-- Metadata are an object of eight members, whatever their values. -/
def ofMetadata (m : Metadata) : Json :=
  .obj [("name", .str m.name), ("number", .str m.number), ("context", .str m.context),
    ("continue", .bool m.continues), ("order", .nat m.order), ("enabled", .bool m.enabled),
    ("description", .str m.description), ("destination", .bool m.destination)]

/-- The metadata in a value; what is not given is as for a new rule set. -/
def metadata? (j : Json) : Option Metadata := do
  let d := Metadata.standard
  match ← columns? [["name"], ["number"], ["context"], ["continue"], ["order"], ["enabled"],
      ["description"], ["destination"]] j with
  | [name, number, context, continues, order, enabled, description, destination] =>
    return { name := ← name.defaulted d.name text?, number := ← number.defaulted d.number text?,
             context := ← context.defaulted d.context text?,
             continues := ← continues.defaulted d.continues bool?,
             order := ← order.defaulted d.order nat32?,
             enabled := ← enabled.defaulted d.enabled bool?,
             description := ← description.defaulted d.description text?,
             destination := ← destination.defaulted d.destination bool? }
  | _ => none

/-- The settings of a folder are an object that names a file of applications only where there is
    one. -/
def ofProject (p : Project) : Json :=
  .obj ([("indent", .str p.indent)] ++
    (match p.applicationsFile with
      | none => []
      | some file => [("applicationsFile", .str file)]) ++
    [("autocompleteLimit", .nat p.autocompleteLimit), ("reconcileDebounceMs", .nat p.quietMillis),
      ("defaultContext", .str p.defaultContext), ("defaultOrder", .nat p.defaultOrder)])

/-- The settings of a folder in a value. What is not given is as in the standard ones; a file of
    applications that is `null` is none. -/
def project? (j : Json) : Option Project := do
  let d := Project.standard
  match ← columns? [["indent"], ["applicationsFile"], ["autocompleteLimit"],
      ["reconcileDebounceMs"], ["defaultContext"], ["defaultOrder"]] j with
  | [indent, file, limit, quiet, context, order] =>
    return { indent := ← indent.defaulted d.indent text?,
             applicationsFile := ← file.defaulted none fun v => (Cell.given v).optional text?,
             autocompleteLimit := ← limit.defaulted d.autocompleteLimit nat64?,
             quietMillis := ← quiet.defaulted d.quietMillis nat64?,
             defaultContext := ← context.defaulted d.defaultContext text?,
             defaultOrder := ← order.defaulted d.defaultOrder nat32? }
  | _ => none

end Dialplan.Exchange
