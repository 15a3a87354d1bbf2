import Dialplan.Applications
import Dialplan.Json.Reader
import Dialplan.Json.Shape
/-!
# Lists for completion in JSON

The applications are a list of texts, the variables a list of records of a value and the words for
it. A file of applications may hold the switch's own listing instead.
-/

namespace Dialplan.Exchange

open Dialplan.Json

/-- Applications are the list of their names. -/
def ofApplications (a : Applications) : Json := list .str a.names

/-- The applications in a list of texts, in its order. -/
def applications? (j : Json) : Option Applications := (list? text? j).map Applications.mk

/-- The applications in a text: a list in JSON, or else the switch's own listing. -/
def applicationsIn (text : String) : Applications :=
  ((read? text).bind applications?).getD (.ofShown text)

/-- A variable is an object with its value and the words for it. -/
def ofFieldEntry (e : FieldEntry) : Json := .obj [("value", .str e.value), ("label", .str e.label)]

/-- The variable in a value; both columns must be given. -/
def fieldEntry? (j : Json) : Option FieldEntry := do
  match ← columns? [["value"], ["label"]] j with
  | [value, label] => return ⟨← value.required text?, ← label.required text?⟩
  | _ => none

end Dialplan.Exchange
