import Dialplan.DetailRow
import Dialplan.Json.Shape
import Dialplan.Text.Lowercase
/-!
# Detail rows in JSON

A row is a record of eight columns, each of which also goes by a longer name. Only the tag must be
given. The enabled flag is a truth value or one of two words, and is on where it is missing or
empty.
-/

namespace Dialplan.Exchange

open Dialplan.Json Dialplan.Text

/-- A row is an object of the eight columns under their short names. -/
def ofRow (r : DetailRow) : Json :=
  .obj [("group", .int r.group), ("order", .int r.order), ("tag", .str r.tag),
    ("type", .str r.type), ("data", .str r.data), ("break", .str r.breakMode),
    ("inline", .str r.inlineMode), ("enabled", .bool r.enabled)]

/-- The two names of a column. -/
def rowColumn (name : String) : List String := [name, "dialplan_detail_" ++ name]

/-- The enabled flag of a row. -/
def rowFlag? : Json → Option Bool
  | .null => some true
  | .bool b => some b
  | .str s =>
    let word := asciiLower (trimmed s)
    if word = "" || word = "true" then some true
    else if word = "false" then some false
    else none
  | _ => none

/-- The row in a value. -/
def row? (j : Json) : Option DetailRow := do
  match ← columns? (["group", "order", "tag", "type", "data", "break", "inline", "enabled"].map
      rowColumn) j with
  | [group, order, tag, type, data, breakMode, inlineMode, enabled] =>
    return ⟨← group.defaulted 0 int64?, ← order.defaulted 0 int64?, ← tag.required text?,
      ← type.defaulted "" text?, ← data.defaulted "" text?, ← breakMode.defaulted "" text?,
      ← inlineMode.defaulted "" text?, ← enabled.defaulted true rowFlag?⟩
  | _ => none

end Dialplan.Exchange
