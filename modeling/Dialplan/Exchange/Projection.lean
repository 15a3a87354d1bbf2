import Dialplan.Exchange.Node
import Dialplan.Projection
/-!
# What is shown, in JSON

The rows go to a visual editor in this form and never come back.
-/

namespace Dialplan.Exchange

open Dialplan.Json

/-- The columns that say how a value is put in. -/
def ofInput : Input → List (String × Json)
  | .text => [("input", .str "text")]
  | .fieldName => [("input", .str "fieldAutocomplete")]
  | .application standing =>
    [("input", .str "applicationAutocomplete"), ("status", .str standing.text)]
  | .choice options => [("input", .str "select"), ("options", list .str options)]

/-- A field is an object with its key, label and value, and with how the value is put in. -/
def ofField (f : Field) : Json :=
  .obj ([("key", .str f.key), ("label", .str f.label), ("value", .str f.value)] ++ ofInput f.input)

/-- A row is an object with the place of its node, what is shown of it, and which children may be
    put in. -/
def ofShownRow (r : Row) : Json :=
  .obj [("id", ofId r.id), ("path", ofPath r.path), ("depth", .nat r.depth),
    ("parent", ofId r.parent), ("index", .nat r.index), ("kind", ofKind r.kind),
    ("displayType", .str r.kind.text), ("badge", .str r.kind.badge), ("enabled", .bool r.enabled),
    ("fields", list ofField r.fields), ("addButtons", list ofKind r.buttons),
    ("childDropZone", .bool r.childArea)]

/-- A projection is an object with what is shown of the root, and with the rows in their order. -/
def ofProjection (p : Projection) : Json :=
  .obj [("generation", .nat p.generation), ("rootId", ofId p.rootId),
    ("rootName", .str p.rootName), ("rootAddButtons", list ofKind p.rootButtons),
    ("rows", list ofShownRow p.rows)]

end Dialplan.Exchange
