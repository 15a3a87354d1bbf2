import Dialplan.Drag
import Dialplan.Exchange.Node
/-!
# Drags in JSON

What the pointer is over is a choice between three records; its word stands under `target`. Nothing
but the word counts in the record for the outside.
-/

namespace Dialplan.Exchange

open Dialplan.Json

/-! ## 1. What the pointer is over -/

/-- The target with a word, from its other columns. -/
def hoveredOf? (word : String) (columns : Json) : Option Hovered := do
  match word with
  | "node" =>
    match ← columns? [["id"], ["height"], ["offsetY"]] columns with
    | [id, height, offset] =>
      return .node (← id.required id?) (← height.required float?) (← offset.required float?)
    | _ => none
  | "childZone" =>
    match ← columns? [["container"]] columns with
    | [branch] => return .childArea (← branch.required id?)
    | _ => none
  | "outside" => (columns? [] columns).map fun _ => .outside
  | _ => none

/-- What the pointer is over, in a value all of whose numbers are in range. -/
def hovered? (j : Json) : Option Hovered := do
  if !j.inRange then none
  let (word, columns) ← tagged? "target" j
  hoveredOf? (← text? word) columns

/-! ## 2. Indicators and grips -/

/-- A zone is its word. -/
def ofZone (z : Zone) : Json := .str z.text

/-- The zone with a word. -/
def zone? (j : Json) : Option Zone := (word? j).bind Zone.ofText?

/-- An indicator is an object with the number of its target and with the zone. -/
def ofIndicator (i : Indicator) : Json := .obj [("target", ofId i.target), ("zone", ofZone i.zone)]

/-- The indicator in a value; both columns must be given. -/
def indicator? (j : Json) : Option Indicator := do
  match ← columns? [["target"], ["zone"]] j with
  | [target, zone] => return ⟨← target.required id?, ← zone.required zone?⟩
  | _ => none

/-- A grip is an object with the node that is dragged, its kind, and where it was picked up. -/
def ofGrip (g : Grip) : Json :=
  .obj [("node", ofId g.node), ("kind", ofKind g.kind), ("parent", ofId g.parent),
    ("index", .nat g.index)]

/-- The grip in a value; all four columns must be given. -/
def grip? (j : Json) : Option Grip := do
  match ← columns? [["node"], ["kind"], ["parent"], ["index"]] j with
  | [node, kind, parent, index] =>
    return ⟨← node.required id?, ← kind.required kind?, ← parent.required id?,
      ← index.required nat64?⟩
  | _ => none

end Dialplan.Exchange
