import Dialplan.Edit
import Dialplan.Exchange.Node
/-!
# Edits in JSON

An edit is a choice between five records; its word stands under `type`. The destination of a move is
a choice between two records; its word stands under `at`.
-/

namespace Dialplan.Exchange

open Dialplan.Json

/-! ## 1. Destinations -/

/-- A destination is an object with its word, the branch that the node goes to and, where there is
    one, the index. -/
def ofDestination : Destination → Json
  | .index parent index =>
    .obj [("at", .str "index"), ("parent", ofId parent), ("index", .nat index)]
  | .lastChild parent => .obj [("at", .str "lastChild"), ("parent", ofId parent)]

/-- The words of destinations, in their order. -/
def destinationWords : List String := ["index", "lastChild"]

/-- The destination with a word, from its other columns. -/
def destinationOf? (word : String) (columns : Json) : Option Destination := do
  match word with
  | "index" =>
    match ← columns? [["parent"], ["index"]] columns with
    | [parent, index] => return .index (← parent.required id?) (← index.required nat64?)
    | _ => none
  | "lastChild" =>
    match ← columns? [["parent"]] columns with
    | [parent] => return .lastChild (← parent.required id?)
    | _ => none
  | _ => none

/-- The destination of a move inside an edit. -/
def innerDestination? (j : Json) : Option Destination := do
  let (word, columns) ← tagged? "at" j
  destinationOf? (← wordOrPlace? destinationWords word) columns

/-- The destination that a value stands for by itself. Its word is written out; only inside an edit
    may its place in the order stand for it. -/
def destination? (j : Json) : Option Destination := do
  if !j.inRange then none
  let (word, columns) ← tagged? "at" j
  destinationOf? (← text? word) columns

/-! ## 2. Edits -/

/-- An edit is an object with its word and all that it is about. A new child that goes to the end
    has `null` as its position. -/
def ofEdit : Edit → Json
  | .addChild parent kind position =>
    .obj [("type", .str "addChild"), ("parent", ofId parent), ("kind", ofKind kind),
      ("position", option .nat position)]
  | .removeChild parent index =>
    .obj [("type", .str "removeChild"), ("parent", ofId parent), ("index", .nat index)]
  | .moveNode node fromParent fromIndex destination =>
    .obj [("type", .str "moveNode"), ("node", ofId node), ("fromParent", ofId fromParent),
      ("fromIndex", .nat fromIndex), ("destination", ofDestination destination)]
  | .setEnabled node flag =>
    .obj [("type", .str "setEnabled"), ("node", ofId node), ("enabled", .bool flag)]
  | .setAttribute node key value =>
    .obj [("type", .str "setAttribute"), ("node", ofId node), ("key", .str key),
      ("value", .str value)]

/-- A kind inside an edit. -/
def innerKind? (j : Json) : Option Kind := (innerWord? j).bind Kind.ofText?

/-- The edit with a word, from its other columns. -/
def editOf? (word : String) (columns : Json) : Option Edit := do
  match word with
  | "addChild" =>
    match ← columns? [["parent"], ["kind"], ["position"]] columns with
    | [parent, kind, position] =>
      return .addChild (← parent.required id?) (← kind.required innerKind?)
        (← position.optional nat64?)
    | _ => none
  | "removeChild" =>
    match ← columns? [["parent"], ["index"]] columns with
    | [parent, index] => return .removeChild (← parent.required id?) (← index.required nat64?)
    | _ => none
  | "moveNode" =>
    match ← columns? [["node"], ["fromParent"], ["fromIndex"], ["destination"]] columns with
    | [node, fromParent, fromIndex, destination] =>
      return .moveNode (← node.required id?) (← fromParent.required id?)
        (← fromIndex.required nat64?) (← destination.required innerDestination?)
    | _ => none
  | "setEnabled" =>
    match ← columns? [["node"], ["enabled"]] columns with
    | [node, flag] => return .setEnabled (← node.required id?) (← flag.required bool?)
    | _ => none
  | "setAttribute" =>
    match ← columns? [["node"], ["key"], ["value"]] columns with
    | [node, key, value] =>
      return .setAttribute (← node.required id?) (← key.required text?) (← value.required text?)
    | _ => none
  | _ => none

/-- The edit in a value all of whose numbers are in range. -/
def edit? (j : Json) : Option Edit := do
  if !j.inRange then none
  let (word, columns) ← tagged? "type" j
  editOf? (← text? word) columns

end Dialplan.Exchange
