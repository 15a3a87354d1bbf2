import Dialplan.Exchange.Node
import Dialplan.Finding
/-!
# Findings in JSON

A place is an object with one name that says what is counted, the path of a node or a byte offset.
-/

namespace Dialplan.Exchange

open Dialplan.Json

/-- A severity is its word, with a capital. -/
def ofSeverity : Severity → Json
  | .error => .str "Error"
  | .warning => .str "Warning"
  | .info => .str "Info"

/-- The severity with such a word. -/
def severity? (j : Json) : Option Severity :=
  match word? j with
  | some "Error" => some .error
  | some "Warning" => some .warning
  | some "Info" => some .info
  | _ => none

/-- A place is an object with one member, the path under `node` or the bytes under `offset`. -/
def ofPlace : Place → Json
  | .node path => .obj [("node", ofPath path)]
  | .offset bytes => .obj [("offset", .nat bytes)]

/-- The place in an object with one of these members and no other. -/
def place? : Json → Option Place
  | .obj [("node", j)] => (path? j).map .node
  | .obj [("offset", j)] => (nat64? j).map .offset
  | _ => none

/-- A finding is an object of five members; where nothing is suggested the suggestion is `null`. -/
def ofFinding (f : Finding) : Json :=
  .obj [("level", ofSeverity f.severity), ("rule", .str f.rule), ("message", .str f.message),
    ("location", ofPlace f.place), ("suggestion", option .str f.suggestion)]

/-- The finding in a value; only the suggestion may be missing. -/
def finding? (j : Json) : Option Finding := do
  match ← columns? [["level"], ["rule"], ["message"], ["location"], ["suggestion"]] j with
  | [level, rule, message, place, suggestion] =>
    return ⟨← level.required severity?, ← rule.required text?, ← message.required text?,
      ← place.required place?, ← suggestion.optional text?⟩
  | _ => none

end Dialplan.Exchange
