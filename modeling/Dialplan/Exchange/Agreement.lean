import Dialplan.Json.Shape
import Dialplan.Reconcile
/-!
# The agreement of tree and text in JSON

The word stands under `state`, the message of an error under `message`. Beside another word the
message may be missing or `null`.
-/

namespace Dialplan.Exchange

open Dialplan.Json

/-- An agreement is an object with its word; only an error has a message beside it. -/
def ofAgreement : Agreement → Json
  | .synced => .obj [("state", .str "synced")]
  | .stale => .obj [("state", .str "stale")]
  | .error m => .obj [("state", .str "error"), ("message", .str m)]

/-- Whether a message is missing or `null`. -/
def noMessage : Cell → Bool
  | .absent | .given .null => true
  | _ => false

/-- The agreement with a word and a message. -/
def agreementOf? (word : String) (message : Cell) : Option Agreement :=
  match word with
  | "error" => (message.required text?).map .error
  | "synced" => if noMessage message then some .synced else none
  | "stale" => if noMessage message then some .stale else none
  | _ => none

/-- The agreement in a value; the word must be given. -/
def agreement? (j : Json) : Option Agreement := do
  match ← columns? [["state"], ["message"]] j with
  | [state, message] => agreementOf? (← state.required word?) message
  | _ => none

end Dialplan.Exchange
