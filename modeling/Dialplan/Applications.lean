import Dialplan.Hazard
import Dialplan.Text.Lowercase
/-!
# Lists that inputs are completed from

Two lists feed the inputs of the visual editor: the applications that the switch reports, and the
variables that a condition may look at.

* `Applications.ofShown`: the names in the switch's own listing;
* `Applications.standing`: whether a name is empty, known or unknown;
* `Applications.suggest`, `Fields.suggest`: the entries that contain a text.
-/

namespace Dialplan

open Dialplan.Text

/-! ## 1. Lines -/

/-- The lines of a text, cut at line feeds; a line end with carriage return and line feed is one
    break, and a break at the very end begins no further line. -/
def linesOfText : List Char → List (List Char)
  | [] => []
  | '\n' :: rest => [] :: linesOfText rest
  | '\r' :: '\n' :: rest => [] :: linesOfText rest
  | c :: rest =>
    match rest, linesOfText rest with
    | [], _ => [[c]]
    | _, line :: lines => (c :: line) :: lines
    | _, [] => [[c]]

/-- What stands before the first pair of line feeds. -/
def firstBlock : List Char → List Char
  | '\n' :: '\n' :: _ => []
  | c :: rest => c :: firstBlock rest
  | [] => []

/-! ## 2. Applications -/

/-- How the name of an application stands to the list. -/
inductive Standing where
  | empty
  | known
  | unknown
deriving DecidableEq, Repr

/-- The word that stands beside the input. -/
def Standing.text : Standing → String
  | .empty => "empty"
  | .known => "known"
  | .unknown => "unknown"

/-- The names that the switch reports, in its order. -/
structure Applications where
  names : List String
deriving DecidableEq, Repr

namespace Applications

/-- No names. -/
def none : Applications := ⟨[]⟩

/-- Whether there are no names. -/
def isEmpty (a : Applications) : Bool := a.names.isEmpty

/-- Whether a name of the listing is offered: not the heading, not one that starts processes, not
    one in brackets. -/
def offered (name : String) : Bool :=
  name ≠ "name" && !Hazard.names.contains name && !name.contains '['

/-- The offered names among the names of rows, without a row that repeats the one before it. -/
def ofRows (previous : Option String) : List String → List String
  | [] => []
  | name :: rest =>
    let others := ofRows (some name) rest
    if offered name && previous ≠ some name then name :: others else others

/-- The names in the switch's listing: the first column of the rows of its first block. -/
def ofShown (output : String) : Applications :=
  let rows := (linesOfText (firstBlock output.toList)).filter fun row => !row.isEmpty
  ⟨ofRows Option.none (rows.map fun row => String.ofList (row.takeWhile (· ≠ ',')))⟩

/-- How a name stands to the list; case counts only outside the letters `A` to `Z`. -/
def standing (a : Applications) (application : String) : Standing :=
  let application := trimmed application
  if application.isEmpty then .empty
  else if a.names.any fun name => sameIgnoringCase name application then .known
  else .unknown

/-- The first `limit` names that contain a text, without regard to case. -/
def suggest (a : Applications) (filter : String) (limit : Nat) : List String :=
  (a.names.filter fun name =>
    occursIn (lowercase filter).toList (lowercase name).toList).take limit

end Applications

/-! ## 3. Fields -/

/-- A variable that a condition may look at, with the words for it. -/
structure FieldEntry where
  value : String
  label : String
deriving DecidableEq, Repr

namespace Fields

/-- The variables with words of their own. -/
def worded : List FieldEntry :=
  [⟨"ani", "ANI"⟩, ⟨"ani2", "ANI2"⟩, ⟨"caller_id_name", "Caller ID Name"⟩,
    ⟨"caller_id_number", "Caller ID Number"⟩, ⟨"chan_name", "Channel Name"⟩,
    ⟨"context", "Context"⟩, ⟨"destination_number", "Destination Number"⟩,
    ⟨"dialplan", "Dialplan"⟩, ⟨"network_addr", "Network Address"⟩, ⟨"rdnis", "RDNIS"⟩,
    ⟨"source", "Source"⟩, ⟨"username", "Username"⟩, ⟨"uuid", "UUID"⟩]

/-- The names of the expansions that are offered as they are. -/
def expansions : List String :=
  ["call_direction", "number_alias", "sip_contact_host", "sip_contact_uri", "sip_contact_user",
    "sip_h_Diversion", "sip_from_host", "sip_from_uri", "sip_from_user", "sip_to_uri",
    "sip_to_user", "toll_allow"]

/-- The variables that are offered. -/
def builtin : List FieldEntry :=
  worded ++ expansions.map fun name =>
    let written := "$\x7b" ++ name ++ "\x7d"
    ⟨written, written⟩

/-- The first `limit` entries whose value or words contain a text, without regard to case. -/
def suggest (entries : List FieldEntry) (filter : String) (limit : Nat) : List FieldEntry :=
  let piece := (lowercase filter).toList
  (entries.filter fun e =>
    occursIn piece (lowercase e.value).toList ||
      occursIn piece (lowercase e.label).toList).take limit

end Fields

end Dialplan
