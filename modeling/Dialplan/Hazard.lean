import Dialplan.Finding
import Dialplan.Text.Width
/-!
# Applications that start processes

Some applications start a process on the host, and a rule set must not name them. The scan works on
the markup itself, so text that is no rule set is covered too. It reports

* a name between quotes with a `>` further on in its line, as an attribute has it; what lies between
  the name and the last `>` of the line is not looked at again;
* a name right after `{`, as an expansion has it.

Letters are compared without regard to case; the long s counts as an s.
-/

namespace Dialplan.Hazard

open Dialplan.Text

/-- The names, in the order in which they are tried. -/
def names : List String := ["system", "bgsystem", "bg_spawn", "spawn", "spawn_stream"]

/-! ## 1. Names without regard to case -/

/-- Whether `c` is the lower-case letter or mark `l` but for its case. -/
def matchesChar (l c : Char) : Bool := c.toLower = l || (l = 's' && c = 'ſ')

/-- The stretch that spells a name, and what follows it. -/
def spelled? : List Char → List Char → Option (List Char × List Char)
  | [], cs => some ([], cs)
  | _ :: _, [] => none
  | l :: name, c :: cs =>
    if matchesChar l c then (spelled? name cs).map fun (shown, rest) => (c :: shown, rest) else none

/-! ## 2. What starts at a place -/

/-- A hit: the stretch that spells the name, and all that the hit takes. -/
structure Hit where
  shown : List Char
  taken : List Char

/-- Whether a character is a quote of either sort. -/
def isQuote (c : Char) : Bool := c = '"' || c = '\''

/-- The stretch through the last `>` of the line. -/
def throughLastClose? : List Char → Option (List Char)
  | [] => none
  | c :: rest =>
    if c = '\n' then none
    else match throughLastClose? rest with
      | some taken => some (c :: taken)
      | none => if c = '>' then some [c] else none

/-- A hit of a quoted name at the start of a text. -/
def quotedAt? : List Char → Option Hit
  | [] => none
  | q :: rest =>
    if isQuote q then
      names.findSome? fun name =>
        match spelled? name.toList rest with
        | some (shown, q' :: after) =>
          if isQuote q' then (throughLastClose? after).map fun t => ⟨shown, q :: shown ++ q' :: t⟩
          else none
        | _ => none
    else none

/-- A hit of a name after a brace at the start of a text. -/
def bracedAt? : List Char → Option Hit
  | [] => none
  | c :: rest =>
    if c = '\x7b' then
      names.findSome? fun name =>
        (spelled? name.toList rest).map fun (shown, _) => ⟨shown, c :: shown⟩
    else none

/-! ## 3. The scan -/

/-- The hits from a place on, each with its byte offset; a hit is searched for where the last one
    ends. -/
def hits (hitAt? : List Char → Option Hit) (pos : Nat) (cs : List Char) : List (Nat × Hit) :=
  match cs with
  | [] => []
  | c :: rest =>
    match hitAt? cs with
    | some h =>
      (pos, h) :: hits hitAt? (pos + width h.taken) (rest.drop (h.taken.length - 1))
    | none => hits hitAt? (pos + c.utf8Size) rest
termination_by cs.length

/-- A hit as a finding. -/
def finding (hit : Nat × Hit) : Finding :=
  ⟨.error, "dangerous-application",
    "'" ++ String.ofList hit.2.shown ++ "' is not allowed in a dialplan", .offset hit.1,
    some "Remove the application or run it from a script outside the dialplan"⟩

/-- **All hits of both sorts, in the order of the text.** -/
def scan (markup : String) : List Finding :=
  let cs := markup.toList
  ((hits quotedAt? 0 cs).merge (hits bracedAt? 0 cs) fun a b => a.1 ≤ b.1).map finding

end Dialplan.Hazard
