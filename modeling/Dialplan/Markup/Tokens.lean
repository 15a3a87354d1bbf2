import Dialplan.Markup.Fault
/-!
# The tokens of a text

`scan` cuts a whole text into tokens and drops the layout between them. Every token carries the
bytes it takes; a stretch that is neither layout nor a token is a fault at its first byte.
-/

namespace Dialplan.Markup

open Dialplan.Text

/-- The tokens of `cs`, which starts at byte `pos` of its text. -/
def scanFrom (pos : Nat) (cs : List Char) : Except Fault (List (Located Token)) :=
  match _h : next cs with
  | .nothing => .ok []
  | .broken fragment => .error (.unrecognized pos (String.ofList fragment))
  | .layout taken rest => scanFrom (pos + width taken) rest
  | .token t taken rest =>
    match scanFrom (pos + width taken) rest with
    | .error e => .error e
    | .ok ts => .ok (⟨t, pos, pos + width taken⟩ :: ts)
termination_by cs.length
decreasing_by
  all_goals
    obtain ⟨h1, h2⟩ : cs = taken ++ rest ∧ taken ≠ [] := by
      have := next_splits cs
      rw [_h] at this
      exact this
    have := List.length_pos_iff.mpr h2
    rw [h1, List.length_append]
    omega

/-- The tokens of a text. -/
def scan (text : String) : Except Fault (List (Located Token)) := scanFrom 0 text.toList

end Dialplan.Markup
