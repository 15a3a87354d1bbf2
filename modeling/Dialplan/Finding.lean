import Dialplan.Path
/-!
# Findings

What a check of a rule set or of its markup reports: how grave it is, which rule says so, in which
words, where, and what might be done about it.
-/

namespace Dialplan

/-- How grave a finding is. -/
inductive Severity where
  | error
  | warning
  | info
deriving DecidableEq, Repr

/-- The word for a severity, as it stands in a line. -/
def Severity.text : Severity → String
  | .error => "error"
  | .warning => "warning"
  | .info => "info"

/-- Where a finding applies: at a node of the tree, or at a byte of the markup. -/
inductive Place where
  | node (path : Path)
  | offset (bytes : Nat)
deriving DecidableEq, Repr

/-- A place in words. -/
def Place.text : Place → String
  | .node p => "node " ++ p.text
  | .offset n => "offset " ++ toString n

/-- One finding. -/
structure Finding where
  severity : Severity
  rule : String
  message : String
  place : Place
  suggestion : Option String
deriving DecidableEq, Repr

/-- A finding as one line. -/
def Finding.text (f : Finding) : String :=
  f.severity.text ++ "[" ++ f.rule ++ "] " ++ f.message ++ " (" ++ f.place.text ++ ")"

/-- Whether a finding is an error. -/
def Finding.isError (f : Finding) : Bool := f.severity = .error

end Dialplan
