/-!
# Settings

Three records of settings, each with a value of its own for every entry that is not given: how one
session works, what is kept beside the markup of one rule set, and what a folder of rule sets has in
common.
-/

namespace Dialplan

/-- How a session works. -/
structure Preferences where
  /-- What one level of the printed form is indented by. -/
  indent : String
  /-- How many entries a suggestion has at most. -/
  autocompleteLimit : Nat
  /-- How long the text has to rest before it is read, in milliseconds. -/
  quietMillis : Nat
deriving DecidableEq, Repr

/-- How a session works that was told nothing else. -/
def Preferences.standard : Preferences := ⟨"\t", 20, 300⟩

instance : Inhabited Preferences := ⟨.standard⟩

/-- What is kept beside the markup of a rule set. Name and continue flag are those of the root. -/
structure Metadata where
  name : String
  number : String
  context : String
  continues : Bool
  order : Nat
  enabled : Bool
  description : String
  destination : Bool
deriving DecidableEq, Repr

/-- What a new rule set starts with. -/
def Metadata.standard : Metadata :=
  { name := "", number := "", context := "$\x7bdomain_name\x7d", continues := false, order := 200,
    enabled := true, description := "", destination := false }

instance : Inhabited Metadata := ⟨.standard⟩

/-- What a folder of rule sets has in common. -/
structure Project where
  indent : String
  /-- The file with the list of applications. -/
  applicationsFile : Option String
  autocompleteLimit : Nat
  quietMillis : Nat
  defaultContext : String
  defaultOrder : Nat
deriving DecidableEq, Repr

namespace Project

/-- The settings of a folder that has none of its own. -/
def standard : Project :=
  { indent := Preferences.standard.indent, applicationsFile := none,
    autocompleteLimit := Preferences.standard.autocompleteLimit,
    quietMillis := Preferences.standard.quietMillis, defaultContext := Metadata.standard.context,
    defaultOrder := Metadata.standard.order }

instance : Inhabited Project := ⟨.standard⟩

/-- How sessions in this folder work. -/
def preferences (p : Project) : Preferences := ⟨p.indent, p.autocompleteLimit, p.quietMillis⟩

/-- What a new rule set in this folder starts with. -/
def metadata (p : Project) : Metadata :=
  { Metadata.standard with context := p.defaultContext, order := p.defaultOrder }

end Project

end Dialplan
